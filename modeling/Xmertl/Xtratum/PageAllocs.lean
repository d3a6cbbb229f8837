import Mathlib.Data.List.ReduceOption
import Xmertl.Xtratum.Load

/-!
# What the allocations of a load do to the page tables

Each takes frames and gives none back (`Extends`), adds mappings where there were none
(`Grows`), and comes to an end where the page allocator gives free frames (`Sound`). With as
many of them as it needs, a page that is not mapped gets one.
-/

namespace Xmertl.Xtratum

-- ---------------------------------------------------------------------------
-- Ranges of pages
-- ---------------------------------------------------------------------------

theorem pagesFrom_succ (start n : Nat) :
    pagesFrom start (n + 1) = start :: pagesFrom (start + 0x1000) n := by
  rw [pagesFrom, pagesFrom, List.range_succ_eq_map, List.map_cons, List.map_map]
  refine congrArg₂ List.cons (by omega) (List.map_congr_left fun i _ => ?_)
  simp only [Function.comp_apply]
  omega

theorem mem_pagesFrom {v start n : Nat} :
    v ∈ pagesFrom start n ↔ ∃ i, i < n ∧ start + i * 0x1000 = v := by
  simp [pagesFrom]

theorem pagesFrom_length (start n : Nat) : (pagesFrom start n).length = n := by simp [pagesFrom]

namespace Mm

-- ---------------------------------------------------------------------------
-- Frames are taken, and none given back
-- ---------------------------------------------------------------------------

structure Extends (x y : Mm) : Prop where
  pd : y.pd = x.pd
  foreign : y.foreign = x.foreign
  pool : x.pool <:+ y.pool

section
variable {x y z : Mm} {v : Nat} {r : Option Nat}

theorem Extends.refl (x : Mm) : Extends x x := ⟨rfl, rfl, List.suffix_rfl⟩

theorem Extends.trans (h : Extends x y) (h' : Extends y z) : Extends x z :=
  ⟨h'.pd.trans h.pd, h'.foreign.trans h.foreign, h.pool.trans h'.pool⟩

theorem Extends.fill (h : Extends x y) (table k : Nat) (e : Entry) :
    Extends x (y.fill table k e) := ⟨h.pd, h.foreign, h.pool⟩

theorem allocPage_extends (h : x.allocPage = some (y, r)) : Extends x y := by
  rcases allocPage_cases h with ⟨answers, rfl, -⟩ | ⟨f, answers, -, -, rfl, -⟩
  · exact ⟨rfl, rfl, List.suffix_rfl⟩
  · exact ⟨rfl, rfl, List.suffix_cons _ _⟩

def NoPage (x : Mm) : Prop := x.answers.head?.join = none

theorem allocPage_none (h : x.allocPage = some (y, none)) : x.NoPage := by
  rw [allocPage.eq_def] at h
  split at h
  · rename_i hanswers
    simp [NoPage, hanswers]
  · rename_i hanswers
    simp [NoPage, hanswers]
  · split at h
    · cases h
    · cases (Prod.mk.inj (Option.some.inj h)).2

theorem allocPage_some {f : Nat} (h : x.allocPage = some (y, some f)) : ¬x.NoPage := by
  rw [allocPage.eq_def] at h
  split at h
  · cases (Prod.mk.inj (Option.some.inj h)).2
  · cases (Prod.mk.inj (Option.some.inj h)).2
  · rename_i hanswers
    simp [NoPage, hanswers]

theorem getTable_extends {i : Nat} {flags : BitVec 12} (h : x.getTable i flags = some (y, r)) :
    Extends x y := by
  rw [getTable] at h
  split at h
  · obtain ⟨rfl, -⟩ := Prod.mk.inj (Option.some.inj h)
    exact .refl x
  obtain ⟨⟨z, pt⟩, halloc, h⟩ := Option.bind_eq_some_iff.mp h
  have hz := allocPage_extends halloc
  cases pt with
  | none =>
    obtain ⟨rfl, -⟩ := Prod.mk.inj (Option.some.inj h)
    exact hz
  | some pt =>
    obtain ⟨rfl, -⟩ := Prod.mk.inj (Option.some.inj h)
    exact hz.fill _ _ _

theorem allocateUserPage_extends (h : x.allocateUserPage v = some (y, r)) : Extends x y := by
  rw [allocateUserPage] at h
  split at h
  · obtain ⟨rfl, -⟩ := Prod.mk.inj (Option.some.inj h)
    exact .refl x
  obtain ⟨⟨z, pt⟩, htable, h⟩ := Option.bind_eq_some_iff.mp h
  have hz := getTable_extends htable
  cases pt with
  | none =>
    obtain ⟨rfl, -⟩ := Prod.mk.inj (Option.some.inj h)
    exact hz
  | some pt =>
    dsimp only at h
    split at h
    · obtain ⟨rfl, -⟩ := Prod.mk.inj (Option.some.inj h)
      exact hz
    obtain ⟨⟨w, page⟩, halloc, h⟩ := Option.bind_eq_some_iff.mp h
    have hw := hz.trans (allocPage_extends halloc)
    cases page with
    | none =>
      obtain ⟨rfl, -⟩ := Prod.mk.inj (Option.some.inj h)
      exact hw
    | some page =>
      obtain ⟨rfl, -⟩ := Prod.mk.inj (Option.some.inj h)
      exact hw.fill _ _ _

theorem serialMapPage_map (x : Mm) (addr vaddr : Nat) :
    (x.serialMapPage addr vaddr).map Prod.fst = (x.xmMapPage addr vaddr).map Prod.fst := by
  rw [serialMapPage, xmMapPage, mapPage]
  split
  · rfl
  simp only [Option.bind_eq_bind, Option.map_bind]
  refine congrArg _ (funext fun r => ?_)
  obtain ⟨y, pt⟩ := r
  cases pt with
  | none => rfl
  | some pt =>
    simp only [Function.comp_apply]
    split <;> rfl

theorem xmMapPage_extends {addr r : Nat} (h : x.xmMapPage addr v = some (y, r)) :
    Extends x y := by
  rw [xmMapPage, mapPage] at h
  split at h
  · cases h
  obtain ⟨⟨z, pt⟩, htable, h⟩ := Option.bind_eq_some_iff.mp h
  have hz := getTable_extends htable
  cases pt with
  | none =>
    obtain ⟨rfl, -⟩ := Prod.mk.inj (Option.some.inj h)
    exact hz
  | some pt =>
    dsimp only at h
    split at h
    · obtain ⟨rfl, -⟩ := Prod.mk.inj (Option.some.inj h)
      exact hz
    · obtain ⟨rfl, -⟩ := Prod.mk.inj (Option.some.inj h)
      exact hz.fill _ _ _

theorem eventsLoop_extends {n : Nat} (h : x.eventsLoop n = some (y, r)) : Extends x y := by
  induction n generalizing x with
  | zero =>
    obtain ⟨rfl, -⟩ := Prod.mk.inj (Option.some.inj h)
    exact .refl x
  | succ n ih =>
    rw [eventsLoop] at h
    split at h
    · cases h
    · rename_i z page halloc
      obtain ⟨rfl, -⟩ := Prod.mk.inj (Option.some.inj h)
      exact allocateUserPage_extends halloc
    · rename_i z halloc
      exact (allocateUserPage_extends halloc).trans (ih h)

theorem allocUserRangeLoop_extends {addrs : List Nat} {r : Int}
    (h : x.allocUserRangeLoop addrs = some (y, r)) : Extends x y := by
  induction addrs generalizing x with
  | nil =>
    obtain ⟨rfl, -⟩ := Prod.mk.inj (Option.some.inj h)
    exact .refl x
  | cons addr addrs ih =>
    obtain ⟨⟨z, page⟩, hpage, h⟩ := Option.bind_eq_some_iff.mp h
    have hz := allocateUserPage_extends hpage
    dsimp only at h
    split at h
    · obtain ⟨rfl, -⟩ := Prod.mk.inj (Option.some.inj h)
      exact hz
    · exact hz.trans (ih h)

theorem allocFreeUserRange_extends {vsize r : Nat}
    (h : x.allocFreeUserRange v vsize = some (y, r)) : Extends x y := by
  rw [allocFreeUserRange] at h
  split at h
  · obtain ⟨rfl, -⟩ := Prod.mk.inj (Option.some.inj h)
    exact .refl x
  · obtain ⟨⟨z, r'⟩, hrange, h⟩ := Option.map_eq_some_iff.mp h
    obtain ⟨rfl, -⟩ := Prod.mk.inj h
    exact allocUserRangeLoop_extends hrange

theorem fifoMap_rel {R : Mm → Mm → Prop} {dev : RtFifo} {vaddr : Nat} {ret : Int}
    (hrefl : ∀ x, R x x) (htrans : ∀ x y z, R x y → R y z → R x z)
    (hmap : ∀ x y addr v r, v < vaddr + 0x11000 → x.xmMapPage addr v = some (y, r) → R x y)
    (h : x.fifoMap dev vaddr = some (y, ret)) : R x y := by
  have hcalls : ∀ calls : List MmCall, (∀ a ∈ calls, ∀ x y, x.step a = some y → R x y) →
      ∀ x, calls.foldlM Mm.step x = some y → R x y := by
    intro calls
    induction calls with
    | nil =>
      intro _ x h
      obtain rfl := Option.some.inj h
      exact hrefl x
    | cons a calls ih =>
      intro hstep x h
      obtain ⟨z, hz, h⟩ := Option.bind_eq_some_iff.mp h
      refine htrans x z y (hstep a List.mem_cons_self x z hz) ?_
      exact ih (fun b hb => hstep b (List.mem_cons_of_mem _ hb)) z h
  rw [fifoMap] at h
  split at h
  · obtain ⟨rfl, -⟩ := Prod.mk.inj (Option.some.inj h)
    exact hrefl x
  rename_i haligned
  obtain ⟨z, hfold, h⟩ := Option.map_eq_some_iff.mp h
  obtain ⟨rfl, -⟩ := Prod.mk.inj h
  refine hcalls _ (fun a ha x y hstep => ?_) x hfold
  rw [rtFifoXmMap, if_neg haligned] at ha
  obtain ⟨⟨addr, i⟩, hi, rfl⟩ := List.mem_map.mp ha
  obtain ⟨⟨w, r⟩, hr, rfl⟩ := Option.map_eq_some_iff.mp hstep
  have hlt : i < 17 := by
    have hbound := List.snd_lt_of_mem_zipIdx hi
    have hcount : xmFifoCount.toNat = 16 := rfl
    simpa [hcount] using hbound
  exact hmap x w addr _ r (by omega) hr

theorem serialMap_rel {D : Type} {R : Mm → Mm → Prop} {is : List Nat}
    {s s' : Nat → SerialPages D} {nvaddr : Nat} {ret : Int}
    (hrefl : ∀ x, R x x) (htrans : ∀ x y z, R x y → R y z → R x z)
    (hmap : ∀ x y addr v r, v < nvaddr + is.length * 0x2000 → x.xmMapPage addr v = some (y, r) →
      R x y)
    (h : x.serialMap nvaddr s is = some (y, s', ret)) : R x y := by
  have hone : ∀ x y addr v ret, v < nvaddr + is.length * 0x2000 →
      x.serialMapPage addr v = some (y, ret) → R x y := by
    intro x y addr v ret hv h
    have hfst := serialMapPage_map x addr v
    rw [h] at hfst
    obtain ⟨⟨z, r⟩, hz, rfl⟩ := Option.map_eq_some_iff.mp hfst.symm
    exact hmap x z addr v r hv hz
  induction is generalizing x s nvaddr with
  | nil =>
    obtain ⟨rfl, -⟩ := Prod.mk.inj (Option.some.inj h)
    exact hrefl x
  | cons i is ih =>
    rw [List.length_cons] at hmap hone
    obtain ⟨⟨z, r⟩, hz, h⟩ := Option.bind_eq_some_iff.mp h
    have hxz := hone x z _ nvaddr r (by omega) hz
    dsimp only at h
    split at h
    · obtain ⟨rfl, -⟩ := Prod.mk.inj (Option.some.inj h)
      exact hxz
    obtain ⟨⟨w, r'⟩, hw, h⟩ := Option.bind_eq_some_iff.mp h
    have hxw := htrans x z w hxz (hone z w _ _ r' (by omega) hw)
    dsimp only at h
    split at h
    · obtain ⟨rfl, -⟩ := Prod.mk.inj (Option.some.inj h)
      exact hxw
    · refine htrans x w y hxw (ih (fun x y addr v r hv => hmap x y addr v r (by omega)) h ?_)
      exact fun x y addr v r hv => hone x y addr v r (by omega)

end

-- ---------------------------------------------------------------------------
-- Mappings are added
-- ---------------------------------------------------------------------------

/-- Pages of `V` may have been mapped. -/
structure Grows (V : Nat → Prop) (x y : Mm) : Prop extends Extends x y where
  built : Built y
  mapping : ∀ v, v < pageOffset →
    y.mapping v = x.mapping v ∨ (x.mapping v).present = false ∧ V (v / 0x1000)

section
variable {V V' : Nat → Prop} {x y z : Mm} {v w : Nat} {r : Option Nat}

theorem same_page : va2pd v = va2pd w ∧ va2pt v = va2pt w ↔ v / 0x1000 = w / 0x1000 := by
  unfold va2pd va2pt
  omega

theorem mapping_page (h : v / 0x1000 = w / 0x1000) : x.mapping v = x.mapping w := by
  obtain ⟨hpd, hpt⟩ := same_page.mpr h
  rw [mapping, mapping, hpd, hpt]

theorem Grows.refl (hx : Built x) : Grows V x x := ⟨.refl x, hx, fun _ _ => .inl rfl⟩

theorem Grows.mono (h : Grows V x y) (hV : ∀ p, V p → V' p) : Grows V' x y :=
  ⟨h.toExtends, h.built, fun v hv => (h.mapping v hv).imp_right fun h => ⟨h.1, hV _ h.2⟩⟩

theorem Grows.trans (h : Grows V x y) (h' : Grows V y z) : Grows V x z := by
  refine ⟨h.toExtends.trans h'.toExtends, h'.built, fun v hv => ?_⟩
  rcases h.mapping v hv with he | hnew
  · rcases h'.mapping v hv with he' | hnew'
    · exact .inl (he'.trans he)
    · rw [he] at hnew'
      exact .inr hnew'
  · exact .inr hnew

theorem Grows.present (h : Grows V x y) (hv : v < pageOffset)
    (hp : (x.mapping v).present = true) : y.mapping v = x.mapping v := by
  refine (h.mapping v hv).resolve_right fun hnew => ?_
  rw [hp] at hnew
  exact absurd hnew.1 (by simp)

theorem Grows.other (h : Grows V x y) (hv : v < pageOffset) (hV : ¬V (v / 0x1000)) :
    y.mapping v = x.mapping v :=
  (h.mapping v hv).resolve_right fun hnew => hV hnew.2

theorem getTable_mapping (hx : Built x) {i : Nat} {flags : BitVec 12}
    (h : x.getTable i flags = some (y, r)) (hv : v < pageOffset) : y.mapping v = x.mapping v := by
  have hi' : va2pd v < userTables := va2pd_lt hv
  rw [getTable] at h
  split at h
  · obtain ⟨rfl, -⟩ := Prod.mk.inj (Option.some.inj h)
    rfl
  rename_i ht
  obtain ⟨⟨z, pt⟩, halloc, h⟩ := Option.bind_eq_some_iff.mp h
  rcases allocPage_cases halloc with ⟨answers, rfl, rfl⟩ | ⟨f, answers, hf, -, rfl, rfl⟩
  · obtain ⟨rfl, -⟩ := Prod.mk.inj (Option.some.inj h)
    rfl
  obtain ⟨rfl, -⟩ := Prod.mk.inj (Option.some.inj h)
  have hne : f ≠ (x.taken f answers).pd := fun h => hf (h ▸ hx.own.given .dir x.pd rfl)
  have hempty : ∀ n, (x.taken f answers).mem f n = {} := fun n => by simp [taken]
  have hentry : ((x.taken f answers).fill (x.taken f answers).pd i ⟨f, flags⟩).entry (va2pd v)
      (va2pt v) = if va2pd v = i then {} else (x.taken f answers).entry (va2pd v) (va2pt v) :=
    fillDir_entry (taken_apart hx hf) (fun _ => ⟨hne, hempty⟩) hi'
  rw [mapping, mapping, hentry]
  split
  · rename_i hvi
    rw [hvi, entry_absent (Bool.not_eq_true _ ▸ ht)]
  · exact taken_entry hx hf hi'

theorem allocateUserPage_grows (hx : Built x) (h : x.allocateUserPage v = some (y, r)) :
    Grows (· = v / 0x1000) x y ∧ ∀ f, r = some f → v < pageOffset ∧ f ∉ x.pool ∧ f ∈ y.pool ∧
      (x.mapping v).present = false ∧
        y.mapping v = ⟨f, pagePresent ||| pageRw ||| pageUser⟩ := by
  have hext := allocateUserPage_extends h
  have hbuilt : Built y := hx.allocateUserPage h
  rw [allocateUserPage] at h
  split at h
  · obtain ⟨rfl, rfl⟩ := Prod.mk.inj (Option.some.inj h)
    exact ⟨.refl hx, by simp⟩
  rename_i hv
  have hv : v < pageOffset := Nat.not_le.mp hv
  have hi : va2pd v < userTables := va2pd_lt hv
  obtain ⟨⟨z, pt⟩, htable, h⟩ := Option.bind_eq_some_iff.mp h
  obtain ⟨hz, -, hpt⟩ := hx.getTable hi present_user htable
  have hmap : ∀ {w : Nat}, w < pageOffset → z.mapping w = x.mapping w := fun hw =>
    getTable_mapping hx htable hw
  cases pt with
  | none =>
    obtain ⟨rfl, rfl⟩ := Prod.mk.inj (Option.some.inj h)
    exact ⟨⟨hext, hbuilt, fun w hw => .inl (hmap hw)⟩, by simp⟩
  | some pt =>
    obtain ⟨ht, rfl⟩ := hpt pt rfl
    dsimp only at h
    split at h
    · obtain ⟨rfl, rfl⟩ := Prod.mk.inj (Option.some.inj h)
      exact ⟨⟨hext, hbuilt, fun w hw => .inl (hmap hw)⟩, by simp⟩
    rename_i habsent
    have habsent : (x.mapping v).present = false := by
      rw [← hmap hv, mapping, entry_present ht]
      exact Bool.not_eq_true _ ▸ habsent
    obtain ⟨⟨z', page⟩, halloc, h⟩ := Option.bind_eq_some_iff.mp h
    rcases allocPage_cases halloc with ⟨answers, rfl, rfl⟩ | ⟨f, answers, hf, -, rfl, rfl⟩
    · obtain ⟨rfl, rfl⟩ := Prod.mk.inj (Option.some.inj h)
      exact ⟨⟨hext, hbuilt, fun w hw => .inl (hmap hw)⟩, by simp⟩
    obtain ⟨rfl, rfl⟩ := Prod.mk.inj (Option.some.inj h)
    have hdir : (z.taken f answers).mem (z.taken f answers).pd (va2pd v) = z.mem z.pd (va2pd v) :=
      taken_dir hz hf _
    have ht' : ((z.taken f answers).mem (z.taken f answers).pd (va2pd v)).present = true := by
      rw [hdir, ht]
    have hentry : ∀ {w : Nat}, w < pageOffset →
        ((z.taken f answers).fill (z.mem z.pd (va2pd v)).frame (va2pt v)
          ⟨f, pagePresent ||| pageRw ||| pageUser⟩).mapping w =
        if va2pd w = va2pd v ∧ va2pt w = va2pt v then ⟨f, pagePresent ||| pageRw ||| pageUser⟩
        else x.mapping w := by
      intro w hw
      rw [mapping, ← hdir, fillPage_entry (taken_apart hz hf) hi ht' (va2pd_lt hw),
        taken_entry hz hf (va2pd_lt hw), ← hmap hw]
      rfl
    refine ⟨⟨hext, hbuilt, fun w hw => ?_⟩, ?_⟩
    · rw [hentry hw]
      split
      · rename_i hsame
        rw [mapping_page (same_page.mp hsame)]
        exact .inr ⟨habsent, same_page.mp hsame⟩
      · exact .inl rfl
    · intro g hg
      obtain rfl := Option.some.inj hg
      have hpool : f ∉ x.pool := fun hmem => hf ((getTable_extends htable).pool.subset hmem)
      exact ⟨hv, hpool, List.mem_cons_self, habsent, by rw [hentry hv, if_pos ⟨rfl, rfl⟩]⟩

theorem xmMapPage_grows (hx : Built x) {addr ret : Nat} (hv : v < pageOffset)
    (h : x.xmMapPage addr v = some (y, ret)) : Grows (· = v / 0x1000) x y := by
  have hpd : ∀ f, (⟨f, nflag &&& ~~~pageUnused1⟩ : Entry).present = true := fun f => by
    rw [present_mk]
    decide
  have hext := xmMapPage_extends h
  have hbuilt : Built y := hx.mapPage hv hpd nflag_marked h
  have hi : va2pd v < userTables := va2pd_lt hv
  rw [xmMapPage, mapPage] at h
  split at h
  · cases h
  obtain ⟨⟨z, pt⟩, htable, h⟩ := Option.bind_eq_some_iff.mp h
  obtain ⟨hz, -, hpt⟩ := hx.getTable hi hpd htable
  have hmap : ∀ {w : Nat}, w < pageOffset → z.mapping w = x.mapping w := fun hw =>
    getTable_mapping hx htable hw
  cases pt with
  | none =>
    obtain ⟨rfl, -⟩ := Prod.mk.inj (Option.some.inj h)
    exact ⟨hext, hbuilt, fun w hw => .inl (hmap hw)⟩
  | some pt =>
    obtain ⟨ht, rfl⟩ := hpt pt rfl
    dsimp only at h
    split at h
    · obtain ⟨rfl, -⟩ := Prod.mk.inj (Option.some.inj h)
      exact ⟨hext, hbuilt, fun w hw => .inl (hmap hw)⟩
    rename_i habsent
    obtain ⟨rfl, -⟩ := Prod.mk.inj (Option.some.inj h)
    refine ⟨hext, hbuilt, fun w hw => ?_⟩
    rw [mapping, fillPage_entry hz.apart hi ht (va2pd_lt hw)]
    split
    · rename_i hsame
      refine .inr ⟨?_, same_page.mp hsame⟩
      rw [← hmap hw, mapping, hsame.1, hsame.2, entry_present ht]
      exact Bool.not_eq_true _ ▸ habsent
    · exact .inl (hmap hw)

end

section
variable {x y : Mm} {v : Nat} {r : Option Nat}

theorem eventsLoop_grows (hx : Built x) {n : Nat} (h : x.eventsLoop n = some (y, r)) :
    Grows (fun _ => True) x y := by
  induction n generalizing x with
  | zero =>
    obtain ⟨rfl, -⟩ := Prod.mk.inj (Option.some.inj h)
    exact .refl hx
  | succ n ih =>
    rw [eventsLoop] at h
    split at h
    · cases h
    · rename_i z page halloc
      obtain ⟨rfl, -⟩ := Prod.mk.inj (Option.some.inj h)
      exact (allocateUserPage_grows hx halloc).1.mono fun _ _ => trivial
    · rename_i z halloc
      have hz := (allocateUserPage_grows hx halloc).1
      exact (hz.mono fun _ _ => trivial).trans (ih hz.built h)

theorem allocUserRangeLoop_grows (hx : Built x) {addrs : List Nat} {ret : Int}
    (h : x.allocUserRangeLoop addrs = some (y, ret)) : Grows (fun _ => True) x y := by
  induction addrs generalizing x with
  | nil =>
    obtain ⟨rfl, -⟩ := Prod.mk.inj (Option.some.inj h)
    exact .refl hx
  | cons addr addrs ih =>
    obtain ⟨⟨z, page⟩, hpage, h⟩ := Option.bind_eq_some_iff.mp h
    have hz := (allocateUserPage_grows hx hpage).1
    dsimp only at h
    split at h
    · obtain ⟨rfl, -⟩ := Prod.mk.inj (Option.some.inj h)
      exact hz.mono fun _ _ => trivial
    · exact (hz.mono fun _ _ => trivial).trans (ih hz.built h)

theorem allocFreeUserRange_grows (hx : Built x) {vsize ret : Nat}
    (h : x.allocFreeUserRange v vsize = some (y, ret)) : Grows (fun _ => True) x y := by
  rw [allocFreeUserRange] at h
  split at h
  · obtain ⟨rfl, -⟩ := Prod.mk.inj (Option.some.inj h)
    exact .refl hx
  · obtain ⟨⟨z, r'⟩, hrange, h⟩ := Option.map_eq_some_iff.mp h
    obtain ⟨rfl, -⟩ := Prod.mk.inj h
    exact allocUserRangeLoop_grows hx hrange

theorem grows_of_maps {b : Nat} (hb : b ≤ pageOffset) (x y : Mm) (addr v ret : Nat) (hv : v < b)
    (h : x.xmMapPage addr v = some (y, ret)) (hx : Built x) : Grows (fun _ => True) x y :=
  (xmMapPage_grows hx (Nat.lt_of_lt_of_le hv hb) h).mono fun _ _ => trivial

theorem fifoMap_grows (hx : Built x) {dev : RtFifo} {ret : Int}
    (h : x.fifoMap dev defaultFifoAddr = some (y, ret)) : Grows (fun _ => True) x y :=
  fifoMap_rel (R := fun x y => Built x → Grows (fun _ => True) x y) (fun _ => Grows.refl)
    (fun _ _ _ h h' hx => (h hx).trans (h' (h hx).built)) (grows_of_maps (by decide)) h hx

theorem serialMap_grows (hx : Built x) {D : Type} {s s' : Nat → SerialPages D} {ret : Int}
    (h : x.serialMap defaultSerialAddr s (List.range xmSerialCount) = some (y, s', ret)) :
    Grows (fun _ => True) x y :=
  serialMap_rel (R := fun x y => Built x → Grows (fun _ => True) x y) (fun _ => Grows.refl)
    (fun _ _ _ h h' hx => (h hx).trans (h' (h hx).built)) (grows_of_maps (by decide)) h hx

end

-- ---------------------------------------------------------------------------
-- Where the page allocator has free frames
-- ---------------------------------------------------------------------------

/-- What the page allocator will give is free, and given once. -/
structure Sound (x : Mm) : Prop where
  once : x.answers.reduceOption.Nodup
  free : ∀ f ∈ x.answers.reduceOption, f ∉ x.pool ∧ x.foreign f = false

def supply (x : Mm) : Nat := (x.answers.takeWhile Option.isSome).length

/-- The tables of `T` that are still to be made. -/
def missing (x : Mm) (T : Finset Nat) : Nat :=
  (T.filter fun i => (x.mem x.pd i).present = false).card

section
variable {x y : Mm} {v n i : Nat} {T : Finset Nat} {flags : BitVec 12}

theorem allocPage_comes (hs : Sound x) : ∃ y r, x.allocPage = some (y, r) ∧ Sound y := by
  cases hanswers : x.answers with
  | nil => exact ⟨x, none, by rw [allocPage.eq_def, hanswers], hs⟩
  | cons a answers =>
    have honce := hs.once
    have hfree := hs.free
    rw [hanswers] at honce hfree
    cases a with
    | none =>
      rw [List.reduceOption_cons_of_none] at honce hfree
      exact ⟨{ x with answers }, none, by rw [allocPage.eq_def, hanswers], honce, hfree⟩
    | some f =>
      rw [List.reduceOption_cons_of_some] at honce hfree
      obtain ⟨hf, honce⟩ := List.nodup_cons.mp honce
      have hgiven := hfree f List.mem_cons_self
      have hnot : ¬(f ∈ x.pool ∨ x.foreign f = true) := by simp [hgiven.1, hgiven.2]
      refine ⟨x.taken f answers, some f, ?_, honce, fun g hg => ?_⟩
      · rw [allocPage.eq_def, hanswers]
        simp only [if_neg hnot]
        rfl
      · have hrest := hfree g (List.mem_cons_of_mem _ hg)
        refine ⟨fun hmem => ?_, hrest.2⟩
        rcases List.mem_cons.mp hmem with rfl | hmem
        · exact hf hg
        · exact hrest.1 hmem

theorem allocPage_supplied (hs : Sound x) (hn : n + 1 ≤ supply x) :
    ∃ f answers, f ∉ x.pool ∧ x.foreign f = false ∧
      x.allocPage = some (x.taken f answers, some f) ∧ Sound (x.taken f answers) ∧
        n ≤ supply (x.taken f answers) := by
  obtain ⟨y, r, halloc, hy⟩ := allocPage_comes hs
  have halloc' := halloc
  rw [allocPage.eq_def] at halloc'
  split at halloc'
  · rename_i hanswers
    simp [supply, hanswers] at hn
  · rename_i hanswers
    simp [supply, hanswers] at hn
  · rename_i f answers hanswers
    split at halloc'
    · cases halloc'
    rename_i hnot
    obtain ⟨rfl, rfl⟩ := Prod.mk.inj (Option.some.inj halloc')
    obtain ⟨hpool, hforeign⟩ := not_or.mp hnot
    refine ⟨f, answers, hpool, Bool.not_eq_true _ ▸ hforeign, halloc, hy, ?_⟩
    simp only [supply, hanswers, List.takeWhile_cons_of_pos, Option.isSome_some,
      List.length_cons] at hn
    exact Nat.le_of_succ_le_succ hn

theorem getTable_comes (hs : Sound x) (i : Nat) (flags : BitVec 12) : ∃ y r, x.getTable i flags = some (y, r) ∧ Sound y := by
  rw [getTable]
  split
  · exact ⟨x, _, rfl, hs⟩
  · obtain ⟨y, r, halloc, hy⟩ := allocPage_comes hs
    rw [halloc]
    cases r with
    | none => exact ⟨y, none, rfl, hy⟩
    | some pt => exact ⟨_, _, rfl, hy.once, hy.free⟩

theorem allocateUserPage_comes (hs : Sound x) :
    ∃ y r, x.allocateUserPage v = some (y, r) ∧ Sound y := by
  rw [allocateUserPage]
  split
  · exact ⟨x, none, rfl, hs⟩
  obtain ⟨z, pt, htable, hz⟩ := getTable_comes hs (va2pd v)
    (pagePresent ||| pageRw ||| pageUser)
  rw [htable]
  cases pt with
  | none => exact ⟨z, none, rfl, hz⟩
  | some pt =>
    simp only [Option.bind_eq_bind, Option.bind_some]
    split
    · exact ⟨z, none, rfl, hz⟩
    obtain ⟨w, page, halloc, hw⟩ := allocPage_comes hz
    rw [halloc]
    cases page with
    | none => exact ⟨w, none, rfl, hw⟩
    | some page => exact ⟨_, _, rfl, hw.once, hw.free⟩

theorem mapPage_comes (hs : Sound x) {pdFlags : BitVec 12} {addr : Nat}
    (hf : x.foreign addr = true) : ∃ y r, x.mapPage pdFlags flags v addr = some (y, r) ∧ Sound y := by
  rw [mapPage, if_neg (by simp [hf])]
  obtain ⟨z, pt, htable, hz⟩ := getTable_comes hs (va2pd v) pdFlags
  rw [htable]
  cases pt with
  | none => exact ⟨z, 0, rfl, hz⟩
  | some pt =>
    simp only [Option.bind_eq_bind, Option.bind_some]
    split
    · exact ⟨z, 0, rfl, hz⟩
    · exact ⟨_, _, rfl, hz.once, hz.free⟩

theorem xmMapPage_comes (hs : Sound x) {addr : Nat} (hf : x.foreign addr = true) :
    ∃ y r, x.xmMapPage addr v = some (y, r) ∧ Sound y := mapPage_comes hs hf

theorem missing_congr (h : ∀ i, y.mem y.pd i = x.mem x.pd i) : missing y T = missing x T := by
  simp only [missing, h]

theorem missing_fillDir {e : Entry} (hT : i ∈ T) (ht : (x.mem x.pd i).present = false)
    (he : e.present = true) : missing (x.fill x.pd i e) T < missing x T := by
  have hold : i ∈ T.filter fun i => (x.mem x.pd i).present = false :=
    Finset.mem_filter.mpr ⟨hT, ht⟩
  refine Finset.card_lt_card ((Finset.ssubset_iff_of_subset fun j hj => ?_).mpr ⟨i, hold, ?_⟩)
  · obtain ⟨hjT, hj⟩ := Finset.mem_filter.mp hj
    rw [fill_pd, fillDir_dir] at hj
    split at hj
    · exact absurd (he.symm.trans hj) (by simp)
    · exact Finset.mem_filter.mpr ⟨hjT, hj⟩
  · intro hi
    have hi := (Finset.mem_filter.mp hi).2
    rw [fill_pd, fillDir_dir, if_pos rfl, he] at hi
    cases hi

theorem getTable_supplied (hx : Built x) (hs : Sound x)
    (hflags : ∀ f, (⟨f, flags⟩ : Entry).present = true) (hT : i ∈ T)
    (hn : n + missing x T ≤ supply x) :
    ∃ y pt, x.getTable i flags = some (y, some pt) ∧ Sound y ∧ n + missing y T ≤ supply y := by
  rw [getTable]
  split
  · exact ⟨x, _, rfl, hs, hn⟩
  rename_i ht
  have ht : (x.mem x.pd i).present = false := Bool.not_eq_true _ ▸ ht
  have hpos : 0 < missing x T := Finset.card_pos.mpr ⟨i, Finset.mem_filter.mpr ⟨hT, ht⟩⟩
  obtain ⟨f, answers, hf, -, halloc, hs', hn'⟩ :=
    allocPage_supplied (n := n + missing x T - 1) hs (by omega)
  rw [halloc]
  refine ⟨_, f, rfl, ⟨hs'.once, hs'.free⟩, ?_⟩
  have hdir : (x.taken f answers).mem (x.taken f answers).pd i = x.mem x.pd i :=
    taken_dir hx hf i
  have hless := missing_fillDir hT (hdir ▸ ht) (hflags f)
  rw [missing_congr (x := x) (y := x.taken f answers) fun j => taken_dir hx hf j] at hless
  change n + missing ((x.taken f answers).fill (x.taken f answers).pd i ⟨f, flags⟩) T ≤
    supply (x.taken f answers)
  omega

/-- A page that is not mapped gets one, of the frames that it and the missing tables take. -/
theorem allocateUserPage_supplied (hx : Built x) (hs : Sound x) (hv : v < pageOffset)
    (habsent : (x.mapping v).present = false) (hT : va2pd v ∈ T)
    (hn : n + 1 + missing x T ≤ supply x) :
    ∃ y f, x.allocateUserPage v = some (y, some f) ∧ Sound y ∧ n + missing y T ≤ supply y := by
  have hi : va2pd v < userTables := va2pd_lt hv
  obtain ⟨z, pt, htable, hsz, hnz⟩ := getTable_supplied hx hs present_user hT hn
  obtain ⟨hz, -, hpt⟩ := hx.getTable hi present_user htable
  obtain ⟨ht, rfl⟩ := hpt pt rfl
  have habsent' : ¬(z.mem (z.mem z.pd (va2pd v)).frame (va2pt v)).present = true := by
    have hsame := getTable_mapping hx htable hv
    rw [mapping, entry_present ht] at hsame
    rw [hsame, habsent]
    exact Bool.false_ne_true
  obtain ⟨f, answers, hf, -, halloc, hs', hn'⟩ :=
    allocPage_supplied (n := n + missing z T) hsz (by omega)
  refine ⟨(z.taken f answers).fill (z.mem z.pd (va2pd v)).frame (va2pt v)
    ⟨f, pagePresent ||| pageRw ||| pageUser⟩, f, ?_, ⟨hs'.once, hs'.free⟩, ?_⟩
  · rw [allocateUserPage, if_neg (Nat.not_le.mpr hv), htable]
    simp only [Option.bind_eq_bind, Option.bind_some, if_neg habsent', halloc]
    rfl
  · have hdir : ∀ j, (z.taken f answers).mem (z.taken f answers).pd j = z.mem z.pd j :=
      fun j => taken_dir hz hf j
    have ht' : ((z.taken f answers).mem (z.taken f answers).pd (va2pd v)).present = true := by
      rw [hdir, ht]
    have hrow : missing ((z.taken f answers).fill (z.mem z.pd (va2pd v)).frame (va2pt v)
        ⟨f, pagePresent ||| pageRw ||| pageUser⟩) T = missing z T := by
      refine missing_congr fun j => ?_
      rw [← hdir (va2pd v), fill_pd, fillPage_dir (taken_apart hz hf) hi ht', hdir]
    rw [hrow]
    exact hn'

theorem eventsLoop_first {f : Nat}
    (h : x.allocateUserPage (pageOffset - (n + 1) * 0x1000) = some (y, some f)) :
    x.eventsLoop (n + 1) = some (y, some (pageOffset - (n + 1) * 0x1000)) := by
  rw [eventsLoop]
  simp only [h]

theorem allocUserRangeLoop_supplied {start k : Nat} (hx : Built x) (hs : Sound x)
    (hend : start + k * 0x1000 ≤ pageOffset)
    (habsent : ∀ v ∈ pagesFrom start k, (x.mapping v).present = false ∧ va2pd v ∈ T)
    (hn : n + k + missing x T ≤ supply x) :
    ∃ y, x.allocUserRangeLoop (pagesFrom start k) = some (y, 0) ∧ Sound y ∧
      n + missing y T ≤ supply y := by
  induction k generalizing start x with
  | zero => exact ⟨x, rfl, hs, hn⟩
  | succ k ih =>
    rw [pagesFrom_succ] at habsent ⊢
    obtain ⟨hfirst, hT⟩ := habsent start List.mem_cons_self
    obtain ⟨y, f, halloc, hy, hny⟩ :=
      allocateUserPage_supplied (n := n + k) hx hs (by omega) hfirst hT (by omega)
    obtain ⟨hgrows, -⟩ := allocateUserPage_grows hx halloc
    have hrest : ∀ v ∈ pagesFrom (start + 0x1000) k,
        (y.mapping v).present = false ∧ va2pd v ∈ T := by
      intro v hv
      obtain ⟨hv0, hvT⟩ := habsent v (List.mem_cons_of_mem _ hv)
      obtain ⟨i, hi, rfl⟩ := mem_pagesFrom.mp hv
      rw [hgrows.other (by omega) (by omega)]
      exact ⟨hv0, hvT⟩
    obtain ⟨z, hloop, hz, hnz⟩ := ih hgrows.built hy (by omega) hrest hny
    refine ⟨z, ?_, hz, hnz⟩
    rw [allocUserRangeLoop, halloc]
    exact hloop

theorem freeRangeLoop_free {addr k last nvaddr vsize : Nat} (hlast : last = addr + k * 0x1000)
    (hend : last ≤ pageOffset) (habsent : ∀ v ∈ pagesFrom addr k, (x.mapping v).present = false)
    (hn : k ≤ n) : x.freeRangeLoop vsize n addr last nvaddr = (last, nvaddr) := by
  induction k generalizing addr n with
  | zero =>
    have hstop : ¬(addr < last ∧ addr < pageOffset) := by omega
    cases n with
    | zero => rw [freeRangeLoop, hlast, Nat.zero_mul, Nat.add_zero]
    | succ n => rw [freeRangeLoop, if_neg hstop, hlast, Nat.zero_mul, Nat.add_zero]
  | succ k ih =>
    rw [pagesFrom_succ] at habsent
    obtain ⟨n, rfl⟩ := Nat.exists_eq_succ_of_ne_zero (Nat.ne_of_gt (Nat.zero_lt_of_lt hn))
    have hgo : addr < last ∧ addr < pageOffset := by omega
    rw [freeRangeLoop, if_pos hgo, habsent addr List.mem_cons_self]
    exact ih (by omega) (fun v hv => habsent v (List.mem_cons_of_mem _ hv))
      (Nat.le_of_succ_le_succ hn)

/-- The pages of the heap, where the events page is in its place. -/
def heapPages : List Nat := pagesFrom (defaultEventAddr + 0x4000) 768

theorem heap_supplied (hx : Built x) (hs : Sound x)
    (habsent : ∀ v ∈ heapPages, (x.mapping v).present = false ∧ va2pd v ∈ T)
    (hn : n + heapPages.length + missing x T ≤ supply x) :
    ∃ y, x.allocFreeUserRange (defaultEventAddr + 0x1000 * 4) defaultHeapSize =
      some (y, defaultEventAddr + 0x4000) ∧ Sound y ∧ n + missing y T ≤ supply y := by
  have hpages : pagesOf (defaultEventAddr + 0x4000) defaultHeapSize = heapPages := rfl
  rw [heapPages, pagesFrom_length] at hn
  obtain ⟨y, hloop, hy, hny⟩ := allocUserRangeLoop_supplied hx hs (by decide) habsent hn
  refine ⟨y, ?_, hy, hny⟩
  have hfound : x.freeRangeLoop defaultHeapSize (pageOffset / 0x1000) (defaultEventAddr + 0x4000)
      (defaultEventAddr + 0x4000 + 768 * 0x1000) (defaultEventAddr + 0x4000) =
      (defaultEventAddr + 0x4000 + 768 * 0x1000, defaultEventAddr + 0x4000) :=
    freeRangeLoop_free rfl (by decide) (fun v hv => (habsent v hv).1) (by decide)
  have hrange : x.allocUserRange (defaultEventAddr + 0x4000) defaultHeapSize = some (y, 0) := hloop
  have hstart : (defaultEventAddr + 0x1000 * 4) / 0x1000 * 0x1000 = defaultEventAddr + 0x4000 := rfl
  have hlast : pageEnd (defaultEventAddr + 0x1000 * 4) defaultHeapSize =
      defaultEventAddr + 0x4000 + 768 * 0x1000 := rfl
  rw [allocFreeUserRange, hstart, hlast]
  simp only [hfound]
  rw [if_neg (by decide), hrange]
  rfl

theorem fifoMap_comes {dev : RtFifo} {vaddr : Nat} (hs : Sound x) (haligned : vaddr % 0x1000 = 0)
    (hf : x.foreign dev.fpage = true ∧ ∀ i < xmFifoCount.toNat, x.foreign (dev.fpages i) = true) :
    ∃ y, x.fifoMap dev vaddr = some (y, 0) ∧ Sound y := by
  have hcalls : ∀ calls : List MmCall, ∀ x : Mm,
      (∀ a ∈ calls, ∃ addr v, a = .xmMapPage addr v ∧ x.foreign addr = true) → Sound x →
        ∃ y, calls.foldlM Mm.step x = some y ∧ Sound y := by
    intro calls
    induction calls with
    | nil => exact fun x _ hs => ⟨x, rfl, hs⟩
    | cons a calls ih =>
      intro x ha hs
      obtain ⟨addr, v, rfl, haddr⟩ := ha a List.mem_cons_self
      obtain ⟨z, r, hmap, hz⟩ := xmMapPage_comes (v := v) hs haddr
      have hforeign := (xmMapPage_extends hmap).foreign
      obtain ⟨y, hfold, hy⟩ := ih z (fun b hb => by
        rw [hforeign]
        exact ha b (List.mem_cons_of_mem _ hb)) hz
      refine ⟨y, ?_, hy⟩
      rw [List.foldlM_cons, step, hmap]
      exact hfold
  have haligned : ¬vaddr % 0x1000 ≠ 0 := not_not.mpr haligned
  have hmaps : ∀ a ∈ rtFifoXmMap dev.fpage ((List.range xmFifoCount.toNat).map dev.fpages) vaddr,
      ∃ addr v, a = .xmMapPage addr v ∧ x.foreign addr = true := by
    intro a ha
    rw [rtFifoXmMap, if_neg haligned] at ha
    obtain ⟨⟨addr, i⟩, hi, rfl⟩ := List.mem_map.mp ha
    refine ⟨addr, _, rfl, ?_⟩
    rcases List.mem_cons.mp (List.fst_mem_of_mem_zipIdx hi) with rfl | hmem
    · exact hf.1
    · obtain ⟨j, hj, rfl⟩ := List.mem_map.mp hmem
      exact hf.2 j (List.mem_range.mp hj)
  obtain ⟨y, hfold, hy⟩ := hcalls _ x hmaps hs
  exact ⟨y, by simp only [fifoMap, if_neg haligned, hfold, Option.map_some], hy⟩

theorem serialMap_comes {D : Type} {is : List Nat} {s : Nat → SerialPages D} {nvaddr : Nat}
    (hs : Sound x) (hnodup : is.Nodup)
    (hf : ∀ i ∈ is, x.foreign (s i).inSerf = true ∧ x.foreign (s i).outSerf = true) :
    ∃ y s' ret, x.serialMap nvaddr s is = some (y, s', ret) := by
  have hone : ∀ x : Mm, Sound x → ∀ addr v, x.foreign addr = true →
      ∃ y ret, x.serialMapPage addr v = some (y, ret) ∧ Sound y ∧ y.foreign = x.foreign := by
    intro x hs addr v haddr
    obtain ⟨y, r, hmap, hy⟩ := xmMapPage_comes (v := v) hs haddr
    have hfst := serialMapPage_map x addr v
    rw [hmap] at hfst
    obtain ⟨⟨z, ret⟩, hz, rfl⟩ := Option.map_eq_some_iff.mp hfst
    exact ⟨z, ret, hz, hy, (xmMapPage_extends hmap).foreign⟩
  induction is generalizing x s nvaddr with
  | nil => exact ⟨x, s, 0, rfl⟩
  | cons i is ih =>
    obtain ⟨hi, hnodup⟩ := List.nodup_cons.mp hnodup
    obtain ⟨hin, hout⟩ := hf i List.mem_cons_self
    obtain ⟨z, r, hz, hsz, hforeign⟩ := hone x hs _ nvaddr hin
    rw [serialMap, hz]
    simp only [Option.bind_eq_bind, Option.bind_some]
    split
    · exact ⟨z, s, r, rfl⟩
    obtain ⟨w, r', hw, hsw, hforeign'⟩ :=
      hone z hsz (s i).outSerf (nvaddr + 0x1000) (by rw [hforeign, hout])
    rw [hw]
    simp only [Option.bind_some]
    split
    · exact ⟨w, s, r', rfl⟩
    refine ih hsw hnodup fun j hj => ?_
    have hji : j ≠ i := fun h => hi (h ▸ hj)
    rw [Function.update_of_ne hji, hforeign', hforeign]
    exact hf j (List.mem_cons_of_mem _ hj)

end

end Mm

end Xmertl.Xtratum
