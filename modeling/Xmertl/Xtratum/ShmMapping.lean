import Xmertl.Xtratum.FreeRange

/-!
# Mapping shared memory and taking it back

`xm_shm_map` maps page after page, with a new table where one is missing, and does not look
at what `kmem_page_map` returns. `xm_shm_unmap` clears the entries of the range and then
gives back the table of its first page, if that is empty: whether the map has made it, and
whether the range has other tables, it does not know.
-/

namespace Xmertl.Xtratum

def rangePage (vaddr i : Nat) : Nat := vaddr / 0x1000 * 0x1000 + i * 0x1000

namespace Mm

/-- There is a table for the page at `v`. -/
def table (x : Mm) (v : Nat) : Bool := (x.mem x.pd (va2pd v)).present

/-- What `xm_shm_unmap` looks for at its end. -/
def tableEmpty (x : Mm) (pdEntry : Nat) : Bool :=
  (List.range 1024).all fun n => x.mem (x.mem x.pd pdEntry).frame n = {}

/-- The directory and all of the domain's tables are the same. -/
structure SameTables (x y : Mm) : Prop where
  pd : y.pd = x.pd
  dir : ∀ i, y.mem y.pd i = x.mem x.pd i
  mapping : ∀ v, v < pageOffset → y.mapping v = x.mapping v

/-- From `x` a map has led to `y` and its unmapping to `z`: the tables are as they were, and
the frames that the map took, all tables, have been given back. -/
structure Restored (x y z : Mm) : Prop extends SameTables x z where
  pool : z.pool = x.pool
  freed : ∃ tables, y.pool = tables ++ x.pool ∧ z.freed = tables ++ x.freed

def MapsRange (x y : Mm) (vaddr size : Nat) : Prop :=
  ∀ i, i < shmPages vaddr size →
    x.used (rangePage vaddr i) = false ∧ y.used (rangePage vaddr i) = true

instance (x y : Mm) (vaddr size : Nat) : Decidable (MapsRange x y vaddr size) :=
  inferInstanceAs (Decidable (∀ i, i < shmPages vaddr size → _))

def Reversible (x : Mm) (vaddr size : Nat) (kladdr : Nat → Nat) : Prop :=
  ∃ y, (xmShmMap vaddr size kladdr).foldlM step x = some y ∧
    (MapsRange x y vaddr size →
      ∃ z, (xmShmUnmap vaddr size).foldlM step y = some z ∧ Restored x y z) ∧
    (¬MapsRange x y vaddr size → SameTables x y)

-- ---------------------------------------------------------------------------
-- One page
-- ---------------------------------------------------------------------------

def shmEntry (kladdr : Nat) : Entry := ⟨kladdr, nflag⟩

/-- `y` is `x` with an entry for the page at `v`. -/
structure Filled (x y : Mm) (v : Nat) (e : Entry) : Prop where
  pd : y.pd = x.pd
  foreign : y.foreign = x.foreign
  freed : y.freed = x.freed
  mapping : ∀ w, w < pageOffset →
    y.mapping w = if w / 0x1000 = v / 0x1000 then e else x.mapping w

/-- What `kmem_page_map` does. -/
inductive PageMap (x : Mm) (v : Nat) (e : Entry) : Mm → Prop
  | used : x.used v = true → PageMap x v e x
  | noTable : x.table v = false → x.NoPage →
      PageMap x v e { x with answers := x.answers.tail }
  | filled {y : Mm} : x.table v = true → x.used v = false → Filled x y v e →
      (∀ i, y.mem y.pd i = x.mem x.pd i) → y.pool = x.pool → y.answers = x.answers →
        PageMap x v e y
  | made {y : Mm} {f : Nat} : x.table v = false → x.answers.head? = some (some f) → f ∉ x.pool →
      Filled x y v e →
      (∀ i, y.mem y.pd i = if i = va2pd v then ⟨f, nflag ||| pagePresent⟩ else x.mem x.pd i) →
        y.pool = f :: x.pool → PageMap x v e y

section
variable {x y z : Mm} {v vaddr size i n a : Nat}

theorem used_absent (ht : x.table v = false) : x.used v = false := by
  rw [used, mapping, entry_absent ht]
  rfl

theorem present_dir (f : Nat) : (⟨f, nflag ||| pagePresent⟩ : Entry).present = true := by
  rw [present_mk]
  decide

theorem fillPage_mapping (hx : Built x) (hv : v < pageOffset) (ht : x.table v = true) (e : Entry)
    {w : Nat} (hw : w < pageOffset) :
    (x.fill (x.mem x.pd (va2pd v)).frame (va2pt v) e).mapping w =
      if w / 0x1000 = v / 0x1000 then e else x.mapping w := by
  rw [mapping, fillPage_entry hx.apart (va2pd_lt hv) ht (va2pd_lt hw)]
  by_cases hp : w / 0x1000 = v / 0x1000
  · rw [if_pos (same_page.mpr hp), if_pos hp]
  · rw [if_neg (mt same_page.mp hp), if_neg hp]
    rfl

theorem allocPage_noPage {r : Option Nat} (h : x.allocPage = some (y, r)) :
    r = none ∧ x.NoPage ∧ y = { x with answers := x.answers.tail } ∨
      ∃ f, x.answers.head? = some (some f) ∧ f ∉ x.pool ∧ x.foreign f = false ∧
        y = x.taken f x.answers.tail ∧ r = some f := by
  rw [allocPage.eq_def] at h
  split at h
  · rename_i hanswers
    obtain ⟨rfl, rfl⟩ := Prod.mk.inj (Option.some.inj h)
    exact .inl ⟨rfl, by rw [NoPage, hanswers]; rfl, by rw [hanswers, List.tail_nil, ← hanswers]⟩
  · rename_i answers hanswers
    obtain ⟨rfl, rfl⟩ := Prod.mk.inj (Option.some.inj h)
    exact .inl ⟨rfl, by rw [NoPage, hanswers]; rfl, by rw [hanswers]; rfl⟩
  · rename_i f answers hanswers
    split at h
    · cases h
    · rename_i hfree
      obtain ⟨hpool, hforeign⟩ := not_or.mp hfree
      obtain ⟨rfl, rfl⟩ := Prod.mk.inj (Option.some.inj h)
      exact .inr ⟨f, by rw [hanswers]; rfl, hpool, Bool.not_eq_true _ ▸ hforeign,
        by rw [hanswers]; rfl, rfl⟩

theorem getTable_cases {flags : BitVec 12} {r : Option Nat}
    (h : x.getTable (va2pd v) flags = some (y, r)) :
    x.table v = true ∧ y = x ∧ r = some (x.mem x.pd (va2pd v)).frame ∨
      x.table v = false ∧ (x.NoPage ∧ y = { x with answers := x.answers.tail } ∧ r = none ∨
        ∃ f, x.answers.head? = some (some f) ∧ f ∉ x.pool ∧
          y = (x.taken f x.answers.tail).fill x.pd (va2pd v) ⟨f, flags⟩ ∧ r = some f) := by
  rw [getTable] at h
  split at h
  · rename_i ht
    obtain ⟨rfl, rfl⟩ := Prod.mk.inj (Option.some.inj h)
    exact .inl ⟨ht, rfl, rfl⟩
  · rename_i ht
    refine .inr ⟨Bool.not_eq_true _ ▸ ht, ?_⟩
    obtain ⟨⟨z, pt⟩, halloc, h⟩ := Option.bind_eq_some_iff.mp h
    rcases allocPage_noPage halloc with ⟨rfl, hno, rfl⟩ | ⟨f, hhead, hf, -, rfl, rfl⟩
    · obtain ⟨rfl, rfl⟩ := Prod.mk.inj (Option.some.inj h)
      exact .inl ⟨hno, rfl, rfl⟩
    · obtain ⟨rfl, rfl⟩ := Prod.mk.inj (Option.some.inj h)
      exact .inr ⟨f, hhead, hf, rfl, rfl⟩

theorem kmemPageMap_pageMap (hx : Built x) (hv : v < pageOffset) {r : Nat}
    (h : x.kmemPageMap v a = some (y, r)) : PageMap x v (shmEntry a) y := by
  rw [kmemPageMap, mapPage] at h
  obtain ⟨-, h⟩ := Option.ite_none_left_eq_some.mp h
  obtain ⟨⟨z, pt⟩, htable, h⟩ := Option.bind_eq_some_iff.mp h
  obtain ⟨hz, -, hpt⟩ := hx.getTable (va2pd_lt hv) present_dir htable
  have hold {w : Nat} (hw : w < pageOffset) : z.mapping w = x.mapping w :=
    getTable_mapping hx htable hw
  rcases getTable_cases htable with ⟨ht, rfl, rfl⟩ | ⟨ht, ⟨hno, rfl, rfl⟩ | ⟨f, hhead, hf, hzeq, rfl⟩⟩
  · dsimp only at h
    split at h
    · rename_i hp
      obtain ⟨rfl, -⟩ := Prod.mk.inj (Option.some.inj h)
      refine .used ?_
      rw [used, mapping, entry_present ht]
      exact hp
    · rename_i hp
      obtain ⟨rfl, -⟩ := Prod.mk.inj (Option.some.inj h)
      refine .filled ht ?_ ⟨rfl, rfl, rfl, fun w hw => fillPage_mapping hx hv ht _ hw⟩ ?_ rfl rfl
      · rw [used, mapping, entry_present ht]
        exact Bool.not_eq_true _ ▸ hp
      · exact fillPage_dir hx.apart (va2pd_lt hv) ht
  · obtain ⟨rfl, -⟩ := Prod.mk.inj (Option.some.inj h)
    exact .noTable ht hno
  · obtain ⟨ht', hframe⟩ := hpt f rfl
    dsimp only at h
    split at h
    · rename_i hp
      have hused : x.used v = true := by
        rw [used, ← hold hv, mapping, entry_present ht', hframe]
        exact hp
      rw [used_absent ht] at hused
      cases hused
    · obtain ⟨rfl, -⟩ := Prod.mk.inj (Option.some.inj h)
      have hpd : z.pd = x.pd := by rw [hzeq]; rfl
      rw [← hframe]
      refine .made ht hhead hf ⟨hpd, by rw [hzeq]; rfl, by rw [hzeq]; rfl, fun w hw => ?_⟩ ?_
        (by rw [hzeq]; rfl)
      · rw [fillPage_mapping hz hv ht' _ hw, hold hw]
        rfl
      · intro i
        rw [fill_pd, fillPage_dir hz.apart (va2pd_lt hv) ht', hzeq]
        change ((x.taken f x.answers.tail).fill (x.taken f x.answers.tail).pd (va2pd v) _).mem
          (x.taken f x.answers.tail).pd i = _
        rw [fillDir_dir]
        exact if_congr Iff.rfl rfl (taken_dir hx hf i)

/-- Whichever way it goes, it adds an entry or changes nothing in the tables. -/
structure Adds (x y : Mm) (v : Nat) (e : Entry) : Prop where
  pd : y.pd = x.pd
  foreign : y.foreign = x.foreign
  freed : y.freed = x.freed
  others : ∀ w, w < pageOffset → w / 0x1000 ≠ v / 0x1000 → y.mapping w = x.mapping w
  mine : y.mapping v = x.mapping v ∨ x.used v = false ∧ y.mapping v = e
  dir : ∀ i, (x.mem x.pd i).present = true → y.mem y.pd i = x.mem x.pd i
  outside : ∀ i, i ≠ va2pd v → y.mem y.pd i = x.mem x.pd i

theorem PageMap.adds {e : Entry} (h : PageMap x v e y) (hv : v < pageOffset) : Adds x y v e := by
  cases h with
  | used | noTable =>
    exact ⟨rfl, rfl, rfl, fun _ _ _ => rfl, .inl rfl, fun _ _ => rfl, fun _ _ => rfl⟩
  | filled _ hfree hfill hdir _ _ =>
    exact
      { pd := hfill.pd
        foreign := hfill.foreign
        freed := hfill.freed
        others := fun w hw hne => (hfill.mapping w hw).trans (if_neg hne)
        mine := .inr ⟨hfree, (hfill.mapping v hv).trans (if_pos rfl)⟩
        dir := fun i _ => hdir i
        outside := fun i _ => hdir i }
  | made ht _ _ hfill hdir _ =>
    exact
      { pd := hfill.pd
        foreign := hfill.foreign
        freed := hfill.freed
        others := fun w hw hne => (hfill.mapping w hw).trans (if_neg hne)
        mine := .inr ⟨used_absent ht, (hfill.mapping v hv).trans (if_pos rfl)⟩
        dir := fun i hi => (hdir i).trans (if_neg fun he => by
          rw [he] at hi
          exact Bool.false_ne_true (ht.symm.trans hi))
        outside := fun i hi => (hdir i).trans (if_neg hi) }

-- ---------------------------------------------------------------------------
-- The pages of the range one after the other
-- ---------------------------------------------------------------------------

/-- The calls for the first `m` pages. -/
def mapCalls (vaddr : Nat) (kladdr : Nat → Nat) (m : Nat) : List MmCall :=
  (List.range m).map fun i => .kmemPageMap (rangePage vaddr i) (kladdr i)

def unmapCalls (vaddr m : Nat) : List MmCall :=
  (List.range m).map fun i => .kmemPageUnmap (rangePage vaddr i)

variable {kladdr : Nat → Nat} {m : Nat}

theorem rangePage_page (vaddr i : Nat) : rangePage vaddr i / 0x1000 = vaddr / 0x1000 + i := by
  unfold rangePage
  omega

theorem rangePage_ne (h : i ≠ n) : rangePage vaddr i / 0x1000 ≠ rangePage vaddr n / 0x1000 := by
  rw [rangePage_page, rangePage_page]
  omega

theorem rangePage_zero (vaddr : Nat) : va2pd (rangePage vaddr 0) = va2pd vaddr := by
  unfold va2pd rangePage
  omega

theorem mapCalls_succ : (mapCalls vaddr kladdr (m + 1)).foldlM step x = some z ↔
    ∃ y, (mapCalls vaddr kladdr m).foldlM step x = some y ∧
      ∃ r, y.kmemPageMap (rangePage vaddr m) (kladdr m) = some (z, r) := by
  have hcall (y : Mm) : [MmCall.kmemPageMap (rangePage vaddr m) (kladdr m)].foldlM step y = some z ↔
      ∃ r, y.kmemPageMap (rangePage vaddr m) (kladdr m) = some (z, r) := by
    simp [step]
  rw [mapCalls, List.range_succ, List.map_append, List.foldlM_append, Option.bind_eq_bind,
    Option.bind_eq_some_iff]
  exact exists_congr fun y => and_congr_right fun _ => hcall y

/-- After the first `m` pages of the range. -/
structure Ran (x y : Mm) (vaddr : Nat) (kladdr : Nat → Nat) (m : Nat) : Prop where
  built : Built y
  sound : Sound y
  pd : y.pd = x.pd
  foreign : y.foreign = x.foreign
  freed : y.freed = x.freed
  others : ∀ w, w < pageOffset → (∀ i, i < m → w / 0x1000 ≠ rangePage vaddr i / 0x1000) →
    y.mapping w = x.mapping w
  mine : ∀ i, i < m → y.mapping (rangePage vaddr i) = x.mapping (rangePage vaddr i) ∨
    x.used (rangePage vaddr i) = false ∧ y.mapping (rangePage vaddr i) = shmEntry (kladdr i)
  dir : ∀ i, (x.mem x.pd i).present = true → y.mem y.pd i = x.mem x.pd i
  outside : ∀ i, (∀ k, k < m → va2pd (rangePage vaddr k) ≠ i) → y.mem y.pd i = x.mem x.pd i

theorem Ran.zero (hx : Built x) (hs : Sound x) : Ran x x vaddr kladdr 0 :=
  ⟨hx, hs, rfl, rfl, rfl, fun _ _ _ => rfl, fun _ hi => absurd hi (Nat.not_lt_zero _),
    fun _ _ => rfl, fun _ _ => rfl⟩

theorem Ran.next (h : Ran x y vaddr kladdr m) (hv : rangePage vaddr m < pageOffset) :
    y.mapping (rangePage vaddr m) = x.mapping (rangePage vaddr m) :=
  h.others _ hv fun _ hi => rangePage_ne (Nat.ne_of_gt hi)

theorem Ran.add (h : Ran x y vaddr kladdr m) (hv : ∀ i, i ≤ m → rangePage vaddr i < pageOffset)
    (hz : Built z) (hs : Sound z) (ha : Adds y z (rangePage vaddr m) (shmEntry (kladdr m))) :
    Ran x z vaddr kladdr (m + 1) where
  built := hz
  sound := hs
  pd := ha.pd.trans h.pd
  foreign := ha.foreign.trans h.foreign
  freed := ha.freed.trans h.freed
  others w hw hne := (ha.others w hw (hne m (Nat.lt_succ_self m))).trans
    (h.others w hw fun i hi => hne i (Nat.lt_succ_of_lt hi))
  mine i hi := by
    rcases Nat.lt_succ_iff_lt_or_eq.mp hi with hi | rfl
    · rw [ha.others _ (hv i (Nat.le_of_lt hi)) (rangePage_ne (Nat.ne_of_lt hi))]
      exact h.mine i hi
    · have hnext := h.next (hv i (Nat.le_refl i))
      rcases ha.mine with hsame | ⟨hfree, hnew⟩
      · exact .inl (hsame.trans hnext)
      · refine .inr ⟨?_, hnew⟩
        rw [used, ← hnext]
        exact hfree
  dir i hi := by
    have hold := h.dir i hi
    rw [← hold] at hi ⊢
    exact ha.dir i hi
  outside i hi := (ha.outside i (Ne.symm (hi m (Nat.lt_succ_self m)))).trans
    (h.outside i fun k hk => hi k (Nat.lt_succ_of_lt hk))

theorem kmemPageMap_comes (hs : Sound x) {addr : Nat} (hf : x.foreign addr = true) :
    ∃ y r, x.kmemPageMap v addr = some (y, r) ∧ Sound y := mapPage_comes hs hf

theorem kmemPageMap_ran (h : Ran x y vaddr kladdr m)
    (hv : ∀ i, i ≤ m → rangePage vaddr i < pageOffset) {r : Nat}
    (hmap : y.kmemPageMap (rangePage vaddr m) (kladdr m) = some (z, r)) :
    PageMap y (rangePage vaddr m) (shmEntry (kladdr m)) z ∧ Ran x z vaddr kladdr (m + 1) := by
  have hlt := hv m (Nat.le_refl m)
  have hpage := kmemPageMap_pageMap h.built hlt hmap
  have hz : Built z := h.built.mapPage hlt present_dir nflag_marked hmap
  have hforeign : y.foreign (kladdr m) = true := by
    rw [kmemPageMap, mapPage] at hmap
    exact Bool.not_eq_false _ ▸ (Option.ite_none_left_eq_some.mp hmap).1
  obtain ⟨z', r', hmap', hs⟩ := kmemPageMap_comes h.sound hforeign
  have heq : (z', r') = (z, r) := Option.some.inj (hmap'.symm.trans hmap)
  obtain ⟨rfl, -⟩ := Prod.mk.inj heq
  exact ⟨hpage, h.add hv hz hs (hpage.adds hlt)⟩

theorem mapCalls_comes (hx : Built x) (hs : Sound x) (hv : ∀ i, i < m → rangePage vaddr i < pageOffset)
    (hk : ∀ i, i < m → x.foreign (kladdr i) = true) :
    ∃ y, (mapCalls vaddr kladdr m).foldlM step x = some y ∧ Ran x y vaddr kladdr m := by
  induction m with
  | zero => exact ⟨x, rfl, .zero hx hs⟩
  | succ m ih =>
    obtain ⟨y, hy, hran⟩ := ih (fun i hi => hv i (Nat.lt_succ_of_lt hi))
      fun i hi => hk i (Nat.lt_succ_of_lt hi)
    have hforeign : y.foreign (kladdr m) = true := by
      rw [hran.foreign]
      exact hk m (Nat.lt_succ_self m)
    obtain ⟨z, r, hmap, -⟩ := kmemPageMap_comes hran.sound hforeign
    obtain ⟨-, hz⟩ := kmemPageMap_ran hran (fun i hi => hv i (Nat.lt_succ_of_le hi)) hmap
    exact ⟨z, mapCalls_succ.mpr ⟨y, hy, r, hmap⟩, hz⟩

theorem mapCalls_induction {P : Nat → Mm → Prop} (hx : Built x) (hs : Sound x)
    (hv : ∀ i, i < n → rangePage vaddr i < pageOffset) (h₀ : P 0 x)
    (hstep : ∀ m y z, m < n → Ran x y vaddr kladdr m → P m y →
      PageMap y (rangePage vaddr m) (shmEntry (kladdr m)) z → P (m + 1) z) (hm : m ≤ n)
    (h : (mapCalls vaddr kladdr m).foldlM step x = some y) : Ran x y vaddr kladdr m ∧ P m y := by
  induction m generalizing y with
  | zero =>
    obtain rfl := Option.some.inj h
    exact ⟨.zero hx hs, h₀⟩
  | succ m ih =>
    obtain ⟨z, hz, r, hmap⟩ := mapCalls_succ.mp h
    obtain ⟨hran, hp⟩ := ih (Nat.le_of_lt hm) hz
    obtain ⟨hpage, hnext⟩ := kmemPageMap_ran hran (fun i hi => hv i (by omega)) hmap
    exact ⟨hnext, hstep m z y hm hran hp hpage⟩

-- ---------------------------------------------------------------------------
-- A map that does all, or nothing
-- ---------------------------------------------------------------------------

/-- The pages are free, only the first table may be missing, and a table that is there already
does not get empty. -/
structure Fits (x : Mm) (vaddr n : Nat) : Prop where
  unused : ∀ i, i < n → x.used (rangePage vaddr i) = false
  others : ∀ i, i < n → va2pd (rangePage vaddr i) ≠ va2pd vaddr →
    x.table (rangePage vaddr i) = true
  first : x.table vaddr = true ∧ x.tableEmpty (va2pd vaddr) = false ∨
    x.table vaddr = false ∧ ¬x.NoPage

/-- Whether there is a table for the `i`th page. -/
def lacks (x : Mm) (vaddr i : Nat) : Bool := !x.table (rangePage vaddr i)

/-- Every page that has a table is in use, and the others get none. -/
structure Inert (x : Mm) (vaddr n : Nat) : Prop where
  full : ∀ i, i < n → x.table (rangePage vaddr i) = true → x.used (rangePage vaddr i) = true
  none : ∀ a ∈ x.answers.take ((List.range n).countP (x.lacks vaddr)), a = none

/-- The frames that have gone to tables: none, or one to the first. -/
def FirstTable (x y : Mm) (vaddr : Nat) : Prop :=
  x.table vaddr = true ∧ y.pool = x.pool ∧ (∀ i, y.mem y.pd i = x.mem x.pd i) ∨
    x.table vaddr = false ∧ ∃ f, y.pool = f :: x.pool ∧ f ∉ x.pool ∧
      ∀ i, y.mem y.pd i =
        if i = va2pd vaddr then ⟨f, nflag ||| pagePresent⟩ else x.mem x.pd i

theorem FirstTable.table (h : FirstTable x y vaddr) (ht : x.table v = true ∨ va2pd v = va2pd vaddr) :
    y.table v = true := by
  rcases h with ⟨hfirst, -, hdir⟩ | ⟨-, f, -, -, hdir⟩
  · rw [Mm.table, hdir]
    rcases ht with ht | ht
    · exact ht
    · rw [ht]
      exact hfirst
  · rw [Mm.table, hdir]
    split
    · exact present_dir f
    · rename_i hne
      exact ht.resolve_right hne

theorem table_first (x : Mm) (vaddr : Nat) : x.table (rangePage vaddr 0) = x.table vaddr := by
  rw [table, table, rangePage_zero]

theorem FirstTable.trans_eq (h : FirstTable x y vaddr) (hpool : z.pool = y.pool)
    (hdir : ∀ i, z.mem z.pd i = y.mem y.pd i) : FirstTable x z vaddr := by
  rcases h with ⟨ht, hp, hd⟩ | ⟨ht, f, hp, hf, hd⟩
  · exact .inl ⟨ht, hpool.trans hp, fun i => (hdir i).trans (hd i)⟩
  · exact .inr ⟨ht, f, hpool.trans hp, hf, fun i => (hdir i).trans (hd i)⟩

theorem Fits.firstPage (hf : Fits x vaddr n) (hn : 0 < n) {e : Entry}
    (h : PageMap x (rangePage vaddr 0) e y) :
    Filled x y (rangePage vaddr 0) e ∧ FirstTable x y vaddr := by
  have hfree := hf.unused 0 hn
  have htable := table_first x vaddr
  cases h with
  | used hused =>
    rw [hfree] at hused
    cases hused
  | noTable ht hno =>
    rcases hf.first with ⟨hpresent, -⟩ | ⟨-, hpage⟩
    · rw [htable, hpresent] at ht
      cases ht
    · exact absurd hno hpage
  | filled ht _ hfill hdir hpool _ => exact ⟨hfill, .inl ⟨htable ▸ ht, hpool, hdir⟩⟩
  | @made _ f ht _ hnew hfill hdir hpool =>
    rw [rangePage_zero] at hdir
    exact ⟨hfill, .inr ⟨htable ▸ ht, f, hpool, hnew, hdir⟩⟩

theorem FirstTable.nextPage (h : FirstTable x y vaddr) {e : Entry} (hpage : PageMap y v e z)
    (ht : x.table v = true ∨ va2pd v = va2pd vaddr) (hfree : y.used v = false) :
    Filled y z v e ∧ FirstTable x z vaddr := by
  have htable := h.table ht
  cases hpage with
  | used hused =>
    rw [hfree] at hused
    cases hused
  | noTable hno =>
    rw [htable] at hno
    cases hno
  | filled _ _ hfill hdir hpool _ => exact ⟨hfill, h.trans_eq hpool hdir⟩
  | made hno =>
    rw [htable] at hno
    cases hno

theorem Fits.run (hf : Fits x vaddr n) (hx : Built x) (hs : Sound x)
    (hv : ∀ i, i < n → rangePage vaddr i < pageOffset) (hn : 0 < n)
    (h : (mapCalls vaddr kladdr n).foldlM step x = some y) :
    Ran x y vaddr kladdr n ∧ FirstTable x y vaddr ∧
      ∀ i, i < n → y.used (rangePage vaddr i) = true := by
  have hall := mapCalls_induction (m := n) (P := fun m y =>
    (m = 0 ∧ y = x ∨ 0 < m ∧ FirstTable x y vaddr) ∧
      ∀ i, i < m → y.used (rangePage vaddr i) = true) hx hs hv
    ⟨.inl ⟨rfl, rfl⟩, fun i hi => absurd hi (Nat.not_lt_zero i)⟩
    (fun m y z hm hran hp hpage => ?_) (Nat.le_refl n) h
  · rcases hall.2.1 with ⟨hzero, -⟩ | ⟨-, hfirst⟩
    · exact absurd hzero (Nat.ne_of_gt hn)
    · exact ⟨hall.1, hfirst, hall.2.2⟩
  have hlt := hv m hm
  have hfree : y.used (rangePage vaddr m) = false := by
    rw [used, hran.next hlt]
    exact hf.unused m hm
  have hfilled : Filled y z (rangePage vaddr m) (shmEntry (kladdr m)) ∧ FirstTable x z vaddr := by
    rcases hp.1 with ⟨rfl, rfl⟩ | ⟨-, hfirst⟩
    · exact hf.firstPage hn hpage
    · refine hfirst.nextPage hpage ?_ hfree
      by_cases hsame : va2pd (rangePage vaddr m) = va2pd vaddr
      · exact .inr hsame
      · exact .inl (hf.others m hm hsame)
  refine ⟨.inr ⟨Nat.succ_pos m, hfilled.2⟩, fun i hi => ?_⟩
  rw [used, hfilled.1.mapping _ (hv i (by omega))]
  rcases Nat.lt_succ_iff_lt_or_eq.mp hi with hi | rfl
  · rw [if_neg (rangePage_ne (Nat.ne_of_lt hi))]
    exact hp.2 i hi
  · rw [if_pos rfl]
    exact (nflag_marked (kladdr i)).1

theorem countP_succ (x : Mm) (vaddr m : Nat) : (List.range (m + 1)).countP (x.lacks vaddr) =
    (List.range m).countP (x.lacks vaddr) + if x.lacks vaddr m then 1 else 0 := by
  rw [List.range_succ, List.countP_append]
  simp [List.countP_cons]

def Answered (x y : Mm) (vaddr m : Nat) : Prop :=
  y = { x with answers := x.answers.drop ((List.range m).countP (x.lacks vaddr)) }

theorem Answered.same (h : Answered x y vaddr m) : SameTables x y := by
  subst h
  exact ⟨rfl, fun _ => rfl, fun _ _ => rfl⟩

theorem Answered.next_none (h : Answered x y vaddr m) (hl : x.lacks vaddr m = true) (hn : m < n)
    (hnone : ∀ a ∈ x.answers.take ((List.range n).countP (x.lacks vaddr)), a = none) :
    y.NoPage := by
  have hcount : (List.range m).countP (x.lacks vaddr) < (List.range n).countP (x.lacks vaddr) := by
    have hsub : (List.range (m + 1)).Sublist (List.range n) := List.range_sublist.mpr hn
    have hle := hsub.countP_le (p := x.lacks vaddr)
    rw [countP_succ, if_pos hl] at hle
    omega
  subst h
  rw [NoPage]
  dsimp only
  rw [List.head?_drop]
  cases hget : x.answers[(List.range m).countP (x.lacks vaddr)]? with
  | none => rfl
  | some a =>
    have hmem : a ∈ x.answers.take ((List.range n).countP (x.lacks vaddr)) := by
      refine List.mem_of_getElem? (i := (List.range m).countP (x.lacks vaddr)) ?_
      rw [List.getElem?_take_of_lt hcount]
      exact hget
    rw [hnone a hmem]
    rfl

theorem Inert.run (hi : Inert x vaddr n) (hx : Built x) (hs : Sound x)
    (hv : ∀ i, i < n → rangePage vaddr i < pageOffset)
    (h : (mapCalls vaddr kladdr n).foldlM step x = some y) : Answered x y vaddr n := by
  refine (mapCalls_induction (P := fun m y => Answered x y vaddr m) hx hs hv rfl
    (fun m y z hm hran hp hpage => ?_) (Nat.le_refl n) h).2
  have htable : y.table (rangePage vaddr m) = x.table (rangePage vaddr m) := by
    rw [table, table, hp.same.dir]
  have hlacks : x.lacks vaddr m = !y.table (rangePage vaddr m) := by rw [lacks, htable]
  have hused (ht : y.table (rangePage vaddr m) = true) : y.used (rangePage vaddr m) = true := by
    rw [used, hran.next (hv m hm)]
    exact hi.full m hm (htable ▸ ht)
  rw [Answered, countP_succ]
  cases hpage with
  | used hpresent =>
    have ht : y.table (rangePage vaddr m) = true := by
      by_contra hnone
      rw [used_absent (Bool.not_eq_true _ ▸ hnone)] at hpresent
      cases hpresent
    rw [hlacks, ht]
    exact hp
  | noTable ht _ =>
    rw [hlacks, ht, hp, ← List.drop_drop]
    simp
  | filled ht hfree =>
    rw [hused ht] at hfree
    cases hfree
  | made ht hhead =>
    have hno := hp.next_none (by rw [hlacks, ht]; rfl) hm hi.none
    rw [NoPage, hhead] at hno
    cases hno

theorem inert_of_same (hx : Built x) (hs : Sound x)
    (hv : ∀ i, i < n → rangePage vaddr i < pageOffset)
    (h : (mapCalls vaddr kladdr n).foldlM step x = some y) (hsame : SameTables x y) :
    Inert x vaddr n := by
  refine ((mapCalls_induction (P := fun m y => SameTables x y →
    Inert x vaddr m ∧ Answered x y vaddr m) hx hs hv (fun _ => ⟨?_, rfl⟩)
    (fun m y z hm hran hp hpage hz => ?_) (Nat.le_refl n) h).2 hsame).1
  · exact ⟨fun i hi => absurd hi (Nat.not_lt_zero i), fun a ha => by simp at ha⟩
  have hlt := hv m hm
  have hnotFilled (hfree : y.used (rangePage vaddr m) = false)
      (hfill : Filled y z (rangePage vaddr m) (shmEntry (kladdr m))) : False := by
    have hnew := (hfill.mapping _ hlt).trans (if_pos rfl)
    rw [hz.mapping _ hlt, ← hran.next hlt] at hnew
    rw [used, hnew, shmEntry, (nflag_marked (kladdr m)).1] at hfree
    cases hfree
  cases hpage with
  | used hpresent =>
    obtain ⟨hinert, hanswered⟩ := hp hz
    have ht : x.table (rangePage vaddr m) = true := by
      rw [table, ← hanswered.same.dir]
      by_contra hnone
      rw [used_absent (Bool.not_eq_true _ ▸ hnone)] at hpresent
      cases hpresent
    have hlacks : x.lacks vaddr m = false := by rw [lacks, ht]; rfl
    have hcount : (List.range (m + 1)).countP (x.lacks vaddr) =
        (List.range m).countP (x.lacks vaddr) := by
      rw [countP_succ, hlacks]
      rfl
    refine ⟨⟨fun i hi hti => ?_, hcount ▸ hinert.none⟩, by rw [Answered, hcount]; exact hanswered⟩
    rcases Nat.lt_succ_iff_lt_or_eq.mp hi with hi | rfl
    · exact hinert.full i hi hti
    · rw [used, ← hran.next hlt]
      exact hpresent
  | noTable ht hno =>
    obtain ⟨hinert, hanswered⟩ := hp ⟨hz.pd, hz.dir, hz.mapping⟩
    have ht' : x.table (rangePage vaddr m) = false := by
      rw [table, ← hanswered.same.dir]
      exact ht
    have hlacks : x.lacks vaddr m = true := by rw [lacks, ht']; rfl
    have hcount : (List.range (m + 1)).countP (x.lacks vaddr) =
        (List.range m).countP (x.lacks vaddr) + 1 := by
      rw [countP_succ, if_pos hlacks]
    refine ⟨⟨fun i hi hti => ?_, fun a ha => ?_⟩, ?_⟩
    · rcases Nat.lt_succ_iff_lt_or_eq.mp hi with hi | rfl
      · exact hinert.full i hi hti
      · rw [ht'] at hti
        cases hti
    · rw [hcount, List.take_add_one] at ha
      rcases List.mem_append.mp ha with ha | ha
      · exact hinert.none a ha
      · -- The answer to the page that has no table.
        rw [NoPage, hanswered] at hno
        dsimp only at hno
        rw [List.head?_drop] at hno
        cases hget : x.answers[(List.range m).countP (x.lacks vaddr)]? with
        | none => simp [hget] at ha
        | some b =>
          rw [hget] at ha hno
          obtain rfl := List.mem_singleton.mp ha
          exact hno
    · rw [Answered, hcount, ← List.drop_drop, hanswered]
      simp
  | filled _ hfree hfill => exact (hnotFilled hfree hfill).elim
  | made ht _ _ hfill => exact (hnotFilled (used_absent ht) hfill).elim

theorem firstPage_none (hx : Built x) (hs : Sound x)
    (hv : ∀ i, i < n → rangePage vaddr i < pageOffset) (ht : x.table vaddr = false)
    (hno : x.NoPage) (h : (mapCalls vaddr kladdr n).foldlM step x = some y) :
    y.used (rangePage vaddr 0) = false := by
  have hfree : x.used (rangePage vaddr 0) = false := used_absent ((table_first x vaddr).trans ht)
  have hall := mapCalls_induction (P := fun m y => (m = 0 → y = x) ∧
    (0 < m → y.mapping (rangePage vaddr 0) = x.mapping (rangePage vaddr 0))) hx hs hv
    ⟨fun _ => rfl, fun h => absurd h (Nat.lt_irrefl 0)⟩
    (fun m y z hm hran hp hpage => ⟨fun hzero => absurd hzero (Nat.succ_ne_zero m), fun _ => ?_⟩)
    (Nat.le_refl n) h
  · rcases Nat.eq_zero_or_pos n with rfl | hn
    · rw [hall.2.1 rfl]
      exact hfree
    · rw [used, hall.2.2 hn]
      exact hfree
  · rcases Nat.eq_zero_or_pos m with rfl | hm0
    · obtain rfl := hp.1 rfl
      cases hpage with
      | used | noTable => rfl
      | filled hpresent =>
        rw [table_first, ht] at hpresent
        cases hpresent
      | made _ hhead =>
        rw [NoPage, hhead] at hno
        cases hno
    · have hlt := hv 0 (Nat.lt_trans hm0 hm)
      rw [(hpage.adds (hv m hm)).others _ hlt (rangePage_ne (Nat.ne_of_lt hm0))]
      exact hp.2 hm0

-- ---------------------------------------------------------------------------
-- Taking the pages back
-- ---------------------------------------------------------------------------

/-- The first `m` pages of the range have been cleared. -/
structure Cleared (x y : Mm) (vaddr m : Nat) : Prop where
  built : Built y
  pd : y.pd = x.pd
  pool : y.pool = x.pool
  freed : y.freed = x.freed
  dir : ∀ i, y.mem y.pd i = x.mem x.pd i
  others : ∀ w, w < pageOffset → (∀ i, i < m → w / 0x1000 ≠ rangePage vaddr i / 0x1000) →
    y.mapping w = x.mapping w
  cleared : ∀ i, i < m → y.mapping (rangePage vaddr i) = {}

theorem kmemPageUnmap_spec (hx : Built x) (hv : v < pageOffset)
    (hmark : (x.mapping v).present = true → (x.mapping v).unused1 = true) :
    Built (x.kmemPageUnmap v) ∧ (x.kmemPageUnmap v).pd = x.pd ∧
      (x.kmemPageUnmap v).pool = x.pool ∧ (x.kmemPageUnmap v).freed = x.freed ∧
      (∀ i, (x.kmemPageUnmap v).mem x.pd i = x.mem x.pd i) ∧
      ∀ w, w < pageOffset → (x.kmemPageUnmap v).mapping w =
        if w / 0x1000 = v / 0x1000 then {} else x.mapping w := by
  refine ⟨hx.kmemPageUnmap hv hmark, ?_⟩
  have hkeep (hfree : x.used v = false) (w : Nat) :
      x.mapping w = if w / 0x1000 = v / 0x1000 then {} else x.mapping w := by
    split
    · rename_i hp
      rw [mapping_page hp]
      exact (hx.shape.pages _ _ (va2pd_lt hv) (va2pt_lt v)).resolve_left
        (Bool.eq_false_iff.mp hfree)
    · rfl
  rw [kmemPageUnmap]
  split
  · rename_i ht
    dsimp only
    split
    · refine ⟨rfl, rfl, rfl, fun i => ?_, fun w hw => fillPage_mapping hx hv ht _ hw⟩
      exact fillPage_dir hx.apart (va2pd_lt hv) ht i
    · rename_i hfree
      refine ⟨rfl, rfl, rfl, fun i => rfl, fun w _ => hkeep ?_ w⟩
      rw [used, mapping, entry_present ht]
      exact Bool.not_eq_true _ ▸ hfree
  · rename_i ht
    exact ⟨rfl, rfl, rfl, fun i => rfl, fun w _ => hkeep (used_absent (Bool.not_eq_true _ ▸ ht)) w⟩

theorem unmapCalls_succ (vaddr m : Nat) : unmapCalls vaddr (m + 1) =
    unmapCalls vaddr m ++ [.kmemPageUnmap (rangePage vaddr m)] := by
  rw [unmapCalls, List.range_succ, List.map_append]
  rfl

theorem unmapCalls_cleared (hx : Built x) (hv : ∀ i, i < m → rangePage vaddr i < pageOffset)
    (hmark : ∀ i, i < m → (x.mapping (rangePage vaddr i)).unused1 = true) :
    ∃ y, (unmapCalls vaddr m).foldlM step x = some y ∧ Cleared x y vaddr m := by
  induction m with
  | zero =>
    exact ⟨x, rfl, hx, rfl, rfl, rfl, fun _ => rfl, fun _ _ _ => rfl,
      fun i hi => absurd hi (Nat.not_lt_zero i)⟩
  | succ m ih =>
    obtain ⟨y, hy, h⟩ := ih (fun i hi => hv i (Nat.lt_succ_of_lt hi))
      fun i hi => hmark i (Nat.lt_succ_of_lt hi)
    have hlt := hv m (Nat.lt_succ_self m)
    have hnext : y.mapping (rangePage vaddr m) = x.mapping (rangePage vaddr m) :=
      h.others _ hlt fun i hi => rangePage_ne (Nat.ne_of_gt hi)
    obtain ⟨hz, hpd, hpool, hfreed, hdir, hmap⟩ := kmemPageUnmap_spec h.built hlt fun _ => by
      rw [hnext]
      exact hmark m (Nat.lt_succ_self m)
    refine ⟨y.kmemPageUnmap (rangePage vaddr m), ?_, hz, hpd.trans h.pd, hpool.trans h.pool,
      hfreed.trans h.freed, fun i => ?_, fun w hw hne => ?_, fun i hi => ?_⟩
    · rw [unmapCalls_succ, List.foldlM_append, hy]
      rfl
    · rw [hpd]
      exact (hdir i).trans (h.dir i)
    · rw [hmap w hw, if_neg (hne m (Nat.lt_succ_self m))]
      exact h.others w hw fun i hi => hne i (Nat.lt_succ_of_lt hi)
    · rw [hmap _ (hv i hi)]
      rcases Nat.lt_succ_iff_lt_or_eq.mp hi with hi | rfl
      · rw [if_neg (rangePage_ne (Nat.ne_of_lt hi))]
        exact h.cleared i hi
      · exact if_pos rfl

/-- The pages are as before the map, the directory and the pool as the map has left them. -/
structure Back (x y z : Mm) : Prop where
  built : Built z
  pd : z.pd = x.pd
  pool : z.pool = y.pool
  freed : z.freed = x.freed
  dir : ∀ i, z.mem z.pd i = y.mem y.pd i
  mapping : ∀ v, v < pageOffset → z.mapping v = x.mapping v

theorem unmapCalls_back (hx : Built x) (hran : Ran x y vaddr kladdr n)
    (hv : ∀ i, i < n → rangePage vaddr i < pageOffset)
    (hused : ∀ i, i < n → x.used (rangePage vaddr i) = false ∧ y.used (rangePage vaddr i) = true) :
    ∃ z, (unmapCalls vaddr n).foldlM step y = some z ∧ Back x y z := by
  have hmark (i : Nat) (hi : i < n) : (y.mapping (rangePage vaddr i)).unused1 = true := by
    rcases hran.mine i hi with hsame | ⟨-, hnew⟩
    · obtain ⟨hfree, hpresent⟩ := hused i hi
      rw [used] at hfree hpresent
      rw [hsame, hfree] at hpresent
      cases hpresent
    · rw [hnew]
      exact (nflag_marked (kladdr i)).2
  obtain ⟨z, hz, h⟩ := unmapCalls_cleared hran.built hv hmark
  refine ⟨z, hz, h.built, h.pd.trans hran.pd, h.pool, h.freed.trans hran.freed, h.dir,
    fun v hlt => ?_⟩
  by_cases hin : ∃ i, i < n ∧ v / 0x1000 = rangePage vaddr i / 0x1000
  · obtain ⟨i, hi, hp⟩ := hin
    rw [mapping_page hp, h.cleared i hi, mapping_page hp]
    exact ((hx.shape.pages _ _ (va2pd_lt (hv i hi)) (va2pt_lt _)).resolve_left
      (Bool.eq_false_iff.mp (hused i hi).1)).symm
  · have hout : ∀ i, i < n → v / 0x1000 ≠ rangePage vaddr i / 0x1000 :=
      fun i hi hp => hin ⟨i, hi, hp⟩
    rw [h.others v hlt hout, hran.others v hlt hout]

-- ---------------------------------------------------------------------------
-- The table of the first page
-- ---------------------------------------------------------------------------

theorem tableEmpty_iff (hi : i < userTables) (ht : (x.mem x.pd i).present = true) :
    x.tableEmpty i = true ↔ ∀ v, v < pageOffset → va2pd v = i → x.mapping v = {} := by
  refine all_empty.trans ⟨fun h v _ hv => ?_, fun h n hn => ?_⟩
  · rw [mapping, hv, entry_present ht]
    exact h _ (va2pt_lt v)
  · have hpd : va2pd (i * 0x400000 + n * 0x1000) = i := by
      unfold va2pd
      omega
    have hpt : va2pt (i * 0x400000 + n * 0x1000) = n := by
      unfold va2pt
      omega
    have hlt : i * 0x400000 + n * 0x1000 < pageOffset := by
      unfold userTables at hi
      unfold pageOffset
      omega
    have hempty := h _ hlt hpd
    rwa [mapping, hpd, hpt, entry_present ht] at hempty

theorem freeTable_kept (h : x.tableEmpty i = false) : x.freeTable i = x := by
  rw [tableEmpty] at h
  simp only [freeTable, h, Bool.false_eq_true, if_false]

theorem freeTable_empty (h : x.tableEmpty i = true) :
    x.freeTable i = (x.fill x.pd i {}).releasePage (x.mem x.pd i).frame := by
  rw [tableEmpty] at h
  simp only [freeTable, h, if_true]

theorem Back.tableEmpty (h : Back x y z) (hi : i < userTables)
    (ht : (x.mem x.pd i).present = true) (hdir : y.mem y.pd i = x.mem x.pd i) :
    z.tableEmpty i = x.tableEmpty i := by
  have ht' : (z.mem z.pd i).present = true := by rw [h.dir, hdir, ht]
  rw [Bool.eq_iff_iff, tableEmpty_iff hi ht', tableEmpty_iff hi ht]
  refine forall_congr' fun v => forall_congr' fun hv => ?_
  rw [h.mapping v hv]

theorem Back.restored_made (h : Back x y z) (hx : Built x) (hi : i < userTables)
    (ht : (x.mem x.pd i).present = false) {f : Nat} (hpool : y.pool = f :: x.pool)
    (hdir : ∀ n, y.mem y.pd n = if n = i then ⟨f, nflag ||| pagePresent⟩ else x.mem x.pd n) :
    Restored x y (z.freeTable i) := by
  have hentry : z.mem z.pd i = ⟨f, nflag ||| pagePresent⟩ := by rw [h.dir, hdir, if_pos rfl]
  have hempty : z.tableEmpty i = true := by
    refine (tableEmpty_iff hi (by rw [hentry]; exact present_dir f)).mpr fun v hv hvi => ?_
    rw [h.mapping v hv, Mm.mapping, hvi]
    exact entry_absent ht
  rw [freeTable_empty hempty, hentry]
  refine ⟨⟨h.pd, fun n => ?_, fun v hv => ?_⟩, ?_, [f], hpool, ?_⟩
  · refine (fillDir_dir z i {} n).trans ?_
    split
    · rename_i hn
      rw [hn]
      exact ((hx.shape.dir i hi).resolve_left (Bool.eq_false_iff.mp ht)).symm
    · rename_i hn
      rw [h.dir, hdir, if_neg hn]
  · refine (clearDir_entry (i := i) h.built.apart (va2pd_lt hv)).trans ?_
    split
    · rename_i hvi
      rw [Mm.mapping, hvi]
      exact (entry_absent ht).symm
    · exact h.mapping v hv
  · change z.pool.erase f = x.pool
    rw [h.pool, hpool, List.erase_cons_head]
  · change f :: z.freed = [f] ++ x.freed
    rw [h.freed]
    rfl

theorem Back.restored (h : Back x y z) (hx : Built x) (hf : Fits x vaddr n)
    (hi : va2pd vaddr < userTables) (hfirst : FirstTable x y vaddr) :
    Restored x y (z.freeTable (va2pd vaddr)) := by
  rcases hfirst with ⟨ht, hpool, hdir⟩ | ⟨ht, f, hpool, -, hdir⟩
  · rcases hf.first with ⟨-, hempty⟩ | ⟨hnone, -⟩
    · rw [freeTable_kept ((h.tableEmpty hi ht (hdir _)).trans hempty)]
      exact ⟨⟨h.pd, fun i => (h.dir i).trans (hdir i), h.mapping⟩, h.pool.trans hpool, [], hpool,
        h.freed⟩
    · rw [ht] at hnone
      cases hnone
  · exact h.restored_made hx hi ht hpool hdir

/-- If the tables are restored, the map has made none but the first, and the unmapping has
not freed one that was there. -/
theorem Back.fits (h : Back x y z) (hran : Ran x y vaddr kladdr n)
    (hi : va2pd vaddr < userTables)
    (hused : ∀ i, i < n → x.used (rangePage vaddr i) = false ∧ y.used (rangePage vaddr i) = true)
    (hpage : x.table vaddr = false → ¬x.NoPage)
    (hr : Restored x y (z.freeTable (va2pd vaddr))) : Fits x vaddr n where
  unused i hin := (hused i hin).1
  others i hin hne := by
    have hpresent : y.table (rangePage vaddr i) = true := by
      by_contra hnone
      have hfree := used_absent (Bool.not_eq_true _ ▸ hnone)
      rw [(hused i hin).2] at hfree
      cases hfree
    rw [table, ← hr.dir, freeTable_pd, freeTable_dir hne, h.dir]
    exact hpresent
  first := by
    by_cases ht : x.table vaddr = true
    · refine .inl ⟨ht, ?_⟩
      by_contra hempty
      have hempty : x.tableEmpty (va2pd vaddr) = true := Bool.not_eq_false _ ▸ hempty
      rw [← h.tableEmpty hi ht (hran.dir _ ht)] at hempty
      have hgone := hr.dir (va2pd vaddr)
      rw [freeTable_pd, freeTable_empty hempty] at hgone
      have hcleared := (fillDir_dir z (va2pd vaddr) {} (va2pd vaddr)).trans (if_pos rfl)
      have hzero : x.mem x.pd (va2pd vaddr) = {} := hgone.symm.trans hcleared
      rw [table, hzero] at ht
      cases ht
    · have ht : x.table vaddr = false := Bool.not_eq_true _ ▸ ht
      exact .inr ⟨ht, hpage ht⟩

theorem xmShmUnmap_eq (hb : (unmapCalls vaddr (shmPages vaddr n)).foldlM step y = some z) :
    (xmShmUnmap vaddr n).foldlM step y = some (z.freeTable (va2pd vaddr)) := by
  have happ : xmShmUnmap vaddr n =
      unmapCalls vaddr (shmPages vaddr n) ++ [.freeTable (va2pd vaddr)] := rfl
  rw [happ, List.foldlM_append, hb]
  rfl

theorem reversible_empty (hn : shmPages vaddr size = 0) :
    Reversible x vaddr size kladdr ↔ x.tableEmpty (va2pd vaddr) = false := by
  have hmap : (xmShmMap vaddr size kladdr).foldlM step x = some x := by
    rw [xmShmMap, hn]
    rfl
  have hunmap : (xmShmUnmap vaddr size).foldlM step x = some (x.freeTable (va2pd vaddr)) :=
    xmShmUnmap_eq (by rw [hn]; rfl)
  have hall : MapsRange x x vaddr size := fun i hi => by
    rw [hn] at hi
    exact absurd hi (Nat.not_lt_zero i)
  constructor
  · rintro ⟨y, hy, hback, -⟩
    obtain rfl := Option.some.inj (hmap.symm.trans hy)
    obtain ⟨z, hz, hr⟩ := hback hall
    obtain rfl := Option.some.inj (hunmap.symm.trans hz)
    by_contra hempty
    obtain ⟨tables, hpool, hfreed⟩ := hr.freed
    have hnone : tables = [] := List.self_eq_append_left.mp hpool
    rw [hnone, freeTable_empty (Bool.not_eq_false _ ▸ hempty)] at hfreed
    exact List.cons_ne_self _ _ hfreed
  · intro hkept
    refine ⟨x, hmap, fun _ => ⟨x, ?_, ⟨⟨rfl, fun _ => rfl, fun _ _ => rfl⟩, rfl, [], rfl, rfl⟩⟩,
      fun hnot => absurd hall hnot⟩
    rw [hunmap, freeTable_kept hkept]

/-- Exactly then an unmapping undoes the map it follows, and a map that fails does nothing. -/
theorem reversible_iff (hx : Built x) (hs : Sound x)
    (hv : ∀ i, i < shmPages vaddr size → rangePage vaddr i < pageOffset)
    (hk : ∀ i, i < shmPages vaddr size → x.foreign (kladdr i) = true) :
    Reversible x vaddr size kladdr ↔
      if shmPages vaddr size = 0 then x.tableEmpty (va2pd vaddr) = false
      else Fits x vaddr (shmPages vaddr size) ∨ Inert x vaddr (shmPages vaddr size) := by
  split
  · rename_i hn
    exact reversible_empty hn
  rename_i hn
  have hpos : 0 < shmPages vaddr size := Nat.pos_of_ne_zero hn
  have hi : va2pd vaddr < userTables := rangePage_zero vaddr ▸ va2pd_lt (hv 0 hpos)
  obtain ⟨y, hy, hran⟩ := mapCalls_comes hx hs hv hk
  constructor
  · rintro ⟨y', hy', hback, hsame⟩
    obtain rfl : y = y' := Option.some.inj (hy.symm.trans hy')
    by_cases hall : MapsRange x y vaddr size
    · left
      obtain ⟨z, hz, hr⟩ := hback hall
      obtain ⟨u, hu, hb⟩ := unmapCalls_back hx hran hv hall
      obtain rfl := Option.some.inj ((xmShmUnmap_eq hu).symm.trans hz)
      refine hb.fits hran hi hall (fun ht hno => ?_) hr
      have hfree := firstPage_none hx hs hv ht hno hy
      rw [(hall 0 hpos).2] at hfree
      cases hfree
    · exact .inr (inert_of_same hx hs hv hy (hsame hall))
  · rintro (hf | hf)
    · obtain ⟨hran, hfirst, hused⟩ := hf.run hx hs hv hpos hy
      have hall : MapsRange x y vaddr size := fun i hin => ⟨hf.unused i hin, hused i hin⟩
      obtain ⟨u, hu, hb⟩ := unmapCalls_back hx hran hv hall
      exact ⟨y, hy, fun _ => ⟨_, xmShmUnmap_eq hu, hb.restored hx hf hi hfirst⟩,
        fun hnot => absurd hall hnot⟩
    · have hsame := (hf.run hx hs hv hy).same
      refine ⟨y, hy, fun hall => ?_, fun _ => hsame⟩
      obtain ⟨hfree, hpresent⟩ := hall 0 hpos
      rw [used, hsame.mapping _ (hv 0 hpos)] at hpresent
      rw [used, hpresent] at hfree
      cases hfree

end

/-- A directory without tables; the frames from 100 on are of the kernel. -/
def noTables : Option Mm :=
  { noPages with foreign := fun f => decide (100 ≤ f) }.createPageDirectory fun _ => {}

/-- Two pages of one table, which the map makes and the unmapping frees. -/
theorem reversible_one_table : ∃ x, noTables = some x ∧
    Reversible x 0x1000000 0x2000 fun i => 100 + i := by
  have hrun : noTables.any (fun (x : Mm) => decide (x.Sound ∧ x.table 0x1000000 = false ∧
      x.answers.head?.join ≠ none) &&
      decide (∀ i : Nat, i < 2 → x.foreign (100 + i) = true ∧
        x.used (rangePage 0x1000000 i) = false)) = true := by decide +kernel
  obtain ⟨x, hx, hp⟩ := (Option.any_eq_true ..).mp hrun
  obtain ⟨hp, hpages⟩ := Bool.and_eq_true_iff.mp hp
  obtain ⟨hs, ht, hpage⟩ := of_decide_eq_true hp
  have hpages : ∀ i, i < 2 → x.foreign (100 + i) = true ∧ x.used (rangePage 0x1000000 i) = false :=
    of_decide_eq_true hpages
  have hv : ∀ i, i < shmPages 0x1000000 0x2000 → rangePage 0x1000000 i < pageOffset := by decide
  have hk : ∀ i, i < shmPages 0x1000000 0x2000 → x.foreign (100 + i) = true :=
    fun i hi => (hpages i hi).1
  refine ⟨x, hx, (reversible_iff (createPageDirectory_built rfl hx) hs hv hk).mpr ?_⟩
  refine .inl ⟨fun i hi => (hpages i hi).2, ?_, .inr ⟨ht, hpage⟩⟩
  intro i hi hne
  have hsame : ∀ i, i < 2 → va2pd (rangePage 0x1000000 i) = va2pd 0x1000000 := by decide
  exact absurd (hsame i hi) hne

/-- The second of two pages is in the next table, which the unmapping leaves. -/
theorem reversible_two_tables : ∃ x, noTables = some x ∧ x.Built ∧ x.Sound ∧
    ¬Reversible x 0x7FF000 0x2000 fun i => 100 + i := by
  have hrun : noTables.any (fun (x : Mm) => decide x.Sound &&
      ((xmShmMap 0x7FF000 0x2000 fun i => 100 + i).foldlM step x).any fun (y : Mm) =>
        decide (MapsRange x y 0x7FF000 0x2000) &&
        ((xmShmUnmap 0x7FF000 0x2000).foldlM step y).any fun (z : Mm) =>
          decide (z.mem z.pd 2 ≠ x.mem x.pd 2)) = true := by decide +kernel
  obtain ⟨x, hx, hp⟩ := (Option.any_eq_true ..).mp hrun
  obtain ⟨hs, hp⟩ := Bool.and_eq_true_iff.mp hp
  obtain ⟨y, hy, hp⟩ := (Option.any_eq_true ..).mp hp
  obtain ⟨hall, hp⟩ := Bool.and_eq_true_iff.mp hp
  obtain ⟨z, hz, hleft⟩ := (Option.any_eq_true ..).mp hp
  refine ⟨x, hx, createPageDirectory_built rfl hx, of_decide_eq_true hs, ?_⟩
  rintro ⟨y', hy', hback, -⟩
  obtain rfl := Option.some.inj (hy.symm.trans hy')
  obtain ⟨z', hz', hr⟩ := hback (of_decide_eq_true hall)
  obtain rfl := Option.some.inj (hz.symm.trans hz')
  exact of_decide_eq_true hleft (hr.dir 2)

end Mm

end Xmertl.Xtratum
