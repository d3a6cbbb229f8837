import Mathlib.Data.Fintype.Basic
import Mathlib.Tactic.FinCases
import Xmertl.Xtratum.PageAllocs
import Xmertl.Xtratum.Unload

/-!
# Spatial isolation

The page directories of all the domains in one memory, with one page allocator: created by
`load_domain_sys`, filled by it and by the devices, and destroyed by `unload_domain_sys`.
A frame that the walk of `destroy_page_directory` gives back is a device's no longer.
-/

namespace Xmertl.Xtratum

open Runs Ownership

-- ---------------------------------------------------------------------------
-- What one domain's calls write
-- ---------------------------------------------------------------------------

namespace Mm

variable {x y z : Mm} {i j v f t : Nat} {flags pdFlags : BitVec 12} {r : Option Nat}

theorem Built.pd_mem (hx : Built x) : x.pd ∈ x.pool := hx.own.given .dir x.pd rfl

theorem Built.table_mem (hx : Built x) (hi : i < userTables) (ht : (x.mem x.pd i).present = true) :
    (x.mem x.pd i).frame ∈ x.pool :=
  hx.own.given (.table i) _ (holds_table hi ht)

theorem fill_of_ne {k : Nat} {e : Entry} (h : t ≠ f) : (x.fill f k e).mem t = x.mem t :=
  Function.update_of_ne h ..

theorem allocPage_mem (h : x.allocPage = some (y, r)) (ht : t ∉ y.pool) : y.mem t = x.mem t := by
  rcases allocPage_cases h with ⟨answers, rfl, -⟩ | ⟨f, answers, -, -, rfl, -⟩
  · rfl
  · have hne : t ≠ f := fun he => ht (he ▸ List.mem_cons_self)
    exact Function.update_of_ne hne ..

theorem Built.getTable_mem (hx : Built x) (h : x.getTable i flags = some (y, r)) (ht : t ∉ y.pool) :
    y.mem t = x.mem t := by
  rw [Mm.getTable] at h
  split at h
  · obtain ⟨rfl, -⟩ := Prod.mk.inj (Option.some.inj h)
    rfl
  obtain ⟨⟨z, pt⟩, halloc, h⟩ := Option.bind_eq_some_iff.mp h
  have hsub := (allocPage_extends halloc).pool
  cases pt with
  | none =>
    obtain ⟨rfl, -⟩ := Prod.mk.inj (Option.some.inj h)
    exact allocPage_mem halloc ht
  | some pt =>
    obtain ⟨rfl, -⟩ := Prod.mk.inj (Option.some.inj h)
    have hne : t ≠ z.pd := by
      rintro rfl
      exact ht ((allocPage_extends halloc).pd ▸ hsub.subset hx.pd_mem)
    rw [fill_of_ne hne]
    exact allocPage_mem halloc ht

theorem Built.allocateUserPage_mem (hx : Built x) (h : x.allocateUserPage v = some (y, r))
    (ht : t ∉ y.pool) : y.mem t = x.mem t := by
  rw [Mm.allocateUserPage] at h
  split at h
  · obtain ⟨rfl, -⟩ := Prod.mk.inj (Option.some.inj h)
    rfl
  rename_i hv
  have hi : va2pd v < userTables := va2pd_lt (Nat.not_le.mp hv)
  obtain ⟨⟨z, pt⟩, htable, h⟩ := Option.bind_eq_some_iff.mp h
  obtain ⟨hz, -, hpt⟩ := hx.getTable hi present_user htable
  cases pt with
  | none =>
    obtain ⟨rfl, -⟩ := Prod.mk.inj (Option.some.inj h)
    exact hx.getTable_mem htable ht
  | some pt =>
    obtain ⟨hpresent, hframe⟩ := hpt pt rfl
    dsimp only at h
    split at h
    · obtain ⟨rfl, -⟩ := Prod.mk.inj (Option.some.inj h)
      exact hx.getTable_mem htable ht
    obtain ⟨⟨w, page⟩, halloc, h⟩ := Option.bind_eq_some_iff.mp h
    have hsub := (allocPage_extends halloc).pool
    have hw : t ∉ w.pool → w.mem t = x.mem t := fun hw =>
      (allocPage_mem halloc hw).trans (hx.getTable_mem htable (mt (hsub.subset ·) hw))
    cases page with
    | none =>
      obtain ⟨rfl, -⟩ := Prod.mk.inj (Option.some.inj h)
      exact hw ht
    | some page =>
      obtain ⟨rfl, -⟩ := Prod.mk.inj (Option.some.inj h)
      have hne : t ≠ pt := by
        rintro rfl
        exact ht (hsub.subset (hframe ▸ hz.table_mem hi hpresent))
      rw [fill_of_ne hne]
      exact hw ht

theorem Built.mapPage_mem (hx : Built x) (hv : v < pageOffset)
    (hpdFlags : ∀ f, (⟨f, pdFlags⟩ : Entry).present = true) {addr n : Nat}
    (h : x.mapPage pdFlags flags v addr = some (y, n)) (ht : t ∉ y.pool) : y.mem t = x.mem t := by
  have hi : va2pd v < userTables := va2pd_lt hv
  rw [Mm.mapPage] at h
  split at h
  · exact absurd h (by simp)
  obtain ⟨⟨z, pt⟩, htable, h⟩ := Option.bind_eq_some_iff.mp h
  obtain ⟨hz, -, hpt⟩ := hx.getTable hi hpdFlags htable
  cases pt with
  | none =>
    obtain ⟨rfl, -⟩ := Prod.mk.inj (Option.some.inj h)
    exact hx.getTable_mem htable ht
  | some pt =>
    obtain ⟨hpresent, hframe⟩ := hpt pt rfl
    dsimp only at h
    split at h
    · obtain ⟨rfl, -⟩ := Prod.mk.inj (Option.some.inj h)
      exact hx.getTable_mem htable ht
    · obtain ⟨rfl, -⟩ := Prod.mk.inj (Option.some.inj h)
      have hne : t ≠ pt := by
        rintro rfl
        exact ht (hframe ▸ hz.table_mem hi hpresent)
      rw [fill_of_ne hne]
      exact hx.getTable_mem htable ht

/-- What a call for a domain leaves as it was: all but the frames that the domain has, before
or after it. -/
structure Confined (x y : Mm) : Prop where
  pd : y.pd = x.pd
  foreign : y.foreign = x.foreign
  mem : ∀ t, t ∉ x.pool → t ∉ y.pool → y.mem t = x.mem t

theorem Confined.of_extends (h : Extends x y) (hm : ∀ t, t ∉ y.pool → y.mem t = x.mem t) :
    Confined x y := ⟨h.pd, h.foreign, fun t _ ht => hm t ht⟩

theorem mapPage_extends {addr n : Nat} (h : x.mapPage pdFlags flags v addr = some (y, n)) :
    Extends x y := by
  rw [mapPage] at h
  split at h
  · exact absurd h (by simp)
  obtain ⟨⟨z, pt⟩, htable, h⟩ := Option.bind_eq_some_iff.mp h
  have hz := getTable_extends htable
  cases pt with
  | none =>
    obtain ⟨rfl, -⟩ := Prod.mk.inj (Option.some.inj h)
    exact hz
  | some pt =>
    dsimp only at h
    split at h
    · obtain ⟨rfl, -⟩ := Prod.mk.inj (Option.some.inj h)
      exact hz
    · obtain ⟨rfl, -⟩ := Prod.mk.inj (Option.some.inj h)
      exact hz.fill _ _ _

theorem freeTable_mem (ht : t ≠ x.pd) : (x.freeTable i).mem t = x.mem t := by
  rw [freeTable]
  split
  · exact fill_of_ne ht
  · rfl

theorem freeTable_foreign (x : Mm) (i : Nat) : (x.freeTable i).foreign = x.foreign := by
  rw [freeTable]
  split <;> rfl

theorem Built.confined (hx : Built x) {a : MmCall} (ha : x.Proper a) (h : x.step a = some y) :
    Confined x y := by
  cases a with
  | allocateUserPage vaddress =>
    obtain ⟨⟨z, r⟩, hcall, rfl⟩ := Option.map_eq_some_iff.mp h
    exact .of_extends (allocateUserPage_extends hcall) fun t => hx.allocateUserPage_mem hcall
  | xmMapPage addr vaddr =>
    obtain ⟨⟨z, r⟩, hcall, rfl⟩ := Option.map_eq_some_iff.mp h
    refine .of_extends (mapPage_extends hcall) fun t => hx.mapPage_mem ha (fun f => ?_) hcall
    rw [present_mk]
    decide
  | kmemPageMap dvaddr kladdr =>
    obtain ⟨⟨z, r⟩, hcall, rfl⟩ := Option.map_eq_some_iff.mp h
    refine .of_extends (mapPage_extends hcall) fun t => hx.mapPage_mem ha (fun f => ?_) hcall
    rw [present_mk]
    decide
  | kmemPageUnmap dvaddr =>
    obtain rfl := Option.some.inj h
    have hi : va2pd dvaddr < userTables := va2pd_lt ha.1
    rw [Mm.kmemPageUnmap]
    split
    · rename_i hpresent
      dsimp only
      split
      · refine ⟨rfl, rfl, fun t ht _ => fill_of_ne ?_⟩
        rintro rfl
        exact ht (hx.table_mem hi hpresent)
      · exact ⟨rfl, rfl, fun _ _ _ => rfl⟩
    · exact ⟨rfl, rfl, fun _ _ _ => rfl⟩
  | freeTable pdEntry =>
    obtain rfl := Option.some.inj h
    refine ⟨freeTable_pd x pdEntry, freeTable_foreign x pdEntry, fun t ht _ => freeTable_mem ?_⟩
    rintro rfl
    exact ht hx.pd_mem

theorem Built.dropPage_mem (hx : Built x) (hi : i < userTables)
    (hp : (x.mem x.pd i).present = true) (ht : t ∉ x.pool) : (x.dropPage i j).mem t = x.mem t := by
  rw [Mm.dropPage]
  split
  · refine fill_of_ne ?_
    rintro rfl
    exact ht (hx.table_mem hi hp)
  · rfl

theorem Built.freeUserPage_mem (hx : Built x) (hv : v < pageOffset) (ht : t ∉ x.pool) :
    (x.freeUserPage v).mem t = x.mem t := by
  by_cases hp : (x.mem x.pd (va2pd v)).present = true
  · have hne : t ≠ (x.dropPage (va2pd v) (va2pt v)).pd := by
      rintro rfl
      rw [dropPage_pd] at ht
      exact ht hx.pd_mem
    rw [freeUserPage_present hv hp, freeTable_mem hne]
    exact hx.dropPage_mem (va2pd_lt hv) hp ht
  · rw [freeUserPage_absent (Bool.not_eq_true _ ▸ hp)]

theorem freeTable_pool (x : Mm) (i : Nat) : (x.freeTable i).pool ⊆ x.pool := by
  rw [freeTable]
  split
  · exact fun f hf => List.mem_of_mem_erase hf
  · exact fun f hf => hf

theorem dropPage_pool (x : Mm) (i j : Nat) : (x.dropPage i j).pool ⊆ x.pool := by
  rw [dropPage]
  split
  · exact fun f hf => List.mem_of_mem_erase hf
  · exact fun f hf => hf

theorem freeUserPage_pool (hv : v < pageOffset) : (x.freeUserPage v).pool ⊆ x.pool := by
  by_cases hp : (x.mem x.pd (va2pd v)).present = true
  · rw [freeUserPage_present hv hp]
    exact fun f hf => dropPage_pool x _ _ (freeTable_pool _ _ hf)
  · rw [freeUserPage_absent (Bool.not_eq_true _ ▸ hp)]
    exact fun f hf => hf

theorem Built.freeUserPages_mem (hx : Built x) (n : Nat) (hn : n ≤ userTables * 1024) :
    (x.freeUserPages n).pool ⊆ x.pool ∧ ∀ t, t ∉ x.pool → (x.freeUserPages n).mem t = x.mem t := by
  induction n with
  | zero => exact ⟨fun f hf => hf, fun _ _ => rfl⟩
  | succ n ih =>
    obtain ⟨hsub, hmem⟩ := ih (by omega)
    have hv : n * 0x1000 < pageOffset := by
      rw [userTables] at hn
      rw [pageOffset]
      omega
    rw [freeUserPages_succ]
    refine ⟨fun f hf => hsub (freeUserPage_pool hv hf), fun t ht => ?_⟩
    have hbuilt := (hx.freeUserPages n (by omega)).built
    rw [hbuilt.freeUserPage_mem hv (mt (hsub ·) ht), hmem t ht]

theorem destroy_eq (x : Mm) :
    x.destroyPageDirectory = (x.freeUserPages (userTables * 1024)).releasePage x.pd := rfl

theorem releasePage_mem (x : Mm) (page : Nat) : (x.releasePage page).mem = x.mem := rfl

theorem Built.destroy_mem (hx : Built x) (ht : t ∉ x.pool) :
    x.destroyPageDirectory.mem t = x.mem t := by
  rw [destroy_eq, releasePage_mem]
  exact (hx.freeUserPages_mem _ (Nat.le_refl _)).2 t ht

theorem Built.destroy_pool (hx : Built x) : x.destroyPageDirectory.pool = [] := by
  rw [destroy_eq, releasePage, hx.pool_left, List.erase_cons_head]

theorem createPageDirectory_confined {kernel : Nat → Entry}
    (h : x.createPageDirectory kernel = some y) :
    y.foreign = x.foreign ∧ ∀ t, t ∉ y.pool → y.mem t = x.mem t := by
  obtain ⟨⟨z, r⟩, halloc, h⟩ := Option.bind_eq_some_iff.mp h
  obtain ⟨pd, rfl, h⟩ := Option.bind_eq_some_iff.mp h
  rcases allocPage_cases halloc with ⟨answers, -, hr⟩ | ⟨f, answers, -, -, rfl, hr⟩
  · cases hr
  obtain rfl := Option.some.inj hr
  obtain rfl := Option.some.inj h
  refine ⟨rfl, fun t ht => ?_⟩
  have hne : t ≠ pd := by
    rintro rfl
    exact ht List.mem_cons_self
  exact (Function.update_of_ne hne ..).trans (Function.update_of_ne hne ..)

theorem Built.destroy_freed (hx : Built x) (hfreed : x.freed = []) (hnone : ∀ vaddr, ¬x.Shared vaddr)
    (hf : f ∈ x.destroyPageDirectory.freed) : x.foreign f = false := by
  have hsame : ({ x with freed := [] } : Mm) = x := by rw [← hfreed]
  have hperm := (hx.exact_iff.mpr hnone).1
  rw [destroyed, hsame] at hperm
  exact hx.mine f (hperm.mem_iff.mp hf)

theorem Built.entry_congr (hx : Built x) (hpd : y.pd = x.pd) (hm : ∀ t ∈ x.pool, y.mem t = x.mem t)
    (hi : i < userTables) : y.mem y.pd i = x.mem x.pd i ∧ y.entry i j = x.entry i j := by
  have hdir : y.mem y.pd i = x.mem x.pd i := by rw [hpd, hm _ hx.pd_mem]
  refine ⟨hdir, ?_⟩
  rw [entry, entry, hdir]
  split
  · rename_i hp
    rw [hm _ (hx.table_mem hi hp)]
  · rfl

theorem Built.congr (hx : Built x) (hpd : y.pd = x.pd) (hpool : y.pool = x.pool)
    (hforeign : y.foreign = x.foreign) (hm : ∀ t ∈ x.pool, y.mem t = x.mem t) : Built y := by
  have hholds : y.holds = x.holds := by
    funext s
    cases s with
    | dir => rw [holds, holds, hpd]
    | table i =>
      rw [holds, holds]
      by_cases hi : i < userTables
      · rw [(hx.entry_congr (j := 0) hpd hm hi).1]
      · simp [hi]
    | page i j =>
      rw [holds, holds]
      split
      · rename_i hi
        rw [(hx.entry_congr hpd hm hi.1).2]
      · rfl
  refine ⟨⟨fun i hi => ?_, fun i j hi hj => ?_, fun i j hi hj => ?_⟩, ?_, fun f hf => ?_⟩
  · rw [(hx.entry_congr (j := 0) hpd hm hi).1]
    exact hx.shape.dir i hi
  · rw [(hx.entry_congr hpd hm hi).2]
    exact hx.shape.pages i j hi hj
  · rw [(hx.entry_congr hpd hm hi).2, hforeign]
    exact hx.shape.marked i j hi hj
  · rw [hholds, hpool]
    exact hx.own
  · rw [hforeign]
    exact hx.mine f (hpool ▸ hf)

end Mm

-- ---------------------------------------------------------------------------
-- The domains
-- ---------------------------------------------------------------------------

/-- `pool` are the frames that each domain has from the page allocator. -/
structure Paging (D : Type) where
  mem : Nat → Nat → Entry
  pd : D → Option Nat
  pool : D → List Nat
  answers : List (Option Nat)
  devices : Nat → Bool

inductive PagingCall
  | create
  | call (a : MmCall)
  | destroy

namespace Paging

section
variable {D : Type}

def view (x : Paging D) (d : D) (pd : Nat) : Mm where
  mem := x.mem
  pd := pd
  pool := x.pool d
  freed := []
  answers := x.answers
  foreign := x.devices

/-- The entry at an address of domain `d`. -/
def mapping (x : Paging D) (d : D) (vaddr : Nat) : Entry :=
  match x.pd d with
  | none => {}
  | some pd => (x.view d pd).entry (va2pd vaddr) (va2pt vaddr)

/-- Domain `d` has the frame at one of its addresses. -/
def Reaches (x : Paging D) (d : D) (f : Nat) : Prop :=
  ∃ vaddr, vaddr < pageOffset ∧ (x.mapping d vaddr).present = true ∧ (x.mapping d vaddr).frame = f

/-- The frame is the page directory or one of the page tables of domain `d`. -/
def Tables (x : Paging D) (d : D) (f : Nat) : Prop :=
  ∃ pd, x.pd d = some pd ∧ (f = pd ∨
    ∃ i, i < userTables ∧ (x.mem pd i).present = true ∧ (x.mem pd i).frame = f)

structure Sound (x : Paging D) : Prop where
  built : ∀ d pd, x.pd d = some pd → (x.view d pd).Built
  gone : ∀ d, x.pd d = none → x.pool d = []
  apart : ∀ d e f, d ≠ e → f ∈ x.pool d → f ∉ x.pool e

/-- All that another domain's calls leave of a domain. -/
structure Apart (x y : Paging D) (e : D) : Prop where
  pd : y.pd e = x.pd e
  mem : ∀ t ∈ x.pool e, y.mem t = x.mem t

variable {x y : Paging D} {d e : D} {f : Nat}

theorem Sound.reaches (hx : x.Sound) (h : x.Reaches d f) :
    x.devices f = true ∨ ∃ p i j, x.pd d = some p ∧ (x.view d p).holds (.page i j) = some f := by
  obtain ⟨vaddr, hv, hp, rfl⟩ := h
  have hi := Mm.va2pd_lt hv
  have hj := Mm.va2pt_lt vaddr
  cases hpd : x.pd d with
  | none =>
    simp only [mapping, hpd] at hp
    exact absurd hp (by decide)
  | some p =>
    simp only [mapping, hpd] at hp ⊢
    by_cases hmark : ((x.view d p).entry (va2pd vaddr) (va2pt vaddr)).unused1 = true
    · exact .inl ((hx.built d p hpd).shape.marked _ _ hi hj hp hmark)
    · refine .inr ⟨p, va2pd vaddr, va2pt vaddr, rfl, ?_⟩
      rw [Mm.holds_page hi hj, Entry.own, hp]
      simp [hmark]

theorem Sound.own (hx : x.Sound) {p : Nat} {s : Slot} (hp : x.pd d = some p)
    (hs : (x.view d p).holds s = some f) : f ∈ x.pool d ∧ x.devices f = false := by
  have hbuilt := hx.built d p hp
  have hf := hbuilt.own.given s f hs
  exact ⟨hf, hbuilt.mine f hf⟩

theorem Sound.shared (hx : x.Sound) (hne : d ≠ e) (hd : x.Reaches d f) (he : x.Reaches e f) :
    x.devices f = true := by
  rcases hx.reaches hd with h | ⟨p, i, j, hp, hs⟩
  · exact h
  rcases hx.reaches he with h | ⟨p', i', j', hp', hs'⟩
  · exact h
  exact absurd (hx.own hp' hs').1 (hx.apart d e f hne (hx.own hp hs).1)

theorem Sound.tables (hx : x.Sound) (hd : x.Reaches d f) : ¬x.Tables e f := by
  rintro ⟨p', hp', htable⟩
  obtain ⟨s, hs, hslot⟩ : ∃ s, (x.view e p').holds s = some f ∧ ∀ i j, s ≠ .page i j := by
    rcases htable with rfl | ⟨i, hi, hpresent, rfl⟩
    · exact ⟨.dir, rfl, fun _ _ h => by cases h⟩
    · exact ⟨.table i, Mm.holds_table (x := x.view e p') hi hpresent, fun _ _ h => by cases h⟩
  obtain ⟨hpool, hdev⟩ := hx.own hp' hs
  rcases hx.reaches hd with h | ⟨p, i, j, hp, hpage⟩
  · rw [hdev] at h
    cases h
  · by_cases hde : d = e
    · subst hde
      obtain rfl := Option.some.inj (hp.symm.trans hp')
      exact hslot i j ((hx.built d p hp).own.one s _ f hs hpage)
    · exact hx.apart d e f hde (hx.own hp hpage).1 hpool

theorem Sound.mapping_apart (hx : x.Sound) (h : Apart x y e) {vaddr : Nat} (hv : vaddr < pageOffset) :
    y.mapping e vaddr = x.mapping e vaddr := by
  rw [mapping, mapping, h.pd]
  cases hpd : x.pd e with
  | none => rfl
  | some p =>
    exact ((hx.built e p hpd).entry_congr (y := y.view e p) rfl h.mem (Mm.va2pd_lt hv)).2

variable [DecidableEq D] [Fintype D]

/-- The page allocator gives no frame that a domain has. -/
def Fresh (x : Paging D) (d : D) (y : Mm) : Prop := ∀ f ∈ y.pool, ∀ e, e ≠ d → f ∉ x.pool e

instance (x : Paging D) (d : D) (y : Mm) : Decidable (x.Fresh d y) :=
  inferInstanceAs (Decidable (∀ f ∈ y.pool, ∀ e, e ≠ d → f ∉ x.pool e))

/-- The state when the call for `d` has left `y`. -/
def put (x : Paging D) (d : D) (pd : Option Nat) (y : Mm) : Option (Paging D) :=
  if x.Fresh d y then
    some
      { x with
        mem := y.mem
        pd := Function.update x.pd d pd
        pool := Function.update x.pool d y.pool
        answers := y.answers }
  else none

/-- A directory that there is no page for is not created. -/
def step (kernel : Nat → Entry) (x : Paging D) (c : D × PagingCall) : Option (Paging D) :=
  match c.2, x.pd c.1 with
  | .create, none =>
    match (x.view c.1 0).allocPage with
    | none => none
    | some (y, none) => x.put c.1 none y
    | some (_, some _) =>
      ((x.view c.1 0).createPageDirectory kernel).bind fun y => x.put c.1 (some y.pd) y
  | .call a, some pd => ((x.view c.1 pd).step a).bind fun y => x.put c.1 (some pd) y
  | .destroy, some pd =>
    let y := (x.view c.1 pd).destroyPageDirectory
    (x.put c.1 none y).map fun x =>
      { x with devices := fun f => x.devices f && decide (f ∉ y.freed) }
  | _, _ => none

/-- The devices map and unmap in the domains' part, and what they map are frames of theirs; a
directory is destroyed when they have unmapped everything. -/
def Proper (x : Paging D) (c : D × PagingCall) : Prop :=
  match c.2, x.pd c.1 with
  | .call a, some pd => (x.view c.1 pd).Proper a
  | .destroy, some pd => ∀ vaddr, ¬(x.view c.1 pd).Shared vaddr
  | _, _ => True

variable {pd : Option Nat} {z : Mm} {kernel : Nat → Entry} {c : D × PagingCall}

theorem put_cases (h : x.put d pd z = some y) : x.Fresh d z ∧
    y = { x with mem := z.mem, pd := Function.update x.pd d pd,
                 pool := Function.update x.pool d z.pool, answers := z.answers } := by
  rw [put] at h
  obtain ⟨hfresh, h⟩ := Option.ite_none_right_eq_some.mp h
  exact ⟨hfresh, (Option.some.inj h).symm⟩

theorem Sound.put_apart (hx : x.Sound) (h : x.put d pd z = some y)
    (hm : ∀ t, t ∉ x.pool d → t ∉ z.pool → z.mem t = x.mem t) (he : e ≠ d) : Apart x y e := by
  obtain ⟨hfresh, rfl⟩ := put_cases h
  exact ⟨Function.update_of_ne he .., fun t ht =>
    hm t (fun hd => hx.apart d e t he.symm hd ht) fun hz => hfresh t hz e he ht⟩

theorem Sound.put (hx : x.Sound) (h : x.put d pd z = some y)
    (hm : ∀ t, t ∉ x.pool d → t ∉ z.pool → z.mem t = x.mem t) (hnone : pd = none → z.pool = [])
    (hsome : ∀ p, pd = some p → z.Built ∧ z.pd = p ∧ z.foreign = x.devices) : y.Sound := by
  have hother : ∀ e, e ≠ d → Apart x y e := fun e he => hx.put_apart h hm he
  obtain ⟨hfresh, rfl⟩ := put_cases h
  refine ⟨fun e p hp => ?_, fun e hp => ?_, fun e e' f hne hf => ?_⟩
  · by_cases he : e = d
    · subst he
      obtain ⟨hz, hpd, hforeign⟩ := hsome p ((Function.update_self e pd x.pd).symm.trans hp)
      have hpool : Function.update x.pool e z.pool e = z.pool := Function.update_self ..
      exact hz.congr hpd.symm hpool hforeign.symm fun _ _ => rfl
    · have hxe : x.pd e = some p := (hother e he).pd.symm.trans hp
      exact (hx.built e p hxe).congr rfl (Function.update_of_ne he ..) rfl (hother e he).mem
  · by_cases he : e = d
    · subst he
      have hz := hnone ((Function.update_self e pd x.pd).symm.trans hp)
      exact (Function.update_self e z.pool x.pool).trans hz
    · exact (Function.update_of_ne he ..).trans (hx.gone e ((hother e he).pd.symm.trans hp))
  · dsimp only at hf ⊢
    by_cases he : e = d
    · have he' : e' ≠ d := fun h' => hne (he.trans h'.symm)
      rw [he, Function.update_self] at hf
      rw [Function.update_of_ne he']
      exact hfresh f hf e' he'
    · rw [Function.update_of_ne he] at hf
      by_cases he' : e' = d
      · rw [he', Function.update_self]
        exact fun hz => hfresh f hz e he hf
      · rw [Function.update_of_ne he']
        exact hx.apart e e' f hne hf

/-- A step keeps the directories sound and the devices' frames theirs, and writes to no frame
of another domain. -/
theorem Sound.step (hx : x.Sound) (hc : x.Proper c) (h : x.step kernel c = some y) :
    y.Sound ∧ y.devices = x.devices ∧ ∀ e, e ≠ c.1 → Apart x y e := by
  obtain ⟨d, a⟩ := c
  cases hpd : x.pd d with
  | none =>
    cases a with
    | create =>
      simp only [Paging.step, hpd] at h
      split at h
      · cases h
      · rename_i z halloc
        have hsame : z.mem = x.mem ∧ z.pool = x.pool d := by
          rcases Mm.allocPage_cases halloc with ⟨answers, rfl, -⟩ | ⟨f, answers, -, -, -, hr⟩
          · exact ⟨rfl, rfl⟩
          · cases hr
        have hm : ∀ t, t ∉ x.pool d → t ∉ z.pool → z.mem t = x.mem t := fun t _ _ => by rw [hsame.1]
        refine ⟨hx.put h hm (fun _ => hsame.2.trans (hx.gone d hpd)) (fun p hp => by cases hp), ?_,
          fun e => hx.put_apart h hm⟩
        obtain ⟨-, rfl⟩ := put_cases h
        rfl
      · obtain ⟨z, hz, h⟩ := Option.bind_eq_some_iff.mp h
        obtain ⟨hforeign, hkept⟩ := Mm.createPageDirectory_confined hz
        have hm : ∀ t, t ∉ x.pool d → t ∉ z.pool → z.mem t = x.mem t := fun t _ => hkept t
        refine ⟨hx.put h hm (fun hn => by cases hn) (fun p hp => ?_), ?_, fun e => hx.put_apart h hm⟩
        · cases hp
          exact ⟨Mm.createPageDirectory_built (x := x.view d 0) (hx.gone d hpd) hz, rfl, hforeign⟩
        · obtain ⟨-, rfl⟩ := put_cases h
          rfl
    | call a => simp only [Paging.step, hpd] at h; cases h
    | destroy => simp only [Paging.step, hpd] at h; cases h
  | some pd =>
    have hview := hx.built d pd hpd
    cases a with
    | create => simp only [Paging.step, hpd] at h; cases h
    | call a =>
      simp only [Paging.step, hpd] at h
      simp only [Paging.Proper, hpd] at hc
      obtain ⟨z, hz, h⟩ := Option.bind_eq_some_iff.mp h
      obtain ⟨hzpd, hforeign, hm⟩ := hview.confined hc hz
      refine ⟨hx.put h hm (fun hn => by cases hn) (fun p hp => ?_), ?_, fun e => hx.put_apart h hm⟩
      · cases hp
        exact ⟨hview.step hc hz, hzpd, hforeign⟩
      · obtain ⟨-, rfl⟩ := put_cases h
        rfl
    | destroy =>
      simp only [Paging.step, hpd] at h
      simp only [Paging.Proper, hpd] at hc
      obtain ⟨z, hz, rfl⟩ := Option.map_eq_some_iff.mp h
      have hm : ∀ t, t ∉ x.pool d → t ∉ (x.view d pd).destroyPageDirectory.pool →
          (x.view d pd).destroyPageDirectory.mem t = x.mem t := fun t ht _ => hview.destroy_mem ht
      have hsame : z.devices = x.devices := by
        obtain ⟨-, rfl⟩ := put_cases hz
        rfl
      have hdevices : (fun f => z.devices f &&
          decide (f ∉ (x.view d pd).destroyPageDirectory.freed)) = z.devices := by
        funext f
        by_cases hf : f ∈ (x.view d pd).destroyPageDirectory.freed
        · have hmine := hview.destroy_freed rfl hc hf
          rw [hsame, show x.devices f = false from hmine, Bool.false_and]
        · rw [decide_eq_true hf, Bool.and_true]
      rw [hdevices]
      exact ⟨hx.put hz hm (fun _ => hview.destroy_pool) (fun p hp => by cases hp), hsame,
        fun e => hx.put_apart hz hm⟩

/-- Whatever the domains' memory is used for, and in any order: no two domains have a frame in
common but devices' frames, none has a page directory or a page table at its addresses, and
what is done for a domain changes no address of another one. -/
theorem domains_isolated {x₀ : Paging D} {tr : List (Paging D × (D × PagingCall))}
    (hpd : ∀ d, x₀.pd d = none) (hpool : ∀ d, x₀.pool d = []) (hr : Run (step kernel) x₀ tr x)
    (hp : ∀ s ∈ tr, s.1.Proper s.2) :
    (∀ d e f, d ≠ e → x.Reaches d f → x.Reaches e f → x₀.devices f = true) ∧
      (∀ d e f, x.Reaches d f → ¬x.Tables e f) ∧
      ∀ c y, x.Proper c → x.step kernel c = some y → ∀ e, e ≠ c.1 → ∀ vaddr < pageOffset,
        y.mapping e vaddr = x.mapping e vaddr := by
  have hstart : x₀.Sound := by
    refine ⟨fun d p h => ?_, fun d _ => hpool d, fun d e f _ hf => ?_⟩
    · rw [hpd] at h
      cases h
    · rw [hpool] at hf
      cases hf
  obtain ⟨hx, hdev⟩ : x.Sound ∧ x.devices = x₀.devices :=
    hr.invariant (I := fun x => x.Sound ∧ x.devices = x₀.devices) ⟨hstart, rfl⟩ (fun s c y hs hc h => by
      obtain ⟨hy, hsame, -⟩ := hs.1.step hc h
      exact ⟨hy, hsame.trans hs.2⟩) hp
  refine ⟨fun d e f hne hd he => ?_, fun d e f hd => hx.tables hd, fun c y hc h e he vaddr hv => ?_⟩
  · rw [← hdev]
    exact hx.shared hne hd he
  · obtain ⟨-, -, hother⟩ := hx.step hc h
    exact hx.mapping_apart (hother e he) hv

end

/-- A page allocator that fails once, and a device's frame 50. -/
def examplePaging : Paging Bool where
  mem := fun _ _ => {}
  pd := fun _ => none
  pool := fun _ => []
  answers := [some 10, some 11, some 12, none, some 13, some 14]
  devices := fun f => f = 50

/-- Both domains map the device's frame, at different addresses. -/
def examplePagingCalls : List (Bool × PagingCall) :=
  [(false, .create), (false, .call (.allocateUserPage 0x2000000)), (true, .create), (true, .create),
    (true, .call (.xmMapPage 50 0x2C00000)), (false, .call (.kmemPageMap 0x2001000 50))]

theorem examplePagingCalls_proper (x : Paging Bool) : ∀ c ∈ examplePagingCalls, x.Proper c := by
  rintro ⟨d, a⟩ hc
  rw [Proper]
  cases x.pd d with
  | none => cases a <;> trivial
  | some pd =>
    fin_cases hc
    · trivial
    · trivial
    · trivial
    · trivial
    · exact (by decide : 0x2C00000 < pageOffset)
    · exact (by decide : 0x2001000 < pageOffset)

theorem domains_isolated_run : ∃ tr x, Run (step fun _ => {}) examplePaging tr x ∧ tr.length = 6 ∧
    x.Reaches false 50 ∧ x.Reaches true 50 ∧
    (∀ d e f, d ≠ e → x.Reaches d f → x.Reaches e f → examplePaging.devices f = true) ∧
    (∀ d e f, x.Reaches d f → ¬x.Tables e f) ∧
    ∀ c y, x.Proper c → x.step (fun _ => {}) c = some y → ∀ e, e ≠ c.1 → ∀ vaddr < pageOffset,
      y.mapping e vaddr = x.mapping e vaddr := by
  have hrun : (exec (step fun _ => {}) examplePaging examplePagingCalls).any fun r =>
      decide (r.1.length = 6 ∧ (r.2.mapping false 0x2001000).present = true ∧
        (r.2.mapping false 0x2001000).frame = 50 ∧ (r.2.mapping true 0x2C00000).present = true ∧
        (r.2.mapping true 0x2C00000).frame = 50) := by
    decide +kernel
  obtain ⟨tr, x, hr, hcalls, hx⟩ := exec_any_actions hrun
  obtain ⟨hlen, hp, hf, hp', hf'⟩ := of_decide_eq_true hx
  refine ⟨tr, x, hr, hlen, ⟨_, by decide, hp, hf⟩, ⟨_, by decide, hp', hf'⟩,
    domains_isolated (fun _ => rfl) (fun _ => rfl) hr fun s hs => ?_⟩
  refine examplePagingCalls_proper s.1 s.2 (List.mem_reverse.mp ?_)
  rw [← hcalls]
  exact List.mem_map_of_mem hs

end Paging

end Xmertl.Xtratum
