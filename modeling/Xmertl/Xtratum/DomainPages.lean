import Xmertl.Lib.Ownership
import Xmertl.Xtratum.PageTables

/-!
# The frames of a domain

Each frame that the domain has from the page allocator stands in one place of its page
directory: as the directory, as a table, or as a page without a device's mark.
-/

namespace Xmertl.Xtratum

open Runs Ownership

/-- Where a domain's page directory holds a frame of the domain. -/
inductive Slot
  | dir
  | table (i : Nat)
  | page (i j : Nat)
  deriving DecidableEq

def userTables : Nat := 768

def Entry.own (e : Entry) : Option Nat := if e.present && !e.unused1 then some e.frame else none

namespace Mm

/-- The mapping in place `j` of table `i`. -/
def entry (x : Mm) (i j : Nat) : Entry :=
  if (x.mem x.pd i).present then x.mem (x.mem x.pd i).frame j else {}

def holds (x : Mm) : Slot → Option Nat
  | .dir => some x.pd
  | .table i =>
    if i < userTables ∧ (x.mem x.pd i).present = true then some (x.mem x.pd i).frame else none
  | .page i j => if i < userTables ∧ j < 1024 then (x.entry i j).own else none

/-- A device maps in the domain's own part, and unmaps no page of the domain's. A table is
looked for where there is one, or where the memory read in its place is not empty. -/
def Proper (x : Mm) : MmCall → Prop
  | .allocateUserPage _ => True
  | .xmMapPage _ vaddr => vaddr < pageOffset
  | .kmemPageMap dvaddr _ => dvaddr < pageOffset
  | .kmemPageUnmap dvaddr => dvaddr < pageOffset ∧
    ((x.entry (va2pd dvaddr) (va2pt dvaddr)).present = true →
      (x.entry (va2pd dvaddr) (va2pt dvaddr)).unused1 = true)
  | .freeTable i => i < userTables ∧ ((x.mem x.pd i).present = true ∨
    ((List.range 1024).all fun n => x.mem (x.mem x.pd i).frame n = {}) = false)

instance (x : Mm) : DecidablePred x.Proper
  | .allocateUserPage _ => .isTrue trivial
  | .xmMapPage _ vaddr => inferInstanceAs (Decidable (vaddr < pageOffset))
  | .kmemPageMap dvaddr _ => inferInstanceAs (Decidable (dvaddr < pageOffset))
  | .kmemPageUnmap _ => inferInstanceAs (Decidable (_ ∧ _))
  | .freeTable _ => inferInstanceAs (Decidable (_ ∧ _))

-- ---------------------------------------------------------------------------
-- Two levels of tables
-- ---------------------------------------------------------------------------

/-- What stands in the tables, whoever has the frames. -/
structure Shape (x : Mm) : Prop where
  dir : ∀ i, i < userTables → (x.mem x.pd i).present = true ∨ x.mem x.pd i = {}
  pages : ∀ i j, i < userTables → j < 1024 →
    (x.entry i j).present = true ∨ x.entry i j = {}
  marked : ∀ i j, i < userTables → j < 1024 → (x.entry i j).present = true →
    (x.entry i j).unused1 = true → x.foreign (x.entry i j).frame = true

def Apart (x : Mm) : Prop := ∀ s t f, x.holds s = some f → x.holds t = some f → s = t

structure Built (x : Mm) : Prop where
  shape : Shape x
  own : Owns x.holds x.pool
  mine : ∀ f ∈ x.pool, x.foreign f = false

variable {x y : Mm} {i j i' j' f : Nat} {e : Entry}

theorem holds_table (hi : i < userTables) (ht : (x.mem x.pd i).present = true) :
    x.holds (.table i) = some (x.mem x.pd i).frame := by
  simp [holds, hi, ht]

theorem holds_page (hi : i < userTables) (hj : j < 1024) :
    x.holds (.page i j) = (x.entry i j).own := by
  simp [holds, hi, hj]

theorem entry_absent (ht : (x.mem x.pd i).present = false) : x.entry i j = {} := by
  simp [entry, ht]

theorem entry_present (ht : (x.mem x.pd i).present = true) :
    x.entry i j = x.mem (x.mem x.pd i).frame j := by
  simp [entry, ht]

theorem Apart.ne_pd (ha : Apart x) (hi : i < userTables) (ht : (x.mem x.pd i).present = true) :
    (x.mem x.pd i).frame ≠ x.pd := by
  intro heq
  have hslot := ha (.table i) .dir x.pd (by rw [holds_table hi ht, heq]) rfl
  exact absurd hslot (by simp)

theorem Apart.tables (ha : Apart x) (hi : i < userTables) (hi' : i' < userTables)
    (ht : (x.mem x.pd i).present = true) (ht' : (x.mem x.pd i').present = true)
    (heq : (x.mem x.pd i).frame = (x.mem x.pd i').frame) : i = i' := by
  have hslot := ha (.table i) (.table i') _ (holds_table hi ht)
    (by rw [holds_table hi' ht', heq])
  exact Slot.table.inj hslot

@[simp] theorem fill_pd (x : Mm) (table k : Nat) (e : Entry) : (x.fill table k e).pd = x.pd := rfl

theorem fill_mem (x : Mm) (table k : Nat) (e : Entry) (t n : Nat) :
    (x.fill table k e).mem t n = if t = table ∧ n = k then e else x.mem t n := by
  by_cases ht : t = table
  · subst ht
    by_cases hn : n = k
    · simp [fill, hn]
    · simp [fill, hn]
  · simp [fill, ht]

section
variable (ha : Apart x) (hi : i < userTables) (ht : (x.mem x.pd i).present = true)
include ha hi ht

theorem fillPage_dir (i' : Nat) :
    (x.fill (x.mem x.pd i).frame j e).mem x.pd i' = x.mem x.pd i' := by
  rw [fill_mem, if_neg fun h => ha.ne_pd hi ht h.1.symm]

theorem fillPage_entry (hi' : i' < userTables) :
    (x.fill (x.mem x.pd i).frame j e).entry i' j' =
      if i' = i ∧ j' = j then e else x.entry i' j' := by
  rw [entry, fill_pd, fillPage_dir ha hi ht, fill_mem]
  by_cases ht' : (x.mem x.pd i').present = true
  · rw [if_pos ht', entry, if_pos ht']
    have hiff : (x.mem x.pd i').frame = (x.mem x.pd i).frame ↔ i' = i :=
      ⟨ha.tables hi' hi ht' ht, fun h => by rw [h]⟩
    simp only [hiff]
  · have hne : i' ≠ i := fun h => ht' (h ▸ ht)
    rw [if_neg ht', if_neg (fun h => hne h.1), entry, if_neg ht']

theorem fillPage_holds (hj : j < 1024) :
    (x.fill (x.mem x.pd i).frame j e).holds = Function.update x.holds (.page i j) e.own := by
  funext s
  cases s with
  | dir => rfl
  | table i' =>
    rw [Function.update_of_ne (by simp), holds, fill_pd, fillPage_dir ha hi ht]
    rfl
  | page i' j' =>
    by_cases hslot : i' = i ∧ j' = j
    · obtain ⟨rfl, rfl⟩ := hslot
      rw [Function.update_self, holds_page hi hj, fillPage_entry ha hi ht hi, if_pos ⟨rfl, rfl⟩]
    · rw [Function.update_of_ne fun h => hslot (Slot.page.inj h), holds, holds]
      by_cases hi' : i' < userTables
      · rw [fillPage_entry ha hi ht hi', if_neg hslot]
      · simp [hi']

theorem Shape.fillPage (hx : Shape x) (he : e.present = true ∨ e = {})
    (hm : e.present = true → e.unused1 = true → x.foreign e.frame = true) :
    Shape (x.fill (x.mem x.pd i).frame j e) where
  dir i' hi' := by
    rw [fill_pd, fillPage_dir ha hi ht]
    exact hx.dir i' hi'
  pages i' j' hi' hj' := by
    rw [fillPage_entry ha hi ht hi']
    split
    · exact he
    · exact hx.pages i' j' hi' hj'
  marked i' j' hi' hj' := by
    rw [fillPage_entry ha hi ht hi']
    split
    · exact hm
    · exact hx.marked i' j' hi' hj'

end

theorem fillDir_dir (x : Mm) (i : Nat) (e : Entry) (i' : Nat) :
    (x.fill x.pd i e).mem x.pd i' = if i' = i then e else x.mem x.pd i' := by
  rw [fill_mem]
  by_cases heq : i' = i
  · rw [if_pos ⟨rfl, heq⟩, if_pos heq]
  · rw [if_neg fun h => heq h.2, if_neg heq]

theorem freeTable_pd (x : Mm) (i : Nat) : (x.freeTable i).pd = x.pd := by
  rw [freeTable]
  split <;> rfl

theorem freeTable_dir (hi : i' ≠ i) : (x.freeTable i).mem x.pd i' = x.mem x.pd i' := by
  rw [freeTable]
  split
  · have hdir := fillDir_dir x i {} i'
    rw [if_neg hi] at hdir
    exact hdir
  · rfl

section
variable (ha : Apart x) (hi : i < userTables)
  (he : e.present = true → e.frame ≠ x.pd ∧ ∀ n, x.mem e.frame n = {})
  (hold : ∀ j, j < 1024 → (x.entry i j).present = false)
include ha he

theorem fillDir_entry (hi' : i' < userTables) :
    (x.fill x.pd i e).entry i' j' = if i' = i then {} else x.entry i' j' := by
  rw [entry, fill_pd, fillDir_dir]
  by_cases heq : i' = i
  · rw [if_pos heq, if_pos heq]
    by_cases hpresent : e.present = true
    · obtain ⟨hne, hempty⟩ := he hpresent
      rw [if_pos hpresent, fill_mem, if_neg fun h => hne h.1, hempty]
    · rw [if_neg hpresent]
  · rw [if_neg heq, if_neg heq, entry]
    by_cases ht' : (x.mem x.pd i').present = true
    · rw [if_pos ht', if_pos ht', fill_mem, if_neg fun h => ha.ne_pd hi' ht' h.1]
    · rw [if_neg ht', if_neg ht']

include hi hold in
theorem fillDir_holds :
    (x.fill x.pd i e).holds =
      Function.update x.holds (.table i) (if e.present then some e.frame else none) := by
  funext s
  cases s with
  | dir => rfl
  | table i' =>
    rw [holds, fill_pd, fillDir_dir]
    by_cases heq : i' = i
    · subst heq
      simp [hi]
    · rw [Function.update_of_ne fun h => heq (Slot.table.inj h), if_neg heq]
      rfl
  | page i' j' =>
    rw [Function.update_of_ne (by simp), holds, holds]
    by_cases hslot : i' < userTables ∧ j' < 1024
    · rw [if_pos hslot, if_pos hslot, fillDir_entry ha he hslot.1]
      split
      · rename_i heq
        subst heq
        rw [Entry.own, Entry.own, hold j' hslot.2]
        rfl
      · rfl
    · rw [if_neg hslot, if_neg hslot]

theorem Shape.fillDir (hx : Shape x) (hdir : e.present = true ∨ e = {}) :
    Shape (x.fill x.pd i e) where
  dir i' hi' := by
    rw [fill_pd, fillDir_dir]
    split
    · exact hdir
    · exact hx.dir i' hi'
  pages i' j' hi' hj' := by
    rw [fillDir_entry ha he hi']
    split
    · exact .inr rfl
    · exact hx.pages i' j' hi' hj'
  marked i' j' hi' hj' := by
    rw [fillDir_entry ha he hi']
    split
    · intro hpresent
      exact absurd hpresent (by decide)
    · exact hx.marked i' j' hi' hj'

end

theorem clearDir_entry (ha : Apart x) (hi' : i' < userTables) :
    (x.fill x.pd i {}).entry i' j' = if i' = i then {} else x.entry i' j' :=
  fillDir_entry ha (fun h => absurd h (by decide)) hi'

theorem all_empty {t : Nat} :
    ((List.range 1024).all fun n => x.mem t n = {}) = true ↔ ∀ n, n < 1024 → x.mem t n = {} := by
  rw [List.all_eq_true]
  constructor
  · intro h n hn
    exact of_decide_eq_true (h n (List.mem_range.mpr hn))
  · intro h n hn
    exact decide_eq_true (h n (List.mem_range.mp hn))

-- ---------------------------------------------------------------------------
-- Frames from the page allocator
-- ---------------------------------------------------------------------------

theorem Built.apart (hx : Built x) : Apart x := hx.own.one

/-- A frame that the allocator has just given, and that no table holds yet. -/
def taken (x : Mm) (f : Nat) (answers : List (Option Nat)) : Mm :=
  { x with mem := Function.update x.mem f fun _ => {}, pool := f :: x.pool, answers }

theorem allocPage_cases {r : Option Nat} (h : x.allocPage = some (y, r)) :
    (∃ answers, y = { x with answers } ∧ r = none) ∨
    ∃ f answers, f ∉ x.pool ∧ x.foreign f = false ∧ y = x.taken f answers ∧ r = some f := by
  rw [allocPage.eq_def] at h
  split at h
  · obtain ⟨rfl, rfl⟩ := Prod.mk.inj (Option.some.inj h)
    exact .inl ⟨x.answers, rfl, rfl⟩
  · rename_i answers _
    obtain ⟨rfl, rfl⟩ := Prod.mk.inj (Option.some.inj h)
    exact .inl ⟨answers, rfl, rfl⟩
  · rename_i f answers _
    split at h
    · exact absurd h (by simp)
    · rename_i hfree
      obtain ⟨hpool, hforeign⟩ := not_or.mp hfree
      obtain ⟨rfl, rfl⟩ := Prod.mk.inj (Option.some.inj h)
      exact .inr ⟨f, answers, hpool, Bool.not_eq_true _ ▸ hforeign, rfl, rfl⟩

section
variable {answers : List (Option Nat)}

theorem Built.answered (hx : Built x) : Built { x with answers } :=
  ⟨⟨hx.shape.dir, hx.shape.pages, hx.shape.marked⟩, hx.own, hx.mine⟩

variable (hx : Built x) (hf : f ∉ x.pool)
include hx hf

theorem taken_dir (i : Nat) : (x.taken f answers).mem x.pd i = x.mem x.pd i := by
  have hne : x.pd ≠ f := fun h => hf (h ▸ hx.own.given .dir x.pd rfl)
  simp [taken, hne]

theorem taken_entry (hi : i < userTables) :
    (x.taken f answers).entry i j = x.entry i j := by
  have hpd : (x.taken f answers).pd = x.pd := rfl
  rw [entry, hpd, taken_dir hx hf, entry]
  by_cases ht : (x.mem x.pd i).present = true
  · have hne : (x.mem x.pd i).frame ≠ f := fun h =>
      hf (h ▸ hx.own.given (.table i) _ (holds_table hi ht))
    rw [if_pos ht, if_pos ht]
    simp [taken, hne]
  · rw [if_neg ht, if_neg ht]

theorem taken_holds : (x.taken f answers).holds = x.holds := by
  have hpd : (x.taken f answers).pd = x.pd := rfl
  funext s
  cases s with
  | dir => rfl
  | table i => rw [holds, hpd, taken_dir hx hf, holds]
  | page i j =>
    rw [holds, holds]
    split
    · rename_i hslot
      rw [taken_entry hx hf hslot.1]
    · rfl

theorem taken_shape : Shape (x.taken f answers) where
  dir i hi := by
    have hpd : (x.taken f answers).pd = x.pd := rfl
    rw [hpd, taken_dir hx hf]
    exact hx.shape.dir i hi
  pages i j hi hj := by
    rw [taken_entry hx hf hi]
    exact hx.shape.pages i j hi hj
  marked i j hi hj := by
    rw [taken_entry hx hf hi]
    exact hx.shape.marked i j hi hj

theorem taken_apart : Apart (x.taken f answers) := by
  rw [Apart, taken_holds hx hf]
  exact hx.apart

theorem taken_mine (answers : List (Option Nat)) (hforeign : x.foreign f = false) :
    ∀ g ∈ (x.taken f answers).pool, (x.taken f answers).foreign g = false := by
  intro g hg
  rcases List.mem_cons.mp hg with rfl | hg
  · exact hforeign
  · exact hx.mine g hg

end

theorem Built.newTable (hx : Built x) (hi : i < userTables)
    (ht : (x.mem x.pd i).present = false) (hf : f ∉ x.pool) (hforeign : x.foreign f = false)
    {flags : BitVec 12} (hflags : (⟨f, flags⟩ : Entry).present = true)
    {answers : List (Option Nat)} :
    Built ((x.taken f answers).fill x.pd i ⟨f, flags⟩) := by
  have hne : f ≠ x.pd := fun h => hf (h ▸ hx.own.given .dir x.pd rfl)
  have hempty : ∀ n, (x.taken f answers).mem f n = {} := by
    intro n
    simp [taken]
  have he : (⟨f, flags⟩ : Entry).present = true → f ≠ x.pd ∧
      ∀ n, (x.taken f answers).mem f n = {} := fun _ => ⟨hne, hempty⟩
  have hold : ∀ j, j < 1024 → ((x.taken f answers).entry i j).present = false := by
    intro j _
    rw [taken_entry hx hf hi, entry_absent ht]
    rfl
  have hapart : Apart (x.taken f answers) := taken_apart hx hf
  refine ⟨(taken_shape hx hf).fillDir hapart he (.inl hflags), ?_,
    taken_mine hx hf answers hforeign⟩
  have hholds := fillDir_holds hapart hi he hold
  rw [if_pos hflags, taken_holds hx hf] at hholds
  have hnone : x.holds (.table i) = none := by
    rw [holds, if_neg]
    simp [ht]
  exact (congrArg (Owns · (f :: x.pool)) hholds).mpr (hx.own.take hnone hf)

theorem Built.newPage (hx : Built x) (hi : i < userTables) (hj : j < 1024)
    (ht : (x.mem x.pd i).present = true) (hp : (x.entry i j).present = false)
    (hf : f ∉ x.pool) (hforeign : x.foreign f = false) {flags : BitVec 12}
    (hflags : (⟨f, flags⟩ : Entry).own = some f) {answers : List (Option Nat)} :
    Built ((x.taken f answers).fill (x.mem x.pd i).frame j ⟨f, flags⟩) := by
  have hapart : Apart (x.taken f answers) := taken_apart hx hf
  have hdir : (x.taken f answers).mem (x.taken f answers).pd i = x.mem x.pd i :=
    taken_dir hx hf i
  have ht' : ((x.taken f answers).mem (x.taken f answers).pd i).present = true := by
    rw [hdir, ht]
  have hpresent : (⟨f, flags⟩ : Entry).present = true ∧ (⟨f, flags⟩ : Entry).unused1 = false := by
    simpa [Entry.own] using hflags
  rw [← hdir]
  refine ⟨(taken_shape hx hf).fillPage hapart hi ht' (.inl hpresent.1) ?_, ?_,
    taken_mine hx hf answers hforeign⟩
  · intro _ hmark
    rw [hpresent.2] at hmark
    exact absurd hmark (by simp)
  have hholds := fillPage_holds (e := ⟨f, flags⟩) hapart hi ht' hj
  rw [hflags, taken_holds hx hf] at hholds
  have hnone : x.holds (.page i j) = none := by
    rw [holds_page hi hj, Entry.own, hp]
    rfl
  exact (congrArg (Owns · (f :: x.pool)) hholds).mpr (hx.own.take hnone hf)

theorem Built.otherPage (hx : Built x) (hi : i < userTables) (hj : j < 1024)
    (ht : (x.mem x.pd i).present = true) (hp : (x.entry i j).own = none)
    (he : e.present = true ∧ e.unused1 = true ∧ x.foreign e.frame = true ∨ e = {}) :
    Built (x.fill (x.mem x.pd i).frame j e) := by
  have hown : e.own = none := by
    rcases he with ⟨hpresent, hmark, -⟩ | rfl
    · rw [Entry.own, hpresent, hmark]
      rfl
    · rfl
  refine ⟨hx.shape.fillPage hx.apart hi ht (he.imp And.left id) ?_, ?_, hx.mine⟩
  · intro hpresent _
    rcases he with he | rfl
    · exact he.2.2
    · exact absurd hpresent (by decide)
  have hholds := fillPage_holds (e := e) hx.apart hi ht hj
  rw [hown] at hholds
  have hsame : Function.update x.holds (.page i j) none = x.holds := by
    rw [← hp, ← holds_page hi hj]
    exact Function.update_eq_self _ _
  exact (congrArg (Owns · x.pool) (hholds.trans hsame)).mpr hx.own

-- ---------------------------------------------------------------------------
-- Calls
-- ---------------------------------------------------------------------------

variable {v : Nat} {flags pdFlags : BitVec 12}

theorem va2pd_lt (hv : v < pageOffset) : va2pd v < userTables := by
  rw [pageOffset] at hv
  rw [va2pd, userTables]
  omega

theorem va2pt_lt (v : Nat) : va2pt v < 1024 := Nat.mod_lt _ (by decide)

theorem present_mk (f : Nat) (flags : BitVec 12) :
    (⟨f, flags⟩ : Entry).present = decide (flags &&& pagePresent = pagePresent) := rfl

theorem unused1_mk (f : Nat) (flags : BitVec 12) :
    (⟨f, flags⟩ : Entry).unused1 = decide (flags &&& pageUnused1 = pageUnused1) := rfl

theorem present_user (f : Nat) :
    (⟨f, pagePresent ||| pageRw ||| pageUser⟩ : Entry).present = true := by
  rw [present_mk]
  decide

theorem own_user (f : Nat) : (⟨f, pagePresent ||| pageRw ||| pageUser⟩ : Entry).own = some f := by
  have hmark : (⟨f, pagePresent ||| pageRw ||| pageUser⟩ : Entry).unused1 = false := by
    rw [unused1_mk]
    decide
  simp [Entry.own, present_user, hmark]

theorem nflag_marked (f : Nat) :
    (⟨f, nflag⟩ : Entry).present = true ∧ (⟨f, nflag⟩ : Entry).unused1 = true := by
  rw [present_mk, unused1_mk]
  decide

theorem own_absent (he : e.present = false) : e.own = none := by
  simp [Entry.own, he]

theorem Built.getTable (hx : Built x) (hi : i < userTables)
    (hflags : ∀ f, (⟨f, flags⟩ : Entry).present = true) {r : Option Nat}
    (h : x.getTable i flags = some (y, r)) :
    Built y ∧ y.foreign = x.foreign ∧
      ∀ pt, r = some pt → (y.mem y.pd i).present = true ∧ (y.mem y.pd i).frame = pt := by
  rw [Mm.getTable] at h
  split at h
  · rename_i ht
    obtain ⟨rfl, rfl⟩ := Prod.mk.inj (Option.some.inj h)
    exact ⟨hx, rfl, fun pt hpt => ⟨ht, Option.some.inj hpt⟩⟩
  rename_i ht
  obtain ⟨⟨z, r'⟩, halloc, h⟩ := Option.bind_eq_some_iff.mp h
  rcases allocPage_cases halloc with ⟨answers, rfl, rfl⟩ | ⟨f, answers, hf, hforeign, rfl, rfl⟩
  · obtain ⟨rfl, rfl⟩ := Prod.mk.inj (Option.some.inj h)
    exact ⟨hx.answered, rfl, fun pt hpt => absurd hpt (by simp)⟩
  · obtain ⟨rfl, rfl⟩ := Prod.mk.inj (Option.some.inj h)
    refine ⟨hx.newTable hi (Bool.not_eq_true _ ▸ ht) hf hforeign (hflags f), rfl, ?_⟩
    intro pt hpt
    rw [fill_pd, fillDir_dir, if_pos rfl, ← Option.some.inj hpt]
    exact ⟨hflags f, rfl⟩

theorem Built.allocateUserPage (hx : Built x) {r : Option Nat}
    (h : x.allocateUserPage v = some (y, r)) : Built y := by
  rw [Mm.allocateUserPage] at h
  split at h
  · obtain ⟨rfl, -⟩ := Prod.mk.inj (Option.some.inj h)
    exact hx
  rename_i hv
  have hi : va2pd v < userTables := va2pd_lt (Nat.not_le.mp hv)
  obtain ⟨⟨z, pt⟩, htable, h⟩ := Option.bind_eq_some_iff.mp h
  obtain ⟨hz, -, hpt⟩ := hx.getTable hi present_user htable
  cases pt with
  | none =>
    obtain ⟨rfl, -⟩ := Prod.mk.inj (Option.some.inj h)
    exact hz
  | some pt =>
    obtain ⟨ht, hframe⟩ := hpt pt rfl
    dsimp only at h
    split at h
    · obtain ⟨rfl, -⟩ := Prod.mk.inj (Option.some.inj h)
      exact hz
    rename_i habsent
    obtain ⟨⟨z', page⟩, halloc, h⟩ := Option.bind_eq_some_iff.mp h
    rcases allocPage_cases halloc with ⟨answers, rfl, rfl⟩ |
      ⟨f, answers, hf, hforeign, rfl, rfl⟩
    · obtain ⟨rfl, -⟩ := Prod.mk.inj (Option.some.inj h)
      exact hz.answered
    · obtain ⟨rfl, -⟩ := Prod.mk.inj (Option.some.inj h)
      have hp : (z.entry (va2pd v) (va2pt v)).present = false := by
        rw [entry_present ht, hframe]
        exact Bool.not_eq_true _ ▸ habsent
      rw [← hframe]
      exact hz.newPage hi (va2pt_lt v) ht hp hf hforeign (own_user f)

theorem Built.mapPage (hx : Built x) (hv : v < pageOffset)
    (hpdFlags : ∀ f, (⟨f, pdFlags⟩ : Entry).present = true)
    (hflags : ∀ f, (⟨f, flags⟩ : Entry).present = true ∧ (⟨f, flags⟩ : Entry).unused1 = true)
    {addr r : Nat} (h : x.mapPage pdFlags flags v addr = some (y, r)) : Built y := by
  have hi : va2pd v < userTables := va2pd_lt hv
  rw [Mm.mapPage] at h
  split at h
  · exact absurd h (by simp)
  rename_i hforeign
  obtain ⟨⟨z, pt⟩, htable, h⟩ := Option.bind_eq_some_iff.mp h
  obtain ⟨hz, hsame, hpt⟩ := hx.getTable hi hpdFlags htable
  cases pt with
  | none =>
    obtain ⟨rfl, -⟩ := Prod.mk.inj (Option.some.inj h)
    exact hz
  | some pt =>
    obtain ⟨ht, hframe⟩ := hpt pt rfl
    dsimp only at h
    split at h
    · obtain ⟨rfl, -⟩ := Prod.mk.inj (Option.some.inj h)
      exact hz
    · rename_i habsent
      obtain ⟨rfl, -⟩ := Prod.mk.inj (Option.some.inj h)
      have hp : (z.entry (va2pd v) (va2pt v)).own = none := by
        rw [entry_present ht, hframe]
        exact own_absent (Bool.not_eq_true _ ▸ habsent)
      have hmark : z.foreign addr = true := by
        rw [hsame]
        exact Bool.not_eq_false _ ▸ hforeign
      rw [← hframe]
      exact hz.otherPage hi (va2pt_lt v) ht hp (.inl ⟨(hflags addr).1, (hflags addr).2, hmark⟩)

theorem Built.kmemPageUnmap (hx : Built x) (hv : v < pageOffset)
    (hmark : (x.entry (va2pd v) (va2pt v)).present = true →
      (x.entry (va2pd v) (va2pt v)).unused1 = true) : Built (x.kmemPageUnmap v) := by
  rw [Mm.kmemPageUnmap]
  split
  · rename_i ht
    dsimp only
    split
    · rename_i hpresent
      rw [← entry_present ht] at hpresent
      refine hx.otherPage (va2pd_lt hv) (va2pt_lt v) ht ?_ (.inr rfl)
      simp [Entry.own, hpresent, hmark hpresent]
    · exact hx
  · exact hx

theorem Built.freeTable (hx : Built x) (hi : i < userTables)
    (ht : (x.mem x.pd i).present = true ∨
      ((List.range 1024).all fun n => x.mem (x.mem x.pd i).frame n = {}) = false) :
    Built (x.freeTable i) := by
  rw [Mm.freeTable]
  split
  swap
  · exact hx
  rename_i hempty
  have ht : (x.mem x.pd i).present = true := ht.resolve_right (hempty ▸ Bool.noConfusion)
  have hold : ∀ j, j < 1024 → (x.entry i j).present = false := by
    intro j hj
    rw [entry_present ht, all_empty.mp hempty j hj]
    rfl
  have he : ({} : Entry).present = true →
      ({} : Entry).frame ≠ x.pd ∧ ∀ n, x.mem ({} : Entry).frame n = {} :=
    fun h => absurd h (by decide)
  have hshape := hx.shape.fillDir (i := i) hx.apart he (.inr rfl)
  refine ⟨⟨hshape.dir, hshape.pages, hshape.marked⟩, ?_, ?_⟩
  · have hholds := fillDir_holds hx.apart hi he hold
    exact (congrArg (Owns · _) hholds).mpr (hx.own.give (holds_table hi ht))
  · intro g hg
    exact hx.mine g (List.mem_of_mem_erase hg)

theorem Built.step (hx : Built x) {a : MmCall} (ha : x.Proper a) (h : x.step a = some y) :
    Built y := by
  cases a with
  | allocateUserPage vaddress =>
    obtain ⟨⟨z, r⟩, hcall, rfl⟩ := Option.map_eq_some_iff.mp h
    exact hx.allocateUserPage hcall
  | xmMapPage addr vaddr =>
    obtain ⟨⟨z, r⟩, hcall, rfl⟩ := Option.map_eq_some_iff.mp h
    refine hx.mapPage ha (fun f => ?_) nflag_marked hcall
    rw [present_mk]
    decide
  | kmemPageMap dvaddr kladdr =>
    obtain ⟨⟨z, r⟩, hcall, rfl⟩ := Option.map_eq_some_iff.mp h
    refine hx.mapPage ha (fun f => ?_) nflag_marked hcall
    rw [present_mk]
    decide
  | kmemPageUnmap dvaddr =>
    obtain rfl := Option.some.inj h
    exact hx.kmemPageUnmap ha.1 ha.2
  | freeTable pdEntry =>
    obtain rfl := Option.some.inj h
    exact hx.freeTable ha.1 ha.2

theorem createPageDirectory_built {kernel : Nat → Entry} (hpool : x.pool = [])
    (h : x.createPageDirectory kernel = some y) : Built y := by
  obtain ⟨⟨z, r⟩, halloc, h⟩ := Option.bind_eq_some_iff.mp h
  obtain ⟨pd, rfl, h⟩ := Option.bind_eq_some_iff.mp h
  rcases allocPage_cases halloc with ⟨answers, -, hr⟩ | ⟨f, answers, -, hforeign, rfl, hr⟩
  · exact absurd hr (by simp)
  obtain rfl := Option.some.inj hr
  have hy := (Option.some.inj h).symm
  have hpd : y.pd = pd := by rw [hy]
  have hone : y.pool = [pd] := by
    rw [hy, taken, hpool]
  have hdir {i : Nat} (hi : i < userTables) : y.mem y.pd i = {} := by
    have hi : i < va2pd pageOffset := hi
    simp [hy, hi]
  have habsent {i : Nat} (hi : i < userTables) : (y.mem y.pd i).present = false := by
    rw [hdir hi]
    rfl
  have hholds : ∀ s, s ≠ .dir → y.holds s = none := by
    intro s hs
    cases s with
    | dir => exact absurd rfl hs
    | table i =>
      rw [holds, if_neg]
      rintro ⟨hi, ht⟩
      exact absurd ht (by simp [habsent hi])
    | page i j =>
      by_cases hslot : i < userTables ∧ j < 1024
      · rw [holds_page hslot.1 hslot.2, entry_absent (habsent hslot.1)]
        rfl
      · rw [holds, if_neg hslot]
  have hslot {s : Slot} {f : Nat} (hf : y.holds s = some f) : s = .dir := by
    by_contra hs
    rw [hholds s hs] at hf
    exact absurd hf (by simp)
  refine ⟨⟨?_, ?_, ?_⟩, ⟨?_, ?_, ?_, ?_⟩, ?_⟩
  · intro i hi
    exact .inr (hdir hi)
  · intro i j hi _
    exact .inr (entry_absent (habsent hi))
  · intro i j hi _ hpresent
    rw [entry_absent (habsent hi)] at hpresent
    exact absurd hpresent (by decide)
  · rw [hone]
    exact List.nodup_cons.mpr ⟨List.not_mem_nil, List.nodup_nil⟩
  · intro s f hf
    rw [hslot hf] at hf
    rw [hone, ← hpd]
    exact List.mem_singleton.mpr (Option.some.inj hf).symm
  · intro f hf
    rw [hone] at hf
    exact ⟨.dir, by rw [holds, hpd, List.mem_singleton.mp hf]⟩
  · intro s t f hs ht
    rw [hslot hs, hslot ht]
  · intro f hf
    rw [hone] at hf
    rw [List.mem_singleton.mp hf, hy]
    exact hforeign

theorem allocUserRangeLoop_run {addrs : List Nat} {r : Int}
    (h : x.allocUserRangeLoop addrs = some (y, r)) :
    ∃ tr, Run Mm.step x tr y ∧ ∀ e ∈ tr, e.1.Proper e.2 := by
  induction addrs generalizing x with
  | nil =>
    obtain ⟨rfl, -⟩ := Prod.mk.inj (Option.some.inj h)
    exact ⟨[], .start, fun e he => absurd he List.not_mem_nil⟩
  | cons addr addrs ih =>
    obtain ⟨⟨z, page⟩, hpage, h⟩ := Option.bind_eq_some_iff.mp h
    have hstep : x.step (.allocateUserPage addr) = some z := by
      rw [Mm.step, hpage]
      rfl
    dsimp only at h
    split at h
    · obtain ⟨rfl, -⟩ := Prod.mk.inj (Option.some.inj h)
      refine ⟨_, Run.start.next hstep, fun e he => ?_⟩
      rw [List.mem_singleton.mp he]
      trivial
    · obtain ⟨tr, hr, hp⟩ := ih h
      refine ⟨_, (Run.start.next hstep).append hr, fun e he => ?_⟩
      rcases List.mem_append.mp he with he | he
      · exact hp e he
      · rw [List.mem_singleton.mp he]
        trivial

theorem Built.allocUserRange (hx : Built x) {address offset : Nat} {r : Int}
    (h : x.allocUserRange address offset = some (y, r)) : Built y := by
  obtain ⟨tr, hr, hp⟩ := allocUserRangeLoop_run h
  exact hr.invariant hx (fun _ _ _ hx ha h => hx.step ha h) hp

end Mm

end Xmertl.Xtratum
