import Xmertl.Xtratum.ShmRegions

/-!
# The slots of shared memory that are reached

The calls of `shm.c` once more, with each slot of `xshm_list` that they read or write. A
slot may be any number here: -12 is the memory before the array.
-/

namespace Xmertl.Xtratum

open Runs

section
variable {D : Type} [DecidableEq D]

structure ShmSlots (D : Type) where
  shm : Shm D
  slots : List Int

namespace ShmSlots

def reach (x : ShmSlots D) (index : Int) : ShmSlots D := { x with slots := index :: x.slots }

/-- The loops over `xshm_list`, for the first slot with `p`. -/
def search (p : XmShm D → Bool) : Nat → Nat → ShmSlots D → ShmSlots D × Nat
  | 0, index, x => (x, index)
  | n + 1, index, x =>
    if p (x.shm.xshmList index) then (x.reach index, index)
    else search p n (index + 1) (x.reach index)

def xmGetShmByName (x : ShmSlots D) (name : List UInt8) : ShmSlots D × Int :=
  if xmShmNameCheck name then (x, -einval)
  else
    let (x, index) := x.search (fun shm => shm.name = name) xmShmCount 0
    (x, index)

/-- The second loop of `xm_shm_create`; `none` where there is no memory. -/
def newShm (x : ShmSlots D) (current : D) (name : List UInt8) (answer : Option Block) :
    Option (ShmSlots D × Option Nat) := do
  let (x, index) := x.search (fun shm => shm.owner = none) xmShmCount 0
  if index = xmShmCount then return (x, some index)
  let (shm, ptr) ← x.shm.mallocEx index answer
  if pageUp ptr = 0 then return ({ x with shm := shm.failed index ptr }.reach index, none)
  return ({ x with shm := shm.made index current name ptr }.reach index, some index)

def xmShmCreate (x : ShmSlots D) (current : D) (name : List UInt8) (answer : Option Block) :
    Option (ShmSlots D × Int) := do
  if xmShmNameCheck name then return (x, -einval)
  let (x, index) := x.search (fun shm => shm.name = name) xmShmCount 0
  let (x, found) ← if index = xmShmCount then x.newShm current name answer else some (x, some index)
  match found with
  | none => return (x, -enomem)
  | some index =>
    if index < xmShmCount then
      return ({ x with shm := x.shm.addUser index current }.reach index, index)
    else return (x, index)

def xmShmOpen (x : ShmSlots D) (current : D) (name : List UInt8) (answer : Option Block) :
    Option (ShmSlots D × Int) := do
  if xmShmNameCheck name then return (x, -einval)
  let (x, index) ← x.xmShmCreate current name answer
  if index = xmShmCount then return (x, -enomem)
  let shm := x.shm.xshmList index
  return ({ x with shm := x.shm.set index { shm with users := shm.users + 1 } }.reach index, index)

def xmShmUnlink (x : ShmSlots D) (current : D) (index : Int) : ShmSlots D × Int :=
  if index ≥ xmShmCount then (x, -enodev)
  else
    let x := x.reach index
    if (x.shm.xshmList index).owner ≠ some current then
      ({ x with shm := x.shm.dropUser index current }, 0)
    else if (x.shm.xshmList index).users ≠ 1 then (x, -ebusy)
    else ({ x with shm := x.shm.xmShmRelease index current }, 0)

def xmShmResize (x : ShmSlots D) (index : Int) (size : Nat) : ShmSlots D × Int :=
  let (shm, r) := x.shm.xmShmResize index size
  ({ x with shm }.reach index, r)

/-- Mapping and the two questions read the slot of the device. -/
def xmShmIoctl (x : ShmSlots D) (current : D) (minor : Nat) (cmd : ShmCmd) :
    Option (ShmSlots D × Int) :=
  if minor > xmShmCount then some (x, -enodev)
  else if minor = xmShmCount then
    match cmd with
    | .create name answer => x.xmShmCreate current name answer
    | .exist name => some (x.xmGetShmByName name)
    | _ => some (x, 0)
  else
    match cmd with
    | .remove => some (x.xmShmUnlink current minor)
    | .truncate size => some (x.xmShmResize minor size)
    | .map _ | .unmap _ | .size | .vaddr => some (x.reach minor, 0)
    | .create _ _ | .exist _ => some (x, 0)

def call (x : ShmSlots D) : ShmCall D → Option (ShmSlots D × Int)
  | .open current name answer => x.xmShmOpen current name answer
  | .unlink current index => some (x.xmShmUnlink current index)
  | .ioctl current minor cmd => x.xmShmIoctl current minor cmd

end ShmSlots

-- ---------------------------------------------------------------------------
-- Safe calls
-- ---------------------------------------------------------------------------

def InArray (slots : List Int) : Prop := ∀ i ∈ slots, 0 ≤ i ∧ i < xmShmCount

def SameTable (x y : Shm D) : Prop := ∀ i : Nat, i < xmShmCount → y.xshmList i = x.xshmList i

/-- XM_SHM_COUNT is the failure of `xm_shm_create`. -/
def Fails (r : Int) : Prop := r < 0 ∨ r = xmShmCount

/-- From `x` to `y` only the array is reached, and where the call fails it is as before. -/
structure Safe (x : Shm D) (y : ShmSlots D) (r : Int) : Prop where
  within : InArray y.slots
  same : Fails r → SameTable x y.shm

/-- The condition: no removal of a negative index, no open that finds no memory, and no
creation either, unless the free slot has no address from an earlier device. -/
def Shm.Sound (x : Shm D) : ShmCall D → Prop
  | .open _ name answer => x.Allocates name → answer ≠ none
  | .unlink _ index => 0 ≤ index
  | .ioctl _ minor (.create name answer) =>
    minor = xmShmCount → x.Allocates name → answer = none →
      ∀ index ∈ x.findFree, (x.xshmList index).vaStart = 0
  | .ioctl _ _ _ => True

end

section
variable {D : Type} [DecidableEq D] {x y z : ShmSlots D} {s : Shm D} {current : D}
  {name : List UInt8} {answer : Option Block} {index r : Int}

-- ---------------------------------------------------------------------------
-- The loops
-- ---------------------------------------------------------------------------

/-- From `x` to `y` only slots of the array have been reached. -/
def Adds (x y : ShmSlots D) : Prop := ∃ more, y.slots = more ++ x.slots ∧ InArray more

structure Looks (x y : ShmSlots D) : Prop where
  shm : y.shm = x.shm
  slots : Adds x y

omit [DecidableEq D] in
theorem Adds.trans (h : Adds x y) (h' : Adds y z) : Adds x z := by
  obtain ⟨a, ha, hain⟩ := h
  obtain ⟨b, hb, hbin⟩ := h'
  refine ⟨b ++ a, ?_, ?_⟩
  · rw [hb, ha, List.append_assoc]
  · exact fun i hi => (List.mem_append.mp hi).elim (hbin i) (hain i)

omit [DecidableEq D] in
theorem Looks.refl (x : ShmSlots D) : Looks x x := ⟨rfl, [], rfl, by simp [InArray]⟩

omit [DecidableEq D] in
theorem Looks.trans (h : Looks x y) (h' : Looks y z) : Looks x z :=
  ⟨h'.shm.trans h.shm, h.slots.trans h'.slots⟩

omit [DecidableEq D] in
theorem Looks.reach (x : ShmSlots D) (h₀ : 0 ≤ index) (hlt : index < xmShmCount) :
    Looks x (x.reach index) := by
  refine ⟨rfl, [index], rfl, fun i hi => ?_⟩
  obtain rfl := List.mem_singleton.mp hi
  exact ⟨h₀, hlt⟩

omit [DecidableEq D] in
theorem search_spec (p : XmShm D → Bool) (n i : Nat) (x : ShmSlots D) (hle : i + n = xmShmCount) :
    Looks x (x.search p n i).1 ∧ (x.search p n i).2 =
      ((List.range' i n).find? fun (k : Nat) => p (x.shm.xshmList k)).getD xmShmCount := by
  induction n generalizing i x with
  | zero => exact ⟨.refl x, by simpa [ShmSlots.search] using hle⟩
  | succ n ih =>
    have hreach : Looks x (x.reach i) := .reach x (Int.natCast_nonneg i) (by omega)
    rw [List.range'_succ, List.find?_cons, ShmSlots.search]
    cases hp : p (x.shm.xshmList i) with
    | true => exact ⟨hreach, rfl⟩
    | false =>
      obtain ⟨hlooks, hindex⟩ := ih (i + 1) (x.reach i) (by omega)
      exact ⟨hreach.trans hlooks, hindex⟩

omit [DecidableEq D] in
theorem search_name (x : ShmSlots D) (name : List UInt8) :
    Looks x (x.search (fun shm => shm.name = name) xmShmCount 0).1 ∧
      (x.search (fun shm => shm.name = name) xmShmCount 0).2 =
        (x.shm.findName name).getD xmShmCount := by
  rw [Shm.findName, List.range_eq_range']
  exact search_spec _ _ 0 x (Nat.zero_add _)

omit [DecidableEq D] in
theorem search_free (x : ShmSlots D) :
    Looks x (x.search (fun shm => shm.owner = none) xmShmCount 0).1 ∧
      (x.search (fun shm => shm.owner = none) xmShmCount 0).2 = x.shm.findFree.getD xmShmCount := by
  rw [Shm.findFree, List.range_eq_range']
  exact search_spec _ _ 0 x (Nat.zero_add _)

-- ---------------------------------------------------------------------------
-- The creation
-- ---------------------------------------------------------------------------

omit [DecidableEq D] in
theorem newShm_spec {found : Option Nat} (h : x.newShm current name answer = some (y, found)) :
    Adds x y ∧
      (x.shm.findFree = none ∧ found = some xmShmCount ∧ y.shm = x.shm ∨
      ∃ index shm ptr, x.shm.findFree = some index ∧
        x.shm.mallocEx index answer = some (shm, ptr) ∧
        (pageUp ptr = 0 ∧ found = none ∧ y.shm = shm.failed index ptr ∨
          pageUp ptr ≠ 0 ∧ found = some index ∧ y.shm = shm.made index current name ptr)) := by
  obtain ⟨hlooks, hindex⟩ := search_free x
  rw [ShmSlots.newShm] at h
  dsimp only at h
  cases hfree : x.shm.findFree with
  | none =>
    rw [hfree, Option.getD_none] at hindex
    rw [if_pos hindex] at h
    obtain ⟨rfl, rfl⟩ := Prod.mk.inj (Option.some.inj h)
    exact ⟨hlooks.slots, .inl ⟨rfl, by rw [hindex], hlooks.shm⟩⟩
  | some index =>
    have hlt := (Shm.findFree_spec hfree).1
    rw [hfree, Option.getD_some] at hindex
    rw [hindex, if_neg (Nat.ne_of_lt hlt), hlooks.shm] at h
    obtain ⟨⟨shm, ptr⟩, hmalloc, h⟩ := Option.bind_eq_some_iff.mp h
    dsimp only at h
    have hin : Adds x ((x.search (fun shm => shm.owner = none) xmShmCount 0).1.reach index) :=
      (hlooks.trans (.reach _ (Int.natCast_nonneg index) (Int.ofNat_lt.mpr hlt))).slots
    split at h
    next hzero =>
      obtain ⟨rfl, rfl⟩ := Prod.mk.inj (Option.some.inj h)
      exact ⟨hin, .inr ⟨index, shm, ptr, rfl, hmalloc, .inl ⟨hzero, rfl, rfl⟩⟩⟩
    next hzero =>
      obtain ⟨rfl, rfl⟩ := Prod.mk.inj (Option.some.inj h)
      exact ⟨hin, .inr ⟨index, shm, ptr, rfl, hmalloc, .inr ⟨hzero, rfl, rfl⟩⟩⟩

omit [DecidableEq D] in
theorem Adds.user (h : Adds x y) {index : Nat} (hlt : index < xmShmCount) (shm : Shm D) :
    Adds x ({ y with shm }.reach index) := by
  obtain ⟨more, hslots, hin⟩ := h
  refine ⟨index :: more, ?_, fun i hi => ?_⟩
  · exact congrArg (List.cons (index : Int)) hslots
  · rcases List.mem_cons.mp hi with rfl | hi
    · exact ⟨Int.natCast_nonneg index, Int.ofNat_lt.mpr hlt⟩
    · exact hin i hi

omit [DecidableEq D] in
theorem create_spec (h : x.xmShmCreate current name answer = some (y, r)) :
    Adds x y ∧ x.shm.xmShmCreate current name answer = some (y.shm, r) := by
  rw [ShmSlots.xmShmCreate] at h
  rw [Shm.xmShmCreate]
  split at h
  next hcheck =>
    obtain ⟨rfl, rfl⟩ := Prod.mk.inj (Option.some.inj h)
    rw [if_pos hcheck]
    exact ⟨(Looks.refl x).slots, rfl⟩
  next hcheck =>
    obtain ⟨hlooks, hindex⟩ := search_name x name
    rw [if_neg hcheck]
    dsimp only at h
    cases hfind : x.shm.findName name with
    | some index =>
      have hlt := (Shm.findName_spec hfind).1
      rw [hfind, Option.getD_some] at hindex
      rw [hindex, if_neg (Nat.ne_of_lt hlt)] at h
      dsimp only [Option.bind_eq_bind, Option.bind_some] at h
      rw [if_pos hlt, hlooks.shm] at h
      obtain ⟨rfl, rfl⟩ := Prod.mk.inj (Option.some.inj h)
      exact ⟨hlooks.slots.user hlt _, rfl⟩
    | none =>
      rw [hfind, Option.getD_none] at hindex
      rw [if_pos hindex] at h
      obtain ⟨⟨z, found⟩, hnew, h⟩ := Option.bind_eq_some_iff.mp h
      obtain ⟨hadds, hcases⟩ := newShm_spec hnew
      have hadds := hlooks.slots.trans hadds
      rw [hlooks.shm] at hcases
      dsimp only at h ⊢
      rcases hcases with ⟨hfree, rfl, hshm⟩ | ⟨index, shm, ptr, hfree, hmalloc, hcases⟩
      · rw [hfree]
        dsimp only at h
        rw [if_neg (Nat.lt_irrefl _)] at h
        obtain ⟨rfl, rfl⟩ := Prod.mk.inj (Option.some.inj h)
        rw [hshm]
        exact ⟨hadds, rfl⟩
      · have hlt := (Shm.findFree_spec hfree).1
        rw [hfree]
        dsimp only
        rw [hmalloc]
        rcases hcases with ⟨hzero, rfl, hshm⟩ | ⟨hzero, rfl, hshm⟩
        · obtain ⟨rfl, rfl⟩ := Prod.mk.inj (Option.some.inj h)
          rw [hshm, Option.bind_eq_bind, Option.bind_some, if_pos hzero]
          exact ⟨hadds, rfl⟩
        · dsimp only at h
          rw [if_pos hlt, hshm] at h
          obtain ⟨rfl, rfl⟩ := Prod.mk.inj (Option.some.inj h)
          rw [Option.bind_eq_bind, Option.bind_some, if_neg hzero]
          exact ⟨hadds.user hlt _, rfl⟩
-- ---------------------------------------------------------------------------
-- The calls
-- ---------------------------------------------------------------------------

omit [DecidableEq D] in
theorem Adds.inArray (h : Adds ⟨s, []⟩ y) : InArray y.slots := by
  obtain ⟨more, hslots, hin⟩ := h
  rw [hslots, List.append_nil]
  exact hin

omit [DecidableEq D] in
theorem Safe.of_looks (h : Looks ⟨s, []⟩ y) : Safe s y r :=
  ⟨h.slots.inArray, fun _ i _ => by rw [h.shm]⟩

omit [DecidableEq D] in
theorem Safe.of_index (h : Adds ⟨s, []⟩ y) {index : Nat} (hlt : index < xmShmCount) :
    Safe s y index := by
  refine ⟨h.inArray, fun hfails => ?_⟩
  rcases hfails with hneg | hcount
  · exact absurd (Int.natCast_nonneg index) (Int.not_le.mpr hneg)
  · exact absurd (Int.ofNat.inj hcount) (Nat.ne_of_lt hlt)

omit [DecidableEq D] in
theorem pageUp_eq_zero {shm : Shm D} {ptr : Int} (h : s.mallocEx index answer = some (shm, ptr)) :
    pageUp ptr = 0 ↔ answer = none := by
  rcases Shm.mallocEx_cases h with ⟨rfl, -, rfl⟩ | ⟨b, rfl, ⟨hpos, hlen, hend, -⟩, rfl, -⟩
  · exact iff_of_true (by decide) rfl
  · refine iff_of_false (fun hzero => ?_) (Option.some_ne_none _)
    rw [shmMemSize] at hlen
    rw [pageUp, ulong] at hzero
    omega

omit [DecidableEq D] in
theorem mallocEx_list {shm : Shm D} {ptr : Int} (h : s.mallocEx index answer = some (shm, ptr)) :
    shm.xshmList = s.xshmList := by
  rcases Shm.mallocEx_cases h with ⟨-, rfl, -⟩ | ⟨b, -, -, -, rfl⟩ <;> rfl

omit [DecidableEq D] in
theorem not_allocates_of_find {k : Nat} (h : s.findName name = some k) : ¬s.Allocates name := by
  intro hall
  rw [hall.2.1] at h
  exact absurd h.symm (Option.some_ne_none _)

omit [DecidableEq D] in
theorem not_allocates_of_full (h : s.findFree = none) : ¬s.Allocates name := fun hall => hall.2.2 h

omit [DecidableEq D] in
theorem not_allocates_of_check (h : xmShmNameCheck name = true) : ¬s.Allocates name := by
  intro hall
  rw [hall.1] at h
  exact Bool.false_ne_true h

omit [DecidableEq D] in
theorem open_safe_iff (h : ShmSlots.xmShmOpen ⟨s, []⟩ current name answer = some (y, r)) :
    Safe s y r ↔ (s.Allocates name → answer ≠ none) := by
  rw [ShmSlots.xmShmOpen] at h
  split at h
  next hcheck =>
    obtain ⟨rfl, rfl⟩ := Prod.mk.inj (Option.some.inj h)
    exact iff_of_true (.of_looks (.refl _)) fun hall => absurd hall (not_allocates_of_check hcheck)
  next hcheck =>
    obtain ⟨⟨z, index⟩, hcreate, h⟩ := Option.bind_eq_some_iff.mp h
    obtain ⟨hadds, hcreate⟩ := create_spec hcreate
    dsimp only at h
    rcases Shm.xmShmCreate_cases hcreate with ⟨hz, ⟨hcheck', -⟩ | ⟨rfl, -, -, hfull⟩⟩ |
      ⟨k, -, hfind, -, rfl⟩ | ⟨k, shm, ptr, hall, -, hmalloc, hzero, -, rfl⟩ |
      ⟨k, shm, ptr, -, hfree, hmalloc, hzero, -, rfl⟩
    · exact absurd hcheck' hcheck
    · rw [if_pos rfl] at h
      obtain ⟨rfl, rfl⟩ := Prod.mk.inj (Option.some.inj h)
      exact iff_of_true (.of_looks ⟨hz, hadds⟩) fun hall => absurd hall (not_allocates_of_full hfull)
    · have hlt := (Shm.findName_spec hfind).1
      have hne : (k : Int) ≠ xmShmCount := fun he => Nat.ne_of_lt hlt (Int.ofNat.inj he)
      rw [if_neg hne] at h
      obtain ⟨rfl, rfl⟩ := Prod.mk.inj (Option.some.inj h)
      exact iff_of_true (.of_index (hadds.user hlt _) hlt)
        fun hall => absurd hall (not_allocates_of_find hfind)
    · -- the slot before the array gets a user
      rw [if_neg (by decide)] at h
      obtain ⟨rfl, rfl⟩ := Prod.mk.inj (Option.some.inj h)
      have hnone := (pageUp_eq_zero hmalloc).mp hzero
      refine iff_of_false (fun hsafe => ?_) fun hne => hne hall hnone
      exact absurd (hsafe.within (-enomem) List.mem_cons_self).1 (by decide)
    · have hlt := (Shm.findFree_spec hfree).1
      have hne : (k : Int) ≠ xmShmCount := fun he => Nat.ne_of_lt hlt (Int.ofNat.inj he)
      rw [if_neg hne] at h
      obtain ⟨rfl, rfl⟩ := Prod.mk.inj (Option.some.inj h)
      exact iff_of_true (.of_index (hadds.user hlt _) hlt)
        fun _ => mt (pageUp_eq_zero hmalloc).mpr hzero

omit [DecidableEq D] in
theorem create_safe_iff (h : ShmSlots.xmShmCreate ⟨s, []⟩ current name answer = some (y, r)) :
    Safe s y r ↔ (s.Allocates name → answer = none →
      ∀ index ∈ s.findFree, (s.xshmList index).vaStart = 0) := by
  obtain ⟨hadds, hcreate⟩ := create_spec h
  rcases Shm.xmShmCreate_cases hcreate with ⟨hy, ⟨hcheck, -⟩ | ⟨-, -, -, hfull⟩⟩ |
    ⟨k, -, hfind, -, rfl⟩ | ⟨k, shm, ptr, hall, hfree, hmalloc, hzero, hy, rfl⟩ |
    ⟨k, shm, ptr, -, hfree, hmalloc, hzero, -, rfl⟩
  · exact iff_of_true (.of_looks ⟨hy, hadds⟩)
      fun hall => absurd hall (not_allocates_of_check hcheck)
  · exact iff_of_true (.of_looks ⟨hy, hadds⟩) fun hall => absurd hall (not_allocates_of_full hfull)
  · exact iff_of_true (.of_index hadds (Shm.findName_spec hfind).1)
      fun hall => absurd hall (not_allocates_of_find hfind)
  · obtain ⟨hlt, howner⟩ := Shm.findFree_spec hfree
    have hnone := (pageUp_eq_zero hmalloc).mp hzero
    have hlist := mallocEx_list hmalloc
    have hslot : y.shm.xshmList k = { s.xshmList k with vaStart := 0 } := by
      rw [hy, Shm.failed, Shm.set_same, hzero, hlist, ← howner]
    constructor
    · intro hsafe _ _ index hindex
      obtain rfl : k = index := Option.some.inj (hfree.symm.trans hindex)
      have hsame := hsafe.same (.inl (by decide)) k hlt
      rw [hslot] at hsame
      exact (congrArg XmShm.vaStart hsame).symm
    · intro hva
      refine ⟨hadds.inArray, fun _ i hi => ?_⟩
      by_cases hik : (i : Int) = k
      · rw [hik, hslot, ← hva hall hnone k hfree]
      · rw [hy, Shm.failed, Shm.set_other hik, hlist]
  · exact iff_of_true (.of_index hadds (Shm.findFree_spec hfree).1)
      fun _ hnone => absurd ((pageUp_eq_zero hmalloc).mpr hnone) hzero

theorem unlink_safe_iff (h : ShmSlots.xmShmUnlink ⟨s, []⟩ current index = (y, r)) :
    Safe s y r ↔ 0 ≤ index := by
  rw [ShmSlots.xmShmUnlink] at h
  split at h
  next hlarge =>
    obtain ⟨rfl, rfl⟩ := Prod.mk.inj h
    exact iff_of_true (.of_looks (.refl _)) (le_trans (Int.natCast_nonneg _) hlarge)
  next hlarge =>
    have hlt : index < xmShmCount := Int.not_le.mp hlarge
    have hsucceeds : ¬Fails 0 := by
      rintro (hneg | hcount)
      · exact absurd hneg (by decide)
      · exact absurd hcount (by decide)
    have hiff {shm : Shm D} {r : Int} (hsame : Fails r → SameTable s shm) :
        Safe s ⟨shm, [index]⟩ r ↔ 0 ≤ index := by
      refine ⟨fun hsafe => (hsafe.within index List.mem_cons_self).1, fun h₀ => ⟨fun i hi => ?_, hsame⟩⟩
      obtain rfl := List.mem_singleton.mp hi
      exact ⟨h₀, hlt⟩
    dsimp only at h
    split at h
    · obtain ⟨rfl, rfl⟩ := Prod.mk.inj h
      exact hiff fun hfails => absurd hfails hsucceeds
    · split at h
      · obtain ⟨rfl, rfl⟩ := Prod.mk.inj h
        exact hiff fun _ _ _ => rfl
      · obtain ⟨rfl, rfl⟩ := Prod.mk.inj h
        exact hiff fun hfails => absurd hfails hsucceeds

omit [DecidableEq D] in
theorem resize_safe {minor : Nat} (hlt : minor < xmShmCount) {size : Nat}
    (h : ShmSlots.xmShmResize ⟨s, []⟩ minor size = (y, r)) : Safe s y r := by
  have hin : InArray [(minor : Int)] := by
    intro i hi
    obtain rfl := List.mem_singleton.mp hi
    exact ⟨Int.natCast_nonneg minor, Int.ofNat_lt.mpr hlt⟩
  by_cases hsize : (s.xshmList minor).size < size
  · rw [ShmSlots.xmShmResize, Shm.xmShmResize, if_pos hsize] at h
    obtain ⟨rfl, rfl⟩ := Prod.mk.inj h
    exact ⟨hin, fun _ _ _ => rfl⟩
  · rw [ShmSlots.xmShmResize, Shm.xmShmResize, if_neg hsize] at h
    obtain ⟨rfl, rfl⟩ := Prod.mk.inj h
    refine ⟨hin, fun hfails => ?_⟩
    rcases hfails with hneg | hcount
    · exact absurd hneg (by decide)
    · exact absurd hcount (by decide)

omit [DecidableEq D] in
theorem exist_safe (h : ShmSlots.xmGetShmByName ⟨s, []⟩ name = (y, r)) : Safe s y r := by
  rw [ShmSlots.xmGetShmByName] at h
  split at h
  · obtain ⟨rfl, rfl⟩ := Prod.mk.inj h
    exact .of_looks (.refl _)
  · obtain ⟨rfl, rfl⟩ := Prod.mk.inj h
    exact .of_looks (search_name _ name).1

theorem ioctl_safe_iff {minor : Nat} {cmd : ShmCmd}
    (h : ShmSlots.xmShmIoctl ⟨s, []⟩ current minor cmd = some (y, r)) :
    Safe s y r ↔ s.Sound (.ioctl current minor cmd) := by
  have same (h : some ((⟨s, []⟩ : ShmSlots D), (0 : Int)) = some (y, r)) : Safe s y r := by
    obtain ⟨rfl, rfl⟩ := Prod.mk.inj (Option.some.inj h)
    exact .of_looks (.refl _)
  rw [ShmSlots.xmShmIoctl.eq_def] at h
  split at h
  next hlarge =>
    obtain ⟨rfl, rfl⟩ := Prod.mk.inj (Option.some.inj h)
    refine iff_of_true (.of_looks (.refl _)) ?_
    cases cmd with
    | create name answer => exact fun he => absurd he (Nat.ne_of_gt hlarge)
    | _ => trivial
  next hlarge =>
    split at h
    next hminor =>
      cases cmd with
      | create name answer =>
        exact (create_safe_iff h).trans ⟨fun hsound _ => hsound, fun hsound => hsound hminor⟩
      | exist name => exact iff_of_true (exist_safe (Option.some.inj h)) trivial
      | _ => exact iff_of_true (same h) trivial
    next hminor =>
      have hlt : minor < xmShmCount := by omega
      have hreach : Looks ⟨s, []⟩ ((⟨s, []⟩ : ShmSlots D).reach minor) :=
        .reach _ (Int.natCast_nonneg minor) (Int.ofNat_lt.mpr hlt)
      have read (h : some ((⟨s, []⟩ : ShmSlots D).reach minor, (0 : Int)) = some (y, r)) :
          Safe s y r := by
        obtain ⟨rfl, rfl⟩ := Prod.mk.inj (Option.some.inj h)
        exact .of_looks hreach
      cases cmd with
      | create name answer => exact iff_of_true (same h) fun he => absurd he hminor
      | exist name => exact iff_of_true (same h) trivial
      | remove =>
        exact iff_of_true ((unlink_safe_iff (Option.some.inj h)).mpr (Int.natCast_nonneg minor)) trivial
      | truncate size => exact iff_of_true (resize_safe hlt (Option.some.inj h)) trivial
      | map => exact iff_of_true (read h) trivial
      | unmap => exact iff_of_true (read h) trivial
      | size => exact iff_of_true (read h) trivial
      | vaddr => exact iff_of_true (read h) trivial

theorem shm_safe_iff {a : ShmCall D} (h : ShmSlots.call ⟨s, []⟩ a = some (y, r)) :
    Safe s y r ↔ s.Sound a := by
  cases a with
  | «open» current name answer => exact open_safe_iff h
  | unlink current index => exact unlink_safe_iff (Option.some.inj h)
  | ioctl current minor cmd => exact ioctl_safe_iff h

theorem unlink_of_inArray (h : ShmSlots.xmShmUnlink ⟨s, []⟩ current index = (y, r))
    (hin : InArray y.slots) : s.xmShmUnlink current index = some (y.shm, r) := by
  rw [ShmSlots.xmShmUnlink] at h
  rw [Shm.xmShmUnlink]
  split at h
  next hlarge =>
    obtain ⟨rfl, rfl⟩ := Prod.mk.inj h
    rw [if_pos hlarge]
  next hlarge =>
    have hslots : y.slots = [index] := by
      dsimp only at h
      split at h
      · rw [← (Prod.mk.inj h).1]
        rfl
      · split at h
        · rw [← (Prod.mk.inj h).1]
          rfl
        · rw [← (Prod.mk.inj h).1]
          rfl
    have h₀ := (hin index (by rw [hslots]; exact List.mem_cons_self)).1
    rw [if_neg hlarge, if_neg (Int.not_lt.mpr h₀)]
    dsimp only at h
    split at h
    next howner =>
      obtain ⟨rfl, rfl⟩ := Prod.mk.inj h
      exact if_pos howner
    next howner =>
      have hmine : ¬(s.xshmList index).owner ≠ some current := howner
      rw [if_neg hmine]
      split at h
      next husers =>
        obtain ⟨rfl, rfl⟩ := Prod.mk.inj h
        exact if_pos husers
      next husers =>
        obtain ⟨rfl, rfl⟩ := Prod.mk.inj h
        exact if_neg husers

omit [DecidableEq D] in
theorem open_of_inArray (h : ShmSlots.xmShmOpen ⟨s, []⟩ current name answer = some (y, r))
    (hin : InArray y.slots) : s.xmShmOpen current name answer = some (y.shm, r) := by
  rw [ShmSlots.xmShmOpen] at h
  rw [Shm.xmShmOpen]
  split at h
  next hcheck =>
    obtain ⟨rfl, rfl⟩ := Prod.mk.inj (Option.some.inj h)
    exact if_pos hcheck
  next hcheck =>
    obtain ⟨⟨z, index⟩, hcreate, h⟩ := Option.bind_eq_some_iff.mp h
    rw [if_neg hcheck, (create_spec hcreate).2]
    dsimp only [Option.bind_eq_bind, Option.bind_some] at h ⊢
    split at h
    next hfull =>
      obtain ⟨rfl, rfl⟩ := Prod.mk.inj (Option.some.inj h)
      exact if_pos hfull
    next hfull =>
      obtain ⟨rfl, rfl⟩ := Prod.mk.inj (Option.some.inj h)
      have h₀ := (hin index List.mem_cons_self).1
      rw [if_neg hfull, if_neg (Int.not_lt.mpr h₀)]
      rfl

omit [DecidableEq D] in
theorem exist_of (h : ShmSlots.xmGetShmByName ⟨s, []⟩ name = (y, r)) :
    some (s, s.xmGetShmByName name) = some (y.shm, r) := by
  rw [ShmSlots.xmGetShmByName] at h
  rw [Shm.xmGetShmByName]
  split at h
  next hcheck =>
    obtain ⟨rfl, rfl⟩ := Prod.mk.inj h
    rw [if_pos hcheck]
  next hcheck =>
    obtain ⟨hlooks, hindex⟩ := search_name ⟨s, []⟩ name
    have hy : (ShmSlots.search (fun shm => shm.name = name) xmShmCount 0 ⟨s, []⟩).1 = y :=
      (Prod.mk.inj h).1
    have hr : ((ShmSlots.search (fun shm => shm.name = name) xmShmCount 0 ⟨s, []⟩).2 : Int) = r :=
      (Prod.mk.inj h).2
    rw [if_neg hcheck, ← hy, hlooks.shm, ← hr, hindex]

omit [DecidableEq D] in
theorem resize_of {size : Nat} (h : ShmSlots.xmShmResize ⟨s, []⟩ index size = (y, r)) :
    s.xmShmResize index size = (y.shm, r) := by
  obtain ⟨rfl, rfl⟩ := Prod.mk.inj h
  rfl

theorem call_of_inArray {a : ShmCall D} (h : ShmSlots.call ⟨s, []⟩ a = some (y, r))
    (hin : InArray y.slots) : s.call a = some (y.shm, r) := by
  cases a with
  | «open» current name answer => exact open_of_inArray h hin
  | unlink current index => exact unlink_of_inArray (Option.some.inj h) hin
  | ioctl current minor cmd =>
    have h : ShmSlots.xmShmIoctl ⟨s, []⟩ current minor cmd = some (y, r) := h
    change s.xmShmIoctl current minor cmd = some (y.shm, r)
    have look {z : ShmSlots D} (hz : z.shm = s) (h : some (z, (0 : Int)) = some (y, r)) :
        some (s, (0 : Int)) = some (y.shm, r) := by
      obtain ⟨rfl, rfl⟩ := Prod.mk.inj (Option.some.inj h)
      rw [hz]
    rw [ShmSlots.xmShmIoctl.eq_def] at h
    rw [Shm.xmShmIoctl.eq_def]
    split at h
    next hlarge =>
      obtain ⟨rfl, rfl⟩ := Prod.mk.inj (Option.some.inj h)
      exact if_pos hlarge
    next hlarge =>
      rw [if_neg hlarge]
      split at h
      next hminor =>
        rw [if_pos hminor]
        cases cmd with
        | create name answer => exact (create_spec h).2
        | exist name => exact exist_of (Option.some.inj h)
        | _ => exact look rfl h
      next hminor =>
        rw [if_neg hminor]
        cases cmd with
        | remove => exact unlink_of_inArray (Option.some.inj h) hin
        | truncate size => exact congrArg some (resize_of (Option.some.inj h))
        | create name answer => exact look rfl h
        | exist name => exact look rfl h
        | map => exact look rfl h
        | unmap => exact look rfl h
        | size => exact look rfl h
        | vaddr => exact look rfl h

end

/-- A device that is created and has its memory. -/
theorem shm_safe_open : ∃ y r,
    ShmSlots.call ⟨(Shm.init : Shm Nat), []⟩ (.open 0 [97] (some ⟨0x1000, 0x8000⟩)) = some (y, r) ∧
      Safe Shm.init y r := by
  have hcall : (ShmSlots.call ⟨(Shm.init : Shm Nat), []⟩
      (.open 0 [97] (some ⟨0x1000, 0x8000⟩))).isSome = true := by decide
  obtain ⟨⟨y, r⟩, h⟩ := Option.isSome_iff_exists.mp hcall
  exact ⟨y, r, h, (shm_safe_iff h).mpr fun _ => Option.some_ne_none _⟩

/-- An open that finds no memory reaches slot -12, and a removal the slot it is told; a
creation that finds none takes the address of an earlier device from its slot. -/
theorem shm_unsafe :
    (∃ y r, ShmSlots.call ⟨(Shm.init : Shm Nat), []⟩ (.open 0 [97] none) = some (y, r) ∧
      ¬Safe Shm.init y r) ∧
    (∃ y r, ShmSlots.call ⟨(Shm.init : Shm Nat), []⟩ (.unlink 0 (-1)) = some (y, r) ∧
      ¬Safe Shm.init y r) ∧
    ∃ tr s y r, Run Shm.step (Shm.init : Shm Nat) tr s ∧
      ShmSlots.call ⟨s, []⟩ (.ioctl 0 16 (.create [97] none)) = some (y, r) ∧ ¬Safe s y r := by
  refine ⟨?_, ?_, ?_⟩
  · have hcall : (ShmSlots.call ⟨(Shm.init : Shm Nat), []⟩ (.open 0 [97] none)).any (fun q =>
        decide (-12 ∈ q.1.slots)) = true := by decide
    obtain ⟨⟨y, r⟩, h, hp⟩ := (Option.any_eq_true ..).mp hcall
    refine ⟨y, r, h, fun hsafe => ?_⟩
    exact absurd (hsafe.within (-12) (of_decide_eq_true hp)).1 (by decide)
  · exact ⟨_, _, rfl, fun hsafe => absurd (hsafe.within (-1) List.mem_cons_self).1 (by decide)⟩
  · have hrun : (exec Shm.step (Shm.init : Shm Nat)
        [.ioctl 0 16 (.create [97] (some ⟨0x1000, 0x8000⟩)), .ioctl 0 0 .remove]).any (fun q =>
        (ShmSlots.call ⟨q.2, []⟩ (.ioctl 0 16 (.create [97] none))).any fun z =>
          decide (z.2 = -12 ∧ (z.1.shm.xshmList 0).vaStart ≠ (q.2.xshmList 0).vaStart)) = true := by
      decide
    obtain ⟨tr, s, hr, hp⟩ := exec_any hrun
    obtain ⟨⟨y, r⟩, h, hp⟩ := (Option.any_eq_true ..).mp hp
    obtain ⟨hr12, hva⟩ := of_decide_eq_true hp
    refine ⟨tr, s, y, r, hr, h, fun hsafe => hva ?_⟩
    have hneg : r = -12 := hr12
    have hfails : Fails r := .inl (by rw [hneg]; decide)
    exact congrArg XmShm.vaStart (hsafe.same hfails 0 (by decide))

end Xmertl.Xtratum
