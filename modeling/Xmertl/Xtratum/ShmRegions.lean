import Xmertl.Lib.Runs
import Xmertl.Xtratum.Shm

/-!
# The regions of shared memory devices

A region begins at the first page boundary in the block that the allocator gave, and
this address is given back in the end. Both are right where the block begins at a page.
-/

namespace Xmertl.Xtratum

open Runs

section
variable {D : Type} [DecidableEq D]

namespace Shm

def Live (x : Shm D) (index : Int) : Prop := (x.xshmList index).owner ≠ none

def region (x : Shm D) (index : Int) : Block :=
  ⟨(x.xshmList index).vaStart, pageUp (x.xshmList index).size⟩

/-- A creation with this name gets a block from the allocator. -/
def Allocates (x : Shm D) (name : List UInt8) : Prop :=
  xmShmNameCheck name = false ∧ x.findName name = none ∧ x.findFree ≠ none

end Shm

/-- The name that a call may create a device for, and the allocator's answer. -/
def ShmCall.creation : ShmCall D → Option (List UInt8 × Block)
  | .open _ name (some b) => some (name, b)
  | .ioctl _ minor (.create name (some b)) => if minor = xmShmCount then some (name, b) else none
  | _ => none

def Shm.Aligned (x : Shm D) (a : ShmCall D) : Prop :=
  ∀ q ∈ a.creation, x.Allocates q.1 → q.2.ptr % 0x1000 = 0

instance (x : Shm D) (name : List UInt8) : Decidable (x.Allocates name) :=
  inferInstanceAs (Decidable (_ ∧ _))

instance (x : Shm D) (a : ShmCall D) : Decidable (x.Aligned a) :=
  inferInstanceAs (Decidable (∀ q ∈ a.creation, _))

namespace Shm

/-- Every live device has a block of its own, and its region begins with it. -/
structure Regions (x : Shm D) : Prop where
  inPool : ∀ i, x.Live i → x.block i ∈ x.pool
  start : ∀ i, x.Live i → (x.xshmList i).vaStart = (x.block i).ptr
  size : ∀ i, x.Live i → 0 ≤ (x.xshmList i).size ∧ (x.xshmList i).size ≤ shmMemSize
  room : ∀ i, x.Live i → shmMemSize ≤ (x.block i).len
  disjoint : ∀ i j, x.Live i → x.Live j → i ≠ j → (x.block i).Disjoint (x.block j)
  freed : ∀ e ∈ x.freed, e.1 = e.2

variable {x y : Shm D} {current : D} {name : List UInt8} {answer : Option Block} {index r : Int}
  {b : Block}

-- ---------------------------------------------------------------------------
-- What a creation does
-- ---------------------------------------------------------------------------

omit [DecidableEq D] in
@[simp] theorem set_same (x : Shm D) (index : Int) (shm : XmShm D) :
    (x.set index shm).xshmList index = shm := Function.update_self ..

omit [DecidableEq D] in
theorem set_other {i : Int} (hi : i ≠ index) (shm : XmShm D) :
    (x.set index shm).xshmList i = x.xshmList i := Function.update_of_ne hi ..

def made (x : Shm D) (index : Int) (current : D) (name : List UInt8) (ptr : Int) : Shm D :=
  x.set index { x.xshmList index with
    owner := some current
    vaStart := pageUp ptr
    name := name.take (shmNameSize - 1)
    size := shmMemSize }

def failed (x : Shm D) (index : Int) (ptr : Int) : Shm D :=
  x.set index { x.xshmList index with owner := none, vaStart := pageUp ptr }

omit [DecidableEq D] in
theorem xmShmCreate_cases (h : x.xmShmCreate current name answer = some (y, r)) :
    (y = x ∧ (xmShmNameCheck name = true ∧ r = -einval ∨ r = xmShmCount ∧
      xmShmNameCheck name = false ∧ x.findName name = none ∧ x.findFree = none)) ∨
    (∃ index : Nat, xmShmNameCheck name = false ∧ x.findName name = some index ∧
      y = x.addUser index current ∧ r = index) ∨
    (∃ (index : Nat) (z : Shm D) (ptr : Int), x.Allocates name ∧ x.findFree = some index ∧
      x.mallocEx index answer = some (z, ptr) ∧ pageUp ptr = 0 ∧ y = z.failed index ptr ∧
      r = -enomem) ∨
    ∃ (index : Nat) (z : Shm D) (ptr : Int), x.Allocates name ∧ x.findFree = some index ∧
      x.mallocEx index answer = some (z, ptr) ∧ pageUp ptr ≠ 0 ∧
      y = (z.made index current name ptr).addUser index current ∧ r = index := by
  rw [xmShmCreate] at h
  split at h
  · rename_i hcheck
    obtain ⟨rfl, rfl⟩ := Prod.mk.inj (Option.some.inj h)
    exact .inl ⟨rfl, .inl ⟨hcheck, rfl⟩⟩
  rename_i hcheck
  have hcheck := Bool.not_eq_true _ ▸ hcheck
  cases hfind : x.findName name with
  | some index =>
    rw [hfind] at h
    obtain ⟨rfl, rfl⟩ := Prod.mk.inj (Option.some.inj h)
    exact .inr (.inl ⟨index, hcheck, rfl, rfl, rfl⟩)
  | none =>
    rw [hfind] at h
    cases hfree : x.findFree with
    | none =>
      rw [hfree] at h
      obtain ⟨rfl, rfl⟩ := Prod.mk.inj (Option.some.inj h)
      exact .inl ⟨rfl, .inr ⟨rfl, hcheck, rfl, rfl⟩⟩
    | some index =>
      rw [hfree] at h
      have hall : x.Allocates name := ⟨hcheck, hfind, by simp [hfree]⟩
      obtain ⟨⟨z, ptr⟩, hmalloc, h⟩ := Option.bind_eq_some_iff.mp h
      dsimp only at h
      split at h
      · rename_i hzero
        obtain ⟨rfl, rfl⟩ := Prod.mk.inj (Option.some.inj h)
        exact .inr (.inr (.inl ⟨index, z, ptr, hall, rfl, hmalloc, hzero, rfl, rfl⟩))
      · rename_i hzero
        obtain ⟨rfl, rfl⟩ := Prod.mk.inj (Option.some.inj h)
        exact .inr (.inr (.inr ⟨index, z, ptr, hall, rfl, hmalloc, hzero, rfl, rfl⟩))

omit [DecidableEq D] in
theorem mallocEx_cases {z : Shm D} (h : x.mallocEx index answer = some (z, r)) :
    (answer = none ∧ z = x ∧ r = 0) ∨
    ∃ b, answer = some b ∧ x.Gives b ∧ r = b.ptr ∧
      z = { x with pool := b :: x.pool, block := Function.update x.block index b } := by
  cases answer with
  | none =>
    obtain ⟨rfl, rfl⟩ := Prod.mk.inj (Option.some.inj h)
    exact .inl ⟨rfl, rfl, rfl⟩
  | some b =>
    rw [mallocEx] at h
    split at h
    · rename_i hgives
      obtain ⟨rfl, rfl⟩ := Prod.mk.inj (Option.some.inj h)
      exact .inr ⟨b, rfl, hgives, rfl, rfl⟩
    · exact absurd h (by simp)

omit [DecidableEq D] in
theorem findFree_spec {index : Nat} (h : x.findFree = some index) :
    index < xmShmCount ∧ (x.xshmList index).owner = none := by
  refine ⟨List.mem_range.mp (List.mem_of_find?_eq_some h), ?_⟩
  simpa using List.find?_some h

omit [DecidableEq D] in
theorem findName_spec {index : Nat} (h : x.findName name = some index) :
    index < xmShmCount ∧ (x.xshmList index).name = name := by
  refine ⟨List.mem_range.mp (List.mem_of_find?_eq_some h), ?_⟩
  simpa using List.find?_some h

-- ---------------------------------------------------------------------------
-- What a removal does
-- ---------------------------------------------------------------------------

theorem xmShmUnlink_cases (h : x.xmShmUnlink current index = some (y, r)) :
    (y = x ∧ (index ≥ xmShmCount ∧ r = -enodev ∨
      (x.xshmList index).owner = some current ∧ (x.xshmList index).users ≠ 1 ∧ r = -ebusy)) ∨
    (0 ≤ index ∧ index < xmShmCount ∧ r = 0 ∧
      ((x.xshmList index).owner ≠ some current ∧ y = x.dropUser index current ∨
        (x.xshmList index).owner = some current ∧ (x.xshmList index).users = 1 ∧
          y = x.xmShmRelease index current)) := by
  rw [xmShmUnlink] at h
  split at h
  · rename_i hlarge
    obtain ⟨rfl, rfl⟩ := Prod.mk.inj (Option.some.inj h)
    exact .inl ⟨rfl, .inl ⟨hlarge, rfl⟩⟩
  rename_i hlarge
  split at h
  · exact absurd h (by simp)
  rename_i hneg
  have hpos : 0 ≤ index := Int.not_lt.mp hneg
  have hlt : index < xmShmCount := Int.not_le.mp hlarge
  split at h
  · rename_i howner
    obtain ⟨rfl, rfl⟩ := Prod.mk.inj (Option.some.inj h)
    exact .inr ⟨hpos, hlt, rfl, .inl ⟨howner, rfl⟩⟩
  rename_i howner
  have howner := not_not.mp howner
  split at h
  · rename_i husers
    obtain ⟨rfl, rfl⟩ := Prod.mk.inj (Option.some.inj h)
    exact .inl ⟨rfl, .inr ⟨howner, husers, rfl⟩⟩
  · rename_i husers
    obtain ⟨rfl, rfl⟩ := Prod.mk.inj (Option.some.inj h)
    exact .inr ⟨hpos, hlt, rfl, .inr ⟨howner, not_not.mp husers, rfl⟩⟩

theorem xmShmRelease_same : (x.xmShmRelease index current).xshmList index =
    { x.xshmList index with
      name := [], owner := none, users := (x.xshmList index).users - 1 } := by
  simp [xmShmRelease, dropUser, freeEx, set]

theorem xmShmRelease_other {i : Int} (hi : i ≠ index) :
    (x.xmShmRelease index current).xshmList i = x.xshmList i := by
  simp [xmShmRelease, dropUser, freeEx, set, hi]

theorem xmShmRelease_pool : (x.xmShmRelease index current).pool =
    x.pool.filter fun b => b.ptr ≠ (x.xshmList index).vaStart := by
  simp [xmShmRelease, dropUser, freeEx, set]

theorem xmShmRelease_freed : (x.xmShmRelease index current).freed =
    ((x.xshmList index).vaStart, (x.block index).ptr) :: x.freed := by
  simp [xmShmRelease, dropUser, freeEx, set]

theorem xmShmRelease_block : (x.xmShmRelease index current).block = x.block := rfl

-- ---------------------------------------------------------------------------
-- The calls by what they do
-- ---------------------------------------------------------------------------

omit [DecidableEq D] in
theorem xmShmOpen_cases (h : x.xmShmOpen current name answer = some (y, r)) :
    y = x ∨ ∃ index z, x.xmShmCreate current name answer = some (z, index) ∧
      (index = xmShmCount ∧ y = z ∨ index ≠ xmShmCount ∧ 0 ≤ index ∧ y = z.set index
        { z.xshmList index with users := (z.xshmList index).users + 1 }) := by
  rw [xmShmOpen] at h
  split at h
  · exact .inl (Prod.mk.inj (Option.some.inj h)).1.symm
  obtain ⟨⟨z, index⟩, hcreate, h⟩ := Option.bind_eq_some_iff.mp h
  refine .inr ⟨index, z, hcreate, ?_⟩
  dsimp only at h
  split at h
  · rename_i hfull
    exact .inl ⟨hfull, (Prod.mk.inj (Option.some.inj h)).1.symm⟩
  rename_i hfull
  split at h
  · exact absurd h (by simp)
  · rename_i hpos
    exact .inr ⟨hfull, Int.not_lt.mp hpos, (Prod.mk.inj (Option.some.inj h)).1.symm⟩

theorem xmShmIoctl_cases {minor : Nat} {cmd : ShmCmd}
    (h : x.xmShmIoctl current minor cmd = some (y, r)) :
    y = x ∨
    (∃ name answer, minor = xmShmCount ∧ cmd = .create name answer ∧
      x.xmShmCreate current name answer = some (y, r)) ∨
    (minor < xmShmCount ∧ cmd = .remove ∧ x.xmShmUnlink current minor = some (y, r)) ∨
    ∃ size : Nat, minor < xmShmCount ∧ cmd = .truncate size ∧ size ≤ (x.xshmList minor).size ∧
      y = x.set minor { x.xshmList minor with size } := by
  have same (h : some (x, (0 : Int)) = some (y, r)) : y = x :=
    (Prod.mk.inj (Option.some.inj h)).1.symm
  rw [xmShmIoctl.eq_def] at h
  split at h
  · exact .inl (Prod.mk.inj (Option.some.inj h)).1.symm
  rename_i hle
  split at h
  · rename_i hminor
    cases cmd with
    | create name answer => exact .inr (.inl ⟨name, answer, hminor, rfl, h⟩)
    | exist => exact .inl (Prod.mk.inj (Option.some.inj h)).1.symm
    | remove => exact .inl (same h)
    | truncate => exact .inl (same h)
    | map => exact .inl (same h)
    | unmap => exact .inl (same h)
    | size => exact .inl (same h)
    | vaddr => exact .inl (same h)
  · rename_i hminor
    have hlt : minor < xmShmCount := by omega
    cases cmd with
    | remove => exact .inr (.inr (.inl ⟨hlt, rfl, h⟩))
    | truncate size =>
      have h : some (x.xmShmResize minor size) = some (y, r) := h
      rw [xmShmResize] at h
      split at h
      · exact .inl (Prod.mk.inj (Option.some.inj h)).1.symm
      · rename_i hsize
        exact .inr (.inr (.inr ⟨size, hlt, rfl, Int.not_lt.mp hsize,
          (Prod.mk.inj (Option.some.inj h)).1.symm⟩))
    | create => exact .inl (same h)
    | exist => exact .inl (same h)
    | map => exact .inl (same h)
    | unmap => exact .inl (same h)
    | size => exact .inl (same h)
    | vaddr => exact .inl (same h)

-- ---------------------------------------------------------------------------
-- Regions on page boundaries
-- ---------------------------------------------------------------------------

theorem pageUp_of_aligned {ptr : Int} (hpage : ptr % 0x1000 = 0) (hpos : 0 ≤ ptr)
    (hend : ptr + 0x1000 ≤ 4294967296) : pageUp ptr = ptr := by
  rw [pageUp, ulong]
  omega

theorem pageUp_le {size : Int} (hpos : 0 ≤ size) (hsize : size ≤ shmMemSize) :
    pageUp size ≤ shmMemSize := by
  rw [shmMemSize] at *
  rw [pageUp, ulong]
  omega

omit [DecidableEq D] in
theorem Regions.fewer (hx : Regions x) (hlive : ∀ i, y.Live i → x.Live i ∧
      (y.xshmList i).vaStart = (x.xshmList i).vaStart ∧
      0 ≤ (y.xshmList i).size ∧ (y.xshmList i).size ≤ (x.xshmList i).size)
    (hpool : y.pool = x.pool) (hblock : y.block = x.block) (hfreed : y.freed = x.freed) :
    Regions y where
  inPool i hi := by
    rw [hpool, hblock]
    exact hx.inPool i (hlive i hi).1
  start i hi := by
    rw [(hlive i hi).2.1, hblock]
    exact hx.start i (hlive i hi).1
  size i hi := by
    obtain ⟨hi, -, hpos, hle⟩ := hlive i hi
    exact ⟨hpos, hle.trans (hx.size i hi).2⟩
  room i hi := by
    rw [hblock]
    exact hx.room i (hlive i hi).1
  disjoint i j hi hj hij := by
    rw [hblock]
    exact hx.disjoint i j (hlive i hi).1 (hlive j hj).1 hij
  freed := by
    rw [hfreed]
    exact hx.freed

omit [DecidableEq D] in
theorem Regions.users (hx : Regions x) (index users : Int)
    (hlist : y.xshmList = (x.set index { x.xshmList index with users }).xshmList)
    (hpool : y.pool = x.pool) (hblock : y.block = x.block) (hfreed : y.freed = x.freed) :
    Regions y := by
  refine hx.fewer (fun i hi => ?_) hpool hblock hfreed
  rw [Live, hlist] at hi
  rw [hlist]
  by_cases h : i = index
  · subst h
    rw [set_same] at hi ⊢
    exact ⟨hi, rfl, (hx.size i hi).1, le_refl _⟩
  · rw [set_other h] at hi ⊢
    exact ⟨hi, rfl, (hx.size i hi).1, le_refl _⟩

omit [DecidableEq D] in
theorem Regions.inside (hx : Regions x) (hi : x.Live index) :
    (x.block index).ptr ≤ (x.region index).ptr ∧
      (x.region index).ptr + (x.region index).len ≤
        (x.block index).ptr + (x.block index).len := by
  have hstart := hx.start index hi
  have hsize := hx.size index hi
  have hroom := hx.room index hi
  have hlen := pageUp_le hsize.1 hsize.2
  simp only [region, hstart]
  omega

omit [DecidableEq D] in
theorem Regions.apart (hx : Regions x) (hi : x.Live i) (hj : x.Live j) (hij : i ≠ j) :
    (x.region i).Disjoint (x.region j) := by
  have hdisj := hx.disjoint i j hi hj hij
  have hini := hx.inside hi
  have hinj := hx.inside hj
  simp only [Block.Disjoint] at *
  omega

omit [DecidableEq D] in
theorem Regions.failed (hx : Regions x) (index ptr : Int) : Regions (x.failed index ptr) := by
  refine hx.fewer (fun i hi => ?_) rfl rfl rfl
  by_cases h : i = index
  · subst h
    simp [Live, Shm.failed] at hi
  · rw [Live, Shm.failed, set_other h] at hi
    rw [Shm.failed, set_other h]
    exact ⟨hi, rfl, (hx.size i hi).1, le_refl _⟩

omit [DecidableEq D] in
theorem Regions.resized (hx : Regions x) {size : Nat}
    (hsize : size ≤ (x.xshmList index).size) :
    Regions (x.set index { x.xshmList index with size }) := by
  refine hx.fewer (fun i hi => ?_) rfl rfl rfl
  by_cases h : i = index
  · subst h
    rw [Live, set_same] at hi
    rw [set_same]
    exact ⟨hi, rfl, Int.natCast_nonneg size, hsize⟩
  · rw [Live, set_other h] at hi
    rw [set_other h]
    exact ⟨hi, rfl, (hx.size i hi).1, le_refl _⟩

omit [DecidableEq D] in
theorem Regions.created (hx : Regions x) (hgives : x.Gives b) (hpage : b.ptr % 0x1000 = 0) :
    Regions (made { x with pool := b :: x.pool, block := Function.update x.block index b }
      index current name b.ptr) := by
  obtain ⟨hpos, hlen, hend, hdisj⟩ := hgives
  have hmem : shmMemSize = 32768 := rfl
  have hptr : pageUp b.ptr = b.ptr := pageUp_of_aligned hpage (by omega) (by omega)
  generalize hz : made { x with pool := b :: x.pool, block := Function.update x.block index b }
    index current name b.ptr = z
  have hpool : z.pool = b :: x.pool := by
    subst hz
    rfl
  have hblock : z.block = Function.update x.block index b := by
    subst hz
    rfl
  have hnew : z.xshmList index = { x.xshmList index with
      owner := some current, vaStart := b.ptr, name := name.take (shmNameSize - 1),
      size := shmMemSize } := by
    subst hz
    rw [made, set_same, hptr]
  have hold {i : Int} (hi : i ≠ index) : z.xshmList i = x.xshmList i := by
    subst hz
    exact set_other hi _
  have hlive {i : Int} (hi : i ≠ index) (h : z.Live i) : x.Live i := by
    rwa [Live, hold hi] at h
  refine ⟨?_, ?_, ?_, ?_, ?_, ?_⟩
  · intro i hi
    rw [hpool, hblock]
    by_cases h : i = index
    · rw [h, Function.update_self]
      exact List.mem_cons_self
    · rw [Function.update_of_ne h]
      exact List.mem_cons_of_mem _ (hx.inPool i (hlive h hi))
  · intro i hi
    rw [hblock]
    by_cases h : i = index
    · rw [h, Function.update_self, hnew]
    · rw [Function.update_of_ne h, hold h]
      exact hx.start i (hlive h hi)
  · intro i hi
    by_cases h : i = index
    · rw [h, hnew]
      exact ⟨Int.le_of_lt (by decide : 0 < shmMemSize), le_refl _⟩
    · rw [hold h]
      exact hx.size i (hlive h hi)
  · intro i hi
    rw [hblock]
    by_cases h : i = index
    · rwa [h, Function.update_self]
    · rw [Function.update_of_ne h]
      exact hx.room i (hlive h hi)
  · intro i j hi hj hij
    rw [hblock]
    by_cases h : i = index
    · have hj' : j ≠ index := fun hj' => hij (h.trans hj'.symm)
      rw [h, Function.update_self, Function.update_of_ne hj']
      exact (hdisj _ (hx.inPool j (hlive hj' hj))).symm
    · rw [Function.update_of_ne h]
      by_cases hj' : j = index
      · rw [hj', Function.update_self]
        exact hdisj _ (hx.inPool i (hlive h hi))
      · rw [Function.update_of_ne hj']
        exact hx.disjoint i j (hlive h hi) (hlive hj' hj) hij
  · subst hz
    exact hx.freed

theorem Regions.released (hx : Regions x) (hi : x.Live index) :
    Regions (x.xmShmRelease index current) := by
  have hmem : shmMemSize = 32768 := rfl
  have hlive {i : Int} (h : (x.xmShmRelease index current).Live i) : i ≠ index ∧ x.Live i := by
    have hne : i ≠ index := by
      rintro rfl
      simp [Live, xmShmRelease_same] at h
    rw [Live, xmShmRelease_other hne] at h
    exact ⟨hne, h⟩
  refine ⟨?_, ?_, ?_, ?_, ?_, ?_⟩
  · intro i h
    obtain ⟨hne, h⟩ := hlive h
    rw [xmShmRelease_pool, xmShmRelease_block, hx.start index hi]
    refine List.mem_filter.mpr ⟨hx.inPool i h, ?_⟩
    -- two blocks with one beginning would overlap
    have hdisj := hx.disjoint i index h hi hne
    have hlen := hx.room i h
    have hlen' := hx.room index hi
    have hne' : (x.block i).ptr ≠ (x.block index).ptr := by
      intro heq
      simp only [Block.Disjoint] at hdisj
      omega
    exact decide_eq_true hne'
  · intro i h
    obtain ⟨hne, h⟩ := hlive h
    rw [xmShmRelease_other hne, xmShmRelease_block]
    exact hx.start i h
  · intro i h
    obtain ⟨hne, h⟩ := hlive h
    rw [xmShmRelease_other hne]
    exact hx.size i h
  · intro i h
    rw [xmShmRelease_block]
    exact hx.room i (hlive h).2
  · intro i j h h' hij
    rw [xmShmRelease_block]
    exact hx.disjoint i j (hlive h).2 (hlive h').2 hij
  · intro e he
    rw [xmShmRelease_freed] at he
    rcases List.mem_cons.mp he with rfl | he
    · exact hx.start index hi
    · exact hx.freed e he

omit [DecidableEq D] in
/-- What the two ways to a device keep, where a block that comes with it begins at a page. -/
theorem Regions.opened (hx : Regions x) (h : x.xmShmCreate current name answer = some (y, r))
    (hpage : ∀ b ∈ answer, x.Allocates name → b.ptr % 0x1000 = 0) : Regions y := by
  rcases xmShmCreate_cases h with ⟨rfl, -⟩ | ⟨index, -, -, rfl, -⟩ |
    ⟨index, z, ptr, hall, -, hmalloc, hzero, rfl, -⟩ |
    ⟨index, z, ptr, hall, -, hmalloc, hzero, rfl, -⟩
  · exact hx
  · exact hx.users index _ rfl rfl rfl rfl
  · rcases mallocEx_cases hmalloc with ⟨-, rfl, rfl⟩ | ⟨b, hb, hgives, rfl, rfl⟩
    · exact hx.failed index 0
    · obtain ⟨hpos, hlen, hend, -⟩ := hgives
      have hmem : shmMemSize = 32768 := rfl
      rw [pageUp_of_aligned (hpage b hb hall) (by omega) (by omega)] at hzero
      omega
  · rcases mallocEx_cases hmalloc with ⟨-, rfl, rfl⟩ | ⟨b, hb, hgives, rfl, rfl⟩
    · exact absurd rfl hzero
    · exact (hx.created hgives (hpage b hb hall)).users index _ rfl rfl rfl rfl

theorem Regions.unlinked (hx : Regions x) (h : x.xmShmUnlink current index = some (y, r)) :
    Regions y := by
  rcases xmShmUnlink_cases h with ⟨rfl, -⟩ | ⟨-, -, -, ⟨-, rfl⟩ | ⟨howner, -, rfl⟩⟩
  · exact hx
  · exact hx.users index _ rfl rfl rfl rfl
  · exact hx.released (by simp [Live, howner])

theorem Regions.step (hx : Regions x) {a : ShmCall D} (ha : x.Aligned a)
    (h : x.step a = some y) : Regions y := by
  obtain ⟨⟨z, r⟩, hcall, rfl⟩ := Option.map_eq_some_iff.mp h
  cases a with
  | «open» current name answer =>
    rcases xmShmOpen_cases hcall with rfl | ⟨index, z', hcreate, hz⟩
    · exact hx
    have hz' : Regions z' := hx.opened hcreate fun b hb => by
      subst hb
      exact ha (name, b) rfl
    rcases hz with ⟨-, rfl⟩ | ⟨-, -, rfl⟩
    · exact hz'
    · exact hz'.users index _ rfl rfl rfl rfl
  | unlink current index => exact hx.unlinked hcall
  | ioctl current minor cmd =>
    rcases xmShmIoctl_cases hcall with rfl | ⟨name, answer, rfl, rfl, hcreate⟩ |
      ⟨-, rfl, hunlink⟩ | ⟨size, -, rfl, hsize, rfl⟩
    · exact hx
    · refine hx.opened hcreate fun b hb => ?_
      subst hb
      exact ha (name, b) rfl
    · exact hx.unlinked hunlink
    · exact hx.resized hsize

omit [DecidableEq D] in
theorem init_regions : Regions (init : Shm D) where
  inPool _ hi := absurd rfl hi
  start _ hi := absurd rfl hi
  size _ hi := absurd rfl hi
  room _ hi := absurd rfl hi
  disjoint _ _ hi := absurd rfl hi
  freed _ he := absurd he List.not_mem_nil

-- ---------------------------------------------------------------------------
-- Runs
-- ---------------------------------------------------------------------------

/-- The regions of the devices are apart from each other and each in its block, and the
allocator has been given back its own pointers. -/
theorem shm_regions {tr : List (Shm D × ShmCall D)} {x : Shm D}
    (hr : Run Shm.step Shm.init tr x) (ha : ∀ e ∈ tr, e.1.Aligned e.2)
    (hv : Visited tr x y) :
    (∀ i j, y.Live i → y.Live j → i ≠ j → (y.region i).Disjoint (y.region j)) ∧
    (∀ i, y.Live i → (y.block i).ptr ≤ (y.region i).ptr ∧
      (y.region i).ptr + (y.region i).len ≤ (y.block i).ptr + (y.block i).len) ∧
    ∀ e ∈ y.freed, e.1 = e.2 := by
  have hy : Regions y :=
    hr.invariant_visited init_regions (fun _ _ _ hx ha h => hx.step ha h) ha hv
  exact ⟨fun _ _ hi hj hij => hy.apart hi hj hij, fun _ hi => hy.inside hi, hy.freed⟩

/-- Two devices, one made smaller and the other removed. -/
def shmCalls (first second : Block) : List (ShmCall Nat) :=
  [.ioctl 1 xmShmCount (.create [97] (some first)),
   .ioctl 2 xmShmCount (.create [98] (some second)),
   .ioctl 1 0 (.truncate 5000),
   .unlink 2 1]

theorem shm_regions_run : ∃ tr x, Run Shm.step (Shm.init : Shm Nat) tr x ∧
    x.Live 0 ∧ x.region 0 = ⟨4096, 8192⟩ ∧ x.freed = [(40960, 40960)] ∧
    (∀ i j, x.Live i → x.Live j → i ≠ j → (x.region i).Disjoint (x.region j)) ∧
    (∀ i, x.Live i → (x.block i).ptr ≤ (x.region i).ptr ∧
      (x.region i).ptr + (x.region i).len ≤ (x.block i).ptr + (x.block i).len) ∧
    ∀ e ∈ x.freed, e.1 = e.2 := by
  have hrun : (exec Shm.step (Shm.init : Shm Nat) (shmCalls ⟨4096, 32768⟩ ⟨40960, 32768⟩)).any
      fun r => decide ((∀ e ∈ r.1, e.1.Aligned e.2) ∧
        (r.2.xshmList 0).owner ≠ none ∧ r.2.region 0 = ⟨4096, 8192⟩ ∧
        r.2.freed = [(40960, 40960)]) := by
    decide +kernel
  obtain ⟨tr, x, hr, hx⟩ := exec_any hrun
  simp only [decide_eq_true_eq] at hx
  obtain ⟨ha, hlive, hregion, hfreed⟩ := hx
  exact ⟨tr, x, hr, hlive, hregion, hfreed, shm_regions hr ha .self⟩

/-- A block that does not begin at a page: the last page of the region is another's. -/
theorem shm_region_outside : ∃ tr x, Run Shm.step (Shm.init : Shm Nat) tr x ∧
    x.Live 0 ∧ x.block 0 = ⟨4104, 32768⟩ ∧ x.region 0 = ⟨8192, 32768⟩ ∧
    x.freed = [(45056, 40968)] ∧
    ¬((∀ i, x.Live i → (x.block i).ptr ≤ (x.region i).ptr ∧
      (x.region i).ptr + (x.region i).len ≤ (x.block i).ptr + (x.block i).len) ∧
    ∀ e ∈ x.freed, e.1 = e.2) := by
  have hrun : (exec Shm.step (Shm.init : Shm Nat)
      [.ioctl 1 xmShmCount (.create [97] (some ⟨4104, 32768⟩)),
       .ioctl 2 xmShmCount (.create [98] (some ⟨40968, 32768⟩)),
       .unlink 2 1]).any fun r => decide ((r.2.xshmList 0).owner ≠ none ∧
        r.2.block 0 = ⟨4104, 32768⟩ ∧ r.2.region 0 = ⟨8192, 32768⟩ ∧
        r.2.freed = [(45056, 40968)]) := by
    decide +kernel
  obtain ⟨tr, x, hr, hx⟩ := exec_any hrun
  simp only [decide_eq_true_eq] at hx
  obtain ⟨hlive, hblock, hregion, hfreed⟩ := hx
  refine ⟨tr, x, hr, hlive, hblock, hregion, hfreed, fun hall => ?_⟩
  have hin := (hall.1 0 hlive).2
  rw [hblock, hregion] at hin
  exact absurd hin (by decide)

end Shm

end

end Xmertl.Xtratum
