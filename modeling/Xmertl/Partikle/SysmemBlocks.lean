import Xmertl.Lib.Runs
import Xmertl.Partikle.Sysmem

/-!
# The blocks of the physical block allocator

What the blocks and the free list should be, and how far they are: a block that is split
off points at itself on both sides, and a freed block with none after it is not on the
free list.
-/

namespace Xmertl.Partikle

open Runs

namespace Sysmem

def Used (x : Sysmem) (b : Nat) : Prop := isUsedBlock (x.mem b).size = true

/-- The length of the region at `ptr`. -/
def extent (x : Sysmem) (ptr : Nat) : Nat := getBlockSize (x.mem (ptr - headerSize)).size

/-- The blocks from `start` on, the first of them after `prev`, fill the heap. -/
def Tiles (x : Sysmem) : Nat → Nat → List Nat → Prop
  | _, start, [] => start = x.area.base + x.area.length
  | prev, start, b :: bs => b = start ∧ (x.mem b).prevPhys = prev ∧
    (x.mem b).nextPhys = bs.headD 0 ∧
    x.Tiles b (start + headerSize + getBlockSize (x.mem b).size) bs

/-- The free list from `start` on, its first block after `prev`. -/
def Linked (x : Sysmem) : Nat → Nat → List Nat → Prop
  | _, start, [] => start = 0
  | prev, start, b :: bs => b = start ∧ b ≠ 0 ∧ (x.mem b).prev = prev ∧
    x.Linked b (x.mem b).next bs

structure Ok (x : Sysmem) (blocks free : List Nat) : Prop where
  tiles : x.Tiles 0 x.area.base blocks
  linked : x.Linked 0 x.head free
  once : free.Nodup
  free : ∀ b, b ∈ free ↔ b ∈ blocks ∧ ¬ x.Used b
  joined : blocks.IsChain fun a b => x.Used a ∨ x.Used b
  inside : ∀ r ∈ x.live, x.area.base + headerSize ≤ r.1 ∧
    r.1 + x.extent r.1 ≤ x.area.base + x.area.length ∧ r.2 ≤ x.extent r.1
  disjoint : x.live.Pairwise fun r s => r.1 + x.extent r.1 ≤ s.1 ∨ s.1 + x.extent s.1 ≤ r.1
  again : x.live = [] → blocks = [x.area.base] ∧ ¬ x.Used x.area.base

def Sound (x : Sysmem) : Prop := ∃ blocks free, x.Ok blocks free

/-- A block is taken as it is, with no rest, and none is given back. -/
def Whole (x : Sysmem) : SysmemCall → Prop
  | .allocRegion size => size = 0 ∨
    ∀ b ∈ x.search (max size minSize) x.area.length x.head,
      b = 0 ∨ getBlockSize (x.mem b).size < max size minSize + headerSize + minSize
  | .deallocRegion _ => False

def Untouched (x : Sysmem) : Prop :=
  x.mem x.area.base = ⟨x.area.length - headerSize, 0, 0, 0, 0⟩ ∧ x.head = x.area.base ∧
    x.live = []

def Taken (x : Sysmem) : Prop :=
  x.mem x.area.base = ⟨x.area.length - headerSize + usedBlock, 0, 0, 0, 0⟩ ∧ x.head = 0 ∧
    ∃ size, x.live = [(x.area.base + headerSize, size)] ∧ size ≤ x.area.length - headerSize

variable {x y : Sysmem} {size : Nat}

-- ---------------------------------------------------------------------------
-- Sizes and marks
-- ---------------------------------------------------------------------------

section
variable {n : Nat} (hn : n < usedBlock)
include hn

theorem isUsedBlock_free : isUsedBlock n = false := by
  simp [isUsedBlock, Nat.div_eq_of_lt hn]

theorem getBlockSize_free : getBlockSize n = n := Nat.mod_eq_of_lt hn

theorem isUsedBlock_used : isUsedBlock (n + usedBlock) = true := by
  have hdiv : (n + usedBlock) / usedBlock = 1 := by
    rw [Nat.add_div_right _ (by decide), Nat.div_eq_of_lt hn]
  simp [isUsedBlock, hdiv]

theorem getBlockSize_used : getBlockSize (n + usedBlock) = n := by
  rw [getBlockSize, Nat.add_mod_right, Nat.mod_eq_of_lt hn]

end

theorem length_lt (area : HeapArea) : area.length - headerSize < usedBlock := by
  have hroom := area.room
  have hbound := area.bound
  rw [usedBlock, headerSize]
  omega

-- ---------------------------------------------------------------------------
-- One block
-- ---------------------------------------------------------------------------

theorem tiles_one (hprev : (x.mem x.area.base).prevPhys = 0)
    (hnext : (x.mem x.area.base).nextPhys = 0)
    (hsize : getBlockSize (x.mem x.area.base).size = x.area.length - headerSize) :
    x.Tiles 0 x.area.base [x.area.base] := by
  have hroom := x.area.room
  refine ⟨rfl, hprev, hnext, ?_⟩
  rw [Tiles, hsize, headerSize]
  omega

theorem Untouched.sound (hx : Untouched x) : Sound x := by
  obtain ⟨hmem, hhead, hlive⟩ := hx
  have hlt := length_lt x.area
  have hfree : ¬ x.Used x.area.base := by
    rw [Used, hmem, isUsedBlock_free hlt]
    simp
  refine ⟨[x.area.base], [x.area.base], ?_, ?_, ?_, ?_, ?_, ?_, ?_, ?_⟩
  · exact tiles_one (by rw [hmem]) (by rw [hmem]) (by rw [hmem, getBlockSize_free hlt])
  · refine ⟨hhead.symm, Nat.ne_of_gt x.area.pos, ?_, ?_⟩
    · rw [hmem]
    · rw [hmem]
      rfl
  · exact List.nodup_cons.mpr ⟨List.not_mem_nil, List.nodup_nil⟩
  · intro b
    constructor
    · intro hb
      refine ⟨hb, ?_⟩
      rw [List.mem_singleton.mp hb]
      exact hfree
    · exact And.left
  · simp
  · intro r hr
    rw [hlive] at hr
    exact absurd hr List.not_mem_nil
  · rw [hlive]
    exact .nil
  · intro _
    exact ⟨rfl, hfree⟩

theorem Taken.sound (hx : Taken x) : Sound x := by
  obtain ⟨hmem, hhead, size, hlive, hsize⟩ := hx
  have hlt := length_lt x.area
  have hused : x.Used x.area.base := by
    rw [Used, hmem, isUsedBlock_used hlt]
  have hextent : x.extent (x.area.base + headerSize) = x.area.length - headerSize := by
    rw [extent, Nat.add_sub_cancel, hmem, getBlockSize_used hlt]
  refine ⟨[x.area.base], [], ?_, ?_, ?_, ?_, ?_, ?_, ?_, ?_⟩
  · exact tiles_one (by rw [hmem]) (by rw [hmem]) (by rw [hmem, getBlockSize_used hlt])
  · exact hhead
  · exact List.nodup_nil
  · intro b
    constructor
    · intro hb
      exact absurd hb List.not_mem_nil
    · rintro ⟨hb, hfree⟩
      rw [List.mem_singleton.mp hb] at hfree
      exact absurd hused hfree
  · simp
  · intro r hr
    rw [hlive] at hr
    rw [List.mem_singleton.mp hr, hextent]
    have hroom := x.area.room
    refine ⟨Nat.le_refl _, ?_, hsize⟩
    rw [headerSize]
    omega
  · rw [hlive]
    exact List.pairwise_singleton _ _
  · intro hnone
    rw [hlive] at hnone
    exact absurd hnone (by simp)

-- ---------------------------------------------------------------------------
-- The two ways in which the links go wrong
-- ---------------------------------------------------------------------------

theorem not_sound_of_next (hnext : (x.mem x.area.base).nextPhys = n) (hn : n ≠ 0)
    (hprev : (x.mem n).prevPhys ≠ x.area.base) : ¬ Sound x := by
  rintro ⟨blocks, free, hok⟩
  have htiles := hok.tiles
  cases blocks with
  | nil =>
    have hroom := x.area.room
    have hend : x.area.base = x.area.base + x.area.length := htiles
    omega
  | cons b bs =>
    obtain ⟨rfl, -, hnext', htiles⟩ := htiles
    cases bs with
    | nil => exact hn (hnext.symm.trans hnext')
    | cons c cs =>
      have hc : n = c := hnext.symm.trans hnext'
      obtain ⟨-, hback, -⟩ := htiles
      exact hprev (hc ▸ hback)

theorem not_sound_of_lost (hlive : x.live = []) (hhead : x.head = 0) : ¬ Sound x := by
  rintro ⟨blocks, free, hok⟩
  obtain ⟨rfl, hfree⟩ := hok.again hlive
  have hmem : x.area.base ∈ free := (hok.free _).mpr ⟨List.mem_singleton_self _, hfree⟩
  cases free with
  | nil => exact absurd hmem List.not_mem_nil
  | cons b bs =>
    obtain ⟨rfl, hne, -⟩ := hok.linked
    exact hne hhead

theorem set_mem (x : Sysmem) (b : Nat) (f : HeadStruct → HeadStruct) (c : Nat) :
    (x.set b f).mem c = if c = b then f (x.mem b) else x.mem c := Function.update_apply ..

theorem set_phys (x : Sysmem) (b : Nat) {f : HeadStruct → HeadStruct}
    (hf : ∀ h, (f h).prevPhys = h.prevPhys ∧ (f h).nextPhys = h.nextPhys) (c : Nat) :
    ((x.set b f).mem c).prevPhys = (x.mem c).prevPhys ∧
      ((x.set b f).mem c).nextPhys = (x.mem c).nextPhys := by
  rw [set_mem]
  split
  · rename_i heq
    rw [heq]
    exact hf _
  · exact ⟨rfl, rfl⟩

theorem push_phys (x : Sysmem) (b c : Nat) :
    ((x.push b).mem c).prevPhys = (x.mem c).prevPhys ∧
      ((x.push b).mem c).nextPhys = (x.mem c).nextPhys := by
  have hfirst := set_phys x b (f := fun h => { h with next := x.head }) (fun _ => ⟨rfl, rfl⟩) c
  rw [push]
  dsimp only
  split
  · have hsecond := set_phys (x.set b fun h => { h with next := x.head }) x.head
      (f := fun h => { h with prev := b }) (fun _ => ⟨rfl, rfl⟩) c
    exact ⟨hsecond.1.trans hfirst.1, hsecond.2.trans hfirst.2⟩
  · exact hfirst

/-- The links of a new block are written from fields that have just been overwritten. -/
theorem split_links (x : Sysmem) (aux size newSize : Nat) :
    ((x.split aux size newSize).mem aux).nextPhys = aux + headerSize + size ∧
    ((x.split aux size newSize).mem (aux + headerSize + size)).prevPhys =
      aux + headerSize + size := by
  have hne : aux ≠ aux + headerSize + size := by
    rw [headerSize]
    omega
  have hpos : aux + headerSize + size ≠ 0 := by
    rw [headerSize]
    omega
  rw [split]
  generalize aux + headerSize + size = new at *
  rw [(push_phys _ new aux).2, (push_phys _ new new).1]
  simp [set_mem, hne, hne.symm, hpos]

theorem push_area (x : Sysmem) (b : Nat) : (x.push b).area = x.area := by
  rw [push]
  dsimp only
  split <;> rfl

theorem split_area (x : Sysmem) (aux size newSize : Nat) :
    (x.split aux size newSize).area = x.area := by
  rw [split, push_area]
  split <;> rfl

-- ---------------------------------------------------------------------------
-- Calls
-- ---------------------------------------------------------------------------

theorem Untouched.search (hx : Untouched x) (size : Nat) :
    x.search size x.area.length x.head =
      some (if size ≤ x.area.length - headerSize then x.area.base else 0) := by
  obtain ⟨hmem, hhead, -⟩ := hx
  have hpos : x.area.base ≠ 0 := Nat.ne_of_gt x.area.pos
  have hsearch (n : Nat) : x.search size (n + 2) x.head =
      some (if size ≤ x.area.length - headerSize then x.area.base else 0) := by
    rw [hhead, Sysmem.search, if_neg hpos, hmem]
    by_cases hle : size ≤ x.area.length - headerSize
    · rw [if_pos hle, if_pos hle]
    · rw [if_neg hle, if_neg hle, Sysmem.search, if_pos rfl]
  have hroom : 2 ≤ x.area.length := Nat.le_trans (by decide) x.area.room
  have h := hsearch (x.area.length - 2)
  rwa [Nat.sub_add_cancel hroom] at h

theorem Untouched.unlink (hx : Untouched x) : x.unlink x.area.base = { x with head := 0 } := by
  obtain ⟨hmem, hhead, -⟩ := hx
  simp [Sysmem.unlink, hmem, hhead]

theorem long_ulong {d : Int} (hlow : -2147483648 ≤ d) (hhigh : d < 2147483648) :
    long (ulong d) = d := by
  have hmod : Int.bmod (d % ((4294967296 : Nat) : Int)) 4294967296 = Int.bmod d 4294967296 :=
    Int.emod_bmod ..
  exact hmod.trans (Int.bmod_eq_of_le hlow hhigh)

theorem Untouched.alloc (hx : Untouched x) (h : x.step (.allocRegion size) = some y) :
    (x.Whole (.allocRegion size) ∧ (Untouched y ∨ Taken y)) ∨
      ¬ x.Whole (.allocRegion size) ∧ ¬ Sound y := by
  obtain ⟨⟨z, ptr⟩, halloc, h⟩ := Option.bind_eq_some_iff.mp h
  rw [allocRegion] at halloc
  split at halloc
  · rename_i hzero
    obtain ⟨rfl, rfl⟩ := Prod.mk.inj (Option.some.inj halloc)
    obtain rfl := Option.some.inj h
    exact .inl ⟨.inl hzero, .inl hx⟩
  rename_i hzero
  have hmax : (if size < minSize then minSize else size) = max size minSize := by
    split <;> omega
  dsimp only at halloc
  rw [hmax, hx.search] at halloc
  rw [Whole, hx.search]
  have hs : size ≤ max size minSize := Nat.le_max_left ..
  generalize max size minSize = s at *
  by_cases hle : s ≤ x.area.length - headerSize
  swap
  · rw [if_neg hle] at halloc ⊢
    obtain ⟨rfl, rfl⟩ := Prod.mk.inj (Option.some.inj halloc)
    obtain rfl := Option.some.inj h
    exact .inl ⟨.inr fun b hb => .inl (Option.some.inj hb).symm, .inl hx⟩
  have hpos : x.area.base ≠ 0 := Nat.ne_of_gt x.area.pos
  have hlt := length_lt x.area
  obtain ⟨hmem, -, hlive⟩ := id hx
  rw [if_pos hle] at halloc ⊢
  rw [Option.bind_eq_bind, Option.bind_some, if_neg hpos, hx.unlink] at halloc
  generalize hw : ({ x with head := 0 } : Sysmem).set x.area.base (fun h =>
    { h with size := setUsedBlock h.size, next := 0, prev := 0 }) = w at halloc
  have hwmem : w.mem x.area.base = ⟨x.area.length - headerSize + usedBlock, 0, 0, 0, 0⟩ := by
    rw [← hw, set_mem, if_pos rfl, hmem, setUsedBlock, Nat.mod_eq_of_lt hlt]
  have hblock : getBlockSize (w.mem x.area.base).size = x.area.length - headerSize := by
    rw [hwmem, getBlockSize_used hlt]
  have hfree : getBlockSize (x.mem x.area.base).size = x.area.length - headerSize := by
    rw [hmem, getBlockSize_free hlt]
  have hbound : x.area.length - headerSize < 2147483648 := hlt
  rw [hblock, long_ulong (by rw [headerSize] at *; omega)
    (by rw [headerSize] at *; omega)] at halloc
  obtain ⟨rfl, rfl⟩ := Prod.mk.inj (Option.some.inj halloc)
  obtain rfl := Option.some.inj h
  have hptr : x.area.base + headerSize ≠ 0 := by omega
  simp only [hptr, if_false]
  by_cases hrest : s + headerSize + minSize ≤ x.area.length - headerSize
  · right
    rw [if_pos (by rw [headerSize, minSize] at *; omega)]
    refine ⟨?_, ?_⟩
    · rintro (hzero' | hall)
      · exact hzero hzero'
      · have hb := (hall _ rfl).resolve_left hpos
        omega
    · have hbase (k : Nat) : (w.split x.area.base s k).area.base = x.area.base := by
        rw [split_area, ← hw]
        rfl
      refine not_sound_of_next (n := x.area.base + headerSize + s) ?_ (by omega) ?_
      · dsimp only
        rw [hbase]
        exact (split_links ..).1
      · dsimp only
        rw [hbase, (split_links ..).2, headerSize]
        omega
  · left
    rw [if_neg (by rw [headerSize, minSize] at *; omega)]
    refine ⟨.inr fun b hb => .inr ?_, .inr ?_⟩
    · rw [← Option.some.inj hb, hfree]
      omega
    · subst hw
      refine ⟨hwmem, rfl, size, ?_, hs.trans hle⟩
      exact congrArg _ hlive

theorem Taken.alloc (hx : Taken x) (h : x.step (.allocRegion size) = some y) :
    x.Whole (.allocRegion size) ∧ y = x := by
  have hsearch (s : Nat) : x.search s x.area.length x.head = some 0 := by
    rw [hx.2.1]
    cases x.area.length with
    | zero => rfl
    | succ n => rfl
  obtain ⟨⟨z, ptr⟩, halloc, h⟩ := Option.bind_eq_some_iff.mp h
  refine ⟨.inr fun b hb => .inl ?_, ?_⟩
  · rw [hsearch] at hb
    exact (Option.some.inj hb).symm
  · rw [allocRegion] at halloc
    split at halloc
    · obtain ⟨rfl, rfl⟩ := Prod.mk.inj (Option.some.inj halloc)
      exact (Option.some.inj h).symm
    · dsimp only at halloc
      rw [hsearch] at halloc
      obtain ⟨rfl, rfl⟩ := Prod.mk.inj (Option.some.inj halloc)
      exact (Option.some.inj h).symm

theorem Taken.dealloc {ptr : Nat} (hx : Taken x) (h : x.step (.deallocRegion ptr) = some y) :
    ¬ Sound y := by
  obtain ⟨hmem, hhead, size, hlive, -⟩ := hx
  have hlt := length_lt x.area
  rw [step] at h
  split at h
  swap
  · exact absurd h (by simp)
  rename_i hin
  have hptr : ptr = x.area.base + headerSize := by
    simpa [hlive] using hin
  obtain rfl := Option.some.inj h
  have hb : ptr - headerSize = x.area.base := by omega
  refine not_sound_of_lost ?_ ?_
  · simp [hlive, hptr]
  · have hne : ptr ≠ 0 := by
      rw [hptr, headerSize]
      omega
    rw [deallocRegion, hb]
    simp [hne, mergePrev, set_mem, hmem, isUsedBlock_used hlt]
    exact hhead

-- ---------------------------------------------------------------------------
-- Runs
-- ---------------------------------------------------------------------------

def Single (x : Sysmem) : Prop := Untouched x ∨ Taken x

theorem Single.sound (hx : Single x) : Sound x := by
  cases hx with
  | inl hx => exact hx.sound
  | inr hx => exact hx.sound

theorem initVmm_single (area : HeapArea) (mem : Nat → HeadStruct) : Single (initVmm area mem) := by
  refine .inl ⟨?_, rfl, rfl⟩
  have hlt := length_lt area
  have hsize : setFreeBlock (area.length - headerSize) = area.length - headerSize :=
    Nat.mod_eq_of_lt hlt
  refine (Function.update_self ..).trans ?_
  rw [hsize]
  rfl

theorem Single.step (hx : Single x) {a : SysmemCall} (h : x.step a = some y) :
    (x.Whole a ∧ Single y) ∨ ¬ x.Whole a ∧ ¬ Sound y := by
  cases a with
  | allocRegion size =>
    cases hx with
    | inl hx => exact hx.alloc h
    | inr hx =>
      obtain ⟨hwhole, rfl⟩ := hx.alloc h
      exact .inl ⟨hwhole, .inr hx⟩
  | deallocRegion ptr =>
    cases hx with
    | inl hx =>
      rw [Sysmem.step, hx.2.2] at h
      exact absurd h (by simp)
    | inr hx => exact .inr ⟨id, hx.dealloc h⟩

/-- The blocks and the free list are right all along a run exactly where no block is split
and no region given back. -/
theorem sysmem_sound {area : HeapArea} {mem : Nat → HeadStruct}
    {tr : List (Sysmem × SysmemCall)} {x : Sysmem}
    (hr : Run Sysmem.step (initVmm area mem) tr x) :
    (∀ y, Visited tr x y → y.Sound) ↔ ∀ e ∈ tr, e.1.Whole e.2 := by
  constructor
  · intro hsound
    suffices h : Single x ∧ ∀ e ∈ tr, e.1.Whole e.2 from h.2
    induction hr with
    | start => exact ⟨initVmm_single area mem, fun e he => absurd he List.not_mem_nil⟩
    | @next tr s a s' _ hstep ih =>
      obtain ⟨hs, htr⟩ := ih fun y hv => hsound y hv.next
      rcases hs.step hstep with ⟨hwhole, hs'⟩ | ⟨-, hbad⟩
      · refine ⟨hs', fun e he => ?_⟩
        rcases List.mem_cons.mp he with rfl | he
        · exact hwhole
        · exact htr e he
      · exact absurd (hsound s' .self) hbad
  · intro hwhole y hv
    refine Single.sound (hr.invariant_visited (initVmm_single area mem) ?_ hwhole hv)
    intro s a s' hs ha hstep
    rcases hs.step hstep with ⟨-, hs'⟩ | ⟨hbad, -⟩
    · exact hs'
    · exact absurd ha hbad

/-- A heap of 1000 bytes. -/
def exampleArea : HeapArea where
  base := 4096
  length := 1000
  pos := by decide
  room := by decide
  bound := by decide
  fits := by decide

def exampleSysmem : Sysmem := initVmm exampleArea fun _ => ⟨0, 0, 0, 0, 0⟩

theorem sysmem_sound_run : ∃ tr x, Run Sysmem.step exampleSysmem tr x ∧ tr.length = 2 ∧
    x.live = [(4108, 970)] ∧ ((∀ y, Visited tr x y → y.Sound) ↔ ∀ e ∈ tr, e.1.Whole e.2) := by
  have hrun : (exec Sysmem.step exampleSysmem [.allocRegion 970, .allocRegion 1]).any fun r =>
      decide (r.1.length = 2 ∧ r.2.live = [(4108, 970)]) := by
    decide +kernel
  obtain ⟨tr, x, hr, hx⟩ := exec_any hrun
  simp only [decide_eq_true_eq] at hx
  exact ⟨tr, x, hr, hx.1, hx.2, sysmem_sound hr⟩

/-- A first request for 100 bytes: the rest is linked to itself. -/
theorem sysmem_split_wrong : ∃ tr x, Run Sysmem.step exampleSysmem tr x ∧ tr.length = 1 ∧
    x.live = [(4108, 100)] ∧ (x.mem 4096).nextPhys = 4208 ∧ (x.mem 4208).prevPhys = 4208 ∧
    (x.mem 4208).nextPhys = 4208 ∧ ¬ x.Sound := by
  have hrun : (exec Sysmem.step exampleSysmem [.allocRegion 100]).any fun r =>
      decide (r.1.length = 1 ∧ r.2.live = [(4108, 100)] ∧ r.2.area.base = 4096 ∧
        (r.2.mem 4096).nextPhys = 4208 ∧ (r.2.mem 4208).prevPhys = 4208 ∧
        (r.2.mem 4208).nextPhys = 4208) := by
    decide +kernel
  obtain ⟨tr, x, hr, hx⟩ := exec_any hrun
  simp only [decide_eq_true_eq] at hx
  obtain ⟨hlen, hlive, hbase, hnext, hprev, hself⟩ := hx
  refine ⟨tr, x, hr, hlen, hlive, hnext, hprev, hself, ?_⟩
  refine not_sound_of_next (n := 4208) (by rw [hbase, hnext]) (by decide) ?_
  rw [hprev, hbase]
  decide

end Sysmem

end Xmertl.Partikle
