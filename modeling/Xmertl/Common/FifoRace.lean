import Xmertl.Common.FifoQueue

/-!
# A reader that is preempted

`rt_fifo_user_read` of `rtfifo.c` a statement at a time, with whole calls of PaRTiKle's
`rt_fifo_write` in between. At the end of a read that leaves the FIFO empty both
positions are set to 0: a write that comes after the test is undone by that, and one
that comes after CAS, into a FIFO that is empty in the middle, can leave the data.
-/

namespace Xmertl

open RingBuffer Runs

/-- Where `rt_fifo_user_read` is, with its variables as they matter from there on. -/
inductive ReadPc
  | idle
  | setReadFlags (sz : Int)
  | testSize (sz : Int)
  | clipSize
  | loadBom (sz : Int)
  | addBom (sz oldBom : Int)
  | placeBom (sz oldBom newBom : Int)
  | testTop (sz oldBom newBom bom : Int)
  | copyAll (sz oldBom newBom bom : Int)
  | testSplit (sz oldBom newBom bom : Int)
  | copyFirst (sz oldBom newBom bom : Int)
  | copySecond (sz oldBom newBom bom : Int) (dest : List UInt8)
  | cas (sz oldBom newBom : Int) (dest : List UInt8)
  | unsetReadFlags (dest : List UInt8)
  | testEmpty (dest : List UInt8)
  | clearTop (dest : List UInt8)
  | clearBom (dest : List UInt8)
  | ret (dest : List UInt8)
  deriving DecidableEq

/-- A FIFO, its reader, what the writes so far have accepted and what the reads have
returned. -/
structure FifoRace where
  ff : FifoStruct
  pc : ReadPc
  accepted : List UInt8
  returned : List UInt8

inductive RaceAction
  /-- Linux calls `rt_fifo_user_read`, which looks at its arguments. -/
  | call (size : Int)
  /-- The next statement of the read. -/
  | next
  /-- PaRTiKle calls `rt_fifo_write`, and Linux goes on after it has returned. -/
  | write (src : Int → UInt8) (size : Int)

namespace FifoRace

def next (x : FifoRace) : Option FifoRace :=
  match x.pc with
  | .idle => none
  | .setReadFlags sz => some { x with ff := x.ff.setFlags fifoRd, pc := .testSize sz }
  | .testSize sz =>
    if sz > x.ff.usedSize then some { x with pc := .clipSize } else some { x with pc := .loadBom sz }
  | .clipSize => some { x with pc := .loadBom x.ff.usedSize }
  | .loadBom sz => some { x with pc := .addBom sz x.ff.ffBom }
  | .addBom sz oldBom => some { x with pc := .placeBom sz oldBom (long (oldBom + sz)) }
  | .placeBom sz oldBom newBom =>
    some { x with pc := .testTop sz oldBom newBom (oldBom.tmod x.ff.ffSize) }
  | .testTop sz oldBom newBom bom =>
    if x.ff.ffTop.tmod x.ff.ffSize ≥ bom then some { x with pc := .copyAll sz oldBom newBom bom }
    else some { x with pc := .testSplit sz oldBom newBom bom }
  | .copyAll sz oldBom newBom bom => do
    return { x with pc := .cas sz oldBom newBom (← x.ff.copyFrom bom sz) }
  | .testSplit sz oldBom newBom bom =>
    if sz > x.ff.ffSize - bom then some { x with pc := .copyFirst sz oldBom newBom bom }
    else some { x with pc := .copyAll sz oldBom newBom bom }
  | .copyFirst sz oldBom newBom bom => do
    let dest ← x.ff.copyFrom bom (x.ff.ffSize - bom)
    return { x with pc := .copySecond sz oldBom newBom bom dest }
  | .copySecond sz oldBom newBom bom dest => do
    let rest ← x.ff.copyFrom 0 (sz - (x.ff.ffSize - bom))
    return { x with pc := .cas sz oldBom newBom (dest ++ rest) }
  | .cas sz oldBom newBom dest =>
    if x.ff.ffBom = oldBom then
      some { x with ff := { x.ff with ffBom := newBom }, pc := .unsetReadFlags dest }
    else some { x with pc := .testSize sz }
  | .unsetReadFlags dest => some { x with ff := x.ff.unsetFlags fifoRd, pc := .testEmpty dest }
  | .testEmpty dest =>
    if x.ff.ffTop = x.ff.ffBom then some { x with pc := .clearTop dest }
    else some { x with pc := .ret dest }
  | .clearTop dest => some { x with ff := { x.ff with ffTop := 0 }, pc := .clearBom dest }
  | .clearBom dest => some { x with ff := { x.ff with ffBom := 0 }, pc := .ret dest }
  | .ret dest => some { x with pc := .idle, returned := x.returned ++ dest }

/-- `rt_fifo_write` with an index and an address that are valid. -/
def write (x : FifoRace) (src : Int → UInt8) (size : Int) : Option FifoRace := do
  if size < 0 ∨ !x.ff.usable then return x
  let (ff, ret) ← x.ff.write long true src size
  return { x with ff, accepted := x.accepted ++ block src 0 ret.toNat }

def step (x : FifoRace) : RaceAction → Option FifoRace
  | .call size =>
    if x.pc = .idle then
      if size < 0 ∨ !x.ff.usable then some x else some { x with pc := .setReadFlags size }
    else none
  | .next => x.next
  | .write src size => x.write src size

/-- FIFO `index` after `fifo_control_init`. -/
def start (x : Fifos) (index : Int) : FifoRace where
  ff := x.fifoControlInit.fifos index
  pc := .idle
  accepted := []
  returned := []

/-- The condition on a write: it takes nothing where the reader is about to clear the
top; into an empty FIFO it is in one block; and no sum leaves a `long`. -/
def Undisturbed (x : FifoRace) : RaceAction → Prop
  | .write _ size => 0 ≤ size →
    ((∃ dest, x.pc = .clearTop dest) → x.ff.room size = 0) ∧
    (x.ff.ffTop = x.ff.ffBom → x.ff.ffTop % x.ff.ffSize + x.ff.room size ≤ x.ff.ffSize) ∧
    x.ff.ffTop + x.ff.room size < 2147483648 ∧
    x.ff.ffBom + x.ff.ffSize - x.ff.ffTop ≤ 2147483648
  | .call _ | .next => True

-- ---------------------------------------------------------------------------
-- The invariant
-- ---------------------------------------------------------------------------

def Takes (ff : FifoStruct) (sz : Int) : Prop := 0 ≤ sz ∧ sz ≤ ff.ffTop - ff.ffBom

def Locals (ff : FifoStruct) : ReadPc → Prop
  | .setReadFlags sz | .testSize sz => 0 ≤ sz
  | .loadBom sz => Takes ff sz
  | .addBom sz oldBom => Takes ff sz ∧ oldBom = ff.ffBom
  | .placeBom sz oldBom newBom => Takes ff sz ∧ oldBom = ff.ffBom ∧ newBom = ff.ffBom + sz
  | .testTop sz oldBom newBom bom | .testSplit sz oldBom newBom bom =>
    Takes ff sz ∧ oldBom = ff.ffBom ∧ newBom = ff.ffBom + sz ∧ bom = ff.ffBom % ff.ffSize
  | .copyAll sz oldBom newBom bom =>
    Takes ff sz ∧ oldBom = ff.ffBom ∧ newBom = ff.ffBom + sz ∧ bom = ff.ffBom % ff.ffSize ∧
      bom + sz ≤ ff.ffSize
  | .copyFirst sz oldBom newBom bom =>
    Takes ff sz ∧ oldBom = ff.ffBom ∧ newBom = ff.ffBom + sz ∧ bom = ff.ffBom % ff.ffSize ∧
      ff.ffSize - bom < sz
  | .copySecond sz oldBom newBom bom dest =>
    Takes ff sz ∧ oldBom = ff.ffBom ∧ newBom = ff.ffBom + sz ∧ bom = ff.ffBom % ff.ffSize ∧
      ff.ffSize - bom < sz ∧ dest = ff.contents.take (ff.ffSize - bom).toNat
  | .cas sz oldBom newBom dest =>
    Takes ff sz ∧ oldBom = ff.ffBom ∧ newBom = ff.ffBom + sz ∧ dest = ff.contents.take sz.toNat
  | _ => True

/-- Between the two stores that empty the FIFO the top has begun again, and the bottom
has not. -/
structure Behind (ff : FifoStruct) : Prop where
  reset : FifoStruct.InRange { ff with ffBom := 0 }
  bom : 0 ≤ ff.ffBom
  below : ff.ffBom % ff.ffSize = 0 ∨ ff.ffTop < ff.ffBom % ff.ffSize

def AtPc (ff : FifoStruct) (accepted returned : List UInt8) : ReadPc → Prop
  | .unsetReadFlags dest | .testEmpty dest =>
    ff.InRange ∧ accepted = returned ++ dest ++ ff.contents
  | .clearTop dest => ff.InRange ∧ ff.ffTop = ff.ffBom ∧ accepted = returned ++ dest
  | .clearBom dest =>
    Behind ff ∧ accepted = returned ++ dest ++ FifoStruct.contents { ff with ffBom := 0 }
  | .ret dest => ff.Ready ∧ accepted = returned ++ dest ++ ff.contents
  | pc => ff.Ready ∧ accepted = returned ++ ff.contents ∧ Locals ff pc

structure Consistent (x : FifoRace) : Prop where
  usable : x.ff.usable
  atPc : AtPc x.ff x.accepted x.returned x.pc

variable {x y : FifoRace} {ff ff' : FifoStruct} {pc : ReadPc} {src : Int → UInt8} {sz size : Int}
  {w : List UInt8}

theorem start_consistent (x : Fifos) (index : Int) : (start x index).Consistent := by
  obtain ⟨hready, -⟩ := x.fifoControlInit_ready index
  exact ⟨hready.usable, hready, rfl, trivial⟩

-- ---------------------------------------------------------------------------
-- A read that nothing comes between
-- ---------------------------------------------------------------------------

/-- Only the reader's statements lead from one state to the other. -/
def Alone (x y : FifoRace) : Prop := ∃ tr, Run step x tr y ∧ ∀ e ∈ tr, e.2 = .next

theorem Alone.refl (x : FifoRace) : Alone x x :=
  ⟨[], .start, fun _ he => absurd he List.not_mem_nil⟩

theorem Alone.trans {z : FifoRace} (hx : Alone x y) (hy : Alone y z) : Alone x z := by
  obtain ⟨tr, hr, hnext⟩ := hx
  obtain ⟨tr', hr', hnext'⟩ := hy
  refine ⟨tr' ++ tr, hr.append hr', fun e he => ?_⟩
  rcases List.mem_append.mp he with he | he
  · exact hnext' e he
  · exact hnext e he

theorem Alone.cons {z : FifoRace} (h : x.next = some y) (hy : Alone y z) : Alone x z := by
  have hone : Alone x y := by
    refine ⟨[(x, .next)], Run.start.next h, fun e he => ?_⟩
    rw [List.mem_singleton.mp he]
  exact hone.trans hy

variable (ff) in
theorem clip_alone (size : Int) (accepted returned : List UInt8) :
    Alone ⟨ff, .setReadFlags size, accepted, returned⟩
      ⟨ff.setFlags fifoRd, .loadBom (if size > (ff.setFlags fifoRd).usedSize then
        (ff.setFlags fifoRd).usedSize else size), accepted, returned⟩ := by
  refine .cons rfl ?_
  by_cases hclip : size > (ff.setFlags fifoRd).usedSize
  · rw [if_pos hclip]
    exact .cons (if_pos hclip) (.cons rfl (.refl _))
  · rw [if_neg hclip]
    exact .cons (if_neg hclip) (.refl _)

theorem copy_alone (h : ff.InRange) (ht : Takes ff sz) {dest : List UInt8}
    (hcopy : ff.copyOut long sz = some dest) (accepted returned : List UInt8) :
    Alone ⟨ff, .loadBom sz, accepted, returned⟩
      ⟨{ ff with ffBom := long (ff.ffBom + sz) }, .unsetReadFlags dest, accepted, returned⟩ := by
  obtain ⟨hsz, hle⟩ := ht
  have hbom := h.place ff.ffBom
  have htop := h.place ff.ffTop
  have hsize := h.size_le
  have hroom := h.room
  have hcas : Alone ⟨ff, .cas sz ff.ffBom (long (ff.ffBom + sz)) dest, accepted, returned⟩
      ⟨{ ff with ffBom := long (ff.ffBom + sz) }, .unsetReadFlags dest, accepted, returned⟩ :=
    .cons (if_pos rfl) (.refl _)
  have hall (hfrom : ff.copyFrom (ff.ffBom % ff.ffSize) sz = some dest) : Alone
      ⟨ff, .copyAll sz ff.ffBom (long (ff.ffBom + sz)) (ff.ffBom % ff.ffSize), accepted, returned⟩
      ⟨{ ff with ffBom := long (ff.ffBom + sz) }, .unsetReadFlags dest, accepted, returned⟩ :=
    .cons (by simp [next, hfrom]) hcas
  have hstart : Alone ⟨ff, .loadBom sz, accepted, returned⟩
      ⟨ff, .testTop sz ff.ffBom (long (ff.ffBom + sz)) (ff.ffBom % ff.ffSize), accepted,
        returned⟩ := by
    rw [← h.bom_place]
    exact .cons rfl (.cons rfl (.cons rfl (.refl _)))
  refine hstart.trans ?_
  rw [FifoStruct.copyOut, h.bom_place, h.top_place, keeps_long _ hbom.1 (by omega),
    keeps_long _ htop.1 (by omega), keeps_long sz hsz (by omega),
    keeps_long _ (by omega : 0 ≤ ff.ffSize - ff.ffBom % ff.ffSize) (by omega)] at hcopy
  rw [← h.top_place] at hcopy
  split at hcopy
  · rename_i hstraight
    exact .cons (if_pos hstraight) (hall hcopy)
  · rename_i hstraight
    refine .cons (if_neg hstraight) ?_
    split at hcopy
    · rename_i hsplit
      obtain ⟨first, hfirst, hcopy⟩ := Option.bind_eq_some_iff.mp hcopy
      obtain ⟨second, hsecond, hdest⟩ := Option.bind_eq_some_iff.mp hcopy
      have hfirst' : next ⟨ff, .copyFirst sz ff.ffBom (long (ff.ffBom + sz))
          (ff.ffBom % ff.ffSize), accepted, returned⟩ = some ⟨ff, .copySecond sz ff.ffBom
          (long (ff.ffBom + sz)) (ff.ffBom % ff.ffSize) first, accepted, returned⟩ := by
        simp [next, hfirst]
      have hsecond' : next ⟨ff, .copySecond sz ff.ffBom (long (ff.ffBom + sz))
          (ff.ffBom % ff.ffSize) first, accepted, returned⟩ = some ⟨ff, .cas sz ff.ffBom
          (long (ff.ffBom + sz)) dest, accepted, returned⟩ := by
        simp [next, hsecond, ← Option.some.inj hdest]
      exact .cons (if_pos hsplit) (.cons hfirst' (.cons hsecond' hcas))
    · rename_i hsplit
      exact .cons (if_neg hsplit) (hall hcopy)

variable (ff) in
theorem end_alone (dest accepted returned : List UInt8) :
    Alone ⟨ff, .unsetReadFlags dest, accepted, returned⟩
      ⟨(ff.unsetFlags fifoRd).resetEmpty, .idle, accepted, returned ++ dest⟩ := by
  refine .cons rfl ?_
  rw [FifoStruct.resetEmpty]
  split
  · rename_i hempty
    exact .cons (if_pos hempty) (.cons rfl (.cons rfl (.cons rfl (.refl _))))
  · rename_i hempty
    exact .cons (if_neg hempty) (.cons rfl (.refl _))

theorem read_alone (h : ff.InRange) (hsize : 0 ≤ size) {ret : Int} {dest : List UInt8}
    (hread : ff.read long false size = some (ff', ret, dest)) (accepted returned : List UInt8) :
    Alone ⟨ff, .setReadFlags size, accepted, returned⟩
      ⟨ff', .idle, accepted, returned ++ dest⟩ := by
  have hin := h.setFlags fifoRd
  have hused := hin.usedSize_eq
  have horder := hin.order
  rw [FifoStruct.read] at hread
  simp only [Bool.false_eq_true, false_and, if_false] at hread
  obtain ⟨dest', hcopy, hread⟩ := Option.bind_eq_some_iff.mp hread
  have htakes : Takes (ff.setFlags fifoRd) (if size > (ff.setFlags fifoRd).usedSize then
      (ff.setFlags fifoRd).usedSize else size) := by
    rw [hused]
    constructor <;> split <;> omega
  simp only [Option.pure_def, Option.some.injEq, Prod.mk.injEq] at hread
  obtain ⟨rfl, -, rfl⟩ := hread
  exact (clip_alone ff size accepted returned).trans
    ((copy_alone hin htakes hcopy accepted returned).trans (end_alone _ dest' accepted returned))

-- ---------------------------------------------------------------------------
-- The statements of the reader
-- ---------------------------------------------------------------------------

theorem copy_straight (h : ff.InRange) (ht : Takes ff sz)
    (hle : ff.ffBom % ff.ffSize + sz ≤ ff.ffSize) :
    ff.copyFrom (ff.ffBom % ff.ffSize) sz = some (ff.contents.take sz.toNat) := by
  have hsz := ht.1
  rw [FifoStruct.copyFrom_of_inside ht.1 (h.place _).1 hle, h.take_contents ht.2,
    contents_straight h.size_pos (by omega)]

theorem copy_rest (h : ff.InRange) (ht : Takes ff sz)
    (hlt : ff.ffSize - ff.ffBom % ff.ffSize < sz) :
    ∃ rest, ff.copyFrom 0 (sz - (ff.ffSize - ff.ffBom % ff.ffSize)) = some rest ∧
      ff.contents.take (ff.ffSize - ff.ffBom % ff.ffSize).toNat ++ rest =
        ff.contents.take sz.toNat := by
  obtain ⟨hsz, hle⟩ := ht
  have hplace := h.place ff.ffBom
  have hroom := h.room
  refine ⟨_, FifoStruct.copyFrom_of_inside (by omega) (le_refl 0) (by omega), ?_⟩
  rw [h.take_contents (by omega), h.take_contents hle, contents_straight h.size_pos (by omega),
    contents_wrapped h.size_pos (l := (ff.ffSize - ff.ffBom % ff.ffSize).toNat) (by omega)
      (by omega) (by omega)]
  congr 2
  omega

theorem next_consistent (hx : x.Consistent) (hpc : x.pc ≠ .idle) :
    ∃ y, x.next = some y ∧ y.Consistent := by
  obtain ⟨ff, pc, accepted, returned⟩ := x
  obtain ⟨hu, hx⟩ := hx
  change ff.usable = true at hu
  change AtPc ff accepted returned pc at hx
  cases pc with
  | idle => contradiction
  | setReadFlags sz =>
    obtain ⟨hready, hacc, hsz⟩ := hx
    exact ⟨_, rfl, FifoStruct.usable_setFlags hu fifoRd, hready.setFlags fifoRd, hacc, hsz⟩
  | testSize sz =>
    obtain ⟨hready, hacc, hsz⟩ := hx
    have hused := hready.usedSize_eq
    by_cases hlt : sz > ff.usedSize
    · exact ⟨_, if_pos hlt, hu, hready, hacc, trivial⟩
    · exact ⟨_, if_neg hlt, hu, hready, hacc, hsz, hused ▸ not_lt.mp hlt⟩
  | clipSize =>
    obtain ⟨hready, hacc, -⟩ := hx
    have hused := hready.usedSize_eq
    have horder := hready.order
    exact ⟨_, rfl, hu, hready, hacc, by change 0 ≤ ff.usedSize; omega, hused.le⟩
  | loadBom sz =>
    obtain ⟨hready, hacc, ht⟩ := hx
    exact ⟨_, rfl, hu, hready, hacc, ht, rfl⟩
  | addBom sz oldBom =>
    obtain ⟨hready, hacc, ht, rfl⟩ := hx
    obtain ⟨hsz, hle⟩ := ht
    have hbom := hready.bom
    have htop := hready.top
    exact ⟨_, rfl, hu, hready, hacc, ⟨hsz, hle⟩, rfl, long_eq (by omega) (by omega)⟩
  | placeBom sz oldBom newBom =>
    obtain ⟨hready, hacc, ht, rfl, rfl⟩ := hx
    exact ⟨_, rfl, hu, hready, hacc, ht, rfl, rfl, hready.bom_place⟩
  | testTop sz oldBom newBom bom =>
    obtain ⟨hready, hacc, ht, rfl, rfl, rfl⟩ := hx
    have htop := hready.top_place
    by_cases hge : ff.ffTop.tmod ff.ffSize ≥ ff.ffBom % ff.ffSize
    · refine ⟨_, if_pos hge, hu, hready, hacc, ht, rfl, rfl, rfl, ?_⟩
      have hle := ht.2
      have hroom := hready.room
      rcases hready.top_cases with ⟨hwrap, heq⟩ | ⟨hwrap, heq⟩
      · dsimp only
        omega
      · omega
    · exact ⟨_, if_neg hge, hu, hready, hacc, ht, rfl, rfl, rfl⟩
  | copyAll sz oldBom newBom bom =>
    obtain ⟨hready, hacc, ht, rfl, rfl, rfl, hle⟩ := hx
    have hcopy := copy_straight hready.toInRange ht hle
    exact ⟨⟨ff, .cas sz ff.ffBom (ff.ffBom + sz) (ff.contents.take sz.toNat), accepted, returned⟩,
      by simp [next, hcopy], hu, hready, hacc, ht, rfl, rfl, rfl⟩
  | testSplit sz oldBom newBom bom =>
    obtain ⟨hready, hacc, ht, rfl, rfl, rfl⟩ := hx
    by_cases hlt : sz > ff.ffSize - ff.ffBom % ff.ffSize
    · exact ⟨_, if_pos hlt, hu, hready, hacc, ht, rfl, rfl, rfl, hlt⟩
    · refine ⟨_, if_neg hlt, hu, hready, hacc, ht, rfl, rfl, rfl, ?_⟩
      dsimp only
      omega
  | copyFirst sz oldBom newBom bom =>
    obtain ⟨hready, hacc, ht, rfl, rfl, rfl, hlt⟩ := hx
    have hplace := hready.place ff.ffBom
    obtain ⟨hsz, hle⟩ := ht
    have hfirst : Takes ff (ff.ffSize - ff.ffBom % ff.ffSize) := ⟨by omega, by omega⟩
    have hcopy := copy_straight hready.toInRange hfirst (by omega)
    exact ⟨⟨ff, .copySecond sz ff.ffBom (ff.ffBom + sz) (ff.ffBom % ff.ffSize)
        (ff.contents.take (ff.ffSize - ff.ffBom % ff.ffSize).toNat), accepted, returned⟩,
      by simp [next, hcopy], hu, hready, hacc, ⟨hsz, hle⟩, rfl, rfl, rfl, hlt, rfl⟩
  | copySecond sz oldBom newBom bom dest =>
    obtain ⟨hready, hacc, ht, rfl, rfl, rfl, hlt, rfl⟩ := hx
    obtain ⟨rest, hcopy, hdest⟩ := copy_rest hready.toInRange ht hlt
    exact ⟨⟨ff, .cas sz ff.ffBom (ff.ffBom + sz) (ff.contents.take sz.toNat), accepted, returned⟩,
      by simp [next, hcopy, hdest], hu, hready, hacc, ht, rfl, rfl, rfl⟩
  | cas sz oldBom newBom dest =>
    obtain ⟨hready, hacc, ht, rfl, rfl, rfl⟩ := hx
    obtain ⟨hin, hdrop⟩ := hready.taken ht.1 ht.2
    refine ⟨_, if_pos rfl, hu, hin, ?_⟩
    change accepted = returned ++ ff.contents.take sz.toNat ++
      FifoStruct.contents { ff with ffBom := ff.ffBom + sz }
    rw [hdrop, List.append_assoc, List.take_append_drop]
    exact hacc
  | unsetReadFlags dest =>
    obtain ⟨hin, hacc⟩ := hx
    exact ⟨_, rfl, FifoStruct.usable_unsetFlags hu (by decide),
      ⟨hin.size_pos, hin.size_le, hin.bom, hin.order, hin.room, hin.top⟩, hacc⟩
  | testEmpty dest =>
    obtain ⟨hin, hacc⟩ := hx
    by_cases heq : ff.ffTop = ff.ffBom
    · refine ⟨_, if_pos heq, hu, hin, heq, ?_⟩
      rwa [FifoStruct.contents_nil heq, List.append_nil] at hacc
    · exact ⟨_, if_neg heq, hu, ⟨hin, fun h => absurd h heq, hu⟩, hacc⟩
  | clearTop dest =>
    obtain ⟨hin, heq, hacc⟩ := hx
    have hpos := hin.size_pos
    have hzero : (0 : Int) < 2147483648 := by decide
    refine ⟨_, rfl, hu, ⟨⟨hpos, hin.size_le, le_refl 0, le_refl 0, hpos, hzero⟩, hin.bom, ?_⟩, ?_⟩
    · have hplace := (hin.place ff.ffBom).1
      dsimp only
      omega
    · exact hacc.trans (List.append_nil _).symm
  | clearBom dest =>
    obtain ⟨hbehind, hacc⟩ := hx
    exact ⟨_, rfl, hu, ⟨hbehind.reset, fun _ => rfl, hu⟩, hacc⟩
  | ret dest =>
    obtain ⟨hready, hacc⟩ := hx
    exact ⟨_, rfl, hu, hready, hacc, trivial⟩

-- ---------------------------------------------------------------------------
-- Writes in between
-- ---------------------------------------------------------------------------

theorem Locals.mono (hbom : ff'.ffBom = ff.ffBom) (hsize : ff'.ffSize = ff.ffSize)
    (htop : ff.ffTop ≤ ff'.ffTop) (hin : ff.InRange) (hc : ff'.contents = ff.contents ++ w)
    (h : Locals ff pc) : Locals ff' pc := by
  have htakes : ∀ {sz}, Takes ff sz → Takes ff' sz := by
    rintro sz ⟨hsz, hle⟩
    exact ⟨hsz, by rw [hbom]; omega⟩
  have hlen := FifoStruct.contents_length hin
  have hplace := hin.place ff.ffBom
  cases pc with
  | loadBom sz => exact htakes h
  | addBom sz oldBom => exact ⟨htakes h.1, by rw [hbom]; exact h.2⟩
  | placeBom sz oldBom newBom => exact ⟨htakes h.1, by rw [hbom]; exact h.2⟩
  | testTop sz oldBom newBom bom | testSplit sz oldBom newBom bom
  | copyAll sz oldBom newBom bom | copyFirst sz oldBom newBom bom =>
    exact ⟨htakes h.1, by rw [hbom, hsize]; exact h.2⟩
  | copySecond sz oldBom newBom bom dest =>
    obtain ⟨ht, hold, hnew, hplaced, hlt, hdest⟩ := h
    refine ⟨htakes ht, by rw [hbom]; exact hold, by rw [hbom]; exact hnew,
      by rw [hbom, hsize]; exact hplaced, by rw [hsize]; exact hlt, ?_⟩
    rw [hdest, hc, hsize, List.take_append_of_le_length]
    have hle := ht.2
    omega
  | cas sz oldBom newBom dest =>
    obtain ⟨ht, hold, hnew, hdest⟩ := h
    refine ⟨htakes ht, by rw [hbom]; exact hold, by rw [hbom]; exact hnew, ?_⟩
    rw [hdest, hc, List.take_append_of_le_length]
    have hle := ht.2
    omega
  | setReadFlags sz | testSize sz => exact h
  | idle | clipSize | unsetReadFlags dest | testEmpty dest | clearTop dest | clearBom dest
  | ret dest => trivial

theorem Behind.free (h : Behind ff) (hsum : ff.ffBom + ff.ffSize - ff.ffTop ≤ 2147483648) :
    0 ≤ ff.freeSize ∧ ff.ffTop + ff.freeSize < ff.ffSize ∧
      (ff.ffBom % ff.ffSize = 0 ∨ ff.ffTop + ff.freeSize < ff.ffBom % ff.ffSize) := by
  obtain ⟨⟨hpos, hle, -, horder, hroom, -⟩, hbom, hbelow⟩ := h
  dsimp only at hpos hle horder hroom
  have hplace := Int.emod_lt_of_pos ff.ffBom hpos
  rw [FifoStruct.freeSize, long_eq (by omega) (by omega), Int.tmod_eq_emod_of_nonneg (by omega)]
  have hsplit : ff.ffBom + ff.ffSize - ff.ffTop - 1 = ff.ffBom + (ff.ffSize - ff.ffTop - 1) := by
    omega
  rw [hsplit]
  rcases hbelow with hzero | hlt
  · rw [place_add hpos (by omega) (by omega)]
    omega
  · rw [place_wrap hpos (by omega) (by omega)]
    omega

theorem Behind.write (h : Behind ff) (hu : ff.usable) (hsize : 0 ≤ size)
    (hsum : ff.ffBom + ff.ffSize - ff.ffTop ≤ 2147483648) :
    ∃ ff', ff.write long true src size = some (ff', (ff.room size : Int)) ∧ ff'.usable ∧
      Behind ff' ∧ FifoStruct.contents { ff' with ffBom := 0 } =
        FifoStruct.contents { ff with ffBom := 0 } ++ block src 0 (ff.room size) := by
  obtain ⟨hfree, hfits, hbelow'⟩ := h.free hsum
  have hn : (ff.room size : Int) = min size ff.freeSize := by
    rw [FifoStruct.room]
    omega
  obtain ⟨hreset, hbom, hbelow⟩ := h
  have hin := hreset
  obtain ⟨hpos, hle, -, horder, hroom, -⟩ := hin
  dsimp only at hpos hle horder hroom
  have htop : ff.ffTop % ff.ffSize = ff.ffTop := Int.emod_eq_of_lt horder (by omega)
  have hplace := Int.emod_nonneg ff.ffBom (Int.ne_of_gt hpos)
  have hplace' := Int.emod_lt_of_pos ff.ffBom hpos
  -- after `n` bytes, whatever became of the flags
  have hspec : ∀ flags data, Wrote ff.ffData data ff.ffSize ff.ffTop src (ff.room size) →
      Behind ⟨flags, ff.ffTop + ff.room size, ff.ffBom, ff.ffSize, data⟩ ∧
      FifoStruct.contents ⟨flags, ff.ffTop + ff.room size, 0, ff.ffSize, data⟩ =
        FifoStruct.contents { ff with ffBom := 0 } ++ block src 0 (ff.room size) := by
    intro flags data hw
    have hwritten : FifoStruct.Written { ff with ffBom := 0 } src (ff.room size)
        ⟨flags, ff.ffTop + ff.room size, 0, ff.ffSize, data⟩ :=
      ⟨rfl, rfl, rfl, hw⟩
    obtain ⟨hin', hcontents⟩ :=
      hwritten.inRange hreset (by dsimp only; omega) (by dsimp only; omega)
    exact ⟨⟨hin', hbom, by dsimp only; omega⟩, hcontents⟩
  have hflags := FifoStruct.usable_setFlags hu fifoWr
  rw [FifoStruct.write]
  dsimp only
  change ∃ ff', (if true ∧ size > ff.freeSize ∧ ff.freeSize = 0 then _ else _) = _ ∧ _
  split
  · have hnone : ff.room size = 0 := by omega
    obtain ⟨hbehind, hcontents⟩ := hspec (ff.setFlags fifoWr).ffFlags ff.ffData
      (by rw [hnone]; exact .none ..)
    rw [hnone, Int.natCast_zero, Int.add_zero] at *
    exact ⟨_, rfl, hflags, hbehind, hcontents⟩
  · have hsz : (if size > (ff.setFlags fifoWr).freeSize then (ff.setFlags fifoWr).freeSize
        else size) = ff.room size := by
      change (if size > ff.freeSize then ff.freeSize else size) = _
      split <;> omega
    have hcopy : (ff.setFlags fifoWr).copyIn long src (ff.room size) = some { ff.setFlags fifoWr with
        ffData := store ff.ffData (ff.ffTop % ff.ffSize) src (ff.room size) } := by
      have hinside : ff.ffTop % ff.ffSize + ff.room size ≤ ff.ffSize := by omega
      have hfirst : long (ff.ffSize - ff.ffTop % ff.ffSize) ≥ long (ff.room size) := by
        rw [long_eq (by omega) (by omega), long_eq (by omega) (by omega)]
        omega
      have hto : (ff.setFlags fifoWr).copyTo (ff.ffTop % ff.ffSize) src (ff.room size) =
          some { ff.setFlags fifoWr with
            ffData := store ff.ffData (ff.ffTop % ff.ffSize) src (ff.room size) } :=
        FifoStruct.copyTo_of_inside (Int.natCast_nonneg (ff.room size))
          (Int.emod_nonneg ff.ffTop (Int.ne_of_gt hpos)) hinside
      have htmod : (ff.setFlags fifoWr).ffTop.tmod (ff.setFlags fifoWr).ffSize =
          ff.ffTop % ff.ffSize := Int.tmod_eq_emod_of_nonneg horder
      rw [FifoStruct.copyIn, htmod]
      dsimp only
      rw [hto]
      split
      · rfl
      · exact if_pos hfirst
    obtain ⟨hbehind, hcontents⟩ := hspec ((ff.setFlags fifoWr).unsetFlags fifoWr).ffFlags _
      (wrote_straight hpos (by omega))
    have hlong : long ((ff.setFlags fifoWr).ffTop + ff.room size) = ff.ffTop + ff.room size :=
      long_eq (by change -2147483648 ≤ ff.ffTop + ff.room size; omega)
        (by change ff.ffTop + ff.room size < 2147483648; omega)
    rw [hsz, hcopy, Option.bind_eq_bind, Option.bind_some]
    dsimp only
    rw [hlong]
    exact ⟨_, rfl, FifoStruct.usable_unsetFlags hflags (by decide), hbehind, hcontents⟩

theorem write_inRange (hin : ff.InRange) (hsize : 0 ≤ size)
    (hfit : ff.ffTop = ff.ffBom → ff.ffTop % ff.ffSize + ff.room size ≤ ff.ffSize)
    (htop : ff.ffTop + ff.room size < 2147483648) :
    ∃ ff', ff.write long true src size = some (ff', (ff.room size : Int)) ∧
      ff.Written src (ff.room size) ff' ∧ (ff.usable → ff'.usable) ∧ ff'.InRange ∧
      ff'.contents = ff.contents ++ block src 0 (ff.room size) := by
  have hroom := hin.room_eq hsize
  obtain ⟨ff', hrun, hw, hu⟩ := FifoStruct.write_inRange src keeps_long hin hsize true htop hfit
  obtain ⟨hin', hcontents⟩ := hw.inRange hin (by omega) htop
  exact ⟨ff', hrun, hw, hu, hin', hcontents⟩

theorem write_consistent (hx : x.Consistent) (hw : x.Undisturbed (.write src size)) :
    ∃ y, x.write src size = some y ∧ y.Consistent := by
  obtain ⟨ff, pc, accepted, returned⟩ := x
  obtain ⟨hu, hx⟩ := hx
  change ff.usable = true at hu
  change AtPc ff accepted returned pc at hx
  by_cases hneg : size < 0
  · exact ⟨_, if_pos (.inl hneg), hu, hx⟩
  have hsize := not_lt.mp hneg
  obtain ⟨hclear, hfit, htop, hsum⟩ := hw hsize
  dsimp only at hclear hfit htop hsum
  -- the write is done, and leaves the reader as it is
  have hdone : ∀ ff', ff.write long true src size = some (ff', (ff.room size : Int)) →
      ff'.usable → AtPc ff' (accepted ++ block src 0 (ff.room size)) returned pc →
      ∃ y, FifoRace.write ⟨ff, pc, accepted, returned⟩ src size = some y ∧ y.Consistent := by
    intro ff' hrun hu' hx'
    refine ⟨⟨ff', pc, accepted ++ block src 0 (ff.room size), returned⟩, ?_, hu', hx'⟩
    simp [FifoRace.write, hneg, hu, hrun]
  have hinRange : ff.InRange → (∀ ff', ff'.InRange → ff.Written src (ff.room size) ff' →
      ff'.contents = ff.contents ++ block src 0 (ff.room size) →
      ff'.usable → AtPc ff' (accepted ++ block src 0 (ff.room size)) returned pc) →
      ∃ y, FifoRace.write ⟨ff, pc, accepted, returned⟩ src size = some y ∧ y.Consistent := by
    intro hin hat
    obtain ⟨ff', hrun, hw, hu', hin', hcontents⟩ := write_inRange hin hsize hfit htop
    exact hdone ff' hrun (hu' hu) (hat ff' hin' hw hcontents (hu' hu))
  cases pc with
  | unsetReadFlags dest | testEmpty dest =>
    obtain ⟨hin, hacc⟩ := hx
    refine hinRange hin fun ff' hin' _ hcontents _ => ⟨hin', ?_⟩
    rw [hacc, hcontents, List.append_assoc]
  | clearTop dest =>
    obtain ⟨hin, heq, hacc⟩ := hx
    have hnone := hclear ⟨dest, rfl⟩
    refine hinRange hin fun ff' hin' hw _ _ => ⟨hin', ?_, ?_⟩
    · rw [hw.top, hw.bom, hnone, heq, Int.natCast_zero, Int.add_zero]
    · rw [hacc, hnone, block_zero, List.append_nil]
  | clearBom dest =>
    obtain ⟨hbehind, hacc⟩ := hx
    obtain ⟨ff', hrun, hu', hbehind', hcontents⟩ := hbehind.write hu hsize hsum
    refine hdone ff' hrun hu' ⟨hbehind', ?_⟩
    rw [hacc, hcontents, List.append_assoc]
  | ret dest =>
    obtain ⟨hready, hacc⟩ := hx
    refine hinRange hready.toInRange fun ff' hin' hw hcontents hu' =>
      ⟨hready.written hw hin' hu', ?_⟩
    rw [hacc, hcontents, List.append_assoc]
  | _ =>
    obtain ⟨hready, hacc, hlocals⟩ := hx
    refine hinRange hready.toInRange fun ff' hin' hw hcontents hu' =>
      ⟨hready.written hw hin' hu', ?_, hlocals.mono hw.bom hw.size ?_ hready.toInRange hcontents⟩
    · rw [hacc, hcontents, List.append_assoc]
    · rw [hw.top]
      omega

-- ---------------------------------------------------------------------------
-- Runs
-- ---------------------------------------------------------------------------

theorem Consistent.step {a : RaceAction} (hx : x.Consistent) (ha : x.Undisturbed a)
    (h : x.step a = some y) : y.Consistent := by
  cases a with
  | call size =>
    rw [FifoRace.step] at h
    split at h
    · rename_i hidle
      split at h
      · obtain rfl := Option.some.inj h
        exact hx
      · rename_i hargs
        obtain rfl := Option.some.inj h
        have hat := hx.atPc
        rw [hidle] at hat
        obtain ⟨hready, hacc, -⟩ := hat
        exact ⟨hx.usable, hready, hacc, not_lt.mp fun hlt => hargs (.inl hlt)⟩
    · contradiction
  | next =>
    have hpc : x.pc ≠ .idle := by
      intro hidle
      rw [FifoRace.step, FifoRace.next, hidle] at h
      contradiction
    obtain ⟨z, hnext, hz⟩ := next_consistent hx hpc
    obtain rfl := Option.some.inj (hnext.symm.trans h)
    exact hz
  | write src size =>
    obtain ⟨z, hwrite, hz⟩ := write_consistent hx ha
    obtain rfl := Option.some.inj (hwrite.symm.trans h)
    exact hz

theorem Consistent.isPrefix (hx : x.Consistent) : x.returned <+: x.accepted := by
  obtain ⟨ff, pc, accepted, returned⟩ := x
  obtain ⟨-, hx⟩ := hx
  change AtPc ff accepted returned pc at hx
  cases pc with
  | unsetReadFlags dest | testEmpty dest | clearBom dest | ret dest =>
    exact ⟨_, (hx.2.trans (List.append_assoc ..)).symm⟩
  | clearTop dest => exact ⟨_, hx.2.2.symm⟩
  | _ => exact ⟨_, hx.2.1.symm⟩

end FifoRace

/-- In a run in which no write disturbs the reader, the reads return what the writes
have accepted, in order; between two reads the rest is in the FIFO; and neither the
reader's next statement nor a write leaves the FIFO's data. -/
theorem fifo_reads_in_order {tr : List (FifoRace × RaceAction)} {x₀ : Fifos} {index : Int}
    {x y : FifoRace} (hr : Run FifoRace.step (FifoRace.start x₀ index) tr x) (hx : Visited tr x y)
    (hc : ∀ e ∈ tr, e.1.Undisturbed e.2) :
    y.returned <+: y.accepted ∧ (y.pc = .idle → y.accepted = y.returned ++ y.ff.contents) ∧
      (y.pc ≠ .idle → ∃ z, y.step .next = some z) ∧
      ∀ src size, y.Undisturbed (.write src size) → ∃ z, y.step (.write src size) = some z := by
  have hy : y.Consistent := hr.invariant_visited (I := FifoRace.Consistent)
    (C := FifoRace.Undisturbed) (FifoRace.start_consistent x₀ index)
    (fun _ _ _ hs ha hstep => hs.step ha hstep) hc hx
  refine ⟨hy.isPrefix, fun hidle => ?_, fun hpc => ?_, fun src size hw => ?_⟩
  · have hat := hy.atPc
    rw [hidle] at hat
    exact hat.2.1
  · obtain ⟨z, hnext, -⟩ := FifoRace.next_consistent hy hpc
    exact ⟨z, hnext⟩
  · obtain ⟨z, hwrite, -⟩ := FifoRace.write_consistent hy hw
    exact ⟨z, hwrite⟩

def ReadPc.isClearTop : ReadPc → Bool
  | .clearTop _ => true
  | _ => false

instance (x : FifoRace) (a : RaceAction) : Decidable (x.Undisturbed a) :=
  match a with
  | .write _ size =>
    decidable_of_iff (0 ≤ size →
      (x.pc.isClearTop → x.ff.room size = 0) ∧
      (x.ff.ffTop = x.ff.ffBom → x.ff.ffTop % x.ff.ffSize + x.ff.room size ≤ x.ff.ffSize) ∧
      x.ff.ffTop + x.ff.room size < 2147483648 ∧
      x.ff.ffBom + x.ff.ffSize - x.ff.ffTop ≤ 2147483648) (by
        have hpc : x.pc.isClearTop ↔ ∃ dest, x.pc = .clearTop dest := by
          cases x.pc <;> simp [ReadPc.isClearTop]
        rw [hpc]
        rfl)
  | .call _ | .next => .isTrue trivial

/-- A write that comes before the reader has looked whether the FIFO is empty. -/
theorem fifo_reads_in_order_run : ∃ (tr : List (FifoRace × RaceAction)) (x : FifoRace),
    Run FifoRace.step (FifoRace.start emptyFifos 0) tr x ∧ x.accepted = [1, 2] ∧
      x.returned <+: x.accepted := by
  have hrun : (exec FifoRace.step (FifoRace.start emptyFifos 0)
      (.write (fun _ => 1) 1 :: .call 1 :: List.replicate 8 .next ++ .write (fun _ => 2) 1 ::
        List.replicate 3 .next)).any fun r => decide
        ((∀ e ∈ r.1, e.1.Undisturbed e.2) ∧ r.2.accepted = [1, 2] ∧ r.2.returned = [1]) := by
    decide +kernel
  obtain ⟨tr, x, hr, hx⟩ := exec_any hrun
  simp only [decide_eq_true_eq] at hx
  exact ⟨tr, x, hr, hx.2.1, (fifo_reads_in_order hr .self hx.1).1⟩

/-- The byte 2 is written when the reader has found the FIFO empty, and is lost. -/
theorem fifo_write_lost : ∃ (tr : List (FifoRace × RaceAction)) (x : FifoRace),
    Run FifoRace.step (FifoRace.start emptyFifos 0) tr x ∧ x.accepted = [1, 2, 3] ∧
      x.returned = [1, 3] ∧ ¬x.returned <+: x.accepted := by
  have hrun : (exec FifoRace.step (FifoRace.start emptyFifos 0)
      (.write (fun _ => 1) 1 :: .call 1 :: List.replicate 10 .next ++ .write (fun _ => 2) 1 ::
        List.replicate 3 .next ++ .write (fun _ => 3) 1 :: .call 1 ::
        List.replicate 13 .next)).any fun r => decide
        (r.2.accepted = [1, 2, 3] ∧ r.2.returned = [1, 3]) := by
    decide +kernel
  obtain ⟨tr, x, hr, hx⟩ := exec_any hrun
  simp only [decide_eq_true_eq] at hx
  obtain ⟨haccepted, hreturned⟩ := hx
  refine ⟨tr, x, hr, haccepted, hreturned, ?_⟩
  rw [haccepted, hreturned]
  decide

end Xmertl
