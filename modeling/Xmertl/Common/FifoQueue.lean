import Xmertl.Common.Fifo
import Xmertl.Lib.Runs

/-!
# A FIFO is a queue

Calls that come one after the other, through either driver, read and write a queue
of at most `ff_size - 1` bytes. That an empty FIFO has both positions at 0 matters:
a write to it is in one block.
-/

namespace Xmertl

open RingBuffer Runs

structure FifoStruct.InRange (ff : FifoStruct) : Prop where
  size_pos : 0 < ff.ffSize
  size_le : ff.ffSize ≤ 1073741824
  bom : 0 ≤ ff.ffBom
  order : ff.ffBom ≤ ff.ffTop
  room : ff.ffTop - ff.ffBom < ff.ffSize
  top : ff.ffTop < 2147483648

structure FifoStruct.Ready (ff : FifoStruct) : Prop extends ff.InRange where
  empty : ff.ffTop = ff.ffBom → ff.ffBom = 0
  usable : ff.usable

def FifoStruct.contents (ff : FifoStruct) : List UInt8 :=
  RingBuffer.contents ff.ffData ff.ffSize ff.ffBom (ff.ffTop - ff.ffBom).toNat

/-- Conversions that leave what is not negative as it is. -/
def Keeps (cast : Int → Int) : Prop := ∀ x, 0 ≤ x → x < 2147483648 → cast x = x

section
variable {cast : Int → Int} {ff : FifoStruct} {src : Int → UInt8} {x off n sz size : Int}
  {early : Bool}

-- ---------------------------------------------------------------------------
-- Positions
-- ---------------------------------------------------------------------------

theorem long_eq (hlo : -2147483648 ≤ x) (hhi : x < 2147483648) : long x = x := by
  rw [long, Int.bmod_eq_emod]
  split <;> omega

theorem keeps_long : Keeps long := fun _ hlo hhi => long_eq (by omega) hhi

theorem keeps_ulong : Keeps ulong := fun _ hlo hhi => Int.emod_eq_of_lt hlo (by omega)

namespace FifoStruct

theorem InRange.usedSize_eq (h : ff.InRange) : ff.usedSize = ff.ffTop - ff.ffBom := by
  obtain ⟨hpos, hle, hbom, horder, hroom, htop⟩ := h
  rw [usedSize, long_eq (by omega) (by omega), Int.tmod_eq_emod_of_nonneg (by omega),
    ← Int.sub_emod_right, Int.emod_eq_of_lt (by omega) (by omega)]
  omega

theorem InRange.freeSize_eq (h : ff.InRange) :
    ff.freeSize = ff.ffSize - 1 - (ff.ffTop - ff.ffBom) := by
  obtain ⟨hpos, hle, hbom, horder, hroom, htop⟩ := h
  rw [freeSize, long_eq (by omega) (by omega), Int.tmod_eq_emod_of_nonneg (by omega),
    Int.emod_eq_of_lt (by omega) (by omega)]
  omega

theorem InRange.bom_place (h : ff.InRange) : ff.ffBom.tmod ff.ffSize = ff.ffBom % ff.ffSize :=
  Int.tmod_eq_emod_of_nonneg h.bom

theorem InRange.top_place (h : ff.InRange) : ff.ffTop.tmod ff.ffSize = ff.ffTop % ff.ffSize :=
  Int.tmod_eq_emod_of_nonneg (h.bom.trans h.order)

theorem InRange.place (h : ff.InRange) (x : Int) :
    0 ≤ x % ff.ffSize ∧ x % ff.ffSize < ff.ffSize :=
  ⟨Int.emod_nonneg x (Int.ne_of_gt h.size_pos), Int.emod_lt_of_pos x h.size_pos⟩

theorem copyFrom_of_inside (hn : 0 ≤ n) (hoff : 0 ≤ off) (h : off + n ≤ ff.ffSize) :
    ff.copyFrom off n = some (block ff.ffData off n.toNat) :=
  if_pos ⟨hn, .inr ⟨hoff, h⟩⟩

theorem copyTo_of_inside (hn : 0 ≤ n) (hoff : 0 ≤ off) (h : off + n ≤ ff.ffSize) :
    ff.copyTo off src n = some { ff with ffData := store ff.ffData off src n } :=
  if_pos ⟨hn, .inr ⟨hoff, h⟩⟩

theorem InRange.top_cases (h : ff.InRange) :
    (ff.ffBom % ff.ffSize + (ff.ffTop - ff.ffBom) < ff.ffSize ∧
      ff.ffTop % ff.ffSize = ff.ffBom % ff.ffSize + (ff.ffTop - ff.ffBom)) ∨
    (ff.ffSize ≤ ff.ffBom % ff.ffSize + (ff.ffTop - ff.ffBom) ∧
      ff.ffTop % ff.ffSize = ff.ffBom % ff.ffSize + (ff.ffTop - ff.ffBom) - ff.ffSize) := by
  have htop : ff.ffBom + (ff.ffTop - ff.ffBom) = ff.ffTop := by omega
  have hused := h.order
  have hroom := h.room
  by_cases hwrap : ff.ffBom % ff.ffSize + (ff.ffTop - ff.ffBom) < ff.ffSize
  · have hplace := place_add h.size_pos (by omega) hwrap
    rw [htop] at hplace
    exact .inl ⟨hwrap, hplace⟩
  · have hplace := place_wrap h.size_pos (by omega) (not_lt.mp hwrap)
    rw [htop] at hplace
    exact .inr ⟨not_lt.mp hwrap, hplace⟩

-- ---------------------------------------------------------------------------
-- Copies
-- ---------------------------------------------------------------------------

theorem copyOut_spec (hc : Keeps cast) (h : ff.InRange) (hsz : 0 ≤ sz)
    (hle : sz ≤ ff.ffTop - ff.ffBom) : ff.copyOut cast sz =
      some (RingBuffer.contents ff.ffData ff.ffSize ff.ffBom sz.toNat) := by
  have hbom := h.place ff.ffBom
  have htop := h.place ff.ffTop
  have hsize := h.size_le
  have hroom := h.room
  rw [copyOut, h.bom_place, h.top_place, hc _ hbom.1 (by omega), hc _ htop.1 (by omega),
    hc sz hsz (by omega), hc _ (by omega : 0 ≤ ff.ffSize - ff.ffBom % ff.ffSize) (by omega)]
  rcases h.top_cases with ⟨hwrap, heq⟩ | ⟨hwrap, heq⟩
  · rw [if_pos (by omega), copyFrom_of_inside hsz hbom.1 (by omega),
      contents_straight h.size_pos (by omega)]
  · rw [if_neg (by omega)]
    split
    · rename_i hsplit
      rw [copyFrom_of_inside (by omega) hbom.1 (by omega),
        copyFrom_of_inside (by omega) (le_refl 0) (by omega),
        contents_wrapped h.size_pos (l := (ff.ffSize - ff.ffBom % ff.ffSize).toNat) (by omega)
          (by omega) (by omega)]
      have hrest : (sz - (ff.ffSize - ff.ffBom % ff.ffSize)).toNat =
          sz.toNat - (ff.ffSize - ff.ffBom % ff.ffSize).toNat := by omega
      rw [hrest]
      rfl
    · rw [copyFrom_of_inside hsz hbom.1 (by omega), contents_straight h.size_pos (by omega)]

variable (src) in
theorem copyIn_spec (hc : Keeps cast) (h : ff.InRange) (hsz : 0 ≤ sz)
    (hle : sz ≤ ff.ffSize - 1 - (ff.ffTop - ff.ffBom))
    (hfit : ff.ffTop = ff.ffBom → ff.ffTop % ff.ffSize + sz ≤ ff.ffSize) :
    ∃ data, ff.copyIn cast src sz = some { ff with ffData := data } ∧
      Wrote ff.ffData data ff.ffSize ff.ffTop src sz := by
  have hbom := h.place ff.ffBom
  have htop := h.place ff.ffTop
  have hsize := h.size_le
  have horder := h.order
  rw [copyIn, h.bom_place, h.top_place, hc _ hbom.1 (by omega), hc _ htop.1 (by omega),
    hc sz hsz (by omega), hc _ (by omega : 0 ≤ ff.ffSize - ff.ffTop % ff.ffSize) (by omega)]
  by_cases hstraight : ff.ffTop % ff.ffSize + sz ≤ ff.ffSize
  · refine ⟨_, ?_, wrote_straight h.size_pos hstraight⟩
    rw [copyTo_of_inside hsz htop.1 hstraight]
    split
    · rfl
    · rw [if_pos (by omega)]
  · have hnot : ¬ff.ffTop % ff.ffSize ≤ ff.ffBom % ff.ffSize := by
      rcases h.top_cases with ⟨-, heq⟩ | ⟨-, heq⟩ <;> omega
    refine ⟨_, ?_, wrote_wrapped h.size_pos rfl (by omega) (by omega)⟩
    rw [if_neg hnot, if_neg (by omega), copyTo_of_inside (by omega) htop.1 (by omega)]
    have hrest : 0 ≤ sz - (ff.ffSize - ff.ffTop % ff.ffSize) ∧
        0 + (sz - (ff.ffSize - ff.ffTop % ff.ffSize)) ≤ ff.ffSize := by omega
    exact copyTo_of_inside hrest.1 (le_refl 0) hrest.2

-- ---------------------------------------------------------------------------
-- Calls on one FIFO
-- ---------------------------------------------------------------------------

theorem contents_length (h : ff.InRange) : (ff.contents.length : Int) = ff.ffTop - ff.ffBom := by
  rw [contents, RingBuffer.contents, block_length, Int.toNat_of_nonneg (by have := h.order; omega)]

theorem usable_setFlags (hu : ff.usable) (flags : UInt32) : (ff.setFlags flags).usable := by
  have hor : (ff.ffFlags ||| flags) &&& fifoUs =
      ff.ffFlags &&& fifoUs ||| flags &&& fifoUs :=
    UInt32.toBitVec_inj.mp BitVec.and_or_distrib_right
  simp only [usable, setFlags, hor, decide_eq_true_eq, ne_eq, UInt32.or_eq_zero_iff] at hu ⊢
  exact fun h => hu h.1

theorem usable_unsetFlags {flags : UInt32} (hu : ff.usable) (h : ~~~flags &&& fifoUs = fifoUs) :
    (ff.unsetFlags flags).usable := by
  simpa only [usable, unsetFlags, UInt32.and_assoc, h] using hu

theorem Ready.setFlags (h : ff.Ready) (flags : UInt32) : (ff.setFlags flags).Ready :=
  ⟨⟨h.size_pos, h.size_le, h.bom, h.order, h.room, h.top⟩, h.empty, usable_setFlags h.usable flags⟩

theorem Ready.unsetFlags {flags : UInt32} (h : ff.Ready) (hf : ~~~flags &&& fifoUs = fifoUs) :
    (ff.unsetFlags flags).Ready :=
  ⟨⟨h.size_pos, h.size_le, h.bom, h.order, h.room, h.top⟩, h.empty, usable_unsetFlags h.usable hf⟩

theorem InRange.take_contents (h : ff.InRange) (hle : sz ≤ ff.ffTop - ff.ffBom) :
    ff.contents.take sz.toNat = RingBuffer.contents ff.ffData ff.ffSize ff.ffBom sz.toNat := by
  have horder := h.order
  rw [contents, RingBuffer.contents, RingBuffer.contents, block_take _ _ (by omega)]

theorem InRange.taken (h : ff.InRange) (hsz : 0 ≤ sz) (hle : sz ≤ ff.ffTop - ff.ffBom) :
    FifoStruct.InRange { ff with ffBom := ff.ffBom + sz } ∧
      FifoStruct.contents { ff with ffBom := ff.ffBom + sz } = ff.contents.drop sz.toNat := by
  obtain ⟨hpos, hsize, hbom, horder, hroom, htop⟩ := h
  constructor
  · refine ⟨hpos, hsize, ?_, ?_, ?_, htop⟩
    all_goals
      dsimp only
      omega
  · rw [contents, contents, RingBuffer.contents, RingBuffer.contents, block_drop _ _ (by omega),
      Int.toNat_of_nonneg hsz]
    congr 1
    dsimp only
    omega

theorem contents_nil (heq : ff.ffTop = ff.ffBom) : ff.contents = [] := by
  rw [contents, heq, Int.sub_self]
  rfl

theorem InRange.resetEmpty (h : ff.InRange) (hu : ff.usable) :
    ff.resetEmpty.Ready ∧ ff.resetEmpty.contents = ff.contents := by
  rw [FifoStruct.resetEmpty]
  split
  · rename_i hall
    rw [contents_nil hall]
    have hpos := h.size_pos
    have hzero : (0 : Int) < 2147483648 := by decide
    exact ⟨⟨⟨hpos, h.size_le, le_refl 0, le_refl 0, hpos, hzero⟩, fun _ => rfl, hu⟩, rfl⟩
  · rename_i hsome
    exact ⟨⟨h, fun heq => absurd heq hsome, hu⟩, rfl⟩

theorem resetEmpty_ffSize (ff : FifoStruct) : ff.resetEmpty.ffSize = ff.ffSize := by
  unfold resetEmpty
  split <;> rfl

theorem read_spec (hc : Keeps cast) (h : ff.Ready) (hsize : 0 ≤ size) (early : Bool) :
    ∃ ff' : FifoStruct, ff.read cast early size =
        some (ff', ((min size.toNat ff.contents.length : Nat) : Int),
          ff.contents.take size.toNat) ∧
      ff'.contents = ff.contents.drop size.toNat ∧ ff'.ffSize = ff.ffSize ∧ ff'.Ready := by
  have h₁ := h.setFlags fifoRd
  have hlen := contents_length h.toInRange
  have hused := h₁.usedSize_eq
  change (ff.setFlags fifoRd).usedSize = ff.ffTop - ff.ffBom at hused
  rw [← hlen] at hused
  rw [read]
  dsimp only
  rw [hused]
  split
  · rename_i hempty
    have hnone : ff.contents = [] := List.length_eq_zero_iff.mp (by omega)
    refine ⟨ff.setFlags fifoRd, ?_, ?_, rfl, h₁⟩
    · simp [hnone]
    · change ff.contents = _
      simp [hnone]
  · have hsz : ∃ n : Nat, n ≤ ff.contents.length ∧ n = min size.toNat ff.contents.length ∧
        (if size > ff.contents.length then (ff.contents.length : Int) else size) = n := by
      refine ⟨min size.toNat ff.contents.length, by omega, rfl, ?_⟩
      split <;> omega
    obtain ⟨n, hn, hmin, hsz⟩ := hsz
    rw [hsz, ← hmin]
    have hcopy := copyOut_spec hc h₁.toInRange (Int.natCast_nonneg n)
      (by change (n : Int) ≤ ff.ffTop - ff.ffBom; omega)
    have h₂ := h₁.unsetFlags (by decide : ~~~fifoRd &&& fifoUs = fifoUs)
    obtain ⟨hin, hdrop⟩ := h₂.taken (Int.natCast_nonneg n)
      (by change (n : Int) ≤ ff.ffTop - ff.ffBom; omega)
    obtain ⟨hready, hsame⟩ := hin.resetEmpty h₂.usable
    have htake : ff.contents.take size.toNat = ff.contents.take n :=
      List.take_eq_take_iff.mpr (by omega)
    have hdropped : ff.contents.drop size.toNat = ff.contents.drop n :=
      List.drop_eq_drop_iff.mpr (by omega)
    have htop := h.top
    have hbom := h.bom
    have hlong : long ((ff.setFlags fifoRd).ffBom + n) = ff.ffBom + n :=
      long_eq (by change -2147483648 ≤ ff.ffBom + n; omega)
        (by change ff.ffBom + n < 2147483648; omega)
    rw [hcopy, Option.bind_eq_bind, Option.bind_some, hlong]
    refine ⟨_, congrArg some (Prod.ext rfl (Prod.ext rfl ?_)), ?_, resetEmpty_ffSize _, hready⟩
    · change RingBuffer.contents ff.ffData ff.ffSize ff.ffBom n = ff.contents.take size.toNat
      rw [htake, ← Int.toNat_natCast n, h.take_contents (by omega)]
    · rw [hdropped]
      exact hsame.trans hdrop

/-- What a write of `n` bytes leaves. -/
structure Written (ff : FifoStruct) (src : Int → UInt8) (n : Nat) (ff' : FifoStruct) : Prop where
  top : ff'.ffTop = ff.ffTop + n
  bom : ff'.ffBom = ff.ffBom
  size : ff'.ffSize = ff.ffSize
  data : Wrote ff.ffData ff'.ffData ff.ffSize ff.ffTop src n

theorem Written.inRange {ff' : FifoStruct} {n : Nat} (hw : ff.Written src n ff') (h : ff.InRange)
    (hn : n ≤ ff.ffSize - 1 - (ff.ffTop - ff.ffBom)) (htop : ff.ffTop + n < 2147483648) :
    ff'.InRange ∧ ff'.contents = ff.contents ++ block src 0 n := by
  obtain ⟨htop', hbom', hsize', hdata⟩ := hw
  obtain ⟨hpos, hsize, hbom, horder, hroom, -⟩ := h
  constructor
  · refine ⟨?_, ?_, ?_, ?_, ?_, ?_⟩ <;> omega
  · have hcount : (ff'.ffTop - ff'.ffBom).toNat = (ff.ffTop - ff.ffBom).toNat + n := by omega
    rw [contents, contents, hcount, hsize', hbom']
    exact hdata.contents (by omega) rfl (by omega)

def room (ff : FifoStruct) (size : Int) : Nat := (min size ff.freeSize).toNat

theorem InRange.room_eq (h : ff.InRange) (hsize : 0 ≤ size) :
    (ff.room size : Int) = min size (ff.ffSize - 1 - (ff.ffTop - ff.ffBom)) := by
  have hroom := h.room
  rw [FifoStruct.room, h.freeSize_eq]
  omega

theorem InRange.setFlags (h : ff.InRange) (flags : UInt32) : (ff.setFlags flags).InRange :=
  ⟨h.size_pos, h.size_le, h.bom, h.order, h.room, h.top⟩

variable (src) in
theorem write_inRange (hc : Keeps cast) (h : ff.InRange) (hsize : 0 ≤ size) (early : Bool)
    (htop : ff.ffTop + ff.room size < 2147483648)
    (hfit : ff.ffTop = ff.ffBom → ff.ffTop % ff.ffSize + ff.room size ≤ ff.ffSize) :
    ∃ ff', ff.write cast early src size = some (ff', (ff.room size : Int)) ∧
      ff.Written src (ff.room size) ff' ∧ (ff.usable → ff'.usable) := by
  have hroom := h.room_eq hsize
  have hfree := h.freeSize_eq
  have hn : (ff.room size : Int) ≤ ff.ffSize - 1 - (ff.ffTop - ff.ffBom) := by omega
  rw [write]
  dsimp only
  change ∃ ff', (if early ∧ size > ff.freeSize ∧ ff.freeSize = 0 then _ else _) = _ ∧ _
  split
  · have hnone : ff.room size = 0 := by omega
    rw [hnone]
    exact ⟨_, rfl, ⟨by simp [setFlags], rfl, rfl, .none ..⟩, fun hu => usable_setFlags hu fifoWr⟩
  · have hsz : (if size > (ff.setFlags fifoWr).freeSize then (ff.setFlags fifoWr).freeSize
        else size) = ff.room size := by
      change (if size > ff.freeSize then ff.freeSize else size) = _
      split <;> omega
    obtain ⟨data, hcopy, hw⟩ := copyIn_spec src hc (h.setFlags fifoWr)
      (Int.natCast_nonneg (ff.room size)) hn hfit
    rw [hsz, hcopy, Option.bind_eq_bind, Option.bind_some]
    refine ⟨_, rfl, ⟨long_eq ?_ htop, rfl, rfl, hw⟩, fun hu => ?_⟩
    · have hbom := h.bom
      have horder := h.order
      change -2147483648 ≤ ff.ffTop + ff.room size
      omega
    · exact usable_unsetFlags (usable_setFlags hu fifoWr) (by decide)

theorem Ready.written {ff' : FifoStruct} {n : Nat} (h : ff.Ready) (hw : ff.Written src n ff')
    (hin : ff'.InRange) (hu : ff'.usable) : ff'.Ready := by
  refine ⟨hin, fun heq => ?_, hu⟩
  have horder := h.order
  rw [hw.top, hw.bom] at heq
  rw [hw.bom]
  exact h.empty (by omega)

theorem Ready.fits (h : ff.Ready) (hsize : 0 ≤ size) (heq : ff.ffTop = ff.ffBom) :
    ff.ffTop % ff.ffSize + ff.room size ≤ ff.ffSize := by
  have hroom := h.room_eq hsize
  rw [heq, h.empty heq, Int.zero_emod]
  omega

variable (src) in
theorem write_spec (hc : Keeps cast) (h : ff.Ready) (hsize : 0 ≤ size) (early : Bool)
    (htop : ff.ffTop + ff.room size < 2147483648) :
    ∃ ff', ff.write cast early src size = some (ff', (ff.room size : Int)) ∧
      ff.Written src (ff.room size) ff' ∧ ff'.Ready := by
  have hroom := h.room_eq hsize
  obtain ⟨ff', hrun, hw, hu⟩ :=
    write_inRange src hc h.toInRange hsize early htop (h.fits hsize)
  obtain ⟨hin, -⟩ := hw.inRange h.toInRange (by omega) htop
  exact ⟨ff', hrun, hw, h.written hw hin (hu h.usable)⟩

theorem Ready.flush (h : ff.Ready) (data : Int → UInt8) :
    FifoStruct.Ready { ff.flush with ffData := data } ∧
      FifoStruct.contents { ff.flush with ffData := data } = [] := by
  refine ⟨⟨⟨h.size_pos, h.size_le, le_refl 0, le_refl 0, h.size_pos, ?_⟩, fun _ => rfl,
    h.usable⟩, rfl⟩
  change (0 : Int) < 2147483648
  decide

end FifoStruct

end

-- ---------------------------------------------------------------------------
-- The FIFOs
-- ---------------------------------------------------------------------------

def FifoCall.index : FifoCall → Int
  | .read _ index _ _ | .write _ index _ _ | .flush _ index => index

/-- A call that its driver takes, not one that it refuses or fails on. -/
def FifoCall.Accepted (x : Fifos) (a : FifoCall) : Prop :=
  0 ≤ a.index ∧ a.index < xmFifoCount ∧ match a with
  | .read driver index dest size => dest ∧ 0 ≤ size ∧ (driver = .devrtf → x.sfifos index)
  | .write driver index src size => src.isSome ∧ 0 ≤ size ∧ (driver = .devrtf → x.sfifos index)
  | .flush driver index => driver = .devrtf → x.sfifos index

/-- The top stays below 2^31. -/
def FifoCall.StaysBelow (x : Fifos) : FifoCall → Prop
  | .write _ index _ size => (x.fifos index).ffTop + (x.fifos index).room size < 2147483648
  | .read _ _ _ _ | .flush _ _ => True

/-- What a call does to a queue of at most `capacity` bytes: the queue after it, what a
read or write returns, and what a read gives. -/
def queueCall (capacity : Nat) (q : List UInt8) : FifoCall → List UInt8 × Option Nat × List UInt8
  | .read _ _ _ size => (q.drop size.toNat, some (min size.toNat q.length), q.take size.toNat)
  | .write _ _ src size =>
    let n := min size.toNat (capacity - q.length)
    (q ++ block (src.getD fun _ => 0) 0 n, some n, [])
  | .flush _ _ => ([], none, [])

/-- `q'` is what the call makes of the queues `q`, with the result `r`. -/
structure FifoCall.Queues (a : FifoCall) (q q' : Int → List UInt8) (r : FifoResult) : Prop where
  queues : q' = Function.update q a.index (queueCall (pageSize.toNat - 1) (q a.index) a).1
  ret : ∀ n ∈ (queueCall (pageSize.toNat - 1) (q a.index) a).2.1, r.ret = n
  dest : r.dest = (queueCall (pageSize.toNat - 1) (q a.index) a).2.2

namespace Fifos

def queues (x : Fifos) (index : Int) : List UInt8 := (x.fifos index).contents

def Ready (x : Fifos) : Prop := ∀ index, (x.fifos index).Ready ∧ (x.fifos index).ffSize = pageSize

variable {x y : Fifos} {a : FifoCall} {index : Int}

theorem fifoControlInit_ready (x : Fifos) : x.fifoControlInit.Ready := by
  intro index
  have hpos : (0 : Int) < pageSize := by decide
  have hsize : pageSize ≤ 1073741824 := by decide
  have htop : (0 : Int) < 2147483648 := by decide
  have husable : fifoUs &&& fifoUs ≠ 0 := by decide
  exact ⟨⟨⟨hpos, hsize, le_refl 0, le_refl 0, hpos, htop⟩, fun _ => rfl,
    decide_eq_true husable⟩, rfl⟩

theorem queues_set (x : Fifos) (index : Int) (ff : FifoStruct) :
    (x.set index ff).queues = Function.update x.queues index ff.contents := by
  funext i
  simp only [queues, set, Function.update_apply]
  split <;> rfl

theorem Ready.set {ff : FifoStruct} (hx : x.Ready) (hff : ff.Ready) (hsize : ff.ffSize = pageSize) :
    (x.set index ff).Ready := by
  intro i
  by_cases hi : i = index
  · subst hi
    simpa [Fifos.set] using ⟨hff, hsize⟩
  · simpa [Fifos.set, hi] using hx i

theorem Ready.read_spec {cast : Int → Int} (hc : Keeps cast) (hx : x.Ready) (driver : Driver)
    (dest : Bool) {size : Int} (hsize : 0 ≤ size) (early : Bool) :
    ∃ ff ret bytes, (x.fifos index).read cast early size = some (ff, ret, bytes) ∧
      (x.set index ff).Ready ∧
      (FifoCall.read driver index dest size).Queues x.queues (x.set index ff).queues
        { ret, dest := bytes } := by
  obtain ⟨ff, hrun, hcontents, hsame, hready⟩ :=
    (x.fifos index).read_spec hc (hx index).1 hsize early
  refine ⟨ff, _, _, hrun, hx.set hready (hsame.trans (hx index).2), ?_, ?_, rfl⟩
  · rw [queues_set, hcontents]
    rfl
  · rintro n hn
    obtain rfl := Option.some.inj hn
    rfl

theorem Ready.write_spec {cast : Int → Int} (hc : Keeps cast) (hx : x.Ready) (driver : Driver)
    (src : Int → UInt8) {size : Int} (hsize : 0 ≤ size)
    (hbelow : (FifoCall.write driver index (some src) size).StaysBelow x) (early : Bool) :
    ∃ ff ret, (x.fifos index).write cast early src size = some (ff, ret) ∧
      (x.set index ff).Ready ∧
      (FifoCall.write driver index (some src) size).Queues x.queues (x.set index ff).queues
        { ret } := by
  obtain ⟨hready, hpage⟩ := hx index
  have hroom := hready.room_eq hsize
  have hlen := FifoStruct.contents_length hready.toInRange
  have hbelow' : (x.fifos index).ffTop + (x.fifos index).room size < 2147483648 := hbelow
  obtain ⟨ff, hrun, hw, hready'⟩ := (x.fifos index).write_spec src hc hready hsize early hbelow'
  obtain ⟨-, hcontents⟩ := hw.inRange hready.toInRange (by omega) hbelow'
  have hn : (x.fifos index).room size =
      min size.toNat (pageSize.toNat - 1 - (x.queues index).length) := by
    rw [queues]
    omega
  refine ⟨ff, _, hrun, hx.set hready' (hw.size.trans hpage), ?_, ?_, rfl⟩
  · rw [queues_set, hcontents, hn]
    rfl
  · rintro m hm
    obtain rfl := Option.some.inj hm
    rw [hn]
    rfl

theorem Ready.flush (hx : x.Ready) (index : Int) (driver : Driver) (data : Int → UInt8)
    (ret : Int) :
    (x.set index { (x.fifos index).flush with ffData := data }).Ready ∧
      (FifoCall.flush driver index).Queues x.queues
        (x.set index { (x.fifos index).flush with ffData := data }).queues { ret } := by
  obtain ⟨hready, hpage⟩ := hx index
  obtain ⟨hready', hcontents⟩ := hready.flush data
  refine ⟨hx.set hready' hpage, ?_, fun n hn => by simp [queueCall] at hn, rfl⟩
  rw [queues_set, hcontents]
  rfl

theorem Ready.call (hx : x.Ready) (ha : a.Accepted x) (hbelow : a.StaysBelow x) :
    ∃ y r, x.call a = some (y, r) ∧ y.Ready ∧ a.Queues x.queues y.queues r := by
  obtain ⟨hlo, hhi, ha⟩ := ha
  have hindex : indexUnvalid a.index = false := by simp [indexUnvalid, hlo, hhi]
  have hu : ∀ index, (x.fifos index).usable := fun index => (hx index).1.usable
  cases a with
  | read driver index dest size =>
    obtain ⟨hdest, hsize, hsfifos⟩ := ha
    rw [FifoCall.index] at hindex
    cases driver with
    | rtfifo =>
      obtain ⟨ff, ret, bytes, hrun, hspec⟩ := hx.read_spec keeps_long .rtfifo dest hsize false
      exact ⟨_, _, by simp [Fifos.call, rtFifoUserRead, hindex, hdest, hsize, hu, hrun], hspec⟩
    | devrtf =>
      obtain ⟨ff, ret, bytes, hrun, hspec⟩ := hx.read_spec keeps_ulong .devrtf dest hsize true
      exact ⟨_, _, by simp [Fifos.call, rtFifoRead, hindex, hdest, hsize, hsfifos, hu, hrun], hspec⟩
  | write driver index src size =>
    obtain ⟨hsrc, hsize, hsfifos⟩ := ha
    rw [FifoCall.index] at hindex
    obtain ⟨src, rfl⟩ := Option.isSome_iff_exists.mp hsrc
    cases driver with
    | rtfifo =>
      obtain ⟨ff, ret, hrun, hspec⟩ := hx.write_spec keeps_ulong .rtfifo src hsize hbelow false
      exact ⟨_, _, by simp [Fifos.call, rtFifoUserWrite, hindex, hsize, hu, hrun], hspec⟩
    | devrtf =>
      obtain ⟨ff, ret, hrun, hspec⟩ := hx.write_spec keeps_long .devrtf src hsize hbelow true
      exact ⟨_, _, by simp [Fifos.call, rtFifoWrite, hindex, hsize, hsfifos, hu, hrun], hspec⟩
  | flush driver index =>
    rw [FifoCall.index] at hindex
    cases driver with
    | rtfifo =>
      have hspec := hx.flush index .rtfifo (x.fifos index).ffData 0
      exact ⟨_, _, if_neg (by simp [hindex]), hspec⟩
    | devrtf =>
      have hspec := hx.flush index .devrtf
        (store (x.fifos index).ffData 0 (fun _ => 0) (x.fifos index).ffSize) 1
      refine ⟨_, _, ?_, hspec⟩
      rw [Fifos.call, rtFifoFlush, if_neg (by simp [hindex]), if_neg (by simp [ha rfl])]
      rfl

theorem indexUnvalid_eq_false : indexUnvalid index = false ↔ 0 ≤ index ∧ index < xmFifoCount := by
  simp [indexUnvalid]

theorem refused {r : FifoResult} (hu : ∀ index, (x.fifos index).usable) (ha : ¬a.Accepted x)
    (h : x.call a = some (y, r)) : y = x ∧ r.dest = [] := by
  have hsame : ∀ {ret : FifoResult}, ret.dest = [] → some (x, ret) = some (y, r) →
      y = x ∧ r.dest = [] := by
    rintro ret hdest heq
    obtain ⟨rfl, rfl⟩ := Prod.mk.inj (Option.some.inj heq)
    exact ⟨rfl, hdest⟩
  cases a with
  | read driver index dest size =>
    cases driver with
    | rtfifo =>
      rw [Fifos.call, rtFifoUserRead] at h
      split at h
      · exact hsame rfl h
      · rename_i hargs
        simp only [not_or, Bool.not_eq_true, Bool.not_eq_false', not_lt] at hargs
        obtain ⟨hlo, hhi⟩ := indexUnvalid_eq_false.mp hargs.1
        exact absurd ⟨hlo, hhi, hargs.2.1, hargs.2.2, nofun⟩ ha
    | devrtf =>
      rw [Fifos.call, rtFifoRead] at h
      split at h
      · exact hsame rfl h
      rename_i hargs
      simp only [not_or, Bool.not_eq_true, Bool.not_eq_false', not_lt] at hargs
      obtain ⟨hlo, hhi⟩ := indexUnvalid_eq_false.mp hargs.1
      dsimp only at h
      split at h
      · exact hsame rfl h
      · rename_i hsfifos
        simp only [hu, Bool.not_true, Bool.false_eq_true, or_false, Bool.not_eq_true,
          Bool.not_eq_false'] at hsfifos
        exact absurd ⟨hlo, hhi, hargs.2.1, hargs.2.2, fun _ => hsfifos⟩ ha
  | write driver index src size =>
    cases driver with
    | rtfifo =>
      rw [Fifos.call, rtFifoUserWrite.eq_def] at h
      split at h
      · exact hsame rfl h
      rename_i hargs
      simp only [not_or, Bool.not_eq_true, not_lt] at hargs
      obtain ⟨hlo, hhi⟩ := indexUnvalid_eq_false.mp hargs.1
      cases src with
      | none => exact hsame rfl h
      | some src => exact absurd ⟨hlo, hhi, rfl, hargs.2, nofun⟩ ha
    | devrtf =>
      rw [Fifos.call, rtFifoWrite.eq_def] at h
      split at h
      · exact hsame rfl h
      rename_i hargs
      simp only [not_or, Bool.not_eq_true, not_lt] at hargs
      obtain ⟨hlo, hhi⟩ := indexUnvalid_eq_false.mp hargs.1
      cases src with
      | none => exact hsame rfl h
      | some src =>
        dsimp only at h
        split at h
        · exact hsame rfl h
        · rename_i hsfifos
          simp only [hu, Bool.not_true, Bool.false_eq_true, or_false, Bool.not_eq_true,
            Bool.not_eq_false'] at hsfifos
          exact absurd ⟨hlo, hhi, rfl, hargs.2, fun _ => hsfifos⟩ ha
  | flush driver index =>
    cases driver with
    | rtfifo =>
      rw [Fifos.call, rtFifoUserFlush] at h
      split at h
      · exact hsame rfl h
      · rename_i hargs
        obtain ⟨hlo, hhi⟩ := indexUnvalid_eq_false.mp (Bool.not_eq_true _ ▸ hargs)
        exact absurd ⟨hlo, hhi, nofun⟩ ha
    | devrtf =>
      rw [Fifos.call, rtFifoFlush] at h
      split at h
      · exact hsame rfl h
      rename_i hargs
      obtain ⟨hlo, hhi⟩ := indexUnvalid_eq_false.mp (Bool.not_eq_true _ ▸ hargs)
      split at h
      · contradiction
      · rename_i hsfifos
        exact absurd ⟨hlo, hhi, fun _ => by simpa using hsfifos⟩ ha

theorem Ready.refused {r : FifoResult} (hx : x.Ready) (ha : ¬a.Accepted x)
    (h : x.call a = some (y, r)) : y = x ∧ r.dest = [] :=
  Fifos.refused (fun index => (hx index).1.usable) ha h

theorem Ready.step (hx : x.Ready) (hbelow : a.StaysBelow x) (h : x.step a = some y) : y.Ready := by
  obtain ⟨⟨z, r⟩, hrun, rfl⟩ := Option.map_eq_some_iff.mp h
  by_cases ha : a.Accepted x
  · obtain ⟨z', r', hrun', hz, -⟩ := hx.call ha hbelow
    obtain ⟨rfl, rfl⟩ := Prod.mk.inj (Option.some.inj (hrun.symm.trans hrun'))
    exact hz
  · obtain ⟨rfl, -⟩ := hx.refused ha hrun
    exact hx

end Fifos

/-- The FIFOs, from where they are initialized on, are queues: every call that a driver
takes has a result, without leaving the FIFO's data, and this result and the queues
after it are those of the call on the queues; a call that it refuses changes nothing. -/
theorem fifo_is_queue {tr : List (Fifos × FifoCall)} {x₀ x y : Fifos}
    (hr : Run Fifos.step x₀.fifoControlInit tr x) (hx : Visited tr x y)
    (hc : ∀ e ∈ tr, e.2.StaysBelow e.1) (a : FifoCall) (ha : a.StaysBelow y) :
    x₀.fifoControlInit.queues = (fun _ => []) ∧
    (a.Accepted y → ∃ z r, y.call a = some (z, r) ∧ a.Queues y.queues z.queues r) ∧
    (¬a.Accepted y → ∀ z r, y.call a = some (z, r) → z = y ∧ r.dest = []) := by
  have hy : y.Ready := hr.invariant_visited (I := Fifos.Ready) (C := fun x a => a.StaysBelow x)
    x₀.fifoControlInit_ready (fun _ _ _ hs hc hstep => hs.step hc hstep) hc hx
  refine ⟨rfl, fun hacc => ?_, fun hacc z r hrun => hy.refused hacc hrun⟩
  obtain ⟨z, r, hrun, -, hq⟩ := hy.call hacc ha
  exact ⟨z, r, hrun, hq⟩

instance (x : Fifos) (a : FifoCall) : Decidable (a.StaysBelow x) :=
  match a with
  | .write _ _ _ _ => inferInstanceAs (Decidable (_ < _))
  | .read _ _ _ _ | .flush _ _ => .isTrue trivial

def emptyFifos : Fifos where
  fifos := fun _ => { ffFlags := 0, ffTop := 0, ffBom := 0, ffSize := 0, ffData := fun _ => 0 }
  sfifos := fun _ => true

/-- The bytes 1, 2, 3 and so on. -/
def countingBytes (i : Int) : UInt8 := UInt8.ofNat (i.toNat + 1)

/-- PaRTiKle writes three bytes, and Linux reads two of them and then the rest. -/
theorem fifo_is_queue_run : ∃ (tr : List (Fifos × FifoCall)) (x z : Fifos) (r : FifoResult),
    Run Fifos.step emptyFifos.fifoControlInit tr x ∧ x.queues 0 = [3] ∧
      x.call (.read .rtfifo 0 true 5) = some (z, r) ∧ r.dest = [3] ∧ z.queues 0 = [] := by
  have hrun : (exec Fifos.step emptyFifos.fifoControlInit
      [.write .devrtf 0 (some countingBytes) 3, .read .rtfifo 0 true 2]).any fun r =>
      decide ((∀ e ∈ r.1, e.2.StaysBelow e.1) ∧ r.2.queues 0 = [3]) := by decide +kernel
  obtain ⟨tr, x, hr, hx⟩ := exec_any hrun
  simp only [decide_eq_true_eq] at hx
  obtain ⟨hc, hqueue⟩ := hx
  obtain ⟨-, hcall, -⟩ := fifo_is_queue hr .self hc (.read .rtfifo 0 true 5) trivial
  obtain ⟨z, r, hread, hq⟩ := hcall ⟨by decide, by decide, rfl, by decide, nofun⟩
  refine ⟨tr, x, z, r, hr, hqueue, hread, ?_, ?_⟩
  · have hdest := hq.dest
    rw [FifoCall.index, hqueue] at hdest
    exact hdest
  · rw [hq.queues, FifoCall.index, Function.update_self, hqueue]
    rfl

end Xmertl
