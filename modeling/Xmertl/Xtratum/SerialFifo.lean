import Xmertl.Common.FifoQueue
import Xmertl.Xtratum.Domain
import Xmertl.Xtratum.Shm

/-!
# The serial domain's FIFOs

The read and write of a serial FIFO in the serial domain's `serial.c`. Both positions
stay below the ring's size. A result is `none` when `memcpy` would leave the ring.
-/

namespace Xmertl.Xtratum

open RingBuffer Runs

/-- `serial_fifo_t`, with the memory behind `addr`. -/
structure SerialFifo where
  flag : Bitmap
  top : Int
  bom : Int
  size : Int
  data : Int → UInt8

def eperm : Int := 1

def rtSerialDomUsed : Fin 32 := ⟨3, by decide⟩

def rtSerialDomRead : Fin 32 := ⟨4, by decide⟩

def rtSerialDomWrite : Fin 32 := ⟨5, by decide⟩

namespace SerialFifo

/-- Whether `memcpy` of `n` bytes at `off` stays inside the ring. -/
def Inside (ff : SerialFifo) (off n : Int) : Prop :=
  0 ≤ n ∧ (n = 0 ∨ 0 ≤ off ∧ off + n ≤ ff.size)

instance (ff : SerialFifo) (off n : Int) : Decidable (ff.Inside off n) :=
  inferInstanceAs (Decidable (_ ∧ _))

def copyFrom (ff : SerialFifo) (off n : Int) : Option (List UInt8) :=
  if ff.Inside off n then some (block ff.data off n.toNat) else none

def copyTo (ff : SerialFifo) (off : Int) (src : Int → UInt8) (n : Int) : Option SerialFifo :=
  if ff.Inside off n then some { ff with data := store ff.data off src n } else none

/-- The `rsize` of a read of `size` bytes. -/
def rsize (ff : SerialFifo) (size : Int) : Int :=
  let rsize := (long (ff.top + ff.size - ff.bom)).tmod ff.size
  if rsize > size then size else rsize

def wsize (ff : SerialFifo) : Int := (long (ff.bom + ff.size - ff.top - 1)).tmod ff.size

/-- What a read of `rsize` bytes copies to `dest`. -/
def copyOut (ff : SerialFifo) (rsize : Int) : Option (List UInt8) :=
  let offset := ff.size - ff.bom
  if ff.top < ff.bom ∧ rsize > offset then do
    return (← ff.copyFrom ff.bom offset) ++ (← ff.copyFrom 0 (rsize - offset))
  else ff.copyFrom ff.bom rsize

/-- What a write of `wsize` bytes copies from `src`. -/
def copyIn (ff : SerialFifo) (src : Int → UInt8) (wsize : Int) : Option SerialFifo :=
  let offset := ff.size - ff.top
  if ff.bom < ff.top ∧ wsize > offset then do
    let ff ← ff.copyTo ff.top src offset
    ff.copyTo 0 (fun i => src (offset + i)) (wsize - offset)
  else ff.copyTo ff.top src wsize

/-- Returns the FIFO, the result, and what is written to `dest`. `df` and `dest` say
whether the addresses are not NULL. CAS finds what was read: only this domain reads. -/
def domSerialFifoRead (ff : SerialFifo) (df dest : Bool) (size : Int) :
    Option (SerialFifo × Int × List UInt8) := do
  if !df ∨ !dest ∨ size < 0 then return (ff, -einval, [])
  if ¬ff.flag.Has rtSerialDomRead then return (ff, -eperm, [])
  let rsize := ff.rsize size
  let nbom := (long (ff.bom + rsize)).tmod ff.size
  let dest ← ff.copyOut rsize
  return ({ ff with bom := nbom }, rsize, dest)

def domSerialFifoWrite (ff : SerialFifo) (df : Bool) (src : Option (Int → UInt8)) (size : Int) :
    Option (SerialFifo × Int × List UInt8) := do
  let some src := src | return (ff, -einval, [])
  if !df ∨ size < 0 then return (ff, -einval, [])
  if ¬ff.flag.Has rtSerialDomUsed then return (ff, -enodev, [])
  if ¬ff.flag.Has rtSerialDomWrite then return (ff, -eperm, [])
  if ff.wsize < size then return (ff, -enomem, [])
  let ff ← ff.copyIn src size
  return ({ ff with top := (long (ff.top + size)).tmod ff.size }, size, [])

end SerialFifo

inductive SerialCall
  | read (df dest : Bool) (size : Int)
  | write (df : Bool) (src : Option (Int → UInt8)) (size : Int)

def SerialFifo.call (ff : SerialFifo) : SerialCall → Option (SerialFifo × Int × List UInt8)
  | .read df dest size => ff.domSerialFifoRead df dest size
  | .write df src size => ff.domSerialFifoWrite df src size

def SerialFifo.step (ff : SerialFifo) (a : SerialCall) : Option SerialFifo := (ff.call a).map Prod.fst

-- ---------------------------------------------------------------------------
-- Positions
-- ---------------------------------------------------------------------------

namespace SerialFifo

structure InRange (ff : SerialFifo) : Prop where
  size_lt : ff.size < 2147483648
  bom : 0 ≤ ff.bom
  bom_lt : ff.bom < ff.size
  top : 0 ≤ ff.top
  top_lt : ff.top < ff.size

/-- A ring of any size, with the flags that the two functions test. -/
structure Ready (ff : SerialFifo) : Prop extends ff.InRange where
  domUsed : ff.flag.Has rtSerialDomUsed
  domRead : ff.flag.Has rtSerialDomRead
  domWrite : ff.flag.Has rtSerialDomWrite

def used (ff : SerialFifo) : Int := (ff.top - ff.bom) % ff.size

def free (ff : SerialFifo) : Int := ff.size - 1 - ff.used

def contents (ff : SerialFifo) : List UInt8 :=
  RingBuffer.contents ff.data ff.size ff.bom ff.used.toNat

section
variable {ff z : SerialFifo} {src : Int → UInt8} {x m n size : Int}

theorem InRange.used_cases (h : ff.InRange) :
    (ff.bom ≤ ff.top ∧ ff.used = ff.top - ff.bom) ∨
      (ff.top < ff.bom ∧ ff.used = ff.top - ff.bom + ff.size) := by
  obtain ⟨-, hbom, hbom', htop, htop'⟩ := h
  unfold used
  by_cases hle : ff.bom ≤ ff.top
  · exact .inl ⟨hle, Int.emod_eq_of_lt (by omega) (by omega)⟩
  · refine .inr ⟨by omega, ?_⟩
    rw [← Int.add_emod_right, Int.emod_eq_of_lt (by omega) (by omega)]

theorem InRange.used_range (h : ff.InRange) : 0 ≤ ff.used ∧ ff.used < ff.size := by
  have hbom := h.bom_lt
  have htop := h.top_lt
  have hbom' := h.bom
  have htop' := h.top
  rcases h.used_cases with ⟨hle, heq⟩ | ⟨hlt, heq⟩ <;> omega

theorem contents_length (h : 0 < ff.size) : (ff.contents.length : Int) = ff.used := by
  have hused : 0 ≤ ff.used := Int.emod_nonneg _ (Int.ne_of_gt h)
  rw [contents, RingBuffer.contents, block_length, Int.toNat_of_nonneg hused]

theorem InRange.size_pos (h : ff.InRange) : 0 < ff.size := lt_of_le_of_lt h.bom h.bom_lt

theorem long_wrapped (hlo : 2147483648 ≤ x) (hhi : x < 4294967296) :
    long x = x - 4294967296 := by
  rw [long, Int.bmod_eq_emod]
  split <;> omega

theorem wrapped_tmod (hlo : 2147483648 ≤ x) (hhi : x < 4294967296) (hsize : 0 < size) :
    (long x).tmod size ≤ 0 ∧ ((long x).tmod size = 0 ↔ size ∣ 4294967296 - x) := by
  rw [long_wrapped hlo hhi, ← Int.neg_sub, Int.neg_tmod, Int.tmod_eq_emod_of_nonneg (by omega),
    Int.dvd_iff_emod_eq_zero]
  have hmod := Int.emod_nonneg (4294967296 - x) (Int.ne_of_gt hsize)
  omega

theorem InRange.usedSum (h : ff.InRange) (hsum : ff.top + ff.size - ff.bom < 2147483648) :
    (long (ff.top + ff.size - ff.bom)).tmod ff.size = ff.used := by
  obtain ⟨-, hbom, hbom', htop, htop'⟩ := h
  rw [long_eq (by omega) hsum, Int.tmod_eq_emod_of_nonneg (by omega), used,
    ← Int.add_emod_right (ff.top - ff.bom)]
  congr 1
  omega

theorem InRange.freeSum (h : ff.InRange) (hsum : ff.bom + ff.size - ff.top - 1 < 2147483648) :
    (long (ff.bom + ff.size - ff.top - 1)).tmod ff.size = ff.free := by
  obtain ⟨-, hbom, hbom', htop, htop'⟩ := id h
  rw [long_eq (by omega) hsum, Int.tmod_eq_emod_of_nonneg (by omega), free]
  rcases h.used_cases with ⟨hle, heq⟩ | ⟨hlt, heq⟩
  · rw [Int.emod_eq_of_lt (by omega) (by omega)]
    omega
  · rw [← Int.sub_emod_right, Int.emod_eq_of_lt (by omega) (by omega)]
    omega

theorem InRange.top_place (h : ff.InRange) : (ff.bom + ff.used) % ff.size = ff.top := by
  obtain ⟨-, hbom, hbom', htop, htop'⟩ := id h
  rcases h.used_cases with ⟨hle, heq⟩ | ⟨hlt, heq⟩
  · rw [Int.emod_eq_of_lt (by omega) (by omega)]
    omega
  · rw [← Int.sub_emod_right, Int.emod_eq_of_lt (by omega) (by omega)]
    omega

-- ---------------------------------------------------------------------------
-- Copies
-- ---------------------------------------------------------------------------

theorem copyFrom_of_inside (hn : 0 ≤ n) (hoff : 0 ≤ x) (h : x + n ≤ ff.size) :
    ff.copyFrom x n = some (block ff.data x n.toNat) :=
  if_pos ⟨hn, .inr ⟨hoff, h⟩⟩

theorem copyTo_of_inside (hn : 0 ≤ n) (hoff : 0 ≤ x) (h : x + n ≤ ff.size) :
    ff.copyTo x src n = some { ff with data := store ff.data x src n } :=
  if_pos ⟨hn, .inr ⟨hoff, h⟩⟩

theorem InRange.copyOut (h : ff.InRange) (hm : 0 ≤ m) (hle : m ≤ ff.used) :
    ff.copyOut m = some (RingBuffer.contents ff.data ff.size ff.bom m.toNat) := by
  obtain ⟨-, hbom, hbom', htop, htop'⟩ := id h
  have hplace : ff.bom % ff.size = ff.bom := Int.emod_eq_of_lt hbom hbom'
  have hused := h.used_cases
  unfold SerialFifo.copyOut
  dsimp only
  split
  · rename_i hsplit
    rw [copyFrom_of_inside (by omega) hbom (by omega),
      copyFrom_of_inside (by omega) (le_refl 0) (by omega),
      contents_wrapped (by omega) (l := (ff.size - ff.bom).toNat) (by omega) (by omega) (by omega),
      hplace]
    have hrest : (m - (ff.size - ff.bom)).toNat = m.toNat - (ff.size - ff.bom).toNat := by omega
    rw [hrest]
    rfl
  · rw [copyFrom_of_inside hm hbom (by omega), contents_straight (by omega) (by omega), hplace]

variable (src) in
theorem InRange.copyIn (h : ff.InRange) (hn : 0 ≤ n) (hle : n ≤ ff.free)
    (hfit : ff.top = ff.bom → ff.top + n ≤ ff.size) :
    ∃ data, ff.copyIn src n = some { ff with data } ∧
      Wrote ff.data data ff.size (ff.bom + ff.used) src n := by
  obtain ⟨-, hbom, hbom', htop, htop'⟩ := id h
  have hplace := h.top_place
  have hused := h.used_cases
  have hfree : ff.free = ff.size - 1 - ff.used := rfl
  unfold SerialFifo.copyIn
  dsimp only
  split
  · rename_i hsplit
    have hrest : 0 ≤ n - (ff.size - ff.top) ∧ 0 + (n - (ff.size - ff.top)) ≤ ff.size := by omega
    rw [copyTo_of_inside (by omega) htop (by omega)]
    refine ⟨_, copyTo_of_inside hrest.1 (le_refl 0) hrest.2, ?_⟩
    have hw := @wrote_wrapped _ ff.data src ff.size (ff.bom + ff.used) _ n (by omega) rfl
      (by omega) (by omega)
    rwa [hplace] at hw
  · refine ⟨_, copyTo_of_inside hn htop (by omega), ?_⟩
    have hw := @wrote_straight _ ff.data src ff.size (ff.bom + ff.used) n (by omega) (by omega)
    rwa [hplace] at hw

end

end SerialFifo

-- ---------------------------------------------------------------------------
-- Calls
-- ---------------------------------------------------------------------------

namespace SerialCall

/-- A call that gets addresses and a size, not one that is answered EINVAL. -/
def Taken : SerialCall → Prop
  | .read df dest size => df ∧ dest ∧ 0 ≤ size
  | .write df src size => df ∧ src.isSome ∧ 0 ≤ size

/-- The call on a queue of at most `capacity` bytes: the queue after it, its result, and
what it reads. -/
def queue (capacity : Int) (q : List UInt8) : SerialCall → List UInt8 × Int × List UInt8
  | .read _ _ size => (q.drop size.toNat, min size q.length, q.take size.toNat)
  | .write _ src size =>
    if size ≤ capacity - q.length then
      (q ++ block (src.getD fun _ => 0) 0 size.toNat, size, [])
    else (q, -enomem, [])

/-- The call does to the ring what it does to the queue. -/
structure Queues (a : SerialCall) (ff z : SerialFifo) (r : Int) (dest : List UInt8) : Prop where
  queue : (z.contents, r, dest) = a.queue (ff.size - 1) ff.contents
  refused : r < 0 → z = ff

/-- The sums of positions and sizes stay below 2^31, and what goes into an empty ring
fits before its end. A sum that wraps around to nothing is right for no bytes. -/
def Fits (ff : SerialFifo) : SerialCall → Prop
  | .read _ _ size =>
    (ff.top + ff.size - ff.bom < 2147483648 ∨
      size = 0 ∧ ff.size ∣ 4294967296 - (ff.top + ff.size - ff.bom)) ∧
    ff.bom + min size ff.used < 2147483648
  | .write _ _ size => size ≤ ff.free →
    (ff.bom + ff.size - ff.top - 1 < 2147483648 ∨
      size = 0 ∧ ff.size ∣ 4294967296 - (ff.bom + ff.size - ff.top - 1)) ∧
    ff.top + size < 2147483648 ∧ (ff.top = ff.bom → ff.top + size ≤ ff.size)

instance (ff : SerialFifo) : DecidablePred (Fits ff)
  | .read _ _ _ => inferInstanceAs (Decidable (_ ∧ _))
  | .write _ _ _ => inferInstanceAs (Decidable (_ → _))

end SerialCall

namespace SerialFifo

variable {ff z : SerialFifo} {src : Int → UInt8} {a : SerialCall} {m n size r : Int}
  {dest : List UInt8} {x : Int}

theorem InRange.taken (h : ff.InRange) (hm : 0 ≤ m) (hle : m ≤ ff.used)
    (hsum : ff.bom + m < 2147483648) :
    let z : SerialFifo := { ff with bom := (long (ff.bom + m)).tmod ff.size }
    z.InRange ∧ z.contents = ff.contents.drop m.toNat := by
  obtain ⟨hlt, hbom, hbom', htop, htop'⟩ := id h
  have hused := h.used_range
  have hplace : (long (ff.bom + m)).tmod ff.size = (ff.bom + m) % ff.size := by
    rw [long_eq (by omega) hsum, Int.tmod_eq_emod_of_nonneg (by omega)]
  have hrest : (ff.top - (ff.bom + m) % ff.size) % ff.size = ff.used - m := by
    rw [Int.sub_emod_emod, ← h.top_place, Int.emod_sub_emod,
      ← Int.emod_eq_of_lt (a := ff.used - m) (b := ff.size) (by omega) (by omega)]
    congr 1
    omega
  have hcount : (ff.used - m).toNat = ff.used.toNat - m.toNat := by omega
  dsimp only
  rw [hplace]
  refine ⟨⟨hlt, Int.emod_nonneg _ (by omega), Int.emod_lt_of_pos _ (by omega), htop, htop'⟩, ?_⟩
  rw [contents, contents, used, hrest, hcount, contents_place, RingBuffer.contents,
    RingBuffer.contents, block_drop _ _ (by omega), Int.toNat_of_nonneg hm]

theorem InRange.added {data : Int → UInt8} (h : ff.InRange) (hn : 0 ≤ n) (hle : n ≤ ff.free)
    (hsum : ff.top + n < 2147483648) (hw : Wrote ff.data data ff.size (ff.bom + ff.used) src n) :
    let z : SerialFifo := { ff with data, top := (long (ff.top + n)).tmod ff.size }
    z.InRange ∧ z.contents = ff.contents ++ block src 0 n.toNat := by
  obtain ⟨hlt, hbom, hbom', htop, htop'⟩ := id h
  have hused := h.used_range
  have hfree : ff.free = ff.size - 1 - ff.used := rfl
  have hplace : (long (ff.top + n)).tmod ff.size = (ff.top + n) % ff.size := by
    rw [long_eq (by omega) hsum, Int.tmod_eq_emod_of_nonneg (by omega)]
  have hmore : ((ff.top + n) % ff.size - ff.bom) % ff.size = ff.used + n := by
    have hdist : ff.top + n - ff.bom = ff.top - ff.bom + n := by omega
    rw [Int.emod_sub_emod, hdist, ← Int.emod_add_emod, ← used,
      Int.emod_eq_of_lt (by omega) (by omega)]
  have hcount : (ff.used + n).toNat = ff.used.toNat + n.toNat := by omega
  dsimp only
  rw [hplace]
  refine ⟨⟨hlt, hbom, hbom', Int.emod_nonneg _ (by omega), Int.emod_lt_of_pos _ (by omega)⟩, ?_⟩
  have hend : ff.bom + (ff.used.toNat : Int) = ff.bom + ff.used := by omega
  rw [contents, used, hmore, hcount]
  exact hw.contents hend (by omega) (by omega)

theorem long_place (hlo : 2147483648 ≤ x) (hx : x < ff.size + ff.size) (hlt : ff.size < 2147483648)
    (h : (long x).tmod ff.size ≡ x [ZMOD ff.size]) : False := by
  have hlong : (long x).tmod ff.size ≡ x - 4294967296 [ZMOD ff.size] := by
    rw [← long_wrapped hlo (by omega)]
    exact Int.modEq_iff_dvd.mpr ⟨(long x).tdiv ff.size, by rw [Int.tmod_def]; omega⟩
  obtain ⟨k, hk⟩ : ff.size ∣ 4294967296 := by
    have hdvd := (hlong.symm.trans h).dvd
    rwa [Int.sub_sub_self] at hdvd
  -- only a ring of a third of 2^32 bytes would do
  have hlow : 2 < k := by
    by_contra hle
    have hmul := Int.mul_le_mul_of_nonneg_left (not_lt.mp hle) (by omega : 0 ≤ ff.size)
    omega
  have hhigh : k < 4 := by
    by_contra hge
    have hmul := Int.mul_le_mul_of_nonneg_left (not_lt.mp hge) (by omega : 0 ≤ ff.size)
    omega
  obtain rfl : k = 3 := by omega
  omega

theorem InRange.take_contents (h : ff.InRange) (hle : m ≤ ff.used) :
    ff.contents.take m.toNat = RingBuffer.contents ff.data ff.size ff.bom m.toNat := by
  have hused := h.used_range
  rw [contents, RingBuffer.contents, RingBuffer.contents, block_take _ _ (by omega)]

theorem Ready.read_eq (h : ff.Ready) (hsize : 0 ≤ size) :
    ff.domSerialFifoRead true true size = (ff.copyOut (ff.rsize size)).map fun dest =>
      ({ ff with bom := (long (ff.bom + ff.rsize size)).tmod ff.size }, ff.rsize size, dest) := by
  simp only [domSerialFifoRead, h.domRead, not_true, Bool.not_true, Bool.false_eq_true, false_or,
    not_lt.mpr hsize, if_false]
  cases ff.copyOut (ff.rsize size) <;> rfl

theorem Ready.write_eq (h : ff.Ready) (hsize : 0 ≤ size) :
    ff.domSerialFifoWrite true (some src) size =
      if ff.wsize < size then some (ff, -enomem, [])
      else (ff.copyIn src size).map fun z =>
        ({ z with top := (long (z.top + size)).tmod z.size }, size, []) := by
  simp only [domSerialFifoWrite, h.domUsed, h.domWrite, not_true, Bool.not_true, Bool.false_eq_true,
    false_or, not_lt.mpr hsize, if_false]
  split
  · rfl
  · cases ff.copyIn src size <;> rfl

theorem InRange.rsize_eq (h : ff.InRange) (hsize : 0 ≤ size) :
    ff.rsize size = min size ff.used ↔ ff.top + ff.size - ff.bom < 2147483648 ∨
      size = 0 ∧ ff.size ∣ 4294967296 - (ff.top + ff.size - ff.bom) := by
  obtain ⟨hlt, hbom, hbom', htop, htop'⟩ := id h
  have hused := h.used_cases
  by_cases hsum : ff.top + ff.size - ff.bom < 2147483648
  · simp only [hsum, true_or, iff_true, rsize, h.usedSum hsum]
    split <;> omega
  · obtain ⟨hle, hzero⟩ := @wrapped_tmod _ ff.size (not_lt.mp hsum) (by omega) (by omega)
    rw [← hzero]
    simp only [hsum, false_or, rsize]
    split <;> omega

theorem InRange.wsize_eq (h : ff.InRange) (hsize : 0 ≤ size) (hle : size ≤ ff.free) :
    size ≤ ff.wsize ↔ ff.bom + ff.size - ff.top - 1 < 2147483648 ∨
      size = 0 ∧ ff.size ∣ 4294967296 - (ff.bom + ff.size - ff.top - 1) := by
  obtain ⟨hlt, hbom, hbom', htop, htop'⟩ := id h
  by_cases hsum : ff.bom + ff.size - ff.top - 1 < 2147483648
  · simp only [hsum, true_or, wsize, h.freeSum hsum, hle]
  · obtain ⟨hle, hzero⟩ := @wrapped_tmod _ ff.size (not_lt.mp hsum) (by omega) (by omega)
    rw [← hzero]
    simp only [hsum, false_or, wsize]
    omega

theorem Ready.read (h : ff.Ready) (hsize : 0 ≤ size)
    (hfit : (SerialCall.read true true size).Fits ff) :
    ∃ z, ff.domSerialFifoRead true true size =
        some (z, min size ff.used, ff.contents.take size.toNat) ∧
      z.Ready ∧ z.size = ff.size ∧ z.contents = ff.contents.drop size.toNat := by
  obtain ⟨hsum, hend⟩ := hfit
  have hused := h.used_range
  have hlen := contents_length h.size_pos
  have hm : 0 ≤ min size ff.used := by omega
  have htake : ff.contents.take size.toNat = ff.contents.take (min size ff.used).toNat :=
    List.take_eq_take_iff.mpr (by omega)
  have hdrop : ff.contents.drop size.toNat = ff.contents.drop (min size ff.used).toNat :=
    List.drop_eq_drop_iff.mpr (by omega)
  obtain ⟨hin, hcontents⟩ := h.taken hm (by omega) hend
  refine ⟨_, ?_, ⟨hin, h.domUsed, h.domRead, h.domWrite⟩, rfl, hdrop ▸ hcontents⟩
  rw [h.read_eq hsize, (h.rsize_eq hsize).mpr hsum, h.copyOut hm (by omega), htake,
    h.take_contents (by omega)]
  rfl

theorem Ready.write (h : ff.Ready) (hsize : 0 ≤ size) (hle : size ≤ ff.free)
    (hfit : (SerialCall.write true (some src) size).Fits ff) :
    ∃ z, ff.domSerialFifoWrite true (some src) size = some (z, size, []) ∧
      z.Ready ∧ z.size = ff.size ∧ z.contents = ff.contents ++ block src 0 size.toNat := by
  obtain ⟨hsum, hend, hempty⟩ := hfit hle
  obtain ⟨data, hcopy, hw⟩ := h.copyIn src hsize hle hempty
  obtain ⟨hin, hcontents⟩ := h.added hsize hle hend hw
  refine ⟨_, ?_, ⟨hin, h.domUsed, h.domRead, h.domWrite⟩, rfl, hcontents⟩
  rw [h.write_eq hsize, if_neg (not_lt.mpr ((h.wsize_eq hsize hle).mpr hsum)), hcopy]
  rfl

theorem Ready.write_full (h : ff.Ready) (hsize : 0 ≤ size) (hgt : ff.free < size) :
    ff.domSerialFifoWrite true (some src) size = some (ff, -enomem, []) := by
  have hused := h.used_range
  have hfree : ff.free = ff.size - 1 - ff.used := rfl
  obtain ⟨hlt, hbom, hbom', htop, htop'⟩ := h.toInRange
  have hsmall : ff.wsize < size := by
    by_cases hsum : ff.bom + ff.size - ff.top - 1 < 2147483648
    · rwa [wsize, h.freeSum hsum]
    · have hle := (@wrapped_tmod _ ff.size (not_lt.mp hsum) (by omega) (by omega)).1
      rw [wsize]
      omega
  rw [h.write_eq hsize, if_pos hsmall]

theorem Ready.read_fits (h : ff.Ready) (hsize : 0 ≤ size)
    (hrun : ff.domSerialFifoRead true true size = some (z, min size ff.used, dest))
    (hz : z.contents = ff.contents.drop size.toNat) : (SerialCall.read true true size).Fits ff := by
  rw [h.read_eq hsize] at hrun
  obtain ⟨dest', -, heq⟩ := Option.map_eq_some_iff.mp hrun
  simp only [Prod.mk.injEq] at heq
  obtain ⟨rfl, hr, -⟩ := heq
  refine ⟨(h.rsize_eq hsize).mp hr, ?_⟩
  by_contra hsum
  obtain ⟨hlt, hbom, hbom', htop, htop'⟩ := id h.toInRange
  have hused := h.used_range
  have hlen := contents_length h.size_pos
  generalize hz' : SerialFifo.mk ff.flag ff.top _ ff.size ff.data = z at hz
  have hleft : z.used = ff.used - min size ff.used := by
    have hlen' := @contents_length z (by rw [← hz']; exact h.size_pos)
    rw [hz, List.length_drop] at hlen'
    omega
  have hmod : ff.top - (long (ff.bom + min size ff.used)).tmod ff.size ≡
      ff.top - (ff.bom + min size ff.used) [ZMOD ff.size] := by
    have hplace : z.used ≡ z.top - z.bom [ZMOD z.size] := Int.mod_modEq _ _
    have hplace' : ff.used ≡ ff.top - ff.bom [ZMOD ff.size] := Int.mod_modEq _ _
    rw [hleft, ← hz', hr] at hplace
    rw [← Int.sub_sub]
    exact hplace.symm.trans (hplace'.sub_right _)
  refine long_place (not_lt.mp hsum) (by omega) hlt ?_
  exact Int.modEq_iff_dvd.mpr (by simpa using (Int.modEq_iff_dvd.mp hmod.symm))

/-- A write that is taken has found the free size, has stayed in the ring and has not
wrapped around. -/
theorem Ready.write_fits (h : ff.Ready) (hsize : 0 ≤ size) (hle : size ≤ ff.free)
    (hrun : ff.domSerialFifoWrite true (some src) size = some (z, size, dest))
    (hz : z.contents = ff.contents ++ block src 0 size.toNat) :
    (SerialCall.write true (some src) size).Fits ff := by
  obtain ⟨hlt, hbom, hbom', htop, htop'⟩ := id h.toInRange
  have hused := h.used_range
  have hfree : ff.free = ff.size - 1 - ff.used := rfl
  rw [h.write_eq hsize] at hrun
  split at hrun
  · have hr : -enomem = size := (Prod.mk.inj (Prod.mk.inj (Option.some.inj hrun)).2).1
    unfold enomem at hr
    omega
  rename_i hwsize
  obtain ⟨w, hcopy, heq⟩ := Option.map_eq_some_iff.mp hrun
  have hempty : ff.top = ff.bom → ff.top + size ≤ ff.size := by
    intro hall
    by_contra hover
    rw [copyIn, if_neg (by omega), copyTo, if_neg (fun hin => ?_)] at hcopy
    · exact absurd hcopy nofun
    · rcases hin.2 with hnone | hin
      · omega
      · omega
  refine fun _ => ⟨(h.wsize_eq hsize hle).mp (not_lt.mp hwsize), ?_, hempty⟩
  by_contra hsum
  obtain ⟨data, hcopy', -⟩ := h.copyIn src hsize hle hempty
  obtain rfl := Option.some.inj (hcopy.symm.trans hcopy')
  obtain rfl := (Prod.mk.inj heq).1
  have hlen := contents_length h.size_pos
  generalize hz' : SerialFifo.mk ff.flag _ ff.bom ff.size data = z at hz
  have hmore : z.used = ff.used + size := by
    have hlen' := @contents_length z (by rw [← hz']; exact h.size_pos)
    rw [hz, List.length_append, block_length] at hlen'
    omega
  have hmod : (long (ff.top + size)).tmod ff.size - ff.bom ≡
      ff.top + size - ff.bom [ZMOD ff.size] := by
    have hplace : z.used ≡ z.top - z.bom [ZMOD z.size] := Int.mod_modEq _ _
    have hplace' : ff.used ≡ ff.top - ff.bom [ZMOD ff.size] := Int.mod_modEq _ _
    have hdist : ff.top + size - ff.bom = ff.top - ff.bom + size := by omega
    rw [hmore, ← hz'] at hplace
    rw [hdist]
    exact hplace.symm.trans (hplace'.add_right _)
  refine long_place (not_lt.mp hsum) (by omega) hlt ?_
  exact Int.modEq_iff_dvd.mpr (by simpa using (Int.modEq_iff_dvd.mp hmod))

-- ---------------------------------------------------------------------------
-- Any call
-- ---------------------------------------------------------------------------

theorem Ready.call (h : ff.Ready) (ha : a.Taken) (hfit : a.Fits ff) :
    ∃ z r dest, ff.call a = some (z, r, dest) ∧ z.Ready ∧ z.size = ff.size ∧
      a.Queues ff z r dest := by
  have hlen := contents_length h.size_pos
  have hused := h.used_range
  have hfree : ff.free = ff.size - 1 - ff.used := rfl
  cases a with
  | read df dest size =>
    obtain ⟨rfl, rfl, hsize⟩ := ha
    obtain ⟨z, hrun, hready, hsame, hz⟩ := h.read hsize hfit
    refine ⟨z, _, _, hrun, hready, hsame, ?_, fun hr => absurd hr (by omega)⟩
    rw [SerialCall.queue, hz, hlen]
  | write df src size =>
    obtain ⟨rfl, hsrc, hsize⟩ := ha
    obtain ⟨src, rfl⟩ := Option.isSome_iff_exists.mp hsrc
    by_cases hle : size ≤ ff.free
    · obtain ⟨z, hrun, hready, hsame, hz⟩ := h.write hsize hle hfit
      refine ⟨z, _, _, hrun, hready, hsame, ?_, fun hr => absurd hr (by omega)⟩
      rw [SerialCall.queue, hz, if_pos (by omega)]
      rfl
    · refine ⟨ff, _, _, h.write_full hsize (not_le.mp hle), h, rfl, ?_, fun _ => rfl⟩
      rw [SerialCall.queue, if_neg (by omega)]

theorem Ready.call_fits (h : ff.Ready) (ha : a.Taken) (hrun : ff.call a = some (z, r, dest))
    (hq : a.Queues ff z r dest) : a.Fits ff := by
  have hlen := contents_length h.size_pos
  have hfree : ff.free = ff.size - 1 - ff.used := rfl
  have hqueue := hq.queue
  cases a with
  | read df dest' size =>
    obtain ⟨rfl, rfl, hsize⟩ := ha
    simp only [SerialCall.queue, Prod.mk.injEq] at hqueue
    obtain ⟨hz, rfl, -⟩ := hqueue
    rw [hlen] at hrun
    exact h.read_fits hsize hrun hz
  | write df src size =>
    obtain ⟨rfl, hsrc, hsize⟩ := ha
    obtain ⟨src, rfl⟩ := Option.isSome_iff_exists.mp hsrc
    by_cases hle : size ≤ ff.free
    · rw [SerialCall.queue, if_pos (by omega)] at hqueue
      simp only [Prod.mk.injEq] at hqueue
      obtain ⟨hz, rfl, -⟩ := hqueue
      exact h.write_fits hsize hle hrun hz
    · exact fun hle' => absurd hle' hle

theorem call_refused (ha : ¬a.Taken) : ff.call a = some (ff, -einval, []) := by
  cases a with
  | read df dest size =>
    have hargs : !df ∨ !dest ∨ size < 0 := by
      by_contra hargs
      simp only [not_or, Bool.not_eq_true', not_lt, Bool.not_eq_false] at hargs
      exact ha hargs
    simp only [SerialFifo.call, domSerialFifoRead, hargs, if_true]
    rfl
  | write df src size =>
    cases src with
    | none => rfl
    | some src =>
      have hargs : !df ∨ size < 0 := by
        by_contra hargs
        simp only [not_or, Bool.not_eq_true', not_lt, Bool.not_eq_false] at hargs
        exact ha ⟨hargs.1, rfl, hargs.2⟩
      simp only [SerialFifo.call, domSerialFifoWrite, hargs, if_true]
      rfl

theorem Ready.step (h : ff.Ready) (hfit : a.Taken → a.Fits ff) (hs : ff.step a = some z) :
    z.Ready ∧ z.size = ff.size := by
  obtain ⟨⟨w, r, dest⟩, hrun, rfl⟩ := Option.map_eq_some_iff.mp hs
  by_cases ha : a.Taken
  · obtain ⟨w', r', dest', hrun', hready, hsame, -⟩ := h.call ha (hfit ha)
    obtain ⟨rfl, -⟩ := Prod.mk.inj (Option.some.inj (hrun.symm.trans hrun'))
    exact ⟨hready, hsame⟩
  · rw [call_refused ha] at hrun
    obtain ⟨rfl, -⟩ := Prod.mk.inj (Option.some.inj hrun)
    exact ⟨h, rfl⟩

theorem InRange.fits_small (h : ff.InRange) (hsmall : ff.size ≤ 1073741824) (ha : a.Taken) :
    a.Fits ff ↔ match a with
      | .read .. => True
      | .write _ _ size => size ≤ ff.free → ff.top = ff.bom → ff.top + size ≤ ff.size := by
  obtain ⟨-, hbom, hbom', htop, htop'⟩ := id h
  have hused := h.used_range
  have hfree : ff.free = ff.size - 1 - ff.used := rfl
  cases a with
  | read df dest size =>
    simp only [SerialCall.Fits, iff_true]
    omega
  | write df src size =>
    refine ⟨fun hfit hle => (hfit hle).2.2, fun hempty hle => ⟨.inl ?_, ?_, hempty hle⟩⟩ <;> omega

end SerialFifo

/-- From any ring whose flags are set, a call that gets addresses and a size does to the
ring what it does to a queue of one byte less than the ring's size, without leaving the
ring, if and only if its sums do not wrap around and what goes into an empty ring fits
before its end. Any other call changes nothing. -/
theorem serialFifo_is_queue {ff₀ ff y : SerialFifo} {tr : List (SerialFifo × SerialCall)}
    (h₀ : ff₀.Ready) (hr : Run SerialFifo.step ff₀ tr ff) (hy : Visited tr ff y)
    (hc : ∀ e ∈ tr, e.2.Taken → e.2.Fits e.1) (a : SerialCall) :
    y.size = ff₀.size ∧
    (a.Taken →
      ((∃ z r dest, y.call a = some (z, r, dest) ∧ a.Queues y z r dest) ↔ a.Fits y)) ∧
    (¬a.Taken → y.call a = some (y, -einval, [])) := by
  obtain ⟨hready, hsize⟩ : y.Ready ∧ y.size = ff₀.size :=
    hr.invariant_visited (I := fun ff => ff.Ready ∧ ff.size = ff₀.size)
      (C := fun ff a => a.Taken → a.Fits ff) ⟨h₀, rfl⟩
      (fun _ _ _ h hfit hs => ⟨(h.1.step hfit hs).1, (h.1.step hfit hs).2.trans h.2⟩) hc hy
  refine ⟨hsize, fun ha => ⟨?_, fun hfit => ?_⟩, SerialFifo.call_refused⟩
  · rintro ⟨z, r, dest, hrun, hq⟩
    exact hready.call_fits ha hrun hq
  · obtain ⟨z, r, dest, hrun, -, -, hq⟩ := hready.call ha hfit
    exact ⟨z, r, dest, hrun, hq⟩

def eightBytes : SerialFifo where
  flag := 0x38
  top := 0
  bom := 0
  size := 8
  data := fun _ => 0

theorem eightBytes_ready : eightBytes.Ready :=
  ⟨⟨by decide, by decide, by decide, by decide, by decide⟩, by decide, by decide, by decide⟩

instance : DecidablePred SerialCall.Taken
  | .read _ _ _ => inferInstanceAs (Decidable (_ ∧ _))
  | .write _ _ _ => inferInstanceAs (Decidable (_ ∧ _))

/-- Five bytes go in and out again, and three more fit before the end. -/
theorem serialFifo_is_queue_run : ∃ ff tr z r dest, Run SerialFifo.step eightBytes tr ff ∧
    ff.top = 5 ∧ ff.contents = [] ∧
    ff.call (.write true (some countingBytes) 3) = some (z, r, dest) ∧ z.contents = [1, 2, 3] := by
  have hrun : (exec SerialFifo.step eightBytes
      [.write true (some countingBytes) 5, .read true true 9]).any fun r =>
      decide ((∀ e ∈ r.1, e.2.Taken → e.2.Fits e.1) ∧ r.2.top = 5 ∧ r.2.contents = [] ∧
        (SerialCall.write true (some countingBytes) 3).Fits r.2 ∧ r.2.size = 8) := by
    decide +kernel
  obtain ⟨tr, ff, hr, hff⟩ := exec_any hrun
  simp only [decide_eq_true_eq] at hff
  obtain ⟨hc, htop, hnone, hfit, hsize⟩ := hff
  obtain ⟨-, hqueue, -⟩ := serialFifo_is_queue eightBytes_ready hr .self hc
    (.write true (some countingBytes) 3)
  obtain ⟨z, r, dest, hcall, hq⟩ := (hqueue ⟨rfl, rfl, by decide⟩).mpr hfit
  refine ⟨ff, tr, z, r, dest, hr, htop, hnone, hcall, ?_⟩
  have hz := hq.queue
  rw [hnone, hsize] at hz
  exact (Prod.mk.inj hz).1

/-- Five more bytes, which fit into the empty ring, are copied over its end. -/
theorem serialFifo_leaves : ∃ ff tr, Run SerialFifo.step eightBytes tr ff ∧
    eightBytes.contents = [] ∧ (∀ e ∈ tr, e.2.Taken) ∧ ff.contents = [] ∧ ff.free = 7 ∧
    ff.call (.write true (some countingBytes) 5) = none := by
  have hrun : (exec SerialFifo.step eightBytes
      [.write true (some countingBytes) 5, .read true true 5]).any fun r =>
      decide ((∀ e ∈ r.1, e.2.Taken) ∧ r.2.contents = [] ∧ r.2.free = 7 ∧
        (r.2.call (.write true (some countingBytes) 5)).isNone = true) := by decide +kernel
  obtain ⟨tr, ff, hr, hff⟩ := exec_any hrun
  simp only [decide_eq_true_eq, Option.isNone_iff_eq_none] at hff
  exact ⟨ff, tr, hr, rfl, hff⟩

end Xmertl.Xtratum
