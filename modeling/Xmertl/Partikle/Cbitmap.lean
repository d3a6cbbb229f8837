import Mathlib.Data.Finset.Card
import Mathlib.Data.Finset.Range
import Xmertl.Lib.Bitmap

/-!
# The bitmaps of the kernel

What the memory manager uses of `cbitmap.h`. The array is a buffer of the caller's that
starts as zeros.
-/

namespace Xmertl.Partikle

structure Cbitmap where
  array : Nat → BitVec 32
  nbits : Nat

namespace Cbitmap

def arraySize (bits : Nat) : Nat := if bits % 32 ≠ 0 then bits / 32 + 1 else bits / 32

def initCbitmap (nbits : Nat) : Cbitmap := ⟨fun _ => 0, nbits⟩

theorem bit_lt (bitp : Nat) : bitp % 32 < 32 := Nat.mod_lt _ (by decide)

def bit (bitp : Nat) : Fin 32 := ⟨bitp % 32, bit_lt bitp⟩

def put (b : Cbitmap) (entry : Nat) (word : BitVec 32) : Cbitmap :=
  { b with array := Function.update b.array entry word }

def setbitCbitmap (b : Cbitmap) (bitp : Nat) : Cbitmap :=
  if bitp ≥ b.nbits then b else b.put (bitp / 32) ((b.array (bitp / 32)).setBit (bit bitp))

def clearbitCbitmap (b : Cbitmap) (bitp : Nat) : Cbitmap :=
  if bitp ≥ b.nbits then b else b.put (bitp / 32) ((b.array (bitp / 32)).clearBit (bit bitp))

/-- The loop of `findfbs_cbitmap` over the entries left. -/
def findfbsLoop (b : Cbitmap) : Nat → Nat → Option Nat
  | 0, _ => none
  | n + 1, aEntry =>
    match (b.array aEntry).first with
    | none => b.findfbsLoop n (aEntry + 1)
    | some i => some (i + aEntry * 32)

/-- Where it has no bit, -1. -/
def findfbsCbitmap (b : Cbitmap) : Option Nat := b.findfbsLoop (arraySize b.nbits) 0

def Has (b : Cbitmap) (bitp : Nat) : Prop := (b.array (bitp / 32)).Has (bit bitp)

instance (b : Cbitmap) (bitp : Nat) : Decidable (b.Has bitp) :=
  inferInstanceAs (Decidable (BitVec.Has _ _))

def Bounded (b : Cbitmap) : Prop := ∀ p, b.Has p → p < b.nbits

def bits (b : Cbitmap) : Finset Nat := (Finset.range b.nbits).filter b.Has

section
variable {b : Cbitmap} {p q n a : Nat}

theorem same_bit : p / 32 = q / 32 ∧ bit p = bit q ↔ p = q := by
  simp only [bit, Fin.mk.injEq]
  omega

theorem mem_bits (hb : b.Bounded) : p ∈ b.bits ↔ b.Has p := by
  simp only [bits, Finset.mem_filter, Finset.mem_range, and_iff_right_iff_imp]
  exact hb p

@[simp] theorem not_has_init : ¬(initCbitmap n).Has p := BitVec.has_zero

@[simp] theorem setbit_nbits : (b.setbitCbitmap q).nbits = b.nbits := by
  unfold setbitCbitmap put
  split <;> rfl

@[simp] theorem clearbit_nbits : (b.clearbitCbitmap q).nbits = b.nbits := by
  unfold clearbitCbitmap put
  split <;> rfl

theorem has_put {word : BitVec 32} :
    (b.put a word).Has p ↔ if p / 32 = a then word.Has (bit p) else b.Has p := by
  simp only [Has, put, Function.update_apply]
  split
  · exact Iff.rfl
  · exact Iff.rfl

theorem has_setbit : (b.setbitCbitmap q).Has p ↔ b.Has p ∨ p = q ∧ q < b.nbits := by
  unfold setbitCbitmap
  split
  case isTrue hq => simp [Nat.not_lt.mpr hq]
  case isFalse hq =>
    rw [has_put, ← same_bit (p := p)]
    split
    case isTrue h => simp [Has, h, Nat.lt_of_not_le hq]
    case isFalse h => simp [h]

theorem has_clearbit : (b.clearbitCbitmap q).Has p ↔ b.Has p ∧ ¬(p = q ∧ q < b.nbits) := by
  unfold clearbitCbitmap
  split
  case isTrue hq => simp [Nat.not_lt.mpr hq]
  case isFalse hq =>
    rw [has_put, ← same_bit (p := p)]
    split
    case isTrue h => simp [Has, h, Nat.lt_of_not_le hq]
    case isFalse h => simp [h]

theorem has_of_findfbsLoop (h : b.findfbsLoop n a = some p) : b.Has p := by
  induction n generalizing a with
  | zero => simp [findfbsLoop] at h
  | succ n ih =>
    rw [findfbsLoop] at h
    cases hf : (b.array a).first with
    | none => exact ih (by simpa [hf] using h)
    | some i =>
      simp only [hf, Option.some.injEq] at h
      subst h
      have hword : (i.val + a * 32) / 32 = a := by omega
      have hbit : bit (i.val + a * 32) = i := by
        apply Fin.ext
        simp only [bit]
        omega
      rw [Has, hword, hbit]
      exact BitVec.has_of_first hf

theorem findfbsLoop_eq_none (h : b.findfbsLoop n a = none) (hp : a ≤ p / 32)
    (hn : p / 32 < a + n) : ¬b.Has p := by
  induction n generalizing a with
  | zero => omega
  | succ n ih =>
    rw [findfbsLoop] at h
    cases hf : (b.array a).first with
    | none =>
      by_cases ha : a = p / 32
      · rw [Has, ← ha]
        exact BitVec.first_eq_none.mp hf _
      · exact ih (by simpa [hf] using h) (by omega) (by omega)
    | some i => simp [hf] at h

theorem has_of_findfbs (h : b.findfbsCbitmap = some p) : b.Has p := has_of_findfbsLoop h

theorem findfbs_isSome (hb : b.Bounded) (h : b.Has p) : ∃ q, b.findfbsCbitmap = some q := by
  cases hf : b.findfbsCbitmap with
  | some q => exact ⟨q, rfl⟩
  | none =>
    have hlt := hb p h
    have hsize : p / 32 < 0 + arraySize b.nbits := by
      unfold arraySize
      split <;> omega
    exact absurd h (findfbsLoop_eq_none hf (Nat.zero_le _) hsize)

theorem Bounded.setbit (hb : b.Bounded) : (b.setbitCbitmap q).Bounded := by
  intro p hp
  rw [setbit_nbits]
  rcases has_setbit.mp hp with hp | ⟨rfl, hlt⟩
  · exact hb p hp
  · exact hlt

theorem Bounded.clearbit (hb : b.Bounded) : (b.clearbitCbitmap q).Bounded := by
  intro p hp
  rw [clearbit_nbits]
  exact hb p (has_clearbit.mp hp).1

theorem Bounded.has_clearbit (hb : b.Bounded) :
    (b.clearbitCbitmap q).Has p ↔ b.Has p ∧ p ≠ q := by
  rw [Cbitmap.has_clearbit]
  refine and_congr_right fun hp => not_congr ⟨And.left, ?_⟩
  rintro rfl
  exact ⟨rfl, hb p hp⟩

theorem bits_clearbit (hb : b.Bounded) : (b.clearbitCbitmap q).bits = b.bits.erase q := by
  ext p
  rw [mem_bits hb.clearbit, hb.has_clearbit, Finset.mem_erase, mem_bits hb, and_comm]

end

end Cbitmap

end Xmertl.Partikle
