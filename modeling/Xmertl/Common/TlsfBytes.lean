import Xmertl.Common.TlsfBlocks

/-!
# The bytes of a TLSF pool

`memcpy` and `memset` go byte by byte through the words of a pool, the lowest byte of a word
first. What they leave is said of the bytes, and of the words that they do not touch.
-/

namespace Xmertl.TlsfPool

open BoundaryTags ThreadedLists TotalCorrectness

def byte (w : Word) (k : Nat) : BitVec 8 := w.extractLsb' (8 * k) 8

/-- The word with `v` for its byte `k`. -/
def withByte (w : Word) (k : Nat) (v : BitVec 8) : Word :=
  (w &&& ~~~(0xff#32 <<< (8 * k))) ||| (v.setWidth 32 <<< (8 * k))

def byteAt (mem : Nat → Word) (a : Nat) : BitVec 8 := byte (mem (a / 4 * 4)) (a % 4)

def setByteAt (mem : Nat → Word) (a : Nat) (v : BitVec 8) : Nat → Word :=
  Function.update mem (a / 4 * 4) (withByte (mem (a / 4 * 4)) (a % 4) v)

def Area.loadByte (A : Area) (mem : Nat → Word) (p : Word) : Option (BitVec 8) :=
  if A.Has (p.toNat / 4 * 4) then some (byteAt mem p.toNat) else none

def Area.storeByte (A : Area) (mem : Nat → Word) (p : Word) (v : BitVec 8) :
    Option (Nat → Word) :=
  if A.Has (p.toNat / 4 * 4) then some (setByteAt mem p.toNat v) else none

def memcpy (A : Area) : Nat → (Nat → Word) → Word → Word → Option (Nat → Word)
  | 0, mem, _, _ => some mem
  | n + 1, mem, dst, src => do
    let mem ← A.storeByte mem dst (← A.loadByte mem src)
    memcpy A n mem (dst + 1#32) (src + 1#32)

def memset (A : Area) (v : BitVec 8) : Nat → (Nat → Word) → Word → Option (Nat → Word)
  | 0, mem, _ => some mem
  | n + 1, mem, dst => do memset A v n (← A.storeByte mem dst v) (dst + 1#32)

section
variable {A : Area} {mem mem' : Nat → Word} {a b n x y : Nat} {w : Word} {v : BitVec 8} {j k : Nat}

theorem byte_withByte (hj : j < 4) (hk : k < 4) :
    byte (withByte w k v) j = if j = k then v else byte w j := by
  refine BitVec.eq_of_getLsbD_eq fun i hi => ?_
  simp only [byte, withByte, BitVec.getLsbD_extractLsb', BitVec.getLsbD_or, BitVec.getLsbD_and,
    BitVec.getLsbD_not, BitVec.getLsbD_shiftLeft, BitVec.getLsbD_setWidth]
  have hff : ∀ m, (0xff#32).getLsbD m = decide (m < 8) := by
    intro m
    have hone : 0xff#32 = BitVec.ofNat 32 (2 ^ 8 - 1) := rfl
    rw [hone, BitVec.getLsbD_ofNat, Nat.testBit_two_pow_sub_one]
    simp
    omega
  simp only [hff]
  split
  · rename_i h
    subst h
    have hsub : 8 * j + i - 8 * j = i := by omega
    have hlt : 8 * j + i < 32 := by omega
    have hi32 : i < 32 := by omega
    have hnot : ¬8 * j + i < 8 * j := by omega
    simp [hi, hlt, hi32, hsub, hnot]
  · rename_i h
    rcases Nat.lt_or_gt_of_ne h with hlt | hgt
    · have hbefore : 8 * j + i < 8 * k := by omega
      simp [hi, hbefore]
      omega
    · have hafter : ¬8 * j + i < 8 * k := by omega
      have hpast : 8 ≤ 8 * j + i - 8 * k := by omega
      simp [hi, hafter, hpast]
      omega

theorem byteAt_setByteAt : byteAt (setByteAt mem a v) b = if b = a then v else byteAt mem b := by
  rw [byteAt, setByteAt]
  by_cases hw : b / 4 * 4 = a / 4 * 4
  · rw [hw, Function.update_self, byte_withByte (Nat.mod_lt _ (by decide)) (Nat.mod_lt _ (by decide))]
    by_cases hab : b = a
    · rw [if_pos hab, if_pos (by rw [hab])]
    · rw [if_neg hab, if_neg (by omega), byteAt, hw]
  · rw [Function.update_of_ne hw, if_neg (fun hab => hw (by rw [hab])), byteAt]

theorem setByteAt_of_ne (h : b ≠ a / 4 * 4) : setByteAt mem a v b = mem b :=
  Function.update_of_ne h ..

theorem byteAt_congr (h : mem' (a / 4 * 4) = mem (b / 4 * 4)) (hmod : a % 4 = b % 4) :
    byteAt mem' a = byteAt mem b := by
  rw [byteAt, byteAt, h, hmod]

theorem loadByte_ofNat (h : A.Has (a / 4 * 4)) (ha : a < 2 ^ 32) :
    A.loadByte mem (BitVec.ofNat 32 a) = some (byteAt mem a) := by
  rw [Area.loadByte, BitVec.toNat_ofNat, Nat.mod_eq_of_lt ha, if_pos h]

theorem storeByte_ofNat (h : A.Has (a / 4 * 4)) (ha : a < 2 ^ 32) :
    A.storeByte mem (BitVec.ofNat 32 a) v = some (setByteAt mem a v) := by
  rw [Area.storeByte, BitVec.toNat_ofNat, Nat.mod_eq_of_lt ha, if_pos h]

/-- From `a` on, `n` bytes lie in the pool. -/
def Area.Holds (A : Area) (a n : Nat) : Prop := ∀ i < n, A.Has ((a + i) / 4 * 4)

theorem Area.Holds.head (h : A.Holds a (n + 1)) : A.Has (a / 4 * 4) ∧ a < 2 ^ 32 := by
  have hhas := h 0 (Nat.succ_pos n)
  have hlt := hhas.2.1
  have htop := A.top
  exact ⟨hhas, by omega⟩

theorem Area.Holds.tail (h : A.Holds a (n + 1)) : A.Holds (a + 1) n := fun i hi => by
  have hhas := h (i + 1) (by omega)
  rwa [Nat.add_comm i, ← Nat.add_assoc] at hhas

theorem ofNat_add_one (a : Nat) : BitVec.ofNat 32 a + 1#32 = BitVec.ofNat 32 (a + 1) :=
  (BitVec.ofNat_add a 1).symm

theorem memcpy_spec (hdst : A.Holds y n) (hsrc : A.Holds x n) (hapart : x + n ≤ y ∨ y + n ≤ x) :
    Returns (memcpy A n mem (BitVec.ofNat 32 y) (BitVec.ofNat 32 x)) fun mem' =>
      (∀ i < n, byteAt mem' (y + i) = byteAt mem (x + i)) ∧
      (∀ b, b < y ∨ y + n ≤ b → byteAt mem' b = byteAt mem b) ∧
      ∀ b, (∀ i < n, b ≠ (y + i) / 4 * 4) → mem' b = mem b := by
  induction n generalizing x y mem with
  | zero => exact .pure ⟨nofun, fun _ _ => rfl, fun _ _ => rfl⟩
  | succ n ih =>
    obtain ⟨hx, hx32⟩ := hsrc.head
    obtain ⟨hy, hy32⟩ := hdst.head
    refine Returns.bind_eq (loadByte_ofNat hx hx32) (Returns.bind_eq (storeByte_ofNat hy hy32) ?_)
    rw [ofNat_add_one, ofNat_add_one]
    refine (ih hdst.tail hsrc.tail (by omega)).mono fun mem' ⟨hcopy, hbyte, hword⟩ =>
      ⟨fun i hi => ?_, fun b hb => ?_, fun b hb => ?_⟩
    · cases i with
      | zero => rw [hbyte _ (by omega), byteAt_setByteAt, if_pos (Nat.add_zero y), Nat.add_zero]
      | succ i =>
        have hstep := hcopy i (by omega)
        rw [Nat.add_assoc, Nat.add_assoc, Nat.add_comm 1] at hstep
        rw [hstep, byteAt_setByteAt, if_neg (by omega)]
    · rw [hbyte b (by omega), byteAt_setByteAt, if_neg (by omega)]
    · have hne : ∀ i < n, b ≠ (y + 1 + i) / 4 * 4 := fun i hi => by
        have hi' := hb (i + 1) (by omega)
        rwa [Nat.add_comm i, ← Nat.add_assoc] at hi'
      have hhead : b ≠ y / 4 * 4 := hb 0 (Nat.succ_pos n)
      rw [hword b hne, setByteAt_of_ne hhead]

theorem memset_spec (hdst : A.Holds y n) :
    Returns (memset A v n mem (BitVec.ofNat 32 y)) fun mem' =>
      (∀ i < n, byteAt mem' (y + i) = v) ∧
      (∀ b, b < y ∨ y + n ≤ b → byteAt mem' b = byteAt mem b) ∧
      ∀ b, (∀ i < n, b ≠ (y + i) / 4 * 4) → mem' b = mem b := by
  induction n generalizing y mem with
  | zero => exact .pure ⟨nofun, fun _ _ => rfl, fun _ _ => rfl⟩
  | succ n ih =>
    obtain ⟨hy, hy32⟩ := hdst.head
    refine Returns.bind_eq (storeByte_ofNat hy hy32) ?_
    rw [ofNat_add_one]
    refine (ih hdst.tail).mono fun mem' ⟨hset, hbyte, hword⟩ =>
      ⟨fun i hi => ?_, fun b hb => ?_, fun b hb => ?_⟩
    · cases i with
      | zero => rw [hbyte _ (by omega), byteAt_setByteAt, if_pos (Nat.add_zero y)]
      | succ i =>
        have hstep := hset i (by omega)
        rwa [Nat.add_assoc, Nat.add_comm 1] at hstep
    · rw [hbyte b (by omega), byteAt_setByteAt, if_neg (by omega)]
    · have hne : ∀ i < n, b ≠ (y + 1 + i) / 4 * 4 := fun i hi => by
        have hi' := hb (i + 1) (by omega)
        rwa [Nat.add_comm i, ← Nat.add_assoc] at hi'
      have hhead : b ≠ y / 4 * 4 := hb 0 (Nat.succ_pos n)
      rw [hword b hne, setByteAt_of_ne hhead]

theorem memcpy_null (hn : 0 < n) {src : Word} : memcpy A n mem 0#32 src = none := by
  cases n with
  | zero => exact absurd hn (Nat.lt_irrefl 0)
  | succ n =>
    have habove := A.above
    have hhas : ¬A.Has 0 := fun h0 => by
      have hlo := h0.1
      omega
    cases hl : A.loadByte mem src <;> simp [memcpy, hl, Area.storeByte, hhas]

end

end Xmertl.TlsfPool
