import Xmertl.Common.TlsfClasses
import Xmertl.Xtratum.Tlsf

/-!
# Sizes and their free lists

`ms_bit` and `ls_bit` find the bits they are named after, each size has a class of the
matrix, and whatever block is on a list where FIND_SUITABLE_BLOCK looks is as large as
MAPPING_SEARCH makes the request.
-/

namespace Xmertl.Xtratum

open TlsfPool SizeClasses

section
variable {r s i : Nat} {w : Word}

theorem table_bounds : ∀ i < 256, 0 < i →
    0 ≤ table.getD i 0 ∧ 2 ^ (table.getD i 0).toNat ≤ i ∧ i < 2 ^ ((table.getD i 0).toNat + 1) := by
  have hall : ∀ p ∈ table.zipIdx, 0 < p.2 →
      0 ≤ p.1 ∧ 2 ^ p.1.toNat ≤ p.2 ∧ p.2 < 2 ^ (p.1.toNat + 1) := by decide +kernel
  have hlength : table.length = 256 := by
    simp only [table, List.length_append, List.length_cons, List.length_nil, List.length_replicate]
  intro i hi h₀
  have hi' : i < table.length := by rwa [hlength]
  rw [List.getD_eq_getElem?_getD, List.getElem?_eq_getElem hi', Option.getD_some]
  exact hall (table[i], i) (List.mk_mem_zipIdx_iff_getElem?.mpr (List.getElem?_eq_getElem hi')) h₀

theorem table_log2 (h₀ : 0 < i) (h : i < 256) : table.getD i 0 = (i.log2 : Int) := by
  obtain ⟨hpos, hle, hlt⟩ := table_bounds i h h₀
  rw [(Nat.log2_eq_iff (Nat.ne_of_gt h₀)).mpr ⟨hle, hlt⟩]
  omega

theorem log2_div {k : Nat} (h : 0 < r / 2 ^ k) : (r / 2 ^ k).log2 + k = r.log2 := by
  have hr : r ≠ 0 := by
    rintro rfl
    simp at h
  obtain ⟨hle, hlt⟩ := (Nat.log2_eq_iff (Nat.ne_of_gt h)).mp rfl
  refine ((Nat.log2_eq_iff hr).mpr ⟨?_, ?_⟩).symm
  · calc 2 ^ ((r / 2 ^ k).log2 + k) = 2 ^ (r / 2 ^ k).log2 * 2 ^ k := Nat.pow_add ..
      _ ≤ r / 2 ^ k * 2 ^ k := Nat.mul_le_mul_right _ hle
      _ ≤ r := Nat.div_mul_le_self ..
  · have hmul := (Nat.div_lt_iff_lt_mul (Nat.two_pow_pos k)).mp hlt
    rw [← Nat.pow_add] at hmul
    rwa [Nat.add_right_comm]

theorem tableShift_spec (h₀ : 0 < r) (h : r < 2 ^ 32) :
    0 < r / 2 ^ tableShift (BitVec.ofNat 32 r) ∧ r / 2 ^ tableShift (BitVec.ofNat 32 r) < 256 := by
  simp only [tableShift, BitVec.le_def, toNat_ofNat h]
  simp only [BitVec.toNat_ofNat]
  split
  · split <;> omega
  · split <;> omega

theorem tableBit_eq (h₀ : 0 < r) (h : r < 2 ^ 32) :
    tableBit (BitVec.ofNat 32 r) = (r.log2 : Int) := by
  obtain ⟨hpos, hlt⟩ := tableShift_spec h₀ h
  rw [tableBit, ofNat_shiftRight h, toNat_ofNat (by omega), table_log2 hpos hlt, ← log2_div hpos]
  rfl

theorem msBit_eq (h₀ : 0 < r) (h : r < 2 ^ 32) : msBit (BitVec.ofNat 32 r) = (r.log2 : Int) :=
  tableBit_eq h₀ h

theorem and_neg {k : Fin 32} (hk : w.first = some k) : w &&& -w = BitVec.ofNat 32 (2 ^ k.val) := by
  have hlow : ∀ j, j < k.val → w.getLsbD j = false := fun j hj => by
    have hnot := BitVec.not_has_of_lt_first hk (j := ⟨j, by omega⟩) hj
    simpa [BitVec.Has] using hnot
  have hbit : w.getLsbD k.val = true := BitVec.has_of_first hk
  have hpow : BitVec.ofNat 32 (2 ^ k.val) = BitVec.twoPow 32 k :=
    BitVec.eq_of_toNat_eq (by rw [BitVec.toNat_ofNat, BitVec.toNat_twoPow])
  rw [hpow]
  refine BitVec.eq_of_getLsbD_eq fun j hj => ?_
  rw [BitVec.getLsbD_and, BitVec.getLsbD_neg, BitVec.getLsbD_twoPow]
  rcases Nat.lt_trichotomy j k.val with hlt | rfl | hgt
  · simp [hlow j hlt, Nat.ne_of_gt hlt]
  · have hnone : ¬∃ i < k.val, w.getLsbD i = true := by
      rintro ⟨i, hi, hwi⟩
      rw [hlow i hi] at hwi
      cases hwi
    simp [hbit, hnone]
  · have hsome : ∃ i < j, w.getLsbD i = true := ⟨k.val, hgt, hbit⟩
    cases hwj : w.getLsbD j with
    | false => simp [Nat.ne_of_lt hgt]
    | true => simp [hj, hsome, Nat.ne_of_lt hgt]

theorem lsBit_finds : FindsBit lsBit where
  zero := by decide +kernel
  found w hw := by
    obtain ⟨k, hk⟩ := BitVec.first_isSome hw
    refine ⟨k, ?_, BitVec.has_of_first hk⟩
    rw [lsBit, and_neg hk, tableBit_eq (Nat.two_pow_pos _) (Nat.pow_lt_pow_right (by decide) k.isLt),
      Nat.log2_two_pow]

-- ---------------------------------------------------------------------------
-- The class of a size
-- ---------------------------------------------------------------------------

def classOf (s : Nat) : Nat × Nat := if s < 128 then (0, s / 4) else (s.log2 - 6, second 5 s)

/-- The list of a free block of `n` bytes with its header. -/
def cellOf (n : Nat) : Option (Fin 24 × Fin 32) :=
  cell 24 (mappingInsert (BitVec.ofNat 32 (n - 8))).1 (mappingInsert (BitVec.ofNat 32 (n - 8))).2

theorem seven_le_log2 (h : 128 ≤ s) : 7 ≤ s.log2 := (Nat.le_log2 (by omega)).mpr h

theorem small_eq (h : s < 128) : (BitVec.ofNat 32 s / 4#32).toInt = (s / 4 : Nat) := by
  have hdiv : BitVec.ofNat 32 s / 4#32 = BitVec.ofNat 32 (s / 4) := by
    refine BitVec.eq_of_toNat_eq ?_
    rw [BitVec.toNat_udiv, toNat_ofNat (show s < 2 ^ 32 by omega),
      toNat_ofNat (show s / 4 < 2 ^ 32 by omega)]
    rfl
  rw [hdiv]
  exact toInt_ofNat (by omega)

theorem lt_smallBlock (h : s < 2 ^ 32) : BitVec.ofNat 32 s < smallBlock ↔ s < 128 := by
  rw [BitVec.lt_def, toNat_ofNat h]
  rfl

theorem mappingInsert_eq (h : s < 2 ^ 30) :
    mappingInsert (BitVec.ofNat 32 s) = (((classOf s).1 : Int), ((classOf s).2 : Int)) := by
  rw [mappingInsert, classOf]
  simp only [lt_smallBlock (show s < 2 ^ 32 by omega)]
  split
  · rename_i hs
    rw [small_eq hs]
    rfl
  · rename_i hs
    have hlog := seven_le_log2 (Nat.le_of_not_lt hs)
    simp only [msBit_eq (show 0 < s by omega) (show s < 2 ^ 32 by omega),
      sl_eq (show 32 ≤ s by omega) (show s < 2 ^ 31 by omega)]
    rw [Prod.mk.injEq]
    exact ⟨by omega, rfl⟩

theorem classOf_lt (h : s < 2 ^ 30) : (classOf s).1 < 24 ∧ (classOf s).2 < 32 := by
  rw [classOf]
  split
  · exact ⟨Nat.succ_pos _, by simp only; omega⟩
  · rename_i hs
    have hlog : s.log2 < 30 := (Nat.log2_lt (by omega)).mpr h
    exact ⟨by simp only; omega, second_lt (k := 5) (show 2 ^ 5 ≤ s by omega)⟩

theorem cellOf_eq {n : Nat} (h : n < 2 ^ 30 + 8) : ∃ c, cellOf n = some c ∧
    c.1.val = (classOf (n - 8)).1 ∧ c.2.val = (classOf (n - 8)).2 := by
  have hlt : n - 8 < 2 ^ 30 := by omega
  obtain ⟨h₁, h₂⟩ := classOf_lt hlt
  refine ⟨(⟨_, h₁⟩, ⟨_, h₂⟩), ?_, rfl, rfl⟩
  rw [cellOf, mappingInsert_eq hlt]
  exact cell_val (⟨_, h₁⟩, ⟨_, h₂⟩)

/-- The size from which on free blocks are in the class that `m` is mapped to or in a later
one. Below 128 bytes, the classes that blocks are put in are not those that are searched. -/
def leastIn (m : Nat) : Nat := if m < 128 then 4 * second 5 m else least 5 m.log2 (second 5 m)

theorem later_iff {n m : Nat} {c : Fin 24 × Fin 32} (hm₁ : 64 ≤ m) (hm₂ : m < 2 ^ 30)
    (hn : n < 2 ^ 30 + 8) (hc : cellOf n = some c) :
    (m.log2 - 6 < c.1.val ∨ m.log2 - 6 = c.1.val ∧ second 5 m ≤ c.2.val) ↔ leastIn m ≤ n - 8 := by
  obtain ⟨c', hc', h₁, h₂⟩ := cellOf_eq hn
  obtain rfl := Option.some.inj (hc.symm.trans hc')
  have hsecond := second_lt (k := 5) (show 2 ^ 5 ≤ m by omega)
  simp only [h₁, h₂, classOf, leastIn]
  by_cases hs : n - 8 < 128 <;> by_cases hm : m < 128 <;> simp only [hs, hm, if_true, if_false]
  · have hlog : m.log2 < 7 := (Nat.log2_lt (by omega)).mpr hm
    omega
  · have hlog := seven_le_log2 (Nat.le_of_not_lt hm)
    have hleast : 2 ^ 5 * 2 ^ (7 - 5) ≤ least 5 m.log2 (second 5 m) :=
      Nat.mul_le_mul (Nat.le_add_right _ _) (Nat.pow_le_pow_right (by decide) (by omega))
    omega
  · have hlog : m.log2 < 7 := (Nat.log2_lt (by omega)).mpr hm
    have hlogs := seven_le_log2 (Nat.le_of_not_lt hs)
    omega
  · have hlog := seven_le_log2 (Nat.le_of_not_lt hm)
    have hlogs := seven_le_log2 (Nat.le_of_not_lt hs)
    rw [least_le_iff (show 2 ^ 5 ≤ n - 8 by omega) (by omega) hsecond]
    omega

/-- MAPPING_SEARCH makes the request `roundUp 5 r`, and a block is in the class that it gives
or in a later one just where it is as large as that. -/
theorem mappingSearch_spec (h4 : 4 ∣ r) (h : r ≤ 2 ^ 30 - 2 ^ 24) :
    ∃ (fl : Fin 24) (sl : Fin 32), mappingSearch (BitVec.ofNat 32 r) =
        (BitVec.ofNat 32 (roundUp 5 r), (fl.val : Int), (sl.val : Int)) ∧
      ∀ n c, 4 ∣ n → n < 2 ^ 30 + 8 → cellOf n = some c →
        ((fl < c.1 ∨ fl = c.1 ∧ sl ≤ c.2) ↔ roundUp 5 r ≤ n - 8) := by
  by_cases hr : r < 128
  · rw [roundUp_small hr h4]
    refine ⟨⟨0, by decide⟩, ⟨r / 4, by omega⟩, ?_, fun n c hn4 hn hc => ?_⟩
    · simp only [mappingSearch, (lt_smallBlock (show r < 2 ^ 32 by omega)).mpr hr, if_true,
        small_eq hr]
      rfl
    · obtain ⟨c', hc', h₁, h₂⟩ := cellOf_eq hn
      obtain rfl := Option.some.inj (hc.symm.trans hc')
      simp only [Fin.lt_def, Fin.ext_iff, Fin.le_def, h₁, h₂, classOf]
      split
      · simp only [Nat.lt_irrefl, false_or, true_and]
        omega
      · rename_i hs
        have hlogs := seven_le_log2 (Nat.le_of_not_lt hs)
        simp only
        omega
  · -- the class of the request with the width of its classes added
    have hm : r + (width 5 r - 1) < 2 ^ 30 := step_lt (by omega) h
    have hlog := seven_le_log2 (s := r + (width 5 r - 1)) (by omega)
    have hlog30 : (r + (width 5 r - 1)).log2 < 30 := (Nat.log2_lt (by omega)).mpr hm
    have hsecond := second_lt (k := 5) (show 2 ^ 5 ≤ r + (width 5 r - 1) by omega)
    refine ⟨⟨(r + (width 5 r - 1)).log2 - 6, by omega⟩, ⟨second 5 (r + (width 5 r - 1)), hsecond⟩,
      ?_, fun n c _ hn hc => ?_⟩
    · have hsum : BitVec.ofNat 32 r + BitVec.ofNat 32 (width 5 r - 1) =
          BitVec.ofNat 32 (r + (width 5 r - 1)) := (BitVec.ofNat_add ..).symm
      simp only [mappingSearch, lt_smallBlock (show r < 2 ^ 32 by omega), hr, if_false,
        msBit_eq (show 0 < r by omega) (show r < 2 ^ 32 by omega),
        step_eq r, hsum,
        msBit_eq (show 0 < r + (width 5 r - 1) by omega) (show r + (width 5 r - 1) < 2 ^ 32 by omega),
        sl_eq (show 32 ≤ r + (width 5 r - 1) by omega) (show r + (width 5 r - 1) < 2 ^ 31 by omega),
        round_eq, Prod.mk.injEq, true_and, and_true]
      omega
    · have hleast : leastIn (r + (width 5 r - 1)) = roundUp 5 r := by
        rw [leastIn, if_neg (by omega), ← roundUp_eq (show 2 ^ 5 ≤ r by omega)]
      rw [← hleast, ← later_iff (by omega) hm hn hc]
      simp only [Fin.lt_def, Fin.ext_iff, Fin.le_def]

end

end Xmertl.Xtratum
