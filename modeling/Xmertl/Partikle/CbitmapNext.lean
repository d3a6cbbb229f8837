import Mathlib.Algebra.Group.Nat.Defs
import Mathlib.Order.Bounds.Defs
import Xmertl.Partikle.Cbitmap

/-!
# The searches of the bitmaps

`findnbs_cbitmap` of `cbitmap.h`, with `none` for the read of a word outside the bitmap, and
what it and `findfbs_cbitmap` are to find.
-/

namespace Xmertl.Partikle.Cbitmap

/-- `b -> array[a_entry]`. -/
def word (b : Cbitmap) (aEntry : Nat) : Option (BitVec 32) :=
  if aEntry < arraySize b.nbits then some (b.array aEntry) else none

/-- `while (!(tmp & 0xff))`. -/
def byteLoop : Nat → BitVec 32 → Nat → Option (BitVec 32 × Nat)
  | 0, _, _ => none
  | k + 1, tmp, bit =>
    if tmp &&& 0xff = 0 then byteLoop k (tmp >>> 8) (bit + 8) else some (tmp, bit)

/-- `while (!(tmp & 1))`. -/
def bitLoop : Nat → BitVec 32 → Nat → Option Nat
  | 0, _, _ => none
  | k + 1, tmp, bit => if tmp &&& 1 = 0 then bitLoop k (tmp >>> 1) (bit + 1) else some bit

/-- From the label on. A word has four bytes, and a byte eight bits. -/
def finish (tmp : BitVec 32) (bit aEntry : Nat) : Option Int := do
  let (tmp, bit) ← byteLoop 4 tmp (bit + aEntry * 32)
  let bit ← bitLoop 8 tmp bit
  return bit

/-- The rest of the entry that the search starts in, where it is not all of it. -/
def restOf (b : Cbitmap) (aEntry bit : Nat) : Option (BitVec 32) :=
  if bit ≠ 0 then (b.word aEntry).map fun entry : BitVec 32 => entry >>> bit else some 0

/-- The loop over the entries, which looks at each one before it asks for its number. -/
def skipLoop (b : Cbitmap) : Nat → Nat → Option Nat
  | 0, _ => none
  | k + 1, aEntry => do
    let entry ← b.word aEntry
    if entry = 0 ∧ aEntry < arraySize b.nbits then b.skipLoop k (aEntry + 1) else return aEntry

/-- The comparison is one of unsigned numbers. -/
def findnbsCbitmap (b : Cbitmap) (bitp : BitVec 32) : Option Int :=
  let bitp := bitp + 1
  let aEntry := bitp.toNat / 32
  let bit := bitp.toNat % 32
  if bitp.toNat ≥ b.nbits then some (-1)
  else do
    let tmp ← b.restOf aEntry bit
    if tmp ≠ 0 then finish tmp bit aEntry
    else
      let aEntry ← b.skipLoop (arraySize b.nbits) (aEntry + 1)
      if aEntry ≥ arraySize b.nbits then return -1
      let tmp ← b.word aEntry
      finish tmp 0 aEntry

-- ---------------------------------------------------------------------------
-- What the searches are to find
-- ---------------------------------------------------------------------------

/-- A bit of the bitmap, as `isbitset_cbitmap` has it. -/
def IsSet (b : Cbitmap) (q : Nat) : Prop := b.Has q ∧ q < b.nbits

/-- The number of the least one, or -1. -/
def Finds (bits : Set Nat) (r : Int) : Prop :=
  (∃ q, IsLeast bits q ∧ r = q) ∨ (bits = ∅ ∧ r = -1)

/-- `findfbs_cbitmap`, as the number it returns. -/
def firstBit (b : Cbitmap) : Int := b.findfbsCbitmap.elim (-1) Int.ofNat

/-- Where a search from `bitp` on gets to the right bit: one is set behind it, and the first
place to look at is not the first of a word with bits. -/
def NextSeen (b : Cbitmap) (bitp : BitVec 32) : Prop :=
  (bitp.toInt < -1 → ∀ q, ¬b.IsSet q) ∧
    ∀ p : Nat, (p : Int) = bitp.toInt + 1 → p < b.nbits →
      (∃ q, b.IsSet q ∧ p ≤ q) ∧ (p % 32 = 0 → b.array (p / 32) = 0)

/-- Bits of the last word behind the last bit are there only beside a bit that is set. -/
def FirstSeen (b : Cbitmap) : Prop :=
  (∃ q, b.Has q ∧ q / 32 < arraySize b.nbits) → ∃ q, b.IsSet q

-- ---------------------------------------------------------------------------
-- The lowest bit of a word
-- ---------------------------------------------------------------------------

def Lowest (x : BitVec 32) (i : Nat) : Prop :=
  x.getLsbD i = true ∧ ∀ j < i, x.getLsbD j = false

section
variable {x : BitVec 32} {i k n bit : Nat}

theorem exists_lowest (h : x ≠ 0) : ∃ i < 32, Lowest x i := by
  obtain ⟨i, hi⟩ := BitVec.first_isSome h
  refine ⟨i, i.isLt, BitVec.has_of_first hi, fun j hj => ?_⟩
  have hnot := BitVec.not_has_of_lt_first hi (j := ⟨j, hj.trans i.isLt⟩) hj
  exact Bool.eq_false_iff.mpr hnot

theorem Lowest.shift (h : Lowest x i) (hn : n ≤ i) : Lowest (x >>> n) (i - n) := by
  refine ⟨?_, fun j hj => ?_⟩
  · rw [BitVec.getLsbD_ushiftRight, Nat.add_sub_cancel' hn]
    exact h.1
  · rw [BitVec.getLsbD_ushiftRight]
    exact h.2 _ (by omega)

theorem Lowest.low_clear (h : Lowest x i) (hn : n ≤ 32) :
    x &&& BitVec.ofNat 32 (2 ^ n - 1) = 0 ↔ n ≤ i := by
  have hmask (j : Nat) (hj : j < 32) :
      (BitVec.ofNat 32 (2 ^ n - 1)).getLsbD j = decide (j < n) := by
    rw [BitVec.getLsbD_ofNat, Nat.testBit_two_pow_sub_one, decide_eq_true hj, Bool.true_and]
  constructor
  · intro hz
    by_contra hlt
    have hbit := congrArg (fun y => BitVec.getLsbD y i) hz
    simp [h.1, hmask i (by omega), Nat.lt_of_not_le hlt] at hbit
  · intro hle
    refine BitVec.eq_of_getLsbD_eq fun j hj => ?_
    rw [BitVec.getLsbD_and, hmask j hj]
    by_cases hjn : j < n
    · rw [h.2 j (hjn.trans_le hle), Bool.false_and]
      exact BitVec.getLsbD_zero.symm
    · rw [decide_eq_false hjn, Bool.and_false]
      exact BitVec.getLsbD_zero.symm

theorem Lowest.byteLoop (h : Lowest x i) (bit : Nat) (hk : i < 8 * k) :
    ∃ y j, Cbitmap.byteLoop k x bit = some (y, bit + (i - j)) ∧ j < 8 ∧ j ≤ i ∧ Lowest y j := by
  induction k generalizing x i bit with
  | zero => omega
  | succ k ih =>
    have hclear : x &&& 0xff = 0 ↔ 8 ≤ i := h.low_clear (n := 8) (by decide)
    rw [Cbitmap.byteLoop]
    by_cases hi : 8 ≤ i
    · obtain ⟨y, j, hloop, hj, hji, hy⟩ := ih (h.shift hi) (bit + 8) (by omega)
      rw [if_pos (hclear.mpr hi), hloop]
      exact ⟨y, j, congrArg some (Prod.ext rfl (by dsimp only; omega)), hj, by omega, hy⟩
    · rw [if_neg (mt hclear.mp hi)]
      exact ⟨x, i, by rw [Nat.sub_self]; rfl, by omega, Nat.le_refl i, h⟩

theorem Lowest.bitLoop (h : Lowest x i) (hk : i < k) :
    Cbitmap.bitLoop k x bit = some (bit + i) := by
  induction k generalizing x i bit with
  | zero => omega
  | succ k ih =>
    have hclear : x &&& 1 = 0 ↔ 1 ≤ i := h.low_clear (n := 1) (by decide)
    rw [Cbitmap.bitLoop]
    by_cases hi : 1 ≤ i
    · rw [if_pos (hclear.mpr hi), ih (h.shift hi) (by omega)]
      exact congrArg some (by omega)
    · rw [if_neg (mt hclear.mp hi)]
      exact congrArg some (by omega)

theorem Lowest.finish (h : Lowest x i) (hi : i < 32) :
    Cbitmap.finish x bit n = some ↑(n * 32 + bit + i) := by
  obtain ⟨y, j, hbyte, hj, hji, hy⟩ := h.byteLoop (k := 4) (bit + n * 32) (by omega)
  rw [Cbitmap.finish, hbyte, Option.bind_eq_bind, Option.bind_some]
  dsimp only
  rw [hy.bitLoop hj]
  exact congrArg (fun m : Nat => some (m : Int)) (by omega)

end

-- ---------------------------------------------------------------------------
-- The next bit
-- ---------------------------------------------------------------------------

section
variable {b : Cbitmap} {e k p q : Nat}

theorem word_eq (h : e < arraySize b.nbits) : b.word e = some (b.array e) := if_pos h

theorem word_outside (h : arraySize b.nbits ≤ e) : b.word e = none := if_neg (Nat.not_lt.mpr h)

theorem entry_lt (h : p < b.nbits) : p / 32 < arraySize b.nbits := by
  unfold arraySize
  split <;> omega

theorem IsSet.entry_lt (h : b.IsSet q) : q / 32 < arraySize b.nbits := Cbitmap.entry_lt h.2

theorem lt_nbits (h : e + 1 < arraySize b.nbits) : e * 32 + 32 ≤ b.nbits := by
  unfold arraySize at h
  split at h <;> omega

theorem ne_zero_of_has (h : b.Has q) : b.array (q / 32) ≠ 0 := BitVec.ne_zero_iff.mpr ⟨_, h⟩

theorem has_iff {i : Nat} (hi : i < 32) : b.Has (e * 32 + i) ↔ (b.array e).getLsbD i = true := by
  have hword : (e * 32 + i) / 32 = e := by omega
  have hbit : (e * 32 + i) % 32 = i := by omega
  rw [Has, hword, BitVec.Has]
  simp only [bit, hbit]

/-- The lowest bit of an entry behind the first `k` ones is the least of its bits from there
on. -/
theorem finish_entry (h : b.array e >>> k ≠ 0) (hk : k < 32) :
    ∃ q : Nat, finish (b.array e >>> k) k e = some (q : Int) ∧ b.Has q ∧ q / 32 = e ∧
      e * 32 + k ≤ q ∧ ∀ q', b.Has q' → e * 32 + k ≤ q' → q ≤ q' := by
  obtain ⟨i, hi, hlow⟩ := exists_lowest h
  have hbit := hlow.1
  rw [BitVec.getLsbD_ushiftRight] at hbit
  have hki : k + i < 32 := by
    by_contra hge
    rw [BitVec.getLsbD_of_ge _ _ (Nat.le_of_not_lt hge)] at hbit
    exact Bool.false_ne_true hbit
  refine ⟨e * 32 + (k + i), ?_, (has_iff hki).mpr hbit, by omega, by omega, fun q' hq' hle => ?_⟩
  · rw [hlow.finish hi, Nat.add_assoc]
  · by_contra hlt
    have hbefore := hlow.2 (q' - (e * 32 + k)) (by omega)
    rw [BitVec.getLsbD_ushiftRight] at hbefore
    have hsplit : q' = e * 32 + (k + (q' - (e * 32 + k))) := by omega
    rw [hsplit, has_iff (by omega), hbefore] at hq'
    exact Bool.false_ne_true hq'

theorem shifted_ne_zero (h : b.Has q) (hq : q / 32 = e) (hk : e * 32 + k ≤ q) :
    b.array e >>> k ≠ 0 := by
  intro hz
  have hsplit : q = e * 32 + (k + (q % 32 - k)) := by omega
  have hbit := congrArg (fun y => BitVec.getLsbD y (q % 32 - k)) hz
  rw [hsplit, has_iff (by omega)] at h
  rw [BitVec.getLsbD_ushiftRight, h] at hbit
  exact Bool.false_ne_true (hbit.trans BitVec.getLsbD_zero).symm

theorem skipLoop_stops (hk : arraySize b.nbits < e + k) (hq : b.array q ≠ 0) (he : e ≤ q)
    (hlt : q < arraySize b.nbits) :
    ∃ f, b.skipLoop k e = some f ∧ e ≤ f ∧ f ≤ q ∧ b.array f ≠ 0 ∧
      ∀ g, e ≤ g → g < f → b.array g = 0 := by
  induction k generalizing e with
  | zero => omega
  | succ k ih =>
    rw [skipLoop, word_eq (by omega), Option.bind_eq_bind, Option.bind_some]
    by_cases hz : b.array e = 0
    · have hne : e ≠ q := fun h => hq (h ▸ hz)
      obtain ⟨f, hf, hef, hfq, hfz, hbefore⟩ := ih (e := e + 1) (by omega) (by omega)
      rw [if_pos ⟨hz, by omega⟩]
      refine ⟨f, hf, by omega, hfq, hfz, fun g hg hgf => ?_⟩
      rcases Nat.eq_or_lt_of_le hg with rfl | hlt'
      · exact hz
      · exact hbefore g hlt' hgf
    · rw [if_neg fun h => hz h.1]
      exact ⟨e, rfl, Nat.le_refl e, he, hz, fun g hg hge => absurd hg (Nat.not_le.mpr hge)⟩

theorem skipLoop_outside (hz : ∀ f, e ≤ f → f < arraySize b.nbits → b.array f = 0) :
    b.skipLoop k e = none := by
  induction k generalizing e with
  | zero => rfl
  | succ k ih =>
    rw [skipLoop]
    by_cases he : e < arraySize b.nbits
    · rw [word_eq he, Option.bind_eq_bind, Option.bind_some,
        if_pos ⟨hz e (Nat.le_refl e) he, he⟩]
      exact ih fun f hf => hz f (by omega)
    · rw [word_outside (Nat.le_of_not_lt he)]
      rfl

variable {bitp : BitVec 32} {r : Nat}

theorem restOf_eq (hlt : p < b.nbits) :
    b.restOf (p / 32) (p % 32) =
      some (if p % 32 ≠ 0 then b.array (p / 32) >>> (p % 32) else 0) := by
  rw [restOf, word_eq (entry_lt hlt)]
  split <;> rfl

theorem findnbs_first (hp : (bitp + 1).toNat = p) (hlt : p < b.nbits) (hk : p % 32 ≠ 0)
    (h : b.array (p / 32) >>> (p % 32) ≠ 0) :
    b.findnbsCbitmap bitp = finish (b.array (p / 32) >>> (p % 32)) (p % 32) (p / 32) := by
  simp only [findnbsCbitmap, hp, if_neg (Nat.not_le.mpr hlt), ge_iff_le, restOf_eq hlt, if_pos hk,
    Option.bind_eq_bind, Option.bind_some, if_pos h]

theorem findnbs_skips (hp : (bitp + 1).toNat = p) (hlt : p < b.nbits)
    (h : p % 32 ≠ 0 → b.array (p / 32) >>> (p % 32) = 0) :
    b.findnbsCbitmap bitp = (b.skipLoop (arraySize b.nbits) (p / 32 + 1)).bind fun aEntry =>
      if aEntry ≥ arraySize b.nbits then some (-1)
      else (b.word aEntry).bind fun tmp => finish tmp 0 aEntry := by
  have hrest : (if p % 32 ≠ 0 then b.array (p / 32) >>> (p % 32) else 0) = 0 := by
    split
    · exact h ‹_›
    · rfl
  simp only [findnbsCbitmap, hp, if_neg (Nat.not_le.mpr hlt), ge_iff_le, restOf_eq hlt, hrest,
    Option.bind_eq_bind, Option.bind_some, ne_eq, not_true, if_false]
  rfl

theorem findnbs_later (hp : (bitp + 1).toNat = p) (hlt : p < b.nbits)
    (h : p % 32 ≠ 0 → b.array (p / 32) >>> (p % 32) = 0) (hq : b.Has q) (hpq : p / 32 < q / 32)
    (hin : q / 32 < arraySize b.nbits) :
    ∃ r : Nat, b.findnbsCbitmap bitp = some (r : Int) ∧ b.Has r ∧ p / 32 < r / 32 ∧
      r / 32 < arraySize b.nbits ∧ ∀ q', b.Has q' → p / 32 < q' / 32 → r ≤ q' := by
  obtain ⟨f, hf, hef, hfq, hfz, hbefore⟩ :=
    skipLoop_stops (e := p / 32 + 1) (k := arraySize b.nbits) (by omega) (ne_zero_of_has hq) hpq hin
  obtain ⟨r, hr, hhas, hrf, -, hleast⟩ := finish_entry (e := f) (k := 0) (b := b)
    (by rwa [BitVec.ushiftRight_zero]) (by decide)
  have hfn : f < arraySize b.nbits := hfq.trans_lt hin
  rw [findnbs_skips hp hlt h, hf, Option.bind_some, if_neg (Nat.not_le.mpr hfn), word_eq hfn,
    Option.bind_some]
  refine ⟨r, hr, hhas, by omega, by omega, fun q' hq' hpq' => hleast q' hq' ?_⟩
  -- the entries before that one are empty
  by_contra hlt'
  exact ne_zero_of_has hq' (hbefore _ hpq' (by omega))

theorem findnbs_outside (hp : (bitp + 1).toNat = p) (hlt : p < b.nbits)
    (h : p % 32 ≠ 0 → b.array (p / 32) >>> (p % 32) = 0)
    (hnone : ∀ q, b.Has q → p / 32 < q / 32 → arraySize b.nbits ≤ q / 32) :
    b.findnbsCbitmap bitp = none := by
  rw [findnbs_skips hp hlt h, skipLoop_outside, Option.bind_none]
  intro f hf hfn
  by_contra hz
  obtain ⟨q, -, hq, hqf, -⟩ := finish_entry (e := f) (k := 0) (b := b)
    (by rwa [BitVec.ushiftRight_zero]) (by decide)
  exact absurd (hnone q hq (by omega)) (by omega)

theorem finds_nat {bits : Set Nat} : Finds bits (r : Int) ↔ IsLeast bits r := by
  refine ⟨fun h => ?_, fun h => .inl ⟨r, h, rfl⟩⟩
  rcases h with ⟨q, hq, hrq⟩ | ⟨-, hr⟩
  · rwa [Int.ofNat_inj.mp hrq]
  · exact absurd hr (by omega)

theorem finds_none {bits : Set Nat} : Finds bits (-1) ↔ bits = ∅ := by
  refine ⟨fun h => ?_, fun h => .inr ⟨h, rfl⟩⟩
  rcases h with ⟨q, -, hq⟩ | ⟨h, -⟩
  · exact absurd hq (by omega)
  · exact h

theorem findnbs_inside_iff (hp : (bitp + 1).toNat = p) (hlt : p < b.nbits) :
    (∃ r, b.findnbsCbitmap bitp = some r ∧ Finds { q | b.IsSet q ∧ p ≤ q } r) ↔
      (∃ q, b.IsSet q ∧ p ≤ q) ∧ (p % 32 = 0 → b.array (p / 32) = 0) := by
  have hplace : p / 32 * 32 + p % 32 = p := by omega
  by_cases hfirst : p % 32 ≠ 0 ∧ b.array (p / 32) >>> (p % 32) ≠ 0
  · obtain ⟨r, hr, hhas, -, hpr, hleast⟩ := finish_entry hfirst.2 (Nat.mod_lt _ (by decide))
    rw [hplace] at hpr hleast
    rw [findnbs_first hp hlt hfirst.1 hfirst.2, hr]
    simp only [Option.some.injEq, exists_eq_left', finds_nat]
    constructor
    · intro h
      exact ⟨⟨r, h.1⟩, fun hz => absurd hz hfirst.1⟩
    · rintro ⟨⟨q, hq, hpq⟩, -⟩
      have hrn : r < b.nbits := (hleast q hq.1 hpq).trans_lt hq.2
      exact ⟨⟨⟨hhas, hrn⟩, hpr⟩, fun q' hq' => hleast q' hq'.1.1 hq'.2⟩
  · have hrest (hk : p % 32 ≠ 0) : b.array (p / 32) >>> (p % 32) = 0 :=
      not_not.mp fun h => hfirst ⟨hk, h⟩
    have hlater (hz : p % 32 = 0 → b.array (p / 32) = 0) {q : Nat} (hq : b.Has q) (hpq : p ≤ q) :
        p / 32 < q / 32 := by
      by_contra hge
      have hword : q / 32 = p / 32 := by omega
      by_cases hk : p % 32 = 0
      · exact ne_zero_of_has hq (hword ▸ hz hk)
      · exact shifted_ne_zero hq hword (hplace.trans_le hpq) (hrest hk)
    by_cases hsome : ∃ q, b.Has q ∧ p / 32 < q / 32 ∧ q / 32 < arraySize b.nbits
    · obtain ⟨q, hq, hpq, hin⟩ := hsome
      obtain ⟨r, hr, hhas, hpr, hrn, hleast⟩ := findnbs_later hp hlt hrest hq hpq hin
      rw [hr]
      simp only [Option.some.injEq, exists_eq_left', finds_nat]
      constructor
      · intro h
        refine ⟨⟨r, h.1⟩, fun hk => ?_⟩
        -- the entry that is skipped would have the least bit
        by_contra hz
        obtain ⟨q₀, -, hq₀, hword, hpq₀, -⟩ := finish_entry (e := p / 32) (k := 0) (b := b)
          (by rwa [BitVec.ushiftRight_zero]) (by decide)
        have hroom := lt_nbits (b := b) (e := p / 32) (by omega)
        have hle : r ≤ q₀ := h.2 ⟨⟨hq₀, by omega⟩, by omega⟩
        omega
      · rintro ⟨⟨q, hq, hpq⟩, hz⟩
        have hrn : r < b.nbits := (hleast q hq.1 (hlater hz hq.1 hpq)).trans_lt hq.2
        exact ⟨⟨⟨hhas, hrn⟩, by omega⟩, fun q' hq' => hleast q' hq'.1.1 (hlater hz hq'.1.1 hq'.2)⟩
    · have hnone := findnbs_outside hp hlt hrest fun q hq hpq =>
        Nat.le_of_not_lt fun hin => hsome ⟨q, hq, hpq, hin⟩
      rw [hnone]
      refine iff_of_false (fun h => ?_) fun h => ?_
      · obtain ⟨r, hr, -⟩ := h
        exact absurd hr (by simp)
      · obtain ⟨⟨q, hq, hpq⟩, hz⟩ := h
        exact hsome ⟨q, hq.1, hlater hz hq.1 hpq, hq.entry_lt⟩

/-- Where the bits have numbers that an `int` can hold, the next bit is found exactly when
`NextSeen` says so, and no word outside is read. -/
theorem findnbs_iff (hn : b.nbits ≤ 2 ^ 31) :
    (∃ r, b.findnbsCbitmap bitp = some r ∧ Finds { q | b.IsSet q ∧ bitp.toInt < q } r) ↔
      b.NextSeen bitp := by
  have hnat : (bitp + 1).toNat = (bitp.toNat + 1) % 2 ^ 32 := BitVec.toNat_add ..
  have hint := bitp.toInt_eq_toNat_cond
  have hbound := bitp.isLt
  by_cases hneg : bitp.toInt < -1
  · have hp : b.nbits ≤ (bitp + 1).toNat := by
      split at hint <;> omega
    have hr : b.findnbsCbitmap bitp = some (-1) := if_pos hp
    rw [hr]
    simp only [Option.some.injEq, exists_eq_left', finds_none, Set.eq_empty_iff_forall_notMem,
      Set.mem_ofPred_eq, not_and, NextSeen, hneg, forall_const]
    refine ⟨fun h => ⟨fun q hq => h q hq (by omega), fun p hp => absurd hp (by omega)⟩,
      fun h q hq => absurd hq (h.1 q)⟩
  · obtain ⟨p, hp⟩ : ∃ p : Nat, (p : Int) = bitp.toInt + 1 := ⟨(bitp.toInt + 1).toNat, by omega⟩
    have hpos : (bitp + 1).toNat = p := by
      split at hint <;> omega
    have hset : { q | b.IsSet q ∧ bitp.toInt < q } = { q | b.IsSet q ∧ p ≤ q } := by
      ext q
      simp only [Set.mem_ofPred_eq]
      exact and_congr_right fun _ => by omega
    rw [hset]
    by_cases hlt : p < b.nbits
    · rw [findnbs_inside_iff hpos hlt]
      refine ⟨fun h => ⟨fun hneg' => absurd hneg' hneg, fun p' hp' _ => ?_⟩, fun h => h.2 p hp hlt⟩
      obtain rfl : p = p' := by omega
      exact h
    · have hr : b.findnbsCbitmap bitp = some (-1) := if_pos (hpos ▸ Nat.le_of_not_lt hlt)
      rw [hr]
      simp only [Option.some.injEq, exists_eq_left', finds_none, Set.eq_empty_iff_forall_notMem,
        Set.mem_ofPred_eq, not_and]
      refine iff_of_true (fun q hq hpq => hlt (hpq.trans_lt hq.2))
        ⟨fun hneg' => absurd hneg' hneg, fun p' hp' hlt' => absurd hlt' (by omega)⟩

-- ---------------------------------------------------------------------------
-- The first bit
-- ---------------------------------------------------------------------------

theorem findfbsLoop_least (h : b.findfbsLoop k e = some r) (hq : b.Has q) (he : e ≤ q / 32) :
    r ≤ q := by
  induction k generalizing e with
  | zero => exact absurd h (by simp [findfbsLoop])
  | succ k ih =>
    rw [findfbsLoop] at h
    cases hf : (b.array e).first with
    | none =>
      have hne : e ≠ q / 32 := by
        rintro rfl
        exact BitVec.first_eq_none.mp hf _ hq
      exact ih (by simpa [hf] using h) (by omega)
    | some i =>
      simp only [hf, Option.some.injEq] at h
      by_contra hlt
      have hword : q / 32 = e := by omega
      refine BitVec.not_has_of_lt_first hf (j := bit q) ?_ (hword ▸ hq)
      exact Fin.lt_def.mpr (by simp only [bit]; omega)

theorem findfbsLoop_entry (h : b.findfbsLoop k e = some r) : r / 32 < e + k := by
  induction k generalizing e with
  | zero => exact absurd h (by simp [findfbsLoop])
  | succ k ih =>
    rw [findfbsLoop] at h
    cases hf : (b.array e).first with
    | none =>
      have hr := ih (e := e + 1) (by simpa [hf] using h)
      omega
    | some i =>
      simp only [hf, Option.some.injEq] at h
      omega

theorem findfbs_iff : Finds { q | b.IsSet q } b.firstBit ↔ b.FirstSeen := by
  unfold firstBit
  cases hf : b.findfbsCbitmap with
  | none =>
    refine iff_of_true (.inr ⟨?_, rfl⟩) fun ⟨q, hq, hin⟩ => ?_
    · refine Set.eq_empty_iff_forall_notMem.mpr fun q hq => ?_
      exact findfbsLoop_eq_none hf (Nat.zero_le _) ((Nat.zero_add _).symm ▸ hq.entry_lt) hq.1
    · exact absurd hq (findfbsLoop_eq_none hf (Nat.zero_le _) ((Nat.zero_add _).symm ▸ hin))
  | some r =>
    have hhas := has_of_findfbs hf
    have hleast {q : Nat} (hq : b.Has q) : r ≤ q := findfbsLoop_least hf hq (Nat.zero_le _)
    refine finds_nat.trans ⟨fun h _ => ⟨r, h.1⟩, fun h => ?_⟩
    obtain ⟨q, hq⟩ := h ⟨r, hhas, (findfbsLoop_entry hf).trans_eq (Nat.zero_add _)⟩
    exact ⟨⟨hhas, (hleast hq.1).trans_lt hq.2⟩, fun q' hq' => hleast hq'.1⟩

/-- Both searches find the right bit, and the next one reads no word outside, exactly where
`NextSeen` and `FirstSeen` say so. -/
theorem searches_iff (hn : b.nbits ≤ 2 ^ 31) :
    (∃ r, b.findnbsCbitmap bitp = some r ∧ Finds { q | b.IsSet q ∧ bitp.toInt < q } r) ∧
        Finds { q | b.IsSet q } b.firstBit ↔
      b.NextSeen bitp ∧ b.FirstSeen :=
  and_congr (findnbs_iff hn) findfbs_iff

/-- Two words with a bit each, searched from the first bit on. -/
theorem searches_two_words :
    (∃ r, findnbsCbitmap ⟨fun _ => 1, 64⟩ 0 = some r ∧
        Finds { q | IsSet ⟨fun _ => 1, 64⟩ q ∧ (0 : BitVec 32).toInt < q } r) ∧
      Finds { q | IsSet ⟨fun _ => 1, 64⟩ q } (firstBit ⟨fun _ => 1, 64⟩) := by
  refine (searches_iff (by decide)).mpr ⟨⟨fun h => absurd h (by decide), fun p hp _ => ?_⟩, ?_⟩
  · obtain rfl : p = 1 := Int.ofNat_inj.mp hp
    exact ⟨⟨32, ⟨by decide, by decide⟩, by decide⟩, fun h => absurd h (by decide)⟩
  · exact fun _ => ⟨0, by decide, by decide⟩

/-- The search that starts with a word skips it and reads behind the last one; so does one
that finds nothing; a position before -1 hides every bit, and `set_cbitmap` leaves bits
behind the last one. -/
theorem word_skipped :
    (findnbsCbitmap ⟨fun _ => 1, 96⟩ 31 = some 64 ∧ IsSet ⟨fun _ => 1, 96⟩ 32) ∧
      (findnbsCbitmap ⟨fun _ => 1, 64⟩ 31 = none ∧ IsSet ⟨fun _ => 1, 64⟩ 32) ∧
      findnbsCbitmap ⟨fun _ => 0, 32⟩ 0 = none ∧
      (findnbsCbitmap ⟨fun _ => 1, 32⟩ (-2) = some (-1) ∧ IsSet ⟨fun _ => 1, 32⟩ 0) ∧
      firstBit ⟨fun _ => 0xfffffffe, 1⟩ = 1 ∧
      ¬∀ b : Cbitmap, ∀ bitp : BitVec 32,
        (∃ r, b.findnbsCbitmap bitp = some r ∧ Finds { q | b.IsSet q ∧ bitp.toInt < q } r) ∧
          Finds { q | b.IsSet q } b.firstBit := by
  refine ⟨⟨by decide, by decide, by decide⟩, ⟨by decide, by decide, by decide⟩, by decide,
    ⟨by decide, by decide, by decide⟩, by decide, fun h => ?_⟩
  obtain ⟨r, hr, -⟩ := (h ⟨fun _ => 0, 32⟩ 0).1
  have hnone : findnbsCbitmap ⟨fun _ => 0, 32⟩ 0 = none := by decide
  exact Option.some_ne_none r (hr.symm.trans hnone)

end

end Xmertl.Partikle.Cbitmap
