import Mathlib.Algebra.Order.Group.Nat
import Mathlib.Data.Nat.Log
import Mathlib.Tactic.Ring

/-!
# Two-level size classes

The sizes between two powers of two are cut into `2 ^ k` classes of the same width. A
size's class is its power of two (`log2`) and its place between that and the next one
(`second`). `least` is the smallest size of a class. A request is rounded up to the least
size of a class, so that whatever stands in that class or in a later one is large enough.
-/

namespace SizeClasses

variable {k r m f s : Nat}

/-- The width of the classes that `r` stands among. -/
def width (k r : Nat) : Nat := 2 ^ (r.log2 - k)

def second (k r : Nat) : Nat := r / width k r - 2 ^ k

def least (k f s : Nat) : Nat := (2 ^ k + s) * 2 ^ (f - k)

def roundUp (k r : Nat) : Nat := (r + (width k r - 1)) / width k r * width k r

theorem width_pos : 0 < width k r := Nat.two_pow_pos _

theorem log2_bounds (h : 2 ^ k ≤ r) : 2 ^ r.log2 ≤ r ∧ r < 2 ^ (r.log2 + 1) :=
  (Nat.log2_eq_iff (Nat.ne_of_gt (Nat.lt_of_lt_of_le (Nat.two_pow_pos k) h))).mp rfl

theorem le_log2 (h : 2 ^ k ≤ r) : k ≤ r.log2 :=
  (Nat.le_log2 (Nat.ne_of_gt (Nat.lt_of_lt_of_le (Nat.two_pow_pos k) h))).mpr h

theorem two_pow_eq (h : k ≤ f) : 2 ^ f = 2 ^ k * 2 ^ (f - k) := by
  rw [← Nat.pow_add, Nat.add_sub_cancel' h]

theorem div_width (h : 2 ^ k ≤ r) : 2 ^ k ≤ r / width k r ∧ r / width k r < 2 ^ (k + 1) := by
  obtain ⟨hle, hlt⟩ := log2_bounds h
  have hpow := two_pow_eq (le_log2 h)
  constructor
  · rw [Nat.le_div_iff_mul_le width_pos, width, ← hpow]
    exact hle
  · rw [Nat.div_lt_iff_lt_mul width_pos, width]
    calc r < 2 ^ (r.log2 + 1) := hlt
      _ = 2 ^ (k + 1) * 2 ^ (r.log2 - k) := by rw [Nat.pow_succ, hpow, Nat.pow_succ]; ring

theorem second_lt (h : 2 ^ k ≤ r) : second k r < 2 ^ k := by
  have hd := div_width h
  rw [Nat.pow_succ] at hd
  rw [second]
  omega

theorem least_le (h : 2 ^ k ≤ r) : least k r.log2 (second k r) ≤ r := by
  have hd := (div_width h).1
  rw [least, second, Nat.add_sub_cancel' hd]
  exact Nat.div_mul_le_self r _

theorem least_le_of_later (h : 2 ^ k ≤ m) (hf : k ≤ f) (hs : s < 2 ^ k)
    (hlater : f < m.log2 ∨ f = m.log2 ∧ s ≤ second k m) : least k f s ≤ m := by
  rcases hlater with hlt | ⟨rfl, hle⟩
  · calc least k f s ≤ 2 ^ (k + 1) * 2 ^ (f - k) :=
          Nat.mul_le_mul_right _ (by rw [Nat.pow_succ]; omega)
      _ = 2 ^ (f + 1) := by rw [Nat.pow_succ, Nat.pow_succ, two_pow_eq hf]; ring
      _ ≤ 2 ^ m.log2 := Nat.pow_le_pow_right (by omega) hlt
      _ ≤ m := (log2_bounds h).1
  · exact (Nat.mul_le_mul_right _ (Nat.add_le_add_left hle _)).trans (least_le h)

/-- The least size of a class is at most `m` just where the class of `m` is not earlier. -/
theorem least_le_iff (h : 2 ^ k ≤ m) (hf : k ≤ f) (hs : s < 2 ^ k) :
    least k f s ≤ m ↔ f < m.log2 ∨ f = m.log2 ∧ s ≤ second k m := by
  refine ⟨fun hle => ?_, least_le_of_later h hf hs⟩
  have hpow : 2 ^ f ≤ least k f s := by
    rw [two_pow_eq hf]
    exact Nat.mul_le_mul_right _ (Nat.le_add_right _ _)
  have hm : m ≠ 0 := Nat.ne_of_gt (Nat.lt_of_lt_of_le (Nat.two_pow_pos k) h)
  rcases Nat.lt_or_eq_of_le ((Nat.le_log2 hm).mpr (hpow.trans hle)) with hlt | rfl
  · exact .inl hlt
  · refine .inr ⟨rfl, ?_⟩
    have hdiv : 2 ^ k + s ≤ m / width k m := (Nat.le_div_iff_mul_le width_pos).mpr hle
    rw [second]
    omega

theorem add_lt_of_dvd {n a b c : Nat} (ha : n ∣ a) (hb : n ∣ b) (hab : a < b) (hc : c < n) :
    a + c < b := by
  have hle := Nat.le_of_dvd (Nat.sub_pos_of_lt hab) (Nat.dvd_sub hb ha)
  omega

theorem class_add {e a : Nat} (h : 2 ^ k ≤ r) (hd : 2 ^ e ∣ r) (he : e ≤ r.log2 - k)
    (ha : a < 2 ^ e) : (r + a).log2 = r.log2 ∧ second k (r + a) = second k r := by
  obtain ⟨hle, hlt⟩ := log2_bounds h
  have hk1 : 0 < 2 ^ k := Nat.two_pow_pos k
  have hpow : 2 ^ e ∣ 2 ^ (r.log2 + 1) := Nat.pow_dvd_pow 2 (by omega)
  have hlog : (r + a).log2 = r.log2 :=
    (Nat.log2_eq_iff (by omega)).mpr ⟨by omega, add_lt_of_dvd hd hpow hlt ha⟩
  refine ⟨hlog, ?_⟩
  have hwidth : width k (r + a) = width k r := by rw [width, hlog, width]
  have hw : 2 ^ e ∣ width k r := Nat.pow_dvd_pow 2 he
  have hmod : r % width k r + a < width k r :=
    add_lt_of_dvd ((Nat.dvd_mod_iff hw).mpr hd) hw (Nat.mod_lt _ width_pos) ha
  have hdiv : (r + a) / width k r = r / width k r := by
    have hr := Nat.div_add_mod r (width k r)
    have hsum : r + a = width k r * (r / width k r) + (r % width k r + a) := by omega
    rw [hsum, Nat.mul_add_div width_pos, Nat.div_eq_of_lt hmod, Nat.add_zero]
  rw [second, hwidth, hdiv, second]

theorem le_roundUp : r ≤ roundUp k r := by
  have hw : 0 < width k r := width_pos
  have hdiv := Nat.div_add_mod (r + (width k r - 1)) (width k r)
  have hmod := Nat.mod_lt (r + (width k r - 1)) hw
  rw [roundUp, Nat.mul_comm]
  omega

theorem roundUp_le : roundUp k r ≤ r + (width k r - 1) := Nat.div_mul_le_self _ _

theorem roundUp_of_dvd (h : width k r ∣ r) : roundUp k r = r := by
  have hw : 0 < width k r := width_pos
  obtain ⟨c, hc⟩ := h
  have hdiv : (r + (width k r - 1)) / width k r = c := by
    calc (r + (width k r - 1)) / width k r = (width k r * c + (width k r - 1)) / width k r := by
          rw [← hc]
      _ = c := by
        rw [Nat.mul_add_div hw, Nat.div_eq_of_lt (Nat.sub_lt hw Nat.one_pos), Nat.add_zero]
  rw [roundUp, hdiv, Nat.mul_comm, ← hc]

theorem dvd_roundUp {e : Nat} (h : 2 ^ e ∣ r) : 2 ^ e ∣ roundUp k r := by
  rcases Nat.le_total e (r.log2 - k) with he | he
  · exact (Nat.pow_dvd_pow 2 he).mul_left _
  · -- the classes are no wider than what divides `r`
    have hw : width k r ∣ r := (Nat.pow_dvd_pow 2 he).trans h
    rw [roundUp_of_dvd hw]
    exact h

theorem roundUp_eq (h : 2 ^ k ≤ r) :
    roundUp k r = least k (r + (width k r - 1)).log2 (second k (r + (width k r - 1))) := by
  obtain ⟨hle, hlt⟩ := log2_bounds h
  have hk := le_log2 h
  have hw : 0 < width k r := width_pos
  have hpow : 2 ^ r.log2 = 2 ^ k * width k r := two_pow_eq hk
  have hk1 : 1 ≤ 2 ^ k := Nat.two_pow_pos k
  have hwle : width k r ≤ 2 ^ r.log2 := hpow ▸ Nat.le_mul_of_pos_left _ (Nat.two_pow_pos k)
  have hmr : r ≤ r + (width k r - 1) := Nat.le_add_right _ _
  have hm : 2 ^ k ≤ r + (width k r - 1) := h.trans hmr
  rw [Nat.pow_succ] at hlt
  have hne : r + (width k r - 1) ≠ 0 := by omega
  rw [roundUp]
  rcases Nat.lt_or_ge (r + (width k r - 1)) (2 ^ (r.log2 + 1)) with hsame | hnext
  · -- it is not past the next power of two
    have hlog : (r + (width k r - 1)).log2 = r.log2 :=
      (Nat.log2_eq_iff hne).mpr ⟨by omega, hsame⟩
    have hwidth : width k (r + (width k r - 1)) = width k r := by rw [width, hlog, width]
    have hd := (div_width hm).1
    rw [least, second, Nat.add_sub_cancel' hd, hwidth, hlog]
    rfl
  · have hlog : (r + (width k r - 1)).log2 = r.log2 + 1 :=
      (Nat.log2_eq_iff hne).mpr ⟨hnext, by rw [Nat.pow_succ, Nat.pow_succ]; omega⟩
    have hwidth : width k (r + (width k r - 1)) = width k r * 2 := by
      rw [width, hlog, Nat.succ_sub hk, Nat.pow_succ, width]
    rw [Nat.pow_succ] at hnext
    have hdiv : (r + (width k r - 1)) / width k r = 2 ^ k * 2 := by
      refine Nat.div_eq_of_lt_le ?_ ?_
      · calc 2 ^ k * 2 * width k r = 2 ^ r.log2 * 2 := by rw [hpow]; ring
          _ ≤ r + (width k r - 1) := hnext
      · calc r + (width k r - 1) < 2 ^ r.log2 * 2 + width k r := by omega
          _ = (2 ^ k * 2 + 1) * width k r := by rw [hpow]; ring
    have hsecond : second k (r + (width k r - 1)) = 0 := by
      rw [second, hwidth, ← Nat.div_div_eq_div_mul, hdiv, Nat.mul_div_cancel _ Nat.two_pos,
        Nat.sub_self]
    rw [hsecond, hlog, least, hdiv, Nat.succ_sub hk, Nat.pow_succ, Nat.add_zero, width]
    ring

end SizeClasses
