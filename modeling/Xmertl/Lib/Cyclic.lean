import Mathlib.Data.Int.ModEq

/-!
# Cyclic intervals

The positions from `lo` up to `hi` fill the places `Within n lo hi` of a ring of `n`
places. A position is added at `hi` and taken at `lo`.
-/

namespace Cyclic

/-- Place `i` of a ring of `n` is that of one of the positions from `lo` up to `hi`. -/
def Within (n lo hi i : Nat) : Prop := ∃ k, lo ≤ k ∧ k < hi ∧ k % n = i

section
variable {n lo hi i j k : Nat}

theorem eq_of_place (h : j % n = k % n) (hjk : j < k + n) (hkj : k < j + n) : j = k :=
  Nat.ModEq.eq_of_abs_lt h (by rw [abs_lt]; omega)

theorem not_within_self (n lo i : Nat) : ¬Within n lo lo i := by
  rintro ⟨k, hlo, hhi, -⟩
  omega

theorem Within.lt (h : Within n lo hi i) (hn : 0 < n) : i < n := by
  obtain ⟨k, -, -, rfl⟩ := h
  exact Nat.mod_lt k hn

theorem within_add (h : lo ≤ hi) : Within n lo (hi + 1) i ↔ Within n lo hi i ∨ i = hi % n := by
  constructor
  · rintro ⟨k, hlo, hhi, rfl⟩
    rcases Nat.lt_succ_iff_lt_or_eq.mp hhi with hk | rfl
    · exact .inl ⟨k, hlo, hk, rfl⟩
    · exact .inr rfl
  · rintro (⟨k, hlo, hhi, rfl⟩ | rfl)
    · exact ⟨k, hlo, by omega, rfl⟩
    · exact ⟨hi, h, by omega, rfl⟩

theorem within_take (hn : hi ≤ lo + n) :
    Within n (lo + 1) hi i ↔ Within n lo hi i ∧ i ≠ lo % n := by
  constructor
  · rintro ⟨k, hlo, hhi, rfl⟩
    refine ⟨⟨k, by omega, hhi, rfl⟩, fun heq => ?_⟩
    have hk := eq_of_place heq (by omega) (by omega)
    omega
  · rintro ⟨⟨k, hlo, hhi, rfl⟩, hne⟩
    have hk : k ≠ lo := fun heq => hne (by rw [heq])
    exact ⟨k, by omega, hhi, rfl⟩

theorem not_within_top (h : hi < lo + n) : ¬Within n lo hi (hi % n) := by
  rintro ⟨k, hlo, hhi, heq⟩
  have hk := eq_of_place heq (by omega) (by omega)
  omega

theorem within_next (hn : 1 < n) (hroom : hi < lo + n) :
    Within n lo hi ((hi + 1) % n) ↔ hi + 1 = lo + n := by
  constructor
  · rintro ⟨k, hlo, hhi, heq⟩
    by_contra hne
    have hk := eq_of_place heq (by omega) (by omega)
    omega
  · intro heq
    exact ⟨lo, Nat.le_refl lo, by omega, by rw [heq, Nat.add_mod_right]⟩

end

end Cyclic
