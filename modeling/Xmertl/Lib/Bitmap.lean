import Mathlib.Data.Fintype.Card

/-!
# Bit vectors as finite sets

`x.Has i` says that bit `i` is set. Each operation comes with the rule that says
which bits its result has; `first` finds the least one.
-/

namespace BitVec

variable {w : Nat}

def Has (x : BitVec w) (i : Fin w) : Prop := x.getLsbD i = true

instance (x : BitVec w) (i : Fin w) : Decidable (x.Has i) := inferInstanceAs (Decidable (_ = true))

def setBit (x : BitVec w) (i : Fin w) : BitVec w := x ||| twoPow w i

def clearBit (x : BitVec w) (i : Fin w) : BitVec w := x &&& ~~~twoPow w i

def first (x : BitVec w) : Option (Fin w) := (List.finRange w).find? fun i => x.getLsbD i

def population (x : BitVec w) : Nat := (Finset.univ.filter x.Has).card

section
variable {x y : BitVec w} {i j : Fin w}

@[simp] theorem has_zero : ¬(0#w).Has i := by simp [Has]

@[simp] theorem has_or : (x ||| y).Has i ↔ x.Has i ∨ y.Has i := by simp [Has]

@[simp] theorem has_and : (x &&& y).Has i ↔ x.Has i ∧ y.Has i := by simp [Has]

@[simp] theorem has_not : (~~~x).Has i ↔ ¬x.Has i := by simp [Has]

@[simp] theorem has_twoPow : (twoPow w j).Has i ↔ i = j := by
  simp [Has, Fin.ext_iff, eq_comm]

@[simp] theorem has_setBit : (x.setBit j).Has i ↔ x.Has i ∨ i = j := by simp [setBit]

@[simp] theorem has_clearBit : (x.clearBit j).Has i ↔ x.Has i ∧ i ≠ j := by simp [clearBit]

theorem eq_of_has (h : ∀ i, x.Has i ↔ y.Has i) : x = y := by
  refine eq_of_getLsbD_eq fun i hi => ?_
  exact Bool.eq_iff_iff.mpr (h ⟨i, hi⟩)

theorem ne_zero_iff : x ≠ 0#w ↔ ∃ i, x.Has i := by
  constructor
  · intro h
    by_contra hnone
    exact h (eq_of_has fun i => ⟨fun hi => absurd ⟨i, hi⟩ hnone, fun hi => absurd hi has_zero⟩)
  · rintro ⟨i, hi⟩ rfl
    exact has_zero hi

theorem eq_zero_iff : x = 0#w ↔ ∀ i, ¬x.Has i := by
  rw [← not_iff_not, ← ne_eq, ne_zero_iff, not_forall_not]

theorem has_of_first (h : x.first = some i) : x.Has i :=
  List.find?_some (p := fun i : Fin w => x.getLsbD i) h

theorem first_eq_none : x.first = none ↔ ∀ i, ¬x.Has i := by
  simp [first, Has]

theorem not_has_of_lt_first (h : x.first = some i) (hj : j < i) : ¬x.Has j := by
  obtain ⟨-, n, hn, hi, hbefore⟩ := List.find?_eq_some_iff_getElem.mp h
  have hin : i.val = n := by rw [← hi]; simp
  have hnot := hbefore j.val (by omega)
  simpa [Has] using hnot

theorem first_isSome (h : x ≠ 0#w) : ∃ i, x.first = some i := by
  obtain ⟨i, hi⟩ := ne_zero_iff.mp h
  cases hf : x.first with
  | none => exact absurd hi (first_eq_none.mp hf i)
  | some j => exact ⟨j, rfl⟩

theorem population_clearBit (h : x.Has i) : (x.clearBit i).population < x.population := by
  refine Finset.card_lt_card ⟨fun j hj => ?_, fun hsub => ?_⟩
  · simp only [Finset.mem_filter, Finset.mem_univ, has_clearBit, true_and] at hj ⊢
    exact hj.1
  · have hmem := hsub (Finset.mem_filter.mpr ⟨Finset.mem_univ i, h⟩)
    simp at hmem

end

end BitVec
