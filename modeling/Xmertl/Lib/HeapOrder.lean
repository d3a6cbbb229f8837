import Mathlib.Data.Set.Card
import Mathlib.Logic.Equiv.Set
import Mathlib.Order.Interval.Finset.Nat

/-!
# Binary heaps from index 1

Places `1` to `n` of an array are in use, and `i / 2` is the father of `i`. What
the array `a` holds is kept apart from the order of the keys `g` at its places.
In a `Sinking` heap the key at `top` may be too great for its place, in a
`Rising` one the key at `top` may be too small. One exchange moves the place on.
-/

namespace HeapOrder

variable {κ : Type} [LinearOrder κ] {g : Nat → κ} {n top c : Nat}

def Ordered (g : Nat → κ) (n : Nat) : Prop := ∀ i, 2 ≤ i → i ≤ n → g (i / 2) ≤ g i

structure Sinking (g : Nat → κ) (n top : Nat) : Prop where
  rest : ∀ i, 2 ≤ i → i ≤ n → i / 2 ≠ top → g (i / 2) ≤ g i
  above : ∀ i, 2 ≤ i → i ≤ n → i / 2 = top → 2 ≤ top → g (top / 2) ≤ g i

structure Rising (g : Nat → κ) (n top : Nat) : Prop where
  rest : ∀ i, 2 ≤ i → i ≤ n → i ≠ top → g (i / 2) ≤ g i
  above : ∀ i, 2 ≤ i → i ≤ n → i / 2 = top → 2 ≤ top → g (top / 2) ≤ g i

theorem Ordered.root (h : Ordered g n) (i : Nat) (hi : 1 ≤ i) (hn : i ≤ n) : g 1 ≤ g i := by
  induction i using Nat.strongRecOn with
  | ind i ih =>
    rcases Nat.eq_or_lt_of_le hi with rfl | hlt
    · exact le_refl _
    · have hfather : g 1 ≤ g (i / 2) := ih (i / 2) (by omega) (by omega) (by omega)
      exact hfather.trans (h i hlt hn)

theorem Sinking.done (h : Sinking g n top)
    (hc : ∀ i, 2 ≤ i → i ≤ n → i / 2 = top → g top ≤ g i) : Ordered g n := by
  intro i hi hn
  by_cases ht : i / 2 = top
  · rw [ht]
    exact hc i hi hn ht
  · exact h.rest i hi hn ht

theorem Rising.done (h : Rising g n top) (ht : 2 ≤ top → g (top / 2) ≤ g top) : Ordered g n := by
  intro i hi hn
  by_cases he : i = top
  · subst he
    exact ht hi
  · exact h.rest i hi hn he

omit [LinearOrder κ] in
theorem comp_swap_left (g : Nat → κ) (i j : Nat) : (g ∘ Equiv.swap i j) i = g j := by simp

omit [LinearOrder κ] in
theorem comp_swap_right (g : Nat → κ) (i j : Nat) : (g ∘ Equiv.swap i j) j = g i := by simp

omit [LinearOrder κ] in
theorem comp_swap_other (g : Nat → κ) {i j k : Nat} (hi : k ≠ i) (hj : k ≠ j) :
    (g ∘ Equiv.swap i j) k = g k := by
  simp [Equiv.swap_apply_of_ne_of_ne hi hj]

theorem Sinking.swap (h : Sinking g n top) (hc : 2 ≤ c) (hn : c ≤ n) (ht : c / 2 = top)
    (hmin : ∀ i, 2 ≤ i → i ≤ n → i / 2 = top → g c ≤ g i) (hle : g c ≤ g top) :
    Sinking (g ∘ Equiv.swap top c) n c := by
  have hne : top ≠ c := by omega
  refine ⟨fun i hi hin hic => ?_, fun i hi hin hic _ => ?_⟩
  · by_cases hitop : i = top
    · subst hitop
      have hfather : i / 2 ≠ i := by omega
      rw [comp_swap_left, comp_swap_other g hfather (by omega)]
      exact h.above c hc hn ht hi
    · by_cases hfather : i / 2 = top
      · rw [hfather, comp_swap_left]
        by_cases hi' : i = c
        · subst hi'
          rw [comp_swap_right]
          exact hle
        · rw [comp_swap_other g hitop hi']
          exact hmin i hi hin hfather
      · have hi' : i ≠ c := by
          rintro rfl
          exact hfather ht
        rw [comp_swap_other g hfather hic, comp_swap_other g hitop hi']
        exact h.rest i hi hin hfather
  · have hitop : i ≠ top := by omega
    have hi' : i ≠ c := by omega
    rw [ht, comp_swap_left, comp_swap_other g hitop hi', ← hic]
    exact h.rest i hi hin (by omega)

theorem Rising.swap (h : Rising g n top) (ht : 2 ≤ top) (hn : top ≤ n) (hle : g top ≤ g (top / 2)) :
    Rising (g ∘ Equiv.swap top (top / 2)) n (top / 2) := by
  have hne : top ≠ top / 2 := by omega
  refine ⟨fun i hi hin hif => ?_, fun i hi hin hif h2 => ?_⟩
  · by_cases hitop : i = top
    · subst hitop
      rw [comp_swap_left, comp_swap_right]
      exact hle
    · rw [comp_swap_other g hitop hif]
      by_cases hfather : i / 2 = top
      · rw [hfather, comp_swap_left]
        exact h.above i hi hin hfather ht
      · by_cases hsib : i / 2 = top / 2
        · rw [hsib, comp_swap_right]
          exact hle.trans (hsib ▸ h.rest i hi hin hitop)
        · rw [comp_swap_other g hfather hsib]
          exact h.rest i hi hin hitop
  · have hgrand : g (top / 2 / 2) ≤ g (top / 2) := h.rest (top / 2) h2 (by omega) (by omega)
    rw [comp_swap_other g (by omega : top / 2 / 2 ≠ top) (by omega)]
    by_cases hitop : i = top
    · subst hitop
      rw [comp_swap_left]
      exact hgrand
    · rw [comp_swap_other g hitop (by omega)]
      exact hgrand.trans (hif ▸ h.rest i hi hin hitop)

theorem Ordered.removeAt (h : Ordered g n) (hfit : 2 ≤ top → top < n → g (top / 2) ≤ g n) :
    Sinking (Function.update g top (g n)) (n - 1) top := by
  refine ⟨fun i hi hin hif => ?_, fun i hi hin hif h2 => ?_⟩
  · rw [Function.update_of_ne hif]
    by_cases hitop : i = top
    · subst hitop
      rw [Function.update_self]
      exact hfit hi (by omega)
    · rw [Function.update_of_ne hitop]
      exact h i hi (by omega)
  · have hitop : i ≠ top := by omega
    rw [Function.update_of_ne hitop, Function.update_of_ne (by omega : top / 2 ≠ top)]
    have hchild : g top ≤ g i := hif ▸ h i hi (by omega)
    exact (h top h2 (by omega)).trans hchild

theorem Ordered.push (h : Ordered g n) (k : κ) :
    Rising (Function.update g (n + 1) k) (n + 1) (n + 1) := by
  refine ⟨fun i hi hin hif => ?_, fun i hi hin hif _ => ?_⟩
  · rw [Function.update_of_ne hif, Function.update_of_ne (by omega : i / 2 ≠ n + 1)]
    exact h i hi (by omega)
  · omega

theorem Ordered.sinking (h : Ordered g n) (ht : n < 2 * top) : Sinking g n top :=
  ⟨fun i hi hin _ => h i hi hin, fun i _ _ _ _ => by omega⟩

-- ---------------------------------------------------------------------------
-- What a heap holds
-- ---------------------------------------------------------------------------

section
variable {α : Type} {a : Nat → α} {s : Set α} {i j : Nat}

/-- The places in use hold the elements of `s`, each once. -/
def Holds (a : Nat → α) (n : Nat) (s : Set α) : Prop := Set.BijOn a (Set.Icc 1 n) s

theorem Holds.mem (h : Holds a n s) (hi : 1 ≤ i) (hn : i ≤ n) : a i ∈ s := h.mapsTo ⟨hi, hn⟩

theorem Holds.place (h : Holds a n s) (hx : x ∈ s) : ∃ i, 1 ≤ i ∧ i ≤ n ∧ a i = x := by
  obtain ⟨i, ⟨hi, hn⟩, hx⟩ := h.surjOn hx
  exact ⟨i, hi, hn, hx⟩

theorem Holds.swap (h : Holds a n s) (hi : i ∈ Set.Icc 1 n) (hj : j ∈ Set.Icc 1 n) :
    Holds (a ∘ Equiv.swap i j) n s :=
  Set.BijOn.comp h (Equiv.swap_bijOn_self (iff_of_true hi hj))

theorem Holds.card (h : Holds a n s) : n = s.ncard := by
  have hcard := Set.BijOn.ncard_eq h
  rwa [← Finset.coe_Icc, Set.ncard_coe_finset, Nat.card_Icc, Nat.add_sub_cancel] at hcard

theorem Holds.empty (a : Nat → α) : Holds a 0 ∅ := by
  have hnone : Set.Icc 1 0 = (∅ : Set Nat) := Set.Icc_eq_empty (by omega)
  rw [Holds, hnone]
  exact Set.bijOn_empty a

theorem Holds.push (h : Holds a n s) (hx : x ∉ s) :
    Holds (Function.update a (n + 1) x) (n + 1) (insert x s) := by
  have hset : Set.Icc 1 (n + 1) = insert (n + 1) (Set.Icc 1 n) := by
    ext i
    simp only [Set.mem_Icc, Set.mem_insert_iff]
    omega
  have hold : Set.BijOn (Function.update a (n + 1) x) (Set.Icc 1 n) s := by
    refine Set.BijOn.congr h fun i hi => ?_
    rw [Function.update_of_ne (by have := hi.2; omega : i ≠ n + 1)]
  have hnew := hold.insert (a := n + 1) (by simpa using hx)
  simpa [Holds, hset] using hnew

theorem Holds.removeAt (h : Holds a n s) (hi : 1 ≤ i) (hn : i ≤ n) :
    Holds (Function.update a i (a n)) (n - 1) (s \ {a i}) := by
  have hset : Set.Icc 1 (n - 1) = Set.Icc 1 n \ {n} := by
    ext j
    simp only [Set.mem_Icc, Set.mem_sdiff, Set.mem_singleton_iff]
    omega
  have hmoved := Set.BijOn.sdiff_singleton (h.swap ⟨hi, hn⟩ ⟨hi.trans hn, le_refl n⟩)
    (a := n) ⟨hi.trans hn, le_refl n⟩
  rw [Function.comp_apply, Equiv.swap_apply_right, ← hset] at hmoved
  refine Set.BijOn.congr hmoved fun j hj => ?_
  by_cases hji : j = i
  · subst hji
    simp
  · have hjn : j ≠ n := by
      have := hj.1
      have := hj.2
      omega
    simp [Function.update_of_ne hji, Equiv.swap_apply_of_ne_of_ne hji hjn]

end

end HeapOrder
