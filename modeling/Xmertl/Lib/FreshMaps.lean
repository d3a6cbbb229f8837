import Mathlib.Data.Finset.Basic
import Mathlib.Data.Set.Basic

/-!
# Maps that take their values from a free set

A `Space` maps places to values, and has values that are free. `Extends s t N` says that
from `s` to `t` the places `N` got free values of their own, and that nothing else changed.
-/

namespace FreshMaps

universe u v

structure Space (P : Type u) (F : Type v) where
  map : P → Option F
  free : Finset F

def Space.Sound {P : Type u} {F : Type v} (s : Space P F) : Prop :=
  ∀ p f, s.map p = some f → f ∉ s.free

structure Extends {P : Type u} {F : Type v} (s t : Space P F) (N : Set P) : Prop where
  fresh : ∀ p ∈ N, s.map p = none ∧ ∃ f ∈ s.free, t.map p = some f
  old : ∀ p, p ∉ N → t.map p = s.map p
  free : ∀ f, f ∈ t.free ↔ f ∈ s.free ∧ ∀ p, t.map p ≠ some f
  own : ∀ p q f, f ∈ s.free → t.map p = some f → t.map q = some f → q = p

section
variable {P : Type u} {F : Type v} {s t w : Space P F} {N M : Set P} {p : P} {f : F}

theorem Extends.refl (hs : s.Sound) : Extends s s ∅ where
  fresh p hp := absurd hp (Set.notMem_empty p)
  old _ _ := rfl
  free f := ⟨fun hf => ⟨hf, fun p hp => hs p f hp hf⟩, And.left⟩
  own p _ f hf hp := absurd hf (hs p f hp)

theorem Extends.assign [DecidableEq P] [DecidableEq F] (hs : s.Sound) (hp : s.map p = none)
    (hf : f ∈ s.free) (hmap : ∀ q, t.map q = if q = p then some f else s.map q)
    (hfree : t.free = s.free.erase f) : Extends s t {p} where
  fresh q hq := by
    obtain rfl : q = p := hq
    exact ⟨hp, f, hf, by rw [hmap, if_pos rfl]⟩
  old q hq := by
    have hne : q ≠ p := hq
    rw [hmap, if_neg hne]
  free g := by
    rw [hfree, Finset.mem_erase]
    constructor
    · rintro ⟨hne, hg⟩
      refine ⟨hg, fun q hq => ?_⟩
      rw [hmap] at hq
      split at hq
      · exact hne (Option.some.inj hq).symm
      · exact hs q g hq hg
    · rintro ⟨hg, hnot⟩
      refine ⟨?_, hg⟩
      rintro rfl
      exact hnot p (by rw [hmap, if_pos rfl])
  own q q' g hg hq hq' := by
    have hat (r : P) (hr : t.map r = some g) : r = p := by
      rw [hmap] at hr
      by_contra hne
      rw [if_neg hne] at hr
      exact hs r g hr hg
    rw [hat q hq, hat q' hq']

theorem Extends.keeps (h : Extends s t N) (hp : s.map p = some f) : t.map p = some f := by
  have hnot : p ∉ N := by
    intro hp'
    have hnone := (h.fresh p hp').1
    rw [hp] at hnone
    cases hnone
  rw [h.old p hnot, hp]

theorem Extends.sound (h : Extends s t N) : t.Sound :=
  fun p f hp hf => ((h.free f).mp hf).2 p hp

theorem Extends.free_subset (h : Extends s t N) (hf : f ∈ t.free) : f ∈ s.free :=
  ((h.free f).mp hf).1

theorem Extends.map_back (h : Extends s t N) (hf : f ∉ s.free) (hp : t.map p = some f) :
    s.map p = some f := by
  have hnot : p ∉ N := by
    intro hp'
    obtain ⟨-, g, hg, hmap⟩ := h.fresh p hp'
    rw [hp] at hmap
    exact hf (Option.some.inj hmap ▸ hg)
  rw [← h.old p hnot, hp]

theorem Extends.trans (h : Extends s t N) (h' : Extends t w M) : Extends s w (N ∪ M) where
  fresh p hp := by
    by_cases hN : p ∈ N
    · obtain ⟨hnone, f, hf, hmap⟩ := h.fresh p hN
      exact ⟨hnone, f, hf, h'.keeps hmap⟩
    · obtain ⟨hnone, f, hf, hmap⟩ := h'.fresh p (hp.resolve_left hN)
      exact ⟨by rw [← h.old p hN, hnone], f, h.free_subset hf, hmap⟩
  old p hp := by
    rw [h'.old p fun hM => hp (.inr hM), h.old p fun hN => hp (.inl hN)]
  free f := by
    rw [h'.free, h.free]
    constructor
    · rintro ⟨⟨hf, -⟩, hnot⟩
      exact ⟨hf, hnot⟩
    · rintro ⟨hf, hnot⟩
      exact ⟨⟨hf, fun p hp => hnot p (h'.keeps hp)⟩, hnot⟩
  own p q f hf hp hq := by
    by_cases hft : f ∈ t.free
    · exact h'.own p q f hft hp hq
    · exact h.own p q f hf (h'.map_back hft hp) (h'.map_back hft hq)

end

end FreshMaps
