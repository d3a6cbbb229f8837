import Mathlib.Data.List.Basic
import Mathlib.Logic.Function.Basic

/-!
# Places that own what an allocator has given

Every thing in `pool` stands in exactly one place, and a place holds nothing else.
-/

namespace Ownership

structure Owns (holds : S → Option F) (pool : List F) : Prop where
  nodup : pool.Nodup
  given : ∀ s f, holds s = some f → f ∈ pool
  held : ∀ f ∈ pool, ∃ s, holds s = some f
  one : ∀ s t f, holds s = some f → holds t = some f → s = t

section
variable {holds : S → Option F} {pool : List F} {s : S} {f : F}

theorem Owns.take [DecidableEq S] (h : Owns holds pool) (hs : holds s = none) (hf : f ∉ pool) :
    Owns (Function.update holds s (some f)) (f :: pool) where
  nodup := List.nodup_cons.mpr ⟨hf, h.nodup⟩
  given t g hg := by
    by_cases ht : t = s
    · rw [ht, Function.update_self] at hg
      rw [← Option.some.inj hg]
      exact List.mem_cons_self
    · rw [Function.update_of_ne ht] at hg
      exact List.mem_cons_of_mem _ (h.given t g hg)
  held g hg := by
    rcases List.mem_cons.mp hg with rfl | hg
    · exact ⟨s, Function.update_self ..⟩
    · obtain ⟨t, ht⟩ := h.held g hg
      have hts : t ≠ s := by
        rintro rfl
        rw [hs] at ht
        exact absurd ht (by simp)
      exact ⟨t, by rw [Function.update_of_ne hts, ht]⟩
  one t u g ht hu := by
    by_cases hts : t = s
    · by_cases hus : u = s
      · rw [hts, hus]
      · rw [hts, Function.update_self] at ht
        rw [Function.update_of_ne hus, ← Option.some.inj ht] at hu
        exact absurd (h.given u f hu) hf
    · rw [Function.update_of_ne hts] at ht
      by_cases hus : u = s
      · rw [hus, Function.update_self] at hu
        rw [← Option.some.inj hu] at ht
        exact absurd (h.given t f ht) hf
      · rw [Function.update_of_ne hus] at hu
        exact h.one t u g ht hu

theorem Owns.give [DecidableEq S] [DecidableEq F] (h : Owns holds pool) (hs : holds s = some f) :
    Owns (Function.update holds s none) (pool.erase f) where
  nodup := h.nodup.erase f
  given t g hg := by
    by_cases ht : t = s
    · rw [ht, Function.update_self] at hg
      exact absurd hg (by simp)
    · rw [Function.update_of_ne ht] at hg
      refine h.nodup.mem_erase_iff.mpr ⟨?_, h.given t g hg⟩
      rintro rfl
      exact ht (h.one t s g hg hs)
  held g hg := by
    obtain ⟨hne, hg⟩ := h.nodup.mem_erase_iff.mp hg
    obtain ⟨t, ht⟩ := h.held g hg
    have hts : t ≠ s := by
      rintro rfl
      exact hne (Option.some.inj (ht.symm.trans hs))
    exact ⟨t, by rw [Function.update_of_ne hts, ht]⟩
  one t u g ht hu := by
    have hts : t ≠ s := by
      rintro rfl
      rw [Function.update_self] at ht
      exact absurd ht (by simp)
    have hus : u ≠ s := by
      rintro rfl
      rw [Function.update_self] at hu
      exact absurd hu (by simp)
    rw [Function.update_of_ne hts] at ht
    rw [Function.update_of_ne hus] at hu
    exact h.one t u g ht hu

theorem Owns.alone (h : Owns holds pool) (hs : holds s = some f)
    (hother : ∀ t, t ≠ s → holds t = none) : pool = [f] := by
  have hall : ∀ g ∈ pool, g = f := by
    intro g hg
    obtain ⟨t, ht⟩ := h.held g hg
    by_cases hts : t = s
    · rw [hts, hs] at ht
      exact (Option.some.inj ht).symm
    · rw [hother t hts] at ht
      exact absurd ht (by simp)
  have hone : [f].Nodup := List.nodup_cons.mpr ⟨List.not_mem_nil, List.nodup_nil⟩
  have hperm : pool.Perm [f] := by
    refine (List.perm_ext_iff_of_nodup h.nodup hone).mpr fun g => ?_
    rw [List.mem_singleton]
    refine ⟨hall g, ?_⟩
    rintro rfl
    exact h.given s g hs
  exact List.perm_singleton.mp hperm

end

end Ownership
