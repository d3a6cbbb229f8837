import Mathlib.Data.List.Basic

/-!
# Stages with an error exit

A call that works in stages, each of which may end it with an error. A stage is a function
`S → Option (S × Option E)`: `none` where it does not come back, and otherwise the state
that it leaves with the error that it ends in, if any. `run` takes the stages of a list up to
the first error.
-/

namespace Stages

abbrev Stage (S E : Type*) := S → Option (S × Option E)

section
variable {S E : Type*}

def run : List (Stage S E) → Stage S E
  | [], s => some (s, none)
  | f :: fs, s =>
    match f s with
    | none => none
    | some (s, some e) => some (s, some e)
    | some (s, none) => run fs s

variable {f : Stage S E} {fs : List (Stage S E)} {s t : S} {e : Option E}

theorem run_cons_done (h : f s = some (t, none)) : run (f :: fs) s = run fs t := by
  rw [run, h]

theorem run_cons_iff :
    run (f :: fs) s = some (t, none) ↔ ∃ u, f s = some (u, none) ∧ run fs u = some (t, none) := by
  rw [run]
  split
  · rename_i h
    simp [h]
  · rename_i h
    simp [h]
  · rename_i u h
    simp [h]

theorem run_rel {R : S → S → Prop} (hrefl : ∀ s, R s s)
    (htrans : ∀ s t u, R s t → R t u → R s u)
    (hf : ∀ f ∈ fs, ∀ s t e, f s = some (t, e) → R s t) (h : run fs s = some (t, e)) :
    R s t := by
  induction fs generalizing s with
  | nil =>
    obtain ⟨rfl, -⟩ := Prod.mk.inj (Option.some.inj h)
    exact hrefl s
  | cons f fs ih =>
    have hrest : ∀ f ∈ fs, ∀ s t e, f s = some (t, e) → R s t := fun g hg =>
      hf g (List.mem_cons_of_mem _ hg)
    rw [run] at h
    split at h
    · cases h
    · rename_i u e' hs
      obtain ⟨rfl, -⟩ := Prod.mk.inj (Option.some.inj h)
      exact hf f List.mem_cons_self s u _ hs
    · rename_i u hs
      exact htrans s u t (hf f List.mem_cons_self s u _ hs) (ih hrest h)

end

end Stages
