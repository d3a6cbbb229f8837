import Mathlib.Data.Option.Basic

/-!
# Refinement of machines that answer requests

A machine is a partial step function that gives each request an answer. Where every step
of it is a step of an abstract machine, so is every run of it, with the same answers.
-/

namespace Refinement

/-- The requests of a list one after the other, each with its answer. -/
def answers (step : S → R → Option (A × S)) : S → List R → Option (List (R × A) × S)
  | s, [] => some ([], s)
  | s, r :: rs => do
    let (a, s') ← step s r
    let (history, t) ← answers step s' rs
    return ((r, a) :: history, t)

/-- From `s` on, the abstract machine can answer so and come to `t`. -/
inductive Accepts (Step : U → R → A → U → Prop) : U → List (R × A) → U → Prop
  | nil : Accepts Step s [] s
  | cons : Step s r a s' → Accepts Step s' history t → Accepts Step s ((r, a) :: history) t

section
variable {step : S → R → Option (A × S)} {Step : U → R → A → U → Prop} {s t : S}
  {history : List (R × A)}

/-- Steps that keep an invariant and are steps of the abstract machine make up such runs. -/
theorem answers_accepted (I : S → Prop) (view : S → U)
    (hstep : ∀ s r a s', I s → step s r = some (a, s') → I s' ∧ Step (view s) r a (view s'))
    (hs : I s) (h : answers step s rs = some (history, t)) :
    I t ∧ Accepts Step (view s) history (view t) := by
  induction rs generalizing s history with
  | nil =>
    simp only [answers, Option.some.injEq, Prod.mk.injEq] at h
    obtain ⟨rfl, rfl⟩ := h
    exact ⟨hs, .nil⟩
  | cons r rs ih =>
    simp only [answers, Option.bind_eq_bind, Option.bind_eq_some_iff] at h
    obtain ⟨⟨a, s'⟩, ha, ⟨rest, t'⟩, hrest, h⟩ := h
    simp only [Option.pure_def, Option.some.injEq, Prod.mk.injEq] at h
    obtain ⟨rfl, rfl⟩ := h
    obtain ⟨hs', hfirst⟩ := hstep s r a s' hs ha
    obtain ⟨ht, hlater⟩ := ih hs' hrest
    exact ⟨ht, .cons hfirst hlater⟩

theorem answers_total (I : S → Prop) (view : S → U)
    (hstep : ∀ s r, I s → ∃ a s', step s r = some (a, s') ∧ I s' ∧ Step (view s) r a (view s'))
    (hs : I s) (rs : List R) :
    ∃ history t, answers step s rs = some (history, t) ∧ Accepts Step (view s) history (view t) := by
  induction rs generalizing s with
  | nil => exact ⟨[], s, rfl, .nil⟩
  | cons r rs ih =>
    obtain ⟨a, s', ha, hs', hfirst⟩ := hstep s r hs
    obtain ⟨history, t, hrest, hlater⟩ := ih hs'
    exact ⟨(r, a) :: history, t, by simp [answers, ha, hrest], .cons hfirst hlater⟩

end

end Refinement
