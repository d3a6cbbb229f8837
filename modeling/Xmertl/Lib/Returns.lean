import Mathlib.Data.Option.Basic

/-!
# Total correctness of partial functions

`Returns x P` says that the computation `x` comes back, with a result of which `P` holds.
-/

namespace TotalCorrectness

universe u

def Returns {α : Type u} (x : Option α) (P : α → Prop) : Prop := ∃ a, x = some a ∧ P a

section
variable {α β : Type u} {x : Option α} {f : α → Option β} {P P' : α → Prop} {Q : β → Prop} {a : α}

theorem Returns.pure (h : P a) : Returns (some a) P := ⟨a, rfl, h⟩

theorem returns_some : Returns (some a) P ↔ P a :=
  ⟨fun ⟨_, ha, h⟩ => Option.some.inj ha ▸ h, Returns.pure⟩

theorem returns_none : ¬Returns (none : Option α) P := fun ⟨_, h, _⟩ => by cases h

theorem Returns.bind (h : Returns x P) (hf : ∀ a, P a → Returns (f a) Q) : Returns (x >>= f) Q := by
  obtain ⟨a, rfl, ha⟩ := h
  exact hf a ha

theorem Returns.mono (h : Returns x P) (hP : ∀ a, P a → P' a) : Returns x P' := by
  obtain ⟨a, rfl, ha⟩ := h
  exact ⟨a, rfl, hP a ha⟩

theorem Returns.bind_eq (h : x = some a) (hf : Returns (f a) Q) : Returns (x >>= f) Q := by
  subst h
  exact hf

theorem Returns.of_eq (h : Returns x P) (hx : x = some a) : P a := by
  obtain ⟨a', ha', hP⟩ := h
  rwa [Option.some.inj (hx.symm.trans ha')]

end

end TotalCorrectness
