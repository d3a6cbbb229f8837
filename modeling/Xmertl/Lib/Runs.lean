import Mathlib.Data.List.Basic

/-!
# Runs of a partial step function

A system is a step function `step : S → A → Option S`. `Run step s₀ tr s` says
that `tr`, most recent step first, leads from `s₀` to `s`; each entry of `tr`
is a step's pre-state and action. `Visited tr s` are the states a run passes
through, its last state included.
-/

namespace Runs

inductive Run (step : S → A → Option S) (s₀ : S) : List (S × A) → S → Prop
  | start : Run step s₀ [] s₀
  | next : Run step s₀ tr s → step s a = some s' → Run step s₀ ((s, a) :: tr) s'

def Visited (tr : List (S × A)) (s x : S) : Prop := x = s ∨ x ∈ tr.map Prod.fst

section
variable {step : S → A → Option S} {s₀ s x : S} {tr : List (S × A)}

theorem Visited.self : Visited tr s s := .inl rfl

theorem Visited.pre (h : e ∈ tr) : Visited tr s e.1 := .inr (List.mem_map_of_mem h)

theorem Visited.next (h : Visited tr s x) : Visited ((s, a) :: tr) s' x := by
  rcases h with rfl | h
  · exact .inr (by simp)
  · exact .inr (List.mem_cons_of_mem _ h)

theorem Run.invariant {I : S → Prop} {C : S → A → Prop} (hr : Run step s₀ tr s) (h₀ : I s₀)
    (hs : ∀ s a s', I s → C s a → step s a = some s' → I s') (hc : ∀ e ∈ tr, C e.1 e.2) : I s := by
  induction hr with
  | start => exact h₀
  | @next tr s a s' _ hstep ih =>
    have hpre : I s := ih fun e he => hc e (List.mem_cons_of_mem _ he)
    exact hs s a s' hpre (hc (s, a) List.mem_cons_self) hstep

theorem Run.toVisited (hr : Run step s₀ tr s) (hx : Visited tr s x) :
    ∃ tr', tr' <:+ tr ∧ Run step s₀ tr' x := by
  induction hr with
  | start =>
    rcases hx with rfl | hx
    · exact ⟨[], List.suffix_rfl, .start⟩
    · simp at hx
  | @next tr s a s' hr hstep ih =>
    rcases hx with rfl | hx
    · exact ⟨_, List.suffix_rfl, hr.next hstep⟩
    · rcases List.mem_cons.mp hx with rfl | hx
      · exact ⟨tr, List.suffix_cons _ _, hr⟩
      · obtain ⟨tr', hsub, hr'⟩ := ih (.inr hx)
        exact ⟨tr', hsub.trans (List.suffix_cons _ _), hr'⟩

theorem Run.invariant_visited {I : S → Prop} {C : S → A → Prop} (hr : Run step s₀ tr s)
    (h₀ : I s₀) (hs : ∀ s a s', I s → C s a → step s a = some s' → I s')
    (hc : ∀ e ∈ tr, C e.1 e.2) (hx : Visited tr s x) : I x := by
  obtain ⟨tr', hsub, hr'⟩ := hr.toVisited hx
  exact hr'.invariant h₀ hs fun e he => hc e (hsub.subset he)

/-- Where `I` passes over a step exactly under `C`, and `J` always does. -/
theorem Run.visited_iff {I J : S → Prop} {C : S → A → Prop} (hr : Run step s₀ tr s) (hJ₀ : J s₀)
    (hJ : ∀ s a s', J s → step s a = some s' → J s') (h₀ : I s₀)
    (hs : ∀ s a s', J s → I s → step s a = some s' → (I s' ↔ C s a)) :
    (∀ x, Visited tr s x → I x) ↔ ∀ e ∈ tr, C e.1 e.2 := by
  induction hr with
  | start =>
    refine ⟨fun _ _ he => absurd he List.not_mem_nil, ?_⟩
    rintro - x (rfl | hx)
    · exact h₀
    · exact absurd hx List.not_mem_nil
  | @next tr s a s' hr hstep ih =>
    have hJs : J s := hr.invariant (C := fun _ _ => True) hJ₀ (fun s a s' h _ => hJ s a s' h)
      fun _ _ => trivial
    constructor
    · intro h
      have hpre (x : S) (hx : Visited tr s x) : I x := h x hx.next
      have hC := (hs s a s' hJs (hpre s .self) hstep).mp (h s' .self)
      exact List.forall_mem_cons.mpr ⟨hC, ih.mp hpre⟩
    · intro h
      obtain ⟨hC, hrest⟩ := List.forall_mem_cons.mp h
      have hpre := ih.mpr hrest
      rintro x (rfl | hx)
      · exact (hs s a x hJs (hpre s .self) hstep).mpr hC
      · rcases List.mem_cons.mp hx with he | hx
        · exact he ▸ hpre s .self
        · exact hpre x (.inr hx)

/-- The same where `I` is stronger than what is asked of the states, and a step outside
of `C` breaks `P` at once. -/
theorem Run.visited_iff_first {I P : S → Prop} {C : S → A → Prop} (hr : Run step s₀ tr s)
    (h₀ : I s₀) (hI : ∀ s, I s → P s)
    (hs : ∀ s a s', I s → step s a = some s' → (C s a → I s') ∧ (¬C s a → ¬P s')) :
    (∀ x, Visited tr s x → P x) ↔ ∀ e ∈ tr, C e.1 e.2 := by
  have hinv : ∀ s a s', I s → C s a → step s a = some s' → I s' :=
    fun s a s' hi hc hstep => (hs s a s' hi hstep).1 hc
  refine ⟨fun h => ?_, fun hc x hx => hI x (hr.invariant_visited h₀ hinv hc hx)⟩
  induction hr with
  | start => simp
  | @next tr s a s' hr hstep ih =>
    have hc : ∀ e ∈ tr, C e.1 e.2 := ih fun x hx => h x hx.next
    refine List.forall_mem_cons.mpr ⟨?_, hc⟩
    by_contra hnot
    exact (hs s a s' (hr.invariant h₀ hinv hc) hstep).2 hnot (h s' .self)

theorem Run.post_visited (hr : Run step s₀ tr s) (he : e ∈ tr) :
    ∃ y, step e.1 e.2 = some y ∧ Visited tr s y := by
  induction hr with
  | start => simp at he
  | @next tr s a s' _ hstep ih =>
    rcases List.mem_cons.mp he with rfl | he
    · exact ⟨s', hstep, .self⟩
    · obtain ⟨y, hy, hv⟩ := ih he
      exact ⟨y, hy, hv.next⟩

theorem Run.start_visited (hr : Run step s₀ tr s) : Visited tr s s₀ := by
  induction hr with
  | start => exact .self
  | next _ _ ih => exact ih.next

theorem Run.history {I : List (S × A) → S → Prop} {C : List (S × A) → S → A → Prop}
    (hr : Run step s₀ tr s) (h₀ : I [] s₀)
    (hs : ∀ past s a s', I past s → C past s a → step s a = some s' → I ((s, a) :: past) s')
    (hc : ∀ e past, e :: past <:+ tr → C past e.1 e.2) : I tr s := by
  induction hr with
  | start => exact h₀
  | @next tr s a s' _ hstep ih =>
    have hpre : I tr s := ih fun e past he => hc e past (he.trans (List.suffix_cons _ _))
    exact hs tr s a s' hpre (hc (s, a) tr List.suffix_rfl) hstep

theorem Visited.suffix (h : Visited past e.1 x) (hsub : e :: past <:+ tr) : Visited tr s x := by
  rcases h with rfl | h
  · exact .pre (hsub.subset List.mem_cons_self)
  · obtain ⟨e', he', rfl⟩ := List.mem_map.mp h
    exact .pre (hsub.subset (List.mem_cons_of_mem _ he'))

theorem Run.of_suffix (hr : Run step s₀ tr s) (h : e :: past <:+ tr) :
    Run step s₀ past e.1 ∧ ∃ y, step e.1 e.2 = some y ∧ Visited tr s y := by
  induction hr with
  | start => simp at h
  | @next tr s a s' hr hstep ih =>
    rcases List.suffix_cons_iff.mp h with he | hsub
    · obtain ⟨rfl, rfl⟩ := List.cons.inj he
      exact ⟨hr, s', hstep, .self⟩
    · obtain ⟨hpast, y, hy, hv⟩ := ih hsub
      exact ⟨hpast, y, hy, hv.next⟩

theorem Run.split (hr : Run step s₀ (late ++ past) s) :
    ∃ w, Run step s₀ past w ∧ Run step w late s := by
  induction late generalizing s with
  | nil => exact ⟨s, hr, .start⟩
  | cons e late ih =>
    cases hr with
    | next hr hstep =>
      obtain ⟨w, hpast, hlate⟩ := ih hr
      exact ⟨w, hpast, hlate.next hstep⟩

theorem Run.last_step (hr : Run step s₀ (e :: past) s) :
    Run step s₀ past e.1 ∧ step e.1 e.2 = some s := by
  cases hr with
  | next hr hstep => exact ⟨hr, hstep⟩

theorem Run.append (hr : Run step s₀ tr s) (hr' : Run step s tr' s') :
    Run step s₀ (tr' ++ tr) s' := by
  induction hr' with
  | start => exact hr
  | next _ hstep ih => exact ih.next hstep

end

def exec (step : S → A → Option S) : S → List A → Option (List (S × A) × S)
  | s, [] => some ([], s)
  | s, a :: as => do
    let s' ← step s a
    let (tr, t) ← exec step s' as
    return (tr ++ [(s, a)], t)

theorem exec_run {step : S → A → Option S} (h : exec step s as = some (tr, t)) :
    Run step s tr t := by
  induction as generalizing s tr with
  | nil =>
    simp only [exec, Option.some.injEq, Prod.mk.injEq] at h
    obtain ⟨rfl, rfl⟩ := h
    exact .start
  | cons a as ih =>
    simp only [exec, Option.bind_eq_bind, Option.bind_eq_some_iff] at h
    obtain ⟨s', hs', ⟨tr', t'⟩, htr, h⟩ := h
    simp only [Option.pure_def, Option.some.injEq, Prod.mk.injEq] at h
    obtain ⟨rfl, rfl⟩ := h
    exact (Run.start.next hs').append (ih htr)

theorem exec_actions {step : S → A → Option S} (h : exec step s as = some (tr, t)) :
    tr.map Prod.snd = as.reverse := by
  induction as generalizing s tr with
  | nil =>
    simp only [exec, Option.some.injEq, Prod.mk.injEq] at h
    obtain ⟨rfl, rfl⟩ := h
    rfl
  | cons a as ih =>
    simp only [exec, Option.bind_eq_bind, Option.bind_eq_some_iff] at h
    obtain ⟨s', hs', ⟨tr', t'⟩, htr, h⟩ := h
    simp only [Option.pure_def, Option.some.injEq, Prod.mk.injEq] at h
    obtain ⟨rfl, rfl⟩ := h
    rw [List.map_append, ih htr, List.reverse_cons]
    rfl

theorem exec_any_actions {step : S → A → Option S} {p : List (S × A) × S → Bool}
    (h : (exec step s as).any p = true) :
    ∃ tr t, Run step s tr t ∧ tr.map Prod.snd = as.reverse ∧ p (tr, t) = true := by
  cases he : exec step s as with
  | none => simp [he] at h
  | some r => exact ⟨r.1, r.2, exec_run he, exec_actions he, by simpa [he] using h⟩

theorem exec_any {step : S → A → Option S} {p : List (S × A) × S → Bool}
    (h : (exec step s as).any p = true) : ∃ tr t, Run step s tr t ∧ p (tr, t) = true := by
  obtain ⟨tr, t, hr, -, hp⟩ := exec_any_actions h
  exact ⟨tr, t, hr, hp⟩

end Runs
