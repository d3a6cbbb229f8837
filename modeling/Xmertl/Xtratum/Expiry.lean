import Xmertl.Xtratum.Timer

/-!
# Expiring timers

`timer_handler` takes one reading of the clock and lets every timer expire that is
due by it. A periodic one goes back with its period added to the reading, and is
due again when that period is not over the least interval: the loop then has no
end. The loop looks at the first timer only, so that a timer that stands out of
order in the heap can be due and stay.
-/

namespace Xmertl.Xtratum

open Runs

section
variable {D : Type} [DecidableEq D]

/-- A timer in the heap that the loop puts back as it finds it: due. -/
def Timers.Stuck (x : Timers D) (ctime : Int) : Prop :=
  ∃ d ∈ x.timerHeap.elems, x.Due ctime d ∧ x.period d ≠ 0 ∧ x.period d ≤ getMinIntervalPit

def Timers.StepHasRoom (x : Timers D) : TimerAction D → Prop
  | .setTimer d _ _ => x.HasRoom d
  | .unload d => x.HasRoom d
  | .handler _ _ => True

instance (x : Timers D) : DecidablePred x.StepHasRoom
  | .setTimer d _ _ | .unload d => inferInstanceAs (Decidable (x.HasRoom d))
  | .handler _ _ => .isTrue trivial

variable {x y : Timers D} {s : Finset D} {b d t : D} {ctime : Int} {e : List D}

-- ---------------------------------------------------------------------------
-- The end of the loop
-- ---------------------------------------------------------------------------

/-- The timer that has expired is not due any more, and the others are as they were. -/
theorem Timers.expire_due {h : Heap D} (hp : x.period d = 0 ∨ getMinIntervalPit < x.period d)
    (ht : t ∈ if x.period d = 0 then s.erase d else s) :
    (x.expire ctime d h).Due ctime t ↔ t ≠ d ∧ x.Due ctime t := by
  by_cases hd : x.period d = 0
  · rw [if_pos hd] at ht
    simp [Timers.expire, Timers.Due, hd, Finset.ne_of_mem_erase ht]
  · by_cases htd : t = d
    · subst htd
      have hmin := hp.resolve_left hd
      simp only [Timers.expire, Timers.Due, if_neg hd, Function.update_self, ne_eq, not_true,
        false_and, iff_false]
      omega
    · simp [Timers.expire, Timers.Due, hd, htd]

theorem Timers.expire_filter {h : Heap D} (hp : x.period d = 0 ∨ getMinIntervalPit < x.period d) :
    ((if x.period d = 0 then s.erase d else s).filter ((x.expire ctime d h).Due ctime)) =
      (s.filter (x.Due ctime)).erase d := by
  ext t
  simp only [Finset.mem_filter, Finset.mem_erase]
  constructor
  · rintro ⟨hts, hdue⟩
    obtain ⟨htd, hdue⟩ := (Timers.expire_due hp hts).mp hdue
    exact ⟨htd, by split at hts <;> simp_all, hdue⟩
  · rintro ⟨htd, hts, hdue⟩
    have hts' : t ∈ if x.period d = 0 then s.erase d else s := by split <;> simp [htd, hts]
    exact ⟨hts', (Timers.expire_due hp hts').mpr ⟨htd, hdue⟩⟩

theorem expire_next {h : Heap D} {n : Nat}
    (hp : ∀ d ∈ s, x.Due ctime d → x.period d = 0 ∨ getMinIntervalPit < x.period d) (hd : d ∈ s)
    (hdue : x.Due ctime d) (hn : (s.filter (x.Due ctime)).card < n + 1) :
    let s' := if x.period d = 0 then s.erase d else s
    (s'.filter ((x.expire ctime d h).Due ctime)).card < n ∧
      ∀ t ∈ s', (x.expire ctime d h).Due ctime t →
        x.period t = 0 ∨ getMinIntervalPit < x.period t := by
  have hpd := hp d hd hdue
  have hmem : d ∈ s.filter (x.Due ctime) := Finset.mem_filter.mpr ⟨hd, hdue⟩
  constructor
  · have hpos := Finset.card_pos.mpr ⟨d, hmem⟩
    rw [Timers.expire_filter hpd, Finset.card_erase_of_mem hmem]
    omega
  · intro t ht htdue
    have hts : t ∈ s := by
      split at ht
      · exact Finset.mem_of_mem_erase ht
      · exact ht
    exact hp t hts ((Timers.expire_due hpd ht).mp htdue).2

theorem expireLoop_ends (n : Nat) (hx : x.Holds s)
    (hp : ∀ d ∈ s, x.Due ctime d → x.period d = 0 ∨ getMinIntervalPit < x.period d)
    (hn : (s.filter (x.Due ctime)).card < n) (e : List D) :
    ∃ r, expireLoop ctime n x e = some r := by
  induction n generalizing x s e with
  | zero => omega
  | succ n ih =>
    rcases s.eq_empty_or_nonempty with rfl | hs
    · exact ⟨_, expireLoop_empty hx n e⟩
    obtain ⟨d, hd, -, hstop, hgo⟩ := expireLoop_round hx hs ctime
    by_cases hdue : x.Due ctime d
    · obtain ⟨h', hround, hx', -⟩ := hgo hdue
      obtain ⟨hcard, hp'⟩ := expire_next (h := h') hp hd hdue hn
      obtain ⟨r, hr⟩ := ih hx' hp' hcard (e ++ [d])
      exact ⟨r, (hround n e).trans hr⟩
    · exact ⟨_, hstop hdue n e⟩

theorem expireLoop_stuck (n : Nat) (hx : x.Holds s) (ho : x.IsOrdered) (hb : b ∈ s)
    (hdue : x.Due ctime b) (hp : x.period b ≠ 0) (hmin : x.period b ≤ getMinIntervalPit)
    (e : List D) : expireLoop ctime n x e = none := by
  induction n generalizing x s e with
  | zero => rfl
  | succ n ih =>
    obtain ⟨d, hd, hfirst, -, hgo⟩ := expireLoop_round hx ⟨b, hb⟩ ctime
    have hddue : x.Due ctime d := (hfirst ho b hb).trans hdue
    obtain ⟨h', hround, hx', ho'⟩ := hgo hddue
    rw [hround]
    by_cases hbd : b = d
    · subst hbd
      rw [if_neg hp] at hx'
      refine ih hx' (ho' ho) hb ?_ hp hmin _
      simp only [Timers.expire, Timers.Due, if_neg hp, Function.update_self]
      omega
    · have hbs : b ∈ if x.period d = 0 then s.erase d else s := by split <;> simp [hbd, hb]
      refine ih hx' (ho' ho) hbs ?_ hp hmin _
      by_cases hpd : x.period d = 0
      · simpa [Timers.expire, Timers.Due, hpd] using hdue
      · simpa [Timers.expire, Timers.Due, hpd, hbd] using hdue

-- ---------------------------------------------------------------------------
-- What a handler that ends leaves
-- ---------------------------------------------------------------------------

theorem expireLoop_succ {n : Nat} {r : Timers D × List D × Option D}
    (hr : expireLoop ctime n x e = some r) : expireLoop ctime (n + 1) x e = some r := by
  induction n generalizing x e with
  | zero => cases hr
  | succ n ih =>
    rw [expireLoop] at hr ⊢
    simp only [Option.bind_eq_bind, Option.bind_eq_some_iff] at hr ⊢
    obtain ⟨min, hmin, hr⟩ := hr
    refine ⟨min, hmin, ?_⟩
    cases min with
    | none => exact hr
    | some sel =>
      simp only at hr ⊢
      split at hr
      · rename_i hdue
        rw [if_pos hdue]
        simp only [Option.bind_eq_some_iff] at hr ⊢
        obtain ⟨removed, hremoved, d, hd, hr⟩ := hr
        refine ⟨removed, hremoved, d, hd, ?_⟩
        split at hr
        · rename_i hp
          rw [if_pos hp]
          obtain ⟨inserted, hinserted, hr⟩ := Option.bind_eq_some_iff.mp hr
          exact Option.bind_eq_some_iff.mpr ⟨inserted, hinserted, ih hr⟩
        · rename_i hp
          rw [if_neg hp]
          exact ih hr
      · rename_i hdue
        rw [if_neg hdue]
        exact hr

theorem expireLoop_mono {n m : Nat} {r : Timers D × List D × Option D} (hnm : n ≤ m)
    (hr : expireLoop ctime n x e = some r) : expireLoop ctime m x e = some r := by
  induction hnm with
  | refl => exact hr
  | step _ ih => exact expireLoop_succ ih

theorem expireLoop_unique {n m : Nat} {r r' : Timers D × List D × Option D}
    (hr : expireLoop ctime n x e = some r) (hr' : expireLoop ctime m x e = some r') : r = r' := by
  have hmax := expireLoop_mono (le_max_left n m) hr
  rw [expireLoop_mono (le_max_right n m) hr'] at hmax
  exact (Option.some.inj hmax).symm

theorem expireLoop_holds {n : Nat} {r : Timers D × List D × Option D} (hx : x.Holds s)
    (hr : expireLoop ctime n x e = some r) :
    ∃ s' ⊆ s, r.1.Holds s' ∧ r.1.period = x.period ∧ (x.IsOrdered → r.1.IsOrdered) := by
  induction n generalizing x s e with
  | zero => cases hr
  | succ n ih =>
    rcases s.eq_empty_or_nonempty with rfl | hs
    · obtain rfl := Option.some.inj ((expireLoop_empty hx n e).symm.trans hr)
      exact ⟨∅, Finset.Subset.refl _, hx, rfl, id⟩
    obtain ⟨d, hd, -, hstop, hgo⟩ := expireLoop_round hx hs ctime
    by_cases hdue : x.Due ctime d
    · obtain ⟨h', hround, hx', ho⟩ := hgo hdue
      obtain ⟨s', hsub, hs', hperiod, ho'⟩ := ih hx' ((hround n e).symm.trans hr)
      refine ⟨s', hsub.trans ?_, hs', hperiod, fun h => ho' (ho h)⟩
      split
      · exact Finset.erase_subset d s
      · exact Finset.Subset.refl s
    · obtain rfl := Option.some.inj ((hstop hdue n e).symm.trans hr)
      exact ⟨s, Finset.Subset.refl s, hx, rfl, id⟩

def Timers.program (x : Timers D) (ctime : Int) : Option D → Timers D
  | none => x
  | some d => setHwtimerPit x (min (x.hwtime d - ctime) getMaxIntervalPit)

omit [DecidableEq D] in
theorem Timers.program_rest (x : Timers D) (ctime : Int) (sel : Option D) :
    x.program ctime sel = { x with pitCounter := (x.program ctime sel).pitCounter } := by
  cases sel <;> rfl

theorem timerHandler_eq (rounds : Nat) (x : Timers D) (ctime : Int) :
    timerHandler rounds x ctime =
      (expireLoop ctime rounds x []).map fun r => (r.1.program ctime r.2.2, r.2.1) := by
  unfold timerHandler
  cases expireLoop ctime rounds x [] with
  | none => rfl
  | some r =>
    obtain ⟨y, expired, sel⟩ := r
    cases sel with
    | none => rfl
    | some d =>
      simp only [Option.bind_eq_bind, Option.bind_some, Option.pure_def, Option.map_some,
        Timers.program, Option.some.injEq, Prod.mk.injEq, and_true]
      congr 1
      omega

theorem timerHandler_holds {n : Nat} {r : Timers D × List D} (hx : x.Holds s)
    (hr : timerHandler n x ctime = some r) :
    ∃ s' ⊆ s, r.1.Holds s' ∧ r.1.period = x.period ∧ (x.IsOrdered → r.1.IsOrdered) := by
  rw [timerHandler_eq, Option.map_eq_some_iff] at hr
  obtain ⟨⟨y, expired, sel⟩, hloop, rfl⟩ := hr
  obtain ⟨s', hsub, hs', hperiod, ho⟩ := expireLoop_holds hx hloop
  simp only at hs' hperiod ho ⊢
  rw [Timers.program_rest]
  exact ⟨s', hsub, ⟨hs'.bound, hs'.contains⟩, hperiod, ho⟩

theorem Timers.Holds.step {a : TimerAction D} (hx : x.Holds s) (ha : x.StepHasRoom a)
    (h : x.step a = some y) : ∃ s', y.Holds s' := by
  cases a with
  | setTimer d req t =>
    obtain ⟨y', hrun, hy', -⟩ := setTimerSys_spec hx ha req t
    obtain rfl := Option.some.inj (hrun.symm.trans h)
    exact ⟨_, hy'⟩
  | unload d =>
    obtain ⟨h', hrun, hy', -⟩ := timerRemoveDomain_spec hx ha
    obtain rfl := Option.some.inj (hrun.symm.trans h)
    exact ⟨_, hy'⟩
  | handler t n =>
    obtain ⟨r, hrun, rfl⟩ := Option.map_eq_some_iff.mp h
    obtain ⟨s', -, hs', -⟩ := timerHandler_holds hx hrun
    exact ⟨s', hs'⟩

theorem Timers.run_holds {tr : List (Timers D × TimerAction D)} {x₀ : Timers D}
    (hr : Run Timers.step x₀.init tr x) (hc : ∀ e ∈ tr, e.1.StepHasRoom e.2)
    (hx : Visited tr x y) : ∃ s, y.Holds s := by
  refine hr.invariant_visited (I := fun x => ∃ s, x.Holds s) (C := Timers.StepHasRoom)
    ⟨∅, x₀.init_holds⟩ ?_ hc hx
  intro x a x' hs ha hstep
  obtain ⟨s, hs⟩ := hs
  exact hs.step ha hstep

-- ---------------------------------------------------------------------------
-- Termination
-- ---------------------------------------------------------------------------

/-- After any calls of domains whose timers have room, `timer_handler` ends when no
due timer is stuck, and in an ordered heap only then. -/
theorem timerHandler_ends {tr : List (Timers D × TimerAction D)} {x₀ : Timers D}
    (hr : Run Timers.step x₀.init tr x) (hx : Visited tr x y)
    (hc : ∀ e ∈ tr, e.1.StepHasRoom e.2) (ctime : Int) :
    (¬y.Stuck ctime → ∃ n, ∀ rounds ≥ n, ∃ r, timerHandler rounds y ctime = some r) ∧
    (y.IsOrdered → y.Stuck ctime → ∀ rounds, timerHandler rounds y ctime = none) := by
  obtain ⟨s, hy⟩ := Timers.run_holds hr hc hx
  constructor
  · intro hstuck
    refine ⟨(s.filter (y.Due ctime)).card + 1, fun rounds hn => ?_⟩
    have hp : ∀ d ∈ s, y.Due ctime d → y.period d = 0 ∨ getMinIntervalPit < y.period d := by
      intro d hd hdue
      by_contra hp
      rw [not_or, not_lt] at hp
      exact hstuck ⟨d, hy.mem_elems.mpr hd, hdue, hp⟩
    obtain ⟨r, hloop⟩ := expireLoop_ends rounds hy hp hn []
    exact ⟨_, by rw [timerHandler_eq, hloop, Option.map_some]⟩
  · rintro ho ⟨b, hb, hdue, hp, hmin⟩ rounds
    have hloop := expireLoop_stuck rounds hy ho (hy.mem_elems.mp hb) hdue hp hmin []
    rw [timerHandler_eq, hloop, Option.map_none]

-- ---------------------------------------------------------------------------
-- What expires
-- ---------------------------------------------------------------------------

/-- From `x`, which holds the timers of `s`, those in `expired` have expired. -/
structure Timers.Expired (x : Timers D) (s : Finset D) (ctime : Int) (expired : List D)
    (y : Timers D) (s' : Finset D) : Prop where
  holds : y.Holds s'
  ordered : y.IsOrdered
  later : ∀ d ∈ s', ¬y.Due ctime d
  nodup : expired.Nodup
  due : ∀ d, d ∈ expired ↔ d ∈ s ∧ x.Due ctime d
  raised : ∀ d, y.pendingEvents d =
    if d ∈ expired then (x.pendingEvents d).setBit timerEvent else x.pendingEvents d

/-- `sel_domain` at the end of the loop. -/
def Timers.Selects (y : Timers D) (s' : Finset D) : Option D → Prop
  | none => s' = ∅
  | some m => m ∈ s' ∧ ∀ t ∈ s', y.hwtime m ≤ y.hwtime t

theorem Timers.Expired.none (hx : x.Holds s) (ho : x.IsOrdered) (hs : ∀ d ∈ s, ¬x.Due ctime d) :
    x.Expired s ctime [] x s where
  holds := hx
  ordered := ho
  later := hs
  nodup := List.nodup_nil
  due := fun d => by simpa using hs d
  raised := fun d => by simp

theorem Timers.Expired.cons {h : Heap D} {s' : Finset D}
    (hp : x.period d = 0 ∨ getMinIntervalPit < x.period d) (hd : d ∈ s) (hdue : x.Due ctime d)
    (hy : (x.expire ctime d h).Expired (if x.period d = 0 then s.erase d else s) ctime e y s') :
    x.Expired s ctime (d :: e) y s' := by
  have hmem : ∀ t, t ∈ e ↔ t ≠ d ∧ t ∈ s ∧ x.Due ctime t := by
    intro t
    rw [hy.due, ← Finset.mem_filter, Timers.expire_filter hp, Finset.mem_erase, Finset.mem_filter]
  have hnot : d ∉ e := fun h => ((hmem d).mp h).1 rfl
  refine ⟨hy.holds, hy.ordered, hy.later, List.nodup_cons.mpr ⟨hnot, hy.nodup⟩, fun t => ?_,
    fun t => ?_⟩
  · rw [List.mem_cons, hmem]
    constructor
    · rintro (rfl | ⟨-, h⟩)
      · exact ⟨hd, hdue⟩
      · exact h
    · intro h
      by_cases htd : t = d
      · exact .inl htd
      · exact .inr ⟨htd, h⟩
  · rw [hy.raised]
    by_cases htd : t = d
    · subst htd
      simp [hnot, Timers.expire]
    · simp [Timers.expire, htd]

theorem expireLoop_spec (n : Nat) (hx : x.Holds s) (ho : x.IsOrdered)
    (hp : ∀ d ∈ s, x.Due ctime d → x.period d = 0 ∨ getMinIntervalPit < x.period d)
    (hn : (s.filter (x.Due ctime)).card < n) (e : List D) :
    ∃ y e' sel s', expireLoop ctime n x e = some (y, e ++ e', sel) ∧
      x.Expired s ctime e' y s' ∧ y.Selects s' sel := by
  induction n generalizing x s e with
  | zero => omega
  | succ n ih =>
    rcases s.eq_empty_or_nonempty with rfl | hs
    · exact ⟨x, [], none, ∅, by simp [expireLoop_empty hx n e], .none hx ho (by simp), rfl⟩
    obtain ⟨d, hd, hfirst, hstop, hgo⟩ := expireLoop_round hx hs ctime
    by_cases hdue : x.Due ctime d
    · obtain ⟨h', hround, hx', ho'⟩ := hgo hdue
      have hpd := hp d hd hdue
      obtain ⟨hcard, hp'⟩ := expire_next (h := h') hp hd hdue hn
      obtain ⟨y, e', sel, s', hloop, hy, hsel⟩ := ih hx' (ho' ho) hp' hcard (e ++ [d])
      refine ⟨y, d :: e', sel, s', ?_, hy.cons hpd hd hdue, hsel⟩
      rw [hround, hloop, List.append_assoc, List.singleton_append]
    · refine ⟨x, [], some d, s, by simp [hstop hdue n e], .none hx ho fun t ht htdue => ?_, hd,
        hfirst ho⟩
      exact hdue ((hfirst ho t ht).trans htdue)

-- ---------------------------------------------------------------------------
-- Runs whose heap stays in order
-- ---------------------------------------------------------------------------

/-- The heap is in order, and its periodic timers are not put back due. -/
structure Timers.Ok (x : Timers D) (s : Finset D) : Prop where
  holds : x.Holds s
  ordered : x.IsOrdered
  periods : ∀ d ∈ s, x.period d = 0 ∨ getMinIntervalPit < x.period d

/-- A timer is looked for and put in within the array, the one that takes its place
fits there, and no period is too short. -/
def Timers.Manages (x : Timers D) : TimerAction D → Prop
  | .setTimer d req _ => x.HasRoom d ∧ x.timerHeap.MovesWell x.hwtime d ∧
      ∀ r ∈ req, r.itInterval.nsecs = 0 ∨ getMinIntervalPit < r.itInterval.nsecs
  | .unload d => x.HasRoom d ∧ x.timerHeap.MovesWell x.hwtime d
  | .handler _ _ => True

instance (x : Timers D) : DecidablePred x.Manages
  | .setTimer _ _ _ => inferInstanceAs (Decidable (_ ∧ _ ∧ ∀ _ ∈ _, _))
  | .unload _ => inferInstanceAs (Decidable (_ ∧ _))
  | .handler _ _ => .isTrue trivial

def TimerAction.IsLong : TimerAction D → Prop
  | .setTimer _ req _ => ∀ r ∈ req, getMinIntervalPit < r.itInterval.nsecs
  | _ => True

omit [DecidableEq D] in
instance : DecidablePred (TimerAction.IsLong (D := D))
  | .setTimer _ _ _ => inferInstanceAs (Decidable (∀ _ ∈ _, _))
  | .unload _ | .handler _ _ => .isTrue trivial

theorem Timers.Ok.step {a : TimerAction D} (hx : x.Ok s) (ha : x.Manages a)
    (h : x.step a = some y) : ∃ s', y.Ok s' := by
  cases a with
  | setTimer d req t =>
    obtain ⟨hroom, hmoves, hinterval⟩ := ha
    obtain ⟨y', hrun, hy', hothers, hown, ho⟩ := setTimerSys_spec hx.holds hroom req t
    obtain rfl := Option.some.inj (hrun.symm.trans h)
    refine ⟨_, hy', ho hx.ordered hmoves, fun b hb => ?_⟩
    by_cases hbd : b = d
    · subst hbd
      cases req with
      | none => simp at hb
      | some r =>
        rw [hown r rfl]
        exact hinterval r rfl
    · have hbs : b ∈ s := by split at hb <;> simp_all
      rw [hothers b hbd]
      exact hx.periods b hbs
  | unload d =>
    obtain ⟨hroom, hmoves⟩ := ha
    obtain ⟨h', hrun, hy', -, ho⟩ := timerRemoveDomain_spec hx.holds hroom
    obtain rfl := Option.some.inj (hrun.symm.trans h)
    exact ⟨_, hy', ho hx.ordered hmoves, fun b hb => hx.periods b (Finset.mem_of_mem_erase hb)⟩
  | handler t n =>
    obtain ⟨r, hrun, rfl⟩ := Option.map_eq_some_iff.mp h
    obtain ⟨s', hsub, hs', hperiod, ho⟩ := timerHandler_holds hx.holds hrun
    refine ⟨s', hs', ho hx.ordered, fun b hb => ?_⟩
    rw [hperiod]
    exact hx.periods b (hsub hb)

omit [DecidableEq D] in
theorem setHwtimerPit_fires {interval : Int} (hmin : getMinIntervalPit < interval)
    (hmax : interval ≤ getMaxIntervalPit) :
    ∃ c, (setHwtimerPit x interval).pitCounter = some c ∧ 0 < c ∧
      c * nsecsPerSec ≤ interval * pitHz := by
  refine ⟨_, rfl, ?_⟩
  have hpos : 0 ≤ interval * pitHz := by
    rw [getMinIntervalPit] at hmin
    rw [pitHz]
    omega
  rw [Int.tdiv_eq_ediv_of_nonneg hpos]
  have hsmall : interval * pitHz / nsecsPerSec < 65536 := by
    simp only [getMaxIntervalPit, pitAccurately, nsecsPerSec, pitHz] at hmax ⊢
    omega
  have hlarge : 0 < interval * pitHz / nsecsPerSec := by
    simp only [getMinIntervalPit, nsecsPerSec, pitHz] at hmin ⊢
    omega
  rw [Int.emod_eq_of_lt (le_of_lt hlarge) hsmall]
  exact ⟨hlarge, Int.ediv_mul_le _ (by decide)⟩

theorem Timers.Expired.program {s' : Finset D} {sel : Option D}
    (hy : x.Expired s ctime e y s') (hsel : y.Selects s' sel) (hd : d ∈ s') :
    ∃ c, (y.program ctime sel).pitCounter = some c ∧ 0 < c ∧
      c * nsecsPerSec ≤ (y.hwtime d - ctime) * pitHz := by
  cases sel with
  | none => simp [show s' = ∅ from hsel] at hd
  | some m =>
    obtain ⟨hm, hfirst⟩ := hsel
    have hlater := hy.later m hm
    rw [Timers.Due, not_le] at hlater
    have hmin : getMinIntervalPit < min (y.hwtime m - ctime) getMaxIntervalPit := by
      rw [lt_min_iff]
      exact ⟨by omega, by decide⟩
    obtain ⟨c, hc, hpos, hle⟩ := setHwtimerPit_fires (x := y) hmin (min_le_right ..)
    refine ⟨c, hc, hpos, hle.trans ?_⟩
    have hmd := hfirst d hd
    exact Int.mul_le_mul_of_nonneg_right (by omega) (by decide)

/-- Every timer that is due expires once, none is due afterwards, and the PIT fires
before the first that is left expires. -/
theorem timerHandler_spec (hx : x.Ok s) (ctime : Int) :
    ∃ z expired, (∃ n, ∀ rounds ≥ n, timerHandler rounds x ctime = some (z, expired)) ∧
      (∀ rounds r, timerHandler rounds x ctime = some r → r = (z, expired)) ∧
      (∀ d ∈ z.timerHeap.elems, ctime + getMinIntervalPit < z.hwtime d) ∧ expired.Nodup ∧
      (∀ d, d ∈ expired ↔ d ∈ x.timerHeap.elems ∧ x.hwtime d ≤ ctime + getMinIntervalPit) ∧
      (∀ d, z.pendingEvents d =
        if d ∈ expired then (x.pendingEvents d).setBit timerEvent else x.pendingEvents d) ∧
      ∀ d ∈ z.timerHeap.elems, ∃ c, z.pitCounter = some c ∧ 0 < c ∧
        c * nsecsPerSec ≤ (z.hwtime d - ctime) * pitHz := by
  obtain ⟨y, expired, sel, s', hloop, hy, hsel⟩ := expireLoop_spec
    ((s.filter (x.Due ctime)).card + 1) hx.holds hx.ordered (fun d hd _ => hx.periods d hd)
    (Nat.lt_succ_self _) []
  have hrest := y.program_rest ctime sel
  have hmem : ∀ d ∈ (y.program ctime sel).timerHeap.elems, d ∈ s' := by
    intro d hd
    rw [hrest] at hd
    exact hy.holds.mem_elems.mp hd
  have hhwtime : (y.program ctime sel).hwtime = y.hwtime := by rw [hrest]
  refine ⟨y.program ctime sel, expired, ⟨(s.filter (x.Due ctime)).card + 1, fun rounds hn => ?_⟩,
    fun rounds r hr => ?_, fun d hd => ?_, hy.nodup, fun d => ?_, fun d => ?_, fun d hd => ?_⟩
  · rw [timerHandler_eq, expireLoop_mono hn hloop]
    rfl
  · rw [timerHandler_eq, Option.map_eq_some_iff] at hr
    obtain ⟨r', hr', rfl⟩ := hr
    obtain rfl := expireLoop_unique hloop hr'
    rfl
  · rw [hhwtime]
    exact not_le.mp (hy.later d (hmem d hd))
  · rw [hy.due, hx.holds.mem_elems]
    rfl
  · rw [hrest]
    exact hy.raised d
  · rw [hhwtime]
    exact hy.program hsel (hmem d hd)

/-- After calls whose removals find a last timer that fits, whose periods are not too
short and whose timers have room, the handler misses no timer. -/
theorem timers_not_missed {tr : List (Timers D × TimerAction D)} {x₀ : Timers D}
    (hr : Run Timers.step x₀.init tr x) (hx : Visited tr x y)
    (hc : ∀ e ∈ tr, e.1.Manages e.2) (ctime : Int) :
    ∃ z expired, (∃ n, ∀ rounds ≥ n, timerHandler rounds y ctime = some (z, expired)) ∧
      (∀ rounds r, timerHandler rounds y ctime = some r → r = (z, expired)) ∧
      (∀ d ∈ z.timerHeap.elems, ctime + getMinIntervalPit < z.hwtime d) ∧ expired.Nodup ∧
      (∀ d, d ∈ expired ↔ d ∈ y.timerHeap.elems ∧ y.hwtime d ≤ ctime + getMinIntervalPit) ∧
      (∀ d, z.pendingEvents d =
        if d ∈ expired then (y.pendingEvents d).setBit timerEvent else y.pendingEvents d) ∧
      ∀ d ∈ z.timerHeap.elems, ∃ c, z.pitCounter = some c ∧ 0 < c ∧
        c * nsecsPerSec ≤ (z.hwtime d - ctime) * pitHz := by
  have hinit : x₀.init.Ok ∅ :=
    ⟨x₀.init_holds, fun i h2 hin => by simp only [Timers.init, heapInit] at hin; omega, by simp⟩
  have hok : ∃ s, y.Ok s := by
    refine hr.invariant_visited (I := fun x => ∃ s, x.Ok s) (C := Timers.Manages)
      ⟨∅, hinit⟩ ?_ hc hx
    intro x a x' hs ha hstep
    obtain ⟨s, hs⟩ := hs
    exact hs.step ha hstep
  obtain ⟨s, hy⟩ := hok
  exact timerHandler_spec hy ctime

end

def request (value interval : Int) : Option Xmitimerval := some ⟨⟨0, interval⟩, ⟨0, value⟩⟩

theorem timerHandler_ends_run :
    ∃ tr x, Run Timers.step (Timers.zero Nat).init tr x ∧ tr.length = 3 ∧
      ∃ n, ∀ rounds ≥ n, ∃ r, timerHandler rounds x 100000 = some r := by
  let calls : List (TimerAction Nat) :=
    [.setTimer 1 (request 100000 0) 0, .handler 0 1, .setTimer 2 (request 100000 100000) 0]
  have hrun : (exec Timers.step (Timers.zero Nat).init calls).any fun r =>
      decide (r.1.length = 3 ∧ (∀ e ∈ r.1, e.1.StepHasRoom e.2) ∧ r.2.timerHeap.nelem = 2 ∧
        r.2.timerHeap.array 1 = some 1 ∧ r.2.timerHeap.array 2 = some 2 ∧ r.2.period 1 = 0 ∧
        r.2.period 2 = 100000) := by
    decide +kernel
  obtain ⟨tr, x, hr, hx⟩ := exec_any hrun
  simp only [decide_eq_true_eq] at hx
  obtain ⟨hlen, hroom, hnelem, hone, htwo, hpone, hptwo⟩ := hx
  refine ⟨tr, x, hr, hlen, (timerHandler_ends hr .self hroom 100000).1 ?_⟩
  rintro ⟨d, ⟨i, hi, hin, harray⟩, -, hp, hmin⟩
  obtain rfl | rfl : i = 1 ∨ i = 2 := by omega
  · obtain rfl := Option.some.inj (hone.symm.trans harray)
    exact hp hpone
  · obtain rfl := Option.some.inj (htwo.symm.trans harray)
    rw [hptwo, getMinIntervalPit] at hmin
    omega

/-- A timer of one nanosecond is to expire every nanosecond. -/
theorem timerHandler_hangs :
    ∃ tr x, Run Timers.step (Timers.zero Nat).init tr x ∧
      ∀ rounds, timerHandler rounds x 0 = none := by
  have hrun : (exec Timers.step (Timers.zero Nat).init [.setTimer 1 (request 1 1) 0]).any fun r =>
      decide ((∀ e ∈ r.1, e.1.StepHasRoom e.2) ∧ r.2.timerHeap.nelem = 1 ∧
        r.2.timerHeap.array 1 = some 1 ∧ r.2.period 1 = 1 ∧ r.2.hwtime 1 = 1) := by
    decide +kernel
  obtain ⟨tr, x, hr, hx⟩ := exec_any hrun
  simp only [decide_eq_true_eq] at hx
  obtain ⟨hroom, hnelem, hone, hperiod, hhwtime⟩ := hx
  obtain ⟨s, hs⟩ := Timers.run_holds hr hroom .self
  have ho : x.IsOrdered := fun i h2 hin => by omega
  have hmem : 1 ∈ s := hs.mem_elems.mp ⟨1, le_refl 1, by omega, hone⟩
  have hdue : x.Due 0 1 := by
    rw [Timers.Due, hhwtime, getMinIntervalPit]
    omega
  have hmin : x.period 1 ≤ getMinIntervalPit := by
    rw [hperiod, getMinIntervalPit]
    omega
  refine ⟨tr, x, hr, fun rounds => ?_⟩
  have hloop := expireLoop_stuck rounds hs ho hmem hdue (by omega) hmin []
  rw [timerHandler_eq, hloop, Option.map_none]

theorem timers_not_missed_run :
    ∃ tr x, Run Timers.step (Timers.zero Nat).init tr x ∧ tr.length = 6 ∧
      ∃ z expired, (∃ n, ∀ rounds ≥ n, timerHandler rounds x 60000 = some (z, expired)) ∧
        1 ∈ expired ∧ 3 ∉ expired := by
  let calls : List (TimerAction Nat) :=
    [.setTimer 1 (request 100000 100000) 0, .handler 0 1, .setTimer 2 (request 100000 100000) 0,
      .handler 0 1, .setTimer 3 (request 200000 0) 0, .unload 2]
  have hrun : (exec Timers.step (Timers.zero Nat).init calls).any fun r =>
      decide (r.1.length = 6 ∧ (∀ e ∈ r.1, e.1.Manages e.2) ∧ 1 ∈ r.2.timerHeap.elems ∧
        r.2.hwtime 1 = 100000 ∧ r.2.hwtime 3 = 200000) := by
    decide +kernel
  obtain ⟨tr, x, hr, hx⟩ := exec_any hrun
  simp only [decide_eq_true_eq] at hx
  obtain ⟨hlen, hmanages, hone, htime, hthree⟩ := hx
  obtain ⟨z, expired, hhandler, -, -, -, hexpired, -, -⟩ :=
    timers_not_missed hr .self hmanages 60000
  refine ⟨tr, x, hr, hlen, z, expired, hhandler, ?_, fun h => ?_⟩
  · rw [hexpired, htime, getMinIntervalPit]
    exact ⟨hone, by omega⟩
  · rw [hexpired, hthree, getMinIntervalPit] at h
    omega

/-- Of six timers, in nanoseconds 1, 4, 2, 5, 6 and 3 after 100 microseconds, the
fourth domain is unloaded. The timer of the sixth then stands under that of the
second, and is missed when only the first three are due. -/
theorem timer_missed :
    ∃ tr x, Run Timers.step (Timers.zero Nat).init tr x ∧
      (∀ e ∈ tr, e.2.IsLong) ∧ ∃ d z expired, timerHandler 10 x 50003 = some (z, expired) ∧
        d ∈ z.timerHeap.elems ∧ z.hwtime d ≤ 50003 + getMinIntervalPit := by
  let arm : Nat → Int → List (TimerAction Nat) := fun d value =>
    [.setTimer d (request value 100000) 0, .handler 0 1]
  let calls := arm 1 100001 ++ arm 2 100004 ++ arm 3 100002 ++ arm 4 100005 ++ arm 5 100006 ++
    arm 6 100003 ++ [.unload 4]
  have hrun : (exec Timers.step (Timers.zero Nat).init calls).any fun r =>
      decide (∀ e ∈ r.1, e.2.IsLong) && (timerHandler 10 r.2 50003).any fun z =>
        decide (6 ∈ z.1.timerHeap.elems ∧ z.1.hwtime 6 ≤ 50003 + getMinIntervalPit) := by
    decide +kernel
  obtain ⟨tr, x, hr, hx⟩ := exec_any hrun
  simp only [Bool.and_eq_true, decide_eq_true_eq, Option.any_eq_true] at hx
  obtain ⟨hlong, z, hz, hmem, htime⟩ := hx
  exact ⟨tr, x, hr, hlong, 6, z.1, z.2, hz, hmem, htime⟩

end Xmertl.Xtratum
