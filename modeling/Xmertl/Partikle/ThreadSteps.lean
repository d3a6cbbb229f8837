import Xmertl.Partikle.Threads

/-!
# What a step does to the scheduler

A kernel call makes some plain calls of the scheduler and then leaves it to `scheduling ()`;
or it returns, and then has changed nothing, but for a signal or a mutex that was unlocked
(`Outcome`). `step_calls` says it of every step: the scheduler of a system in a run is in a
run of its own calls.
-/

namespace Xmertl.Partikle

open IntrusiveList (Lists)

variable {T : Type}

/-- What happens inside a call: threads other than `idle` are woken or suspended, priorities
and signals change. -/
def SchedCall.Plain (idle : T) : SchedCall T → Prop
  | .activateThread t => t ≠ idle
  | .suspendThread _ | .changeThreadPrio _ _ | .signals _ _ _ _ => True
  | _ => False

variable [DecidableEq T]

namespace Sched

def Plainly (idle : T) (s s' : Sched T) : Prop :=
  ∃ cs : List (SchedCall T), (∀ c ∈ cs, c.Plain idle) ∧ s' = s.calls cs

theorem Plainly.refl (idle : T) (s : Sched T) : Plainly idle s s := ⟨[], by simp, rfl⟩

theorem Plainly.one {idle : T} {s : Sched T} {c : SchedCall T} (h : c.Plain idle) :
    Plainly idle s (s.call c) := ⟨[c], by simpa using h, rfl⟩

theorem Plainly.trans {idle : T} {s s' s'' : Sched T} (h : Plainly idle s s')
    (h' : Plainly idle s' s'') : Plainly idle s s'' := by
  obtain ⟨cs, hcs, rfl⟩ := h
  obtain ⟨cs', hcs', rfl⟩ := h'
  refine ⟨cs ++ cs', fun c hc => ?_, by simp [calls]⟩
  rcases List.mem_append.mp hc with hc | hc
  · exact hcs c hc
  · exact hcs' c hc

theorem Plainly.idle {idle : T} {s s' : Sched T} (h : Plainly idle s s') :
    s'.idleThread = s.idleThread ∧ s'.currentThread = s.currentThread := by
  obtain ⟨cs, hcs, rfl⟩ := h
  induction cs generalizing s with
  | nil => exact ⟨rfl, rfl⟩
  | cons c cs ih =>
    obtain ⟨hi, hcur⟩ := ih (s := s.call c) fun c' hc' => hcs c' (List.mem_cons_of_mem _ hc')
    have hplain := hcs c List.mem_cons_self
    refine ⟨hi.trans ?_, hcur.trans ?_⟩ <;> cases c <;> simp_all [call, SchedCall.Plain]

def WokenBy (s : Sched T) (t : T) (sig : Fin 32) : Prop :=
  let th := (s.thread t).raise sig
  ~~~(th.sigmask &&& ~~~nonMaskableSignals) &&& th.sigpending ≠ 0 ∨ th.activateOnSignal

instance (s : Sched T) (t : T) (sig : Fin 32) : Decidable (s.WokenBy t sig) :=
  inferInstanceAs (Decidable (_ ∨ _))

end Sched

namespace Kernel

open Sched (Plainly)

variable {k : Kernel T} {t idle : T} {m : Nat}

theorem activate_plainly (ht : t ≠ idle) : Plainly idle k.sched (k.activateThread t).sched :=
  .one (c := .activateThread t) ht

theorem suspend_plainly : Plainly idle k.sched (k.suspendThread t).sched :=
  .one (c := .suspendThread t) trivial

theorem change_plainly : Plainly idle k.sched (k.changeThreadPrio t p).sched :=
  .one (c := .changeThreadPrio t p) trivial

theorem pthreadKill_sched : (k.pthreadKill t sig).sched =
    if k.sched.WokenBy t sig then (k.sched.modify t (·.raise sig)).activateThread t
    else k.sched.modify t (·.raise sig) := by
  have hth : (k.sched.modify t (·.raise sig)).thread t = (k.sched.thread t).raise sig := by
    simp [Sched.modify]
  unfold pthreadKill Sched.WokenBy
  dsimp only
  simp only [hth]
  split
  · rename_i h
    exact (if_pos h).symm
  · rename_i h
    exact (if_neg h).symm

theorem kill_plainly (ht : t ≠ idle) : Plainly idle k.sched (k.pthreadKill t sig).sched := by
  have hraise : Plainly idle k.sched (k.sched.modify t (·.raise sig)) := by
    let th := (k.sched.thread t).raise sig
    have hone : Plainly idle k.sched
        (k.sched.call (.signals t th.sigpending th.sigmask th.activateOnSignal)) := .one trivial
    exact hone
  rw [pthreadKill_sched]
  split
  · exact hraise.trans (.one (c := .activateThread t) ht)
  · exact hraise

theorem expire_plainly {e : Expiry T} (he : e.target ≠ idle) :
    Plainly idle k.sched (k.expire e).sched := by
  cases e with
  | wakeup t =>
    simp only [expire]
    split
    · exact activate_plainly (k := k) he
    · exact .refl _ _
  | kill t sig => exact kill_plainly he

theorem updateHwtimer_plainly {env : Env T} (he : ∀ e ∈ env.expired, e.target ≠ idle) :
    Plainly idle k.sched (k.updateHwtimer env).sched := by
  unfold updateHwtimer
  generalize env.expired = es at he ⊢
  induction es generalizing k with
  | nil => exact .refl _ _
  | cons e es ih =>
    exact (expire_plainly (he e List.mem_cons_self)).trans
      (ih fun e' he' => he e' (List.mem_cons_of_mem _ he'))

theorem wakeAll_plainly (hw : (k.lists κ).Within (· ≠ idle)) (n : Nat) :
    Plainly idle k.sched (k.wakeAll κ o n).sched := by
  induction n generalizing k with
  | zero => exact .refl _ _
  | succ n ih =>
    unfold wakeAll removeHeadPthreadList
    split
    · exact .refl _ _
    · rename_i t k₁ hpop
      obtain ⟨ht, rfl⟩ := Prod.mk.inj hpop
      obtain ⟨hrest, hne⟩ := hw.popFront (i := o)
      have hact := activate_plainly (k := k.setLists κ ((k.lists κ).popFront o).2) (hne t ht)
      refine hact.trans (ih ?_)
      simpa using hrest

-- ---------------------------------------------------------------------------
-- The calls
-- ---------------------------------------------------------------------------

/-- Plain calls and `scheduling ()`. -/
def Switches (idle : T) (k k' : Kernel T) : Prop :=
  ∃ s, Plainly idle k.sched s ∧ k'.sched = s.scheduling

def Ends (idle : T) (k k' : Kernel T) : Prop := Switches idle k k' ∨ k'.sched = k.sched

theorem Switches.after {l k' : Kernel T} (h : Switches idle l k')
    (hs : Plainly idle k.sched l.sched) : Switches idle k k' := by
  obtain ⟨s, hplain, hk'⟩ := h
  exact ⟨s, hs.trans hplain, hk'⟩

theorem Ends.of_sched {k₁ k' : Kernel T} (h : Ends idle k₁ k') (hs : k₁.sched = k.sched) :
    Ends idle k k' := by
  rw [Ends, Switches, ← hs]
  exact h

theorem Ends.switch {k₁ : Kernel T} (h : Plainly idle k.sched k₁.sched) {p : Pc T} :
    Ends idle k (k₁.scheduling p) := .inl ⟨_, h, rfl⟩

theorem block_switches (κ : Kind) (o : Nat) (p : Pc T) :
    Switches idle k (((k.suspendThread k.cur).insertPthreadList κ o k.cur).scheduling p) :=
  ⟨_, suspend_plainly, rfl⟩

theorem sleep_switches {env : Env T} (he : ∀ e ∈ env.expired, e.target ≠ idle) (κ : Kind) (o : Nat)
    (p : Pc T) : Switches idle k ((k.insertPthreadList κ o k.cur).sleepFor env p) :=
  ⟨_, Plainly.trans (suspend_plainly (k := (k.insertPthreadList κ o k.cur).armTimer))
    (updateHwtimer_plainly he), rfl⟩

theorem lockReturn_ends (env : Env T) (caller : LockCaller) (r : Ret) :
    Ends idle k (k.lockReturn env m caller r) := by
  cases caller <;> exact .inr rfl

theorem takeMutex_ends (env : Env T) (n : Int) (caller : LockCaller) :
    Ends idle k (k.takeMutex env m n caller) := by
  unfold takeMutex setOwner
  dsimp only
  split
  · exact .switch (change_plainly (k := (k.record (.acquire k.cur m)).setMutex m _))
  · exact (lockReturn_ends env caller .ok).of_sched rfl

theorem mutexLockSys_ends (env : Env T) (caller : LockCaller) :
    Ends idle k (k.mutexLockSys env m caller) := by
  unfold mutexLockSys
  dsimp only
  split
  · exact takeMutex_ends env 1 caller
  · split
    · split
      · exact lockReturn_ends env caller _
      · exact (lockReturn_ends env caller .ok).of_sched rfl
      · exact .inl (block_switches .mutex m _)
    · exact .inl (block_switches .mutex m _)

theorem mutexTrylockSys_ends (env : Env T) : Ends idle k (k.mutexTrylockSys env m) := by
  unfold mutexTrylockSys
  split
  · exact takeMutex_ends env _ .trylock
  · split
    · exact (lockReturn_ends env .trylock .ok).of_sched rfl
    · exact lockReturn_ends env .trylock _

theorem unlockReturn_switches {env : Env T} (he : ∀ e ∈ env.expired, e.target ≠ idle)
    {caller : UnlockCaller} (hc : caller ≠ .unlock) (r : Ret) :
    Switches idle k (k.unlockReturn env m caller r) := by
  cases caller with
  | unlock => exact absurd rfl hc
  | condWait c => exact block_switches .cond c _
  | condTimedwait c abstime d => exact sleep_switches he .cond c _

theorem unlockReturn_ends {env : Env T} (he : ∀ e ∈ env.expired, e.target ≠ idle)
    (caller : UnlockCaller) (r : Ret) : Ends idle k (k.unlockReturn env m caller r) := by
  by_cases hc : caller = .unlock
  · subst hc
    exact .inr rfl
  · exact .inl (unlockReturn_switches he hc r)

variable [Fintype T]

/-- The waiters are woken without a `scheduling ()`. -/
def Unlocks (k : Kernel T) (m : Nat) (k' : Kernel T) : Prop :=
  (k.mutex m).owner = some k.cur ∧
    ¬((k.mutex m).attr.type = .recursive ∧ 0 < int32 ((k.mutex m).counter - 1)) ∧
    ¬k.RestoresPrio m ∧ k'.sched = (k.wakeThreads .mutex m).sched

theorem releaseMutex_ends (hw : ∀ κ, (k.lists κ).Within (· ≠ idle)) {env : Env T}
    (he : ∀ e ∈ env.expired, e.target ≠ idle) (caller : UnlockCaller) :
    Ends idle k (k.releaseMutex env m caller) ∨ caller = .unlock ∧ ¬k.RestoresPrio m ∧
      (k.releaseMutex env m caller).sched = (k.wakeThreads .mutex m).sched := by
  have hwake : Plainly idle k.sched (k.wakeThreads .mutex m).sched := wakeAll_plainly (hw .mutex) _
  have hf : WakeFrame k (k.wakeThreads .mutex m) := wakeAll_frame _ _ _ _
  have hrestores : (k.wakeThreads .mutex m).RestoresPrio m ↔ k.RestoresPrio m := by
    rw [RestoresPrio, RestoresPrio, hf.mutex, hf.cur, hf.prio]
  unfold releaseMutex clearOwner
  dsimp only
  by_cases hr : (k.wakeThreads .mutex m).RestoresPrio m
  · simp only [hr, if_true]
    have hchange : Plainly idle (k.wakeThreads .mutex m).sched _ :=
      change_plainly (t := (k.wakeThreads .mutex m).cur)
        (p := ((k.wakeThreads .mutex m).mutex m).attr.ownerPrio)
        (k := ((k.wakeThreads .mutex m).record (.release (k.wakeThreads .mutex m).cur m)).setMutex m
          { (k.wakeThreads .mutex m).mutex m with owner := none, counter := 0 })
    exact .inl (.switch (hwake.trans hchange))
  · simp only [hr, if_false]
    by_cases hc : caller = .unlock
    · subst hc
      exact .inr ⟨rfl, fun h => hr (hrestores.mpr h), rfl⟩
    · refine .inl (.inl ?_)
      exact (unlockReturn_switches he hc .ok).after
        (l := ((k.wakeThreads .mutex m).record (.release (k.wakeThreads .mutex m).cur m)).setMutex m
          { (k.wakeThreads .mutex m).mutex m with owner := none, counter := 0 }) hwake

theorem mutexUnlockSys_ends (hw : ∀ κ, (k.lists κ).Within (· ≠ idle)) {env : Env T}
    (he : ∀ e ∈ env.expired, e.target ≠ idle) (caller : UnlockCaller) :
    Ends idle k (k.mutexUnlockSys env m caller) ∨
      caller = .unlock ∧ k.Unlocks m (k.mutexUnlockSys env m caller) := by
  unfold mutexUnlockSys
  dsimp only
  split
  · exact .inl (unlockReturn_ends he caller _)
  · rename_i owner ho
    split
    · rename_i hcur
      split
      · exact .inl ((unlockReturn_ends he caller .ok).of_sched rfl)
      · rename_i hlast
        refine (releaseMutex_ends hw he caller).imp_right fun h => ?_
        obtain ⟨rfl, hr, hs⟩ := h
        exact ⟨rfl, hcur ▸ ho, hlast, hr, hs⟩
    · exact .inl (unlockReturn_ends he caller _)

omit [Fintype T] in
theorem condSignalSys_ends (hw : ∀ κ, (k.lists κ).Within (· ≠ idle)) (c : Option Nat) :
    Ends idle k (k.condSignalSys c) := by
  cases c with
  | none => exact .inr rfl
  | some c =>
    simp only [condSignalSys, removeHeadPthreadList]
    obtain ⟨-, hne⟩ := (hw .cond).popFront (i := c)
    split
    · rename_i t k₁ hpop
      obtain ⟨ht, rfl⟩ := Prod.mk.inj hpop
      exact .switch (activate_plainly (k := k.setLists .cond ((k.lists .cond).popFront c).2) (hne t ht))
    · rename_i k₁ hpop
      obtain ⟨-, rfl⟩ := Prod.mk.inj hpop
      exact .inl ⟨_, .refl _ _, rfl⟩

omit [Fintype T] in
theorem semPostSys_ends (hw : ∀ κ, (k.lists κ).Within (· ≠ idle)) (s : Option Nat) :
    Ends idle k (k.semPostSys s) := by
  have hend : ∀ (k₁ : Kernel T) s, k₁.sched = k.sched → (k₁.semPostEnd s).sched = k.sched := by
    intro k₁ s hs
    unfold semPostEnd
    split <;> exact hs
  cases s with
  | none => exact .inr rfl
  | some s =>
    simp only [semPostSys, removeHeadPthreadList]
    obtain ⟨-, hne⟩ := (hw .sem).popFront (i := s)
    split
    · split
      · rename_i t k₁ hpop
        obtain ⟨ht, rfl⟩ := Prod.mk.inj hpop
        exact .switch (activate_plainly (k := k.setLists .sem ((k.lists .sem).popFront s).2) (hne t ht))
      · rename_i k₁ hpop
        obtain ⟨-, rfl⟩ := Prod.mk.inj hpop
        exact .inr (hend _ s rfl)
    · exact .inr (hend k s rfl)

omit [DecidableEq T] [Fintype T] in
theorem semTimedwaitTake_sched (s : Nat) : (k.semTimedwaitTake s).sched = k.sched := by
  unfold semTimedwaitTake
  split <;> rfl

omit [Fintype T] in
theorem semTimedwaitSys_ends {env : Env T} (he : ∀ e ∈ env.expired, e.target ≠ idle)
    (s : Option Nat) (abstime : Option Timespec) : Ends idle k (k.semTimedwaitSys env s abstime) := by
  cases s with
  | none => exact .inr rfl
  | some s =>
    cases abstime with
    | none => exact .inr rfl
    | some abstime =>
      have hsame : (k.semTimedwaitTake s).sched = k.sched := semTimedwaitTake_sched s
      simp only [semTimedwaitSys]
      split
      · exact .inr hsame
      · split
        · exact .inr hsame
        · exact (Ends.of_sched (.inl (sleep_switches he .sem s _)) hsame)

theorem condWaitSys_ends (hw : ∀ κ, (k.lists κ).Within (· ≠ idle)) {env : Env T}
    (he : ∀ e ∈ env.expired, e.target ≠ idle) (c m : Option Nat) :
    Ends idle k (k.condWaitSys env c m) := by
  unfold condWaitSys
  split
  · split
    · rename_i c m _
      exact (mutexUnlockSys_ends hw he (.condWait c)).resolve_right nofun
    · exact .inr rfl
  · exact .inr rfl

theorem condTimedwaitSys_ends (hw : ∀ κ, (k.lists κ).Within (· ≠ idle)) {env : Env T}
    (he : ∀ e ∈ env.expired, e.target ≠ idle) (c m : Option Nat) (abstime : Option Timespec) :
    Ends idle k (k.condTimedwaitSys env c m abstime) := by
  unfold condTimedwaitSys
  split
  · dsimp only
    split
    · exact (mutexUnlockSys_ends hw he _).resolve_right nofun
    · exact .inr rfl
  · exact .inr rfl

/-- What a step of the kernel does to the scheduler. -/
inductive Outcome (idle : T) (k : Kernel T) : Action T → Kernel T → Prop
  | ends : Ends idle k k' → Outcome idle k a k'
  | yields : k'.sched = k.sched.pthreadYield.scheduling → Outcome idle k (.call .yield env) k'
  | kills {u : T} : u ≠ idle → (bit.val : Int) = sig → k'.sched = (k.pthreadKill u bit).sched →
      Outcome idle k (.call (.kill (some u) sig) env) k'
  | unlocks {o : Nat} : k.Unlocks o k' → Outcome idle k (.call (.mutexUnlock o) env) k'

omit [Fintype T] in
theorem record_wakeAll (k : Kernel T) (e : Event T) (κ : Kind) (o n : Nat) :
    (k.record e).wakeAll κ o n = (k.wakeAll κ o n).record e := by
  induction n generalizing k with
  | zero => rfl
  | succ n ih =>
    have hpop : (k.record e).removeHeadPthreadList κ o =
        ((k.removeHeadPthreadList κ o).1, (k.removeHeadPthreadList κ o).2.record e) := rfl
    simp only [wakeAll, hpop]
    rcases k.removeHeadPthreadList κ o with ⟨t, k₁⟩
    cases t with
    | none => rfl
    | some t => exact ih (k₁.activateThread t)

theorem Outcome.of_record {k' : Kernel T} {e : Event T} {a : Action T}
    (h : Outcome idle (k.record e) a k') : Outcome idle k a k' := by
  cases h with
  | ends h => exact .ends h
  | yields h => exact .yields h
  | kills hu hsig h =>
    rw [pthreadKill_sched] at h
    exact .kills hu hsig (h.trans (pthreadKill_sched (k := k)).symm)
  | unlocks h =>
    obtain ⟨ho, hlast, hr, hs⟩ := h
    rw [wakeThreads, record_wakeAll] at hs
    exact .unlocks ⟨ho, hlast, hr, hs⟩

theorem enter_outcome (hw : ∀ κ, (k.lists κ).Within (· ≠ idle)) {env : Env T}
    (he : ∀ e ∈ env.expired, e.target ≠ idle) {c : Call T}
    (hc : ∀ t ∈ c.target, t ≠ idle) : Outcome idle k (.call c env) (k.enter env c) := by
  cases c with
  | semWait s =>
    cases s with
    | none => exact .ends (.inr rfl)
    | some s =>
      simp only [enter, semWaitSys]
      split
      · exact .ends (.inl (block_switches .sem s _))
      · exact .ends (.inr rfl)
  | semTrywait s =>
    cases s with
    | none => exact .ends (.inr rfl)
    | some s =>
      simp only [enter, semTrywaitSys]
      split <;> exact .ends (.inr rfl)
  | semTimedwait s abstime => exact .ends (semTimedwaitSys_ends he s abstime)
  | semPost s => exact .ends (semPostSys_ends hw s)
  | mutexLock m => exact .ends (mutexLockSys_ends env .lock)
  | mutexTrylock m => exact .ends (mutexTrylockSys_ends env)
  | mutexUnlock m =>
    rcases mutexUnlockSys_ends hw he .unlock with h | ⟨-, h⟩
    · exact .ends h
    · exact .unlocks h
  | condSignal c => exact .ends (condSignalSys_ends hw c)
  | condBroadcast c =>
    cases c with
    | none => exact .ends (.inr rfl)
    | some c => exact .ends (.switch (wakeAll_plainly (hw .cond) _))
  | condWait c m => exact .ends (condWaitSys_ends hw he c m)
  | condTimedwait c m abstime => exact .ends (condTimedwaitSys_ends hw he c m abstime)
  | kill t sig =>
    cases t with
    | none => exact .ends (.inr rfl)
    | some t =>
      simp only [enter, pthreadKillSys]
      split
      · rename_i hsig
        exact .kills (hc t rfl) (Int.toNat_of_nonneg hsig.1) rfl
      · exact .ends (.inr rfl)
  | yield => exact .yields rfl
  | sleepThread => exact .ends (.switch suspend_plainly)

omit [Fintype T] in
theorem resume_ends {env : Env T} (he : ∀ e ∈ env.expired, e.target ≠ idle) :
    Ends idle k (k.resume env) := by
  unfold resume
  split
  · exact .inr rfl
  · exact .inr rfl
  · exact .inr rfl
  · rename_i s abstime _
    exact .inr (semTimedwaitTake_sched (k := k.removePthreadList .sem s k.cur) s)
  · rename_i s _
    unfold semPostEnd
    split <;> exact .inr rfl
  · exact mutexLockSys_ends env _
  · exact lockReturn_ends env _ _
  · exact unlockReturn_ends he _ _
  · exact mutexLockSys_ends env _
  · rename_i c m abstime d _
    exact (mutexLockSys_ends (k := k.removePthreadList .cond c k.cur) env _).of_sched rfl

theorem step_outcome {k' : Kernel T} {a : Action T} (hw : ∀ κ, (k.lists κ).Within (· ≠ idle))
    (ha : ∀ t ∈ a.targets, t ≠ idle) (hs : k.step a = some k') : Outcome idle k a k' := by
  have he : ∀ e ∈ a.env.expired, e.target ≠ idle := fun e hmem =>
    ha e.target (List.mem_append_left _ (List.mem_map_of_mem hmem))
  cases a with
  | call c env =>
    simp only [step, Option.ite_none_right_eq_some, Option.some.injEq] at hs
    obtain ⟨-, rfl⟩ := hs
    have hc : ∀ t ∈ c.target, t ≠ idle := fun t ht =>
      ha t (List.mem_append_right _ (Option.mem_toList.mpr ht))
    exact .of_record (enter_outcome (k := k.record (.call k.cur c)) hw he hc)
  | resume env =>
    simp only [step, Option.ite_none_left_eq_some, Option.some.injEq] at hs
    obtain ⟨-, rfl⟩ := hs
    exact .ends (resume_ends he)
  | interrupt env =>
    simp only [step, Option.ite_none_right_eq_some, Option.some.injEq] at hs
    obtain ⟨-, rfl⟩ := hs
    exact .ends (.inl ⟨_, updateHwtimer_plainly he, rfl⟩)

end Kernel

end Xmertl.Partikle
