import Mathlib.Tactic.IntervalCases
import Xmertl.Partikle.WaitLists

/-!
# Releasing the mutex and waiting

`pthread_cond_wait_sys` calls `pthread_mutex_unlock_sys` and then puts its
thread on the condition's list. Where the unlock puts a priority back, it calls
`scheduling ()` in between: another thread may take the mutex and signal before
the first one is on the list, and that signal is lost.
-/

namespace Xmertl.Partikle

variable {T : Type}

def Event.thread : Event T → T
  | .call t _ | .ret t _ _ | .acquire t _ | .release t _ => t

namespace Kernel

/-- `t` is in `pthread_cond_wait_sys` behind its unlock, and nobody has woken it. -/
def InCondWait (k : Kernel T) (t : T) (c m : Nat) : Prop :=
  k.pc t = .unlockPrio m (.condWait c) ∨ k.pc t = .condWait c m ∧ k.state t = .suspended

def OnlyWaiter (k : Kernel T) (t : T) (c : Nat) : Prop :=
  ∀ u, u ≠ t → (k.pc u).waits ≠ some (.cond, c)

instance [Fintype T] [DecidableEq T] (k : Kernel T) (t : T) (c : Nat) :
    Decidable (k.OnlyWaiter t c) := inferInstanceAs (Decidable (∀ u, u ≠ t → _))

/-- A call that should wake `t`, which waits on `c`. -/
def Signals (k : Kernel T) (a : Action T) (t : T) (c : Nat) : Prop :=
  ∃ env, a = .call (.condSignal (some c)) env ∧ k.OnlyWaiter t c ∨
    a = .call (.condBroadcast (some c)) env

variable [DecidableEq T]

/-- The last thing `t` has done is to release `m`, and the running thread has
acquired `m` since. -/
def AcquiredSince (k : Kernel T) (t : T) (m : Nat) : Prop :=
  (k.log.dropWhile (·.thread ≠ t)).head? = some (.release t m) ∧
    .acquire k.cur m ∈ k.log.takeWhile (·.thread ≠ t)

instance (k : Kernel T) (t : T) (m : Nat) : Decidable (k.AcquiredSince t m) :=
  inferInstanceAs (Decidable (_ ∧ _))

/-- Whoever has taken the mutex from a waiter and signals makes the waiter READY. -/
def Delivers (k : Kernel T) (a : Action T) (k' : Kernel T) : Prop :=
  ∀ t c m, k.Signals a t c → k.InCondWait t c m → k.AcquiredSince t m →
    k.state t = .suspended ∧ k'.state t = .ready

/-- The signal comes while the waiter is preempted inside its unlock. -/
def PassesWaiter (k : Kernel T) (a : Action T) : Prop :=
  ∃ t c m, k.Signals a t c ∧ k.pc t = .unlockPrio m (.condWait c) ∧ k.AcquiredSince t m

/-- The unlock in `pthread_cond_wait_sys` puts back a priority at which another
thread, READY or waiting for the mutex, goes first. -/
def GivesWay (k : Kernel T) (a : Action T) : Prop :=
  ∃ c m env, a = .call (.condWait (some c) (some m)) env ∧ k.Releases a m ∧ k.RestoresPrio m ∧
    ∃ u, u ≠ k.cur ∧ (k.state u = .ready ∨ (k.pc u).waits = some (.mutex, m)) ∧
      prio2ij (k.prio u) < prio2ij (k.mutex m).attr.ownerPrio

section
variable {k k' : Kernel T} {L : Kind → Nat → List T}

-- ---------------------------------------------------------------------------
-- A thread on the list is woken
-- ---------------------------------------------------------------------------

theorem condSignalSys_wakes {busy : Option T} (h : Waits early busy k L)
    (honly : k.OnlyWaiter t c) (hs : k.state t = .suspended) (hw : (k.pc t).waits = some (.cond, c))
    (hb : some t ≠ busy) : (k.condSignalSys (some c)).state t = .ready := by
  have hmem : t ∈ L .cond c := h.linked hb hs hw
  have hlist : L .cond c = [t] := by
    have hall : ∀ u ∈ L .cond c, u = t := fun u hu => by
      by_contra hne
      exact honly u hne (h.waits hu)
    have hnodup := (h.models .cond).nodup c
    rw [List.eq_replicate_of_mem hall] at hmem hnodup ⊢
    have hone := List.nodup_replicate.mp hnodup
    have hpos : (L .cond c).length ≠ 0 := (List.mem_replicate.mp hmem).1
    rw [show (L .cond c).length = 1 by omega]
    rfl
  obtain ⟨l, hpop, -⟩ := (h.models .cond).popFront_cons hlist
  have hready : ((k.setLists .cond l).activateThread t).state t = .ready := by
    simp [activateThread_state, hs]
  simpa [condSignalSys, removeHeadPthreadList, hpop] using hready

variable [Fintype T]

theorem SchedOk.delivers (hk : SchedOk k) (h : Waits True none k L) (hq : ¬k.ResumesLinked a)
    (hs : k.step a = some k') (hno : ¬k.PassesWaiter a) : Delivers k a k' := by
  intro t c m hsignals hin hacq
  rcases hin with hpc | ⟨hpc, hsusp⟩
  · exact absurd ⟨t, c, m, hsignals, hpc, hacq⟩ hno
  · refine ⟨hsusp, ?_⟩
    have hw : (k.pc t).waits = some (.cond, c) := by rw [hpc]; rfl
    obtain ⟨env, ⟨rfl, honly⟩ | rfl⟩ := hsignals
    · simp only [Kernel.step, Option.ite_none_right_eq_some, Option.some.injEq] at hs
      obtain ⟨-, rfl⟩ := hs
      exact condSignalSys_wakes (k := k.record _) h honly hsusp hw (by simp)
    · exact (hk.wakesAll h (.inl ⟨trivial, hq⟩) hs).2 c env rfl t hsusp hw

-- ---------------------------------------------------------------------------
-- A thread inside its unlock is READY
-- ---------------------------------------------------------------------------

def Unlocking (k : Kernel T) : Prop :=
  ∀ t m, (k.pc t).unlocking = some m → k.state t = .ready

theorem Unlocking.step (hk : SchedOk k) (h : Unlocking k) (hs : k.step a = some k') :
    Unlocking k' := by
  intro t m ht
  by_cases htc : t = k.cur
  · subst htc
    cases step_shape hs with
    | call _ hi hm he =>
      have hcur : _ = k.cur := hm.cur
      have hstate := (he.unlocking (by rwa [hcur])).2
      rw [hcur] at hstate
      rw [hstate, ← hcur]
      exact ((hk.enters hi).moves hm).ready
    | resume hp hm he =>
      have hcur : _ = k.cur := hm.cur.trans (leave_rest k).2.2.2.2.2.1
      have hstate := (he.unlocking (by rwa [hcur])).2
      rw [hcur] at hstate
      rw [hstate, ← hcur]
      exact ((hk.leaves hp).moves hm).ready
    | @interrupt env hu =>
      have hpc : (k.clockHandler env).pc = k.pc := (updateHwtimer_frame k env).pc
      simp [hpc, hu, Pc.unlocking] at ht
  · rw [step_pc hs htc] at ht
    rcases step_state hs htc with he | he
    · rw [he]
      exact h t m ht
    · exact he

theorem run_unlocking (hr : Runs.Run step (boot c) tr k) : Unlocking k := by
  have hinv : SchedOk k ∧ Unlocking k :=
    hr.invariant (I := fun k => SchedOk k ∧ Unlocking k) (C := fun _ _ => True)
      ⟨boot_schedOk c, fun t m ht => by simp [boot, Pc.unlocking] at ht⟩
      (fun _ _ _ h _ hs => ⟨h.1.step hs, Unlocking.step h.1 h.2 hs⟩) fun _ _ => trivial
  exact hinv.2

-- ---------------------------------------------------------------------------
-- When no thread stays inside the unlock
-- ---------------------------------------------------------------------------

/-- Nobody but the running thread is between its release and its list. -/
def Prompt (k : Kernel T) : Prop :=
  ∀ t c m, k.pc t = .unlockPrio m (.condWait c) → t = k.cur

omit [Fintype T] in
theorem Waits.wakeAll {busy : Option T} (h : Waits early busy k L) (u : T) :
    (k.wakeAll κ o n).state u = k.state u ∨ (k.pc u).waits = some (κ, o) := by
  induction n generalizing k L with
  | zero => exact .inl rfl
  | succ n ih =>
    unfold Kernel.wakeAll
    split
    · exact .inl rfl
    · rename_i t k₁ hpop
      obtain ⟨l, hl, rfl⟩ := removeHeadPthreadList_some hpop
      have hne : (k.activateThread t).state t ≠ .suspended := by
        rw [activateThread_state, if_pos rfl]
        split <;> simp
      have hother (v : T) (hv : v ≠ t) : (k.activateThread t).state v = k.state v := by
        rw [activateThread_state, if_neg hv]
      obtain ⟨xs, hL, hnext⟩ := Waiting.pop h hl hne hother
      by_cases hu : u = t
      · refine .inr (hu ▸ h.waits (o := o) ?_)
        rw [hL]
        exact List.mem_cons_self
      · have hrest := ih (k := (k.setLists κ l).activateThread t) (L := putList L κ o xs) hnext
        simpa [activateThread_state, hu] using hrest

omit [Fintype T] in
theorem unlockReturn_unlocking (k : Kernel T) (env : Env T) (caller : UnlockCaller) (r : Ret) :
    ((k.unlockReturn env m caller r).pc k.cur).unlocking = none := by
  have hexit : Exit ⟨(.mutex, m) :: caller.objects, none, none, env.expired.map Expiry.target⟩ k
      (k.unlockReturn env m caller r) :=
    unlockReturn_exit (by simp) (by simp) fun e he => List.mem_map_of_mem he
  by_contra hne
  obtain ⟨m', hm'⟩ := Option.ne_none_iff_exists'.mp hne
  cases (hexit.unlocking hm').1

theorem mutexUnlockSys_unlocking {caller caller' : UnlockCaller}
    (hp : (k.mutexUnlockSys env m caller).pc k.cur = .unlockPrio m' caller') :
    caller' = caller ∧ (k.mutex m).owner = some k.cur ∧
      ¬((k.mutex m).attr.type = .recursive ∧ 0 < int32 ((k.mutex m).counter - 1)) ∧
      k.RestoresPrio m ∧
      k.mutexUnlockSys env m caller =
        ((k.wakeThreads .mutex m).clearOwner m).scheduling (.unlockPrio m caller) := by
  have hreturn (k₁ : Kernel T) (r : Ret) (hcur : k₁.cur = k.cur) :
      (k₁.unlockReturn env m caller r).pc k.cur ≠ .unlockPrio m' caller' := by
    intro he
    have hnone := unlockReturn_unlocking (m := m) k₁ env caller r
    rw [hcur, he] at hnone
    cases hnone
  unfold mutexUnlockSys at hp ⊢
  simp only at hp ⊢
  split at hp
  · exact absurd hp (hreturn k _ rfl)
  · rename_i owner ho
    split at hp
    · rename_i hcur
      split at hp
      · exact absurd hp (hreturn _ .ok (by simp))
      · rename_i hlast
        have hf : WakeFrame k (k.wakeThreads .mutex m) := wakeAll_frame _ _ _ _
        have hsame : Same k (k.wakeThreads .mutex m) := ⟨hf.mutex, hf.cur, hf.prio⟩
        unfold releaseMutex at hp ⊢
        simp only at hp ⊢
        split at hp
        · rename_i hrestores
          simp only [scheduling_rest, clearOwner_rest, hf.cur, Function.update_self,
            Pc.unlockPrio.injEq] at hp
          rw [ho, if_pos hcur, if_neg hlast, if_pos hrestores]
          exact ⟨hp.2.symm, by rw [hcur], hlast, hsame.restores.mp hrestores, rfl⟩
        · exact absurd hp (hreturn _ .ok (by simp [hf.cur]))
    · exact absurd hp (hreturn k _ rfl)

theorem clearOwner_runs (ha : Active k) (h : Waits early (some k.cur) k L)
    (hr : k.RestoresPrio m)
    (hp : ∀ u, u ≠ k.cur → k.state u = .ready ∨ (k.pc u).waits = some (.mutex, m) →
      prio2ij (k.mutex m).attr.ownerPrio ≤ prio2ij (k.prio u)) :
    (((k.wakeThreads .mutex m).clearOwner m).scheduling p).cur = k.cur := by
  have hf : WakeFrame k (k.wakeThreads .mutex m) := wakeAll_frame _ _ _ _
  have hsame : Same k (k.wakeThreads .mutex m) := ⟨hf.mutex, hf.cur, hf.prio⟩
  have hactive : Active (k.wakeThreads .mutex m) := ha.frame hf
  have hruns := hactive.wf.changeThreadPrio_runs (p := (k.mutex m).attr.ownerPrio) hactive.ready
    fun u hu hready => ?_
  · rw [← hf.cur, ← hruns, ← hf.mutex]
    unfold clearOwner
    rw [if_pos (hsame.restores.mpr hr)]
    rfl
  · have hprio : ((k.wakeThreads .mutex m).sched.thread u).schedPriority = k.prio u :=
      congrFun hf.prio u
    rw [hprio]
    rw [hf.cur] at hu
    refine hp u hu ?_
    rcases Waits.wakeAll h u with he | hw
    · exact .inl (he.symm.trans hready)
    · exact .inr hw

theorem Prompt.step (h : Prompt k) (hk : SchedOk k) (hL : Waits True none k L)
    (hq : ¬k.ResumesLinked a) (hg : ¬k.GivesWay a) (hs : k.step a = some k') : Prompt k' := by
  intro t c m ht
  by_cases htc : t = k.cur
  · subst htc
    have hl : (k.scope a).unlocks = some m := step_unlocking hs (by rw [ht]; rfl)
    cases a with
    | call call env =>
      simp only [Kernel.step, Option.ite_none_right_eq_some, Option.some.injEq] at hs
      obtain ⟨⟨hu, hi⟩, rfl⟩ := hs
      obtain ⟨L', hL'⟩ := (hk.inCall_call hL (.inl ⟨trivial, hq⟩) hu hi).waits
      change call.unlocks = some m at hl
      cases call with
      | mutexUnlock m' =>
        obtain ⟨hcaller, -⟩ := mutexUnlockSys_unlocking (k := k.record _) ht
        cases hcaller
      | condWait c' m' =>
        cases c' <;> cases m' <;> simp only [Call.unlocks, Option.some.injEq, reduceCtorEq] at hl
        rename_i c' m'
        subst hl
        simp only [enter, condWaitSys] at ht ⊢
        split at ht
        · rename_i ho
          rw [if_pos ho]
          obtain ⟨-, -, hlast, hrestores, heq⟩ := mutexUnlockSys_unlocking (k := k.record _) ht
          rw [heq]
          refine (clearOwner_runs (hk.enters hi) hL' hrestores fun u hne hcand => ?_).symm
          refine Nat.le_of_not_lt fun hlt => hg ?_
          exact ⟨c', m', env, rfl, ⟨rfl, ho, hlast⟩, hrestores, u, hne, hcand, hlt⟩
        · simp at ht
      | condTimedwait c' m' abstime =>
        cases c' <;> cases m' <;> cases abstime <;>
          simp only [Call.unlocks, Option.some.injEq, reduceCtorEq] at hl
        simp only [enter, condTimedwaitSys] at ht
        split at ht
        · obtain ⟨hcaller, -⟩ := mutexUnlockSys_unlocking (k := k.record _) ht
          cases hcaller
        · simp at ht
      | _ => cases hl
    | resume env => cases hl
    | interrupt env => cases hl
  · rw [step_pc hs htc] at ht
    exact absurd (h t c m ht) htc

omit [Fintype T] in
theorem Prompt.not_passesWaiter [Fintype T] (h : Prompt k) (hs : k.step a = some k') :
    ¬k.PassesWaiter a := by
  rintro ⟨t, c, m, ⟨env, hsignals⟩, hpc, -⟩
  rw [h t c m hpc] at hpc
  rcases hsignals with ⟨rfl, -⟩ | rfl <;> simp [Kernel.step, hpc] at hs

theorem run_prompt (hr : Runs.Run step (boot c) tr k) (hq : ∀ e ∈ tr, ¬e.1.ResumesLinked e.2)
    (hg : ∀ e ∈ tr, ¬e.1.GivesWay e.2) : Prompt k := by
  have hinv : SchedOk k ∧ (∃ L, Waits True none k L) ∧ Prompt k := by
    refine hr.invariant (I := fun k => SchedOk k ∧ (∃ L, Waits True none k L) ∧ Prompt k)
      (C := fun k a => ¬k.ResumesLinked a ∧ ¬k.GivesWay a)
      ⟨boot_schedOk c, ⟨_, boot_waits c⟩, fun t c m ht => by simp [boot] at ht⟩ ?_
      fun e he => ⟨hq e he, hg e he⟩
    rintro k a k' ⟨hk, ⟨L, hL⟩, hprompt⟩ ⟨hq, hg⟩ hs
    exact ⟨hk.step hs, hk.waits_step hL (.inl ⟨trivial, hq⟩) hs, hprompt.step hk hL hq hg hs⟩
  exact hinv.2.2

/-- `pthread_cond_wait_sys` loses no signal exactly when none comes while a waiter
is preempted inside its unlock; and none does where no unlock there gives way. -/
theorem condWait_atomic {c : Config T} {tr : List (Kernel T × Action T)} {k : Kernel T}
    (hr : Runs.Run step (boot c) tr k) (hq : ∀ e ∈ tr, ¬e.1.ResumesLinked e.2) :
    ((∀ e ∈ tr, ∀ y, e.1.step e.2 = some y → Delivers e.1 e.2 y) ↔
      ∀ e ∈ tr, ¬e.1.PassesWaiter e.2) ∧
    ((∀ e ∈ tr, ¬e.1.GivesWay e.2) → ∀ e ∈ tr, ¬e.1.PassesWaiter e.2) := by
  refine ⟨⟨fun hd e he hpass => ?_, fun hno e he y hy => ?_⟩, fun hg e he => ?_⟩
  · obtain ⟨y, hy, -⟩ := hr.post_visited he
    obtain ⟨tr', -, hr'⟩ := hr.toVisited (.pre he)
    obtain ⟨t, c, m, hsignals, hpc, hacq⟩ := hpass
    have hsusp := (hd e he y hy t c m hsignals (.inl hpc) hacq).1
    have hready := run_unlocking hr' t m (by rw [hpc]; rfl)
    rw [hready] at hsusp
    cases hsusp
  · obtain ⟨tr', hsub, hr'⟩ := hr.toVisited (.pre he)
    obtain ⟨L, hL⟩ := run_waits True hr' fun e he => .inl ⟨trivial, hq e (hsub.subset he)⟩
    exact (run_schedOk hr').delivers hL (hq e he) hy (hno e he)
  · obtain ⟨tr', hsub, hr'⟩ := hr.toVisited (.pre he)
    obtain ⟨y, hy, -⟩ := hr.post_visited he
    have hprompt : Prompt e.1 :=
      run_prompt hr' (fun e he => hq e (hsub.subset he)) fun e he => hg e (hsub.subset he)
    exact hprompt.not_passesWaiter hy

end

end Kernel

-- ---------------------------------------------------------------------------
-- A signal before the waiter is on the list
-- ---------------------------------------------------------------------------

/-- A mutex whose ceiling lifts both threads. -/
def twoThreadsCeiling : Config (Fin 3) :=
  { twoThreads with attr := fun _ => { prioProtection := .protect, prio := 0 } }

/-- The same, with thread 2 ahead of thread 1. -/
def twoThreadsReversed : Config (Fin 3) :=
  { twoThreadsCeiling with prio := fun t => 30 - 10 * t.val }

/-- Thread 1 waits and thread 2 signals. -/
theorem condWait_atomic_signalled :
    ∃ tr k, Runs.Run Kernel.step (Kernel.boot twoThreadsCeiling) tr k ∧ k.state 1 = .ready ∧
      (∃ e ∈ tr, e.1.state 1 = .suspended ∧ e.1.AcquiredSince 1 0) ∧
      ∀ e ∈ tr, ∀ y, e.1.step e.2 = some y → Kernel.Delivers e.1 e.2 y := by
  have hrun : (Runs.exec Kernel.step (Kernel.boot twoThreadsCeiling)
      [.call (.mutexLock 0) {}, .resume {}, .call (.condWait (some 0) (some 0)) {}, .resume {},
        .call (.mutexLock 0) {}, .resume {}, .call (.condSignal (some 0)) {}]).any fun r =>
      decide (r.2.state 1 = .ready) &&
      (r.1.any fun e => decide (e.1.state 1 = .suspended ∧ e.1.AcquiredSince 1 0)) &&
      (r.1.all fun e => e.2.targets.isEmpty) &&
      -- the wait is the third of seven calls, the last one standing first
      r.1[4]?.all fun e => decide (∀ u, u ≠ e.1.cur →
        e.1.state u = .ready ∨ (e.1.pc u).waits = some (.mutex, 0) →
          ¬prio2ij (e.1.prio u) < prio2ij (e.1.mutex 0).attr.ownerPrio) := by decide +kernel
  obtain ⟨tr, k, hr, hactions, hk⟩ := Runs.exec_any_actions hrun
  simp only [Bool.and_eq_true, decide_eq_true_eq, List.all_eq_true, List.any_eq_true,
    List.isEmpty_iff, Option.all_eq_true] at hk
  obtain ⟨⟨⟨hready, hwaiting⟩, htargets⟩, hwait⟩ := hk
  have hcalm : ∀ e ∈ tr, e.1.NoEarlyWake e.2 := by
    intro e he t ht
    simp [htargets e he] at ht
  have hgives : ∀ e ∈ tr, ¬e.1.GivesWay e.2 := by
    rintro e he ⟨c, m, env, ha, -, -, u, hu, hcand, hlt⟩
    obtain ⟨i, hi⟩ := List.getElem?_of_mem he
    have haction : (tr.map Prod.snd)[i]? = some (.call (.condWait (some c) (some m)) env) := by
      rw [List.getElem?_map, hi, Option.map_some, ha]
    rw [hactions] at haction
    have hlt' : i < 7 := (List.getElem?_eq_some_iff.mp haction).1
    interval_cases i <;> cases haction
    exact hwait e hi u hu hcand hlt
  obtain ⟨hiff, hpasses⟩ :=
    Kernel.condWait_atomic hr (Kernel.run_not_resumesLinked hr hcalm)
  exact ⟨tr, k, hr, hready, hwaiting, hiff.mpr (hpasses hgives)⟩

/-- Thread 2 signals while thread 1 is inside its unlock; thread 1 then sleeps on. -/
theorem condWait_not_atomic :
    ∃ tr k, Runs.Run Kernel.step (Kernel.boot twoThreadsReversed) tr k ∧
      k.state 1 = .suspended ∧ k.pc 1 = .condWait 0 0 ∧
      ∃ e ∈ tr, ∃ y, e.1.step e.2 = some y ∧ ¬Kernel.Delivers e.1 e.2 y := by
  have hrun : (Runs.exec Kernel.step (Kernel.boot twoThreadsReversed)
      [.call (.semWait (some 0)) {}, .call (.mutexLock 0) {}, .resume {},
        .call (.semPost (some 0)) {}, .resume {}, .call (.condWait (some 0) (some 0)) {},
        .resume {}, .call (.mutexLock 0) {}, .resume {}, .call (.condSignal (some 0)) {},
        .resume {}, .call (.mutexUnlock 0) {}, .resume {}, .call (.semWait (some 0)) {},
        .resume {}]).any fun r =>
      decide (r.2.state 1 = .suspended ∧ r.2.pc 1 = .condWait 0 0) &&
      -- the signal is the tenth of fifteen calls
      r.1[5]?.any fun e => decide (e.1.pc 1 = .unlockPrio 0 (.condWait 0) ∧
        e.1.state 1 = .ready ∧ e.1.OnlyWaiter 1 0 ∧ e.1.AcquiredSince 1 0) := by decide +kernel
  obtain ⟨tr, k, hr, hactions, hk⟩ := Runs.exec_any_actions hrun
  simp only [Bool.and_eq_true, decide_eq_true_eq, Option.any_eq_true] at hk
  obtain ⟨⟨hsusp, hpc⟩, e, he, hunlock, hready, honly, hacq⟩ := hk
  have ha : e.2 = .call (.condSignal (some 0)) {} := by
    have haction : (tr.map Prod.snd)[5]? = some e.2 := by
      rw [List.getElem?_map, he, Option.map_some]
    rw [hactions] at haction
    exact (Option.some.inj haction).symm
  have he := List.mem_of_getElem? he
  refine ⟨tr, k, hr, hsusp, hpc, e, he, ?_⟩
  obtain ⟨y, hy, -⟩ := hr.post_visited he
  refine ⟨y, hy, fun h => ?_⟩
  have hsleeps := (h 1 0 0 ⟨{}, .inl ⟨ha, honly⟩⟩ (.inl hunlock) hacq).1
  rw [hready] at hsleeps
  cases hsleeps

end Xmertl.Partikle
