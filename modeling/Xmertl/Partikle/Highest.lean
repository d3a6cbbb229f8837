import Mathlib.Data.Fintype.Option
import Xmertl.Partikle.ThreadBase

/-!
# The thread of highest priority runs

What `scheduling ()` chooses has the least priority number of the READY threads. The calls
that wake threads and return without it are `pthread_kill_sys` (with the signals of
`pthread_cancel`) and the last unlock of a mutex whose owner keeps its priority.
-/

namespace Xmertl.Partikle

open Runs
open IntrusiveList (Lists)

variable {T : Type}

def PrioOk (p : Int) : Prop := 0 ≤ p ∧ p ≤ 1023

instance (p : Int) : Decidable (PrioOk p) := inferInstanceAs (Decidable (_ ∧ _))

-- ---------------------------------------------------------------------------
-- The scheduler
-- ---------------------------------------------------------------------------

namespace Sched

/-- No READY thread should run in the place of the one that does. -/
def Top (s : Sched T) : Prop :=
  (s.currentThread = s.idleThread → ∀ t, (s.thread t).state ≠ .ready) ∧
    (s.currentThread ≠ s.idleThread → ∀ t, (s.thread t).state = .ready →
      (s.thread s.currentThread).schedPriority ≤ (s.thread t).schedPriority)

section
variable {s s' : Sched T}

theorem scheduling_top (h : Filed s) (hi : ¬s.Linked s.idleThread)
    (hp : ∀ t, PrioOk (s.thread t).schedPriority) : Top s.scheduling := by
  have hindex : ∀ t, (prio2ij (s.thread t).schedPriority : Int) = (s.thread t).schedPriority := by
    intro t
    have := hp t
    unfold PrioOk at this
    unfold prio2ij
    omega
  unfold Sched.scheduling
  cases hh : s.getHeadSs with
  | none =>
    refine ⟨fun _ t ht => ?_, fun hne => absurd rfl hne⟩
    obtain ⟨i, hmem⟩ := h.ready t ht
    have hlt : i < 0 + 1024 := by
      have := h.lt hmem
      omega
    have hnil := headFrom_none hh (Nat.zero_le i) hlt
    rw [hnil] at hmem
    cases hmem
  | some u =>
    obtain ⟨j, -, -, hj, hempty⟩ := headFrom_some hh
    have hu : u ∈ s.threadMatrix j := List.mem_of_mem_head? hj
    refine ⟨fun he => absurd (⟨j, hu⟩ : s.Linked u) ?_, fun _ t ht => ?_⟩
    · have hue : u = s.idleThread := he
      rw [hue]
      exact hi
    · obtain ⟨i, hmem⟩ := h.ready t ht
      have hij : j ≤ i := by
        by_contra hlt
        have hnil := hempty i (Nat.zero_le i) (by omega)
        rw [hnil] at hmem
        cases hmem
      have hut := hindex u
      have htt := hindex t
      rw [← (h.linked j u hu).2.1] at hut
      rw [← (h.linked i t hmem).2.1] at htt
      change (s.thread u).schedPriority ≤ (s.thread t).schedPriority
      omega

theorem Top.woken (h : Top s) (hi : s.currentThread ≠ s.idleThread)
    (hc : s'.currentThread = s.currentThread) (hidle : s'.idleThread = s.idleThread)
    (hp : ∀ t, (s'.thread t).schedPriority = (s.thread t).schedPriority)
    (hr : ∀ t, (s'.thread t).state = .ready → (s.thread t).state = .ready ∨
      (s.thread s.currentThread).schedPriority ≤ (s.thread t).schedPriority) : Top s' := by
  refine ⟨fun he => absurd (by rw [← hc, ← hidle]; exact he) hi, fun _ t ht => ?_⟩
  rw [hc, hp, hp]
  rcases hr t ht with hr | hle
  · exact h.2 hi t hr
  · exact hle

variable [DecidableEq T]

def SetsPrio : SchedCall T → Int → Prop
  | .createPthread _ p, q | .changeThreadPrio _ p, q => q = p
  | _, _ => False

theorem call_prio {c : SchedCall T} (t : T) :
    ((s.call c).thread t).schedPriority = (s.thread t).schedPriority ∨
      SetsPrio c ((s.call c).thread t).schedPriority := by
  cases c with
  | createPthread u p =>
    by_cases htu : t = u
    · exact .inr (by simp [SetsPrio, call, modify_thread, htu])
    · exact .inl (by simp [call, createPthreadStruct, modify_thread, htu])
  | changeThreadPrio u p =>
    simp only [call, SetsPrio, changeThreadPrio_prio]
    by_cases htu : t = u
    · exact .inr (if_pos htu)
    · exact .inl (if_neg htu)
  | deletePthread u =>
    left
    by_cases htu : t = u <;> simp [call, deletePthreadStruct, removeSs_thread, htu]
  | suspendThread u => exact .inl (suspendThread_prio _ _ _)
  | activateThread u => exact .inl (activateThread_prio _ _ _)
  | finishThread u =>
    left
    by_cases htu : t = u <;> simp [call, finishThread, modify_thread, removeSs_thread, htu]
  | yield => exact .inl (pthreadYield_prio _ _)
  | scheduling => exact .inl rfl
  | signals u p m b =>
    left
    by_cases htu : t = u <;> simp [call, modify_thread, htu]

theorem calls_prioOk {cs : List (SchedCall T)} (h : ∀ t, PrioOk (s.thread t).schedPriority)
    (hcs : ∀ c ∈ cs, ∀ p, SetsPrio c p → PrioOk p) :
    ∀ t, PrioOk ((s.calls cs).thread t).schedPriority := by
  induction cs generalizing s with
  | nil => exact h
  | cons c cs ih =>
    refine ih (s := s.call c) (fun t => ?_) fun c' hc' => hcs c' (List.mem_cons_of_mem _ hc')
    rcases call_prio (s := s) (c := c) t with he | hset
    · rw [he]
      exact h t
    · exact hcs c List.mem_cons_self _ hset

/-- Calls that leave the running thread alone and make no thread READY. -/
def Quiet (cur : T) : SchedCall T → Prop
  | .createPthread t _ => t ≠ cur
  | .deletePthread _ | .finishThread _ | .signals _ _ _ _ => True
  | _ => False

theorem Top.quiet (h : Top s) {c : SchedCall T} (hc : Quiet s.currentThread c) :
    Top (s.call c) ∧ (s.call c).currentThread = s.currentThread := by
  have hcur : (s.call c).currentThread = s.currentThread := by
    cases c with
    | createPthread | deletePthread | finishThread | signals =>
      simp [call, createPthreadStruct, deletePthreadStruct, finishThread]
    | _ => exact absurd hc id
  have hidle : (s.call c).idleThread = s.idleThread := call_idle
  have hready : ∀ t, ((s.call c).thread t).state = .ready → (s.thread t).state = .ready ∧
      ((s.call c).thread t).schedPriority = (s.thread t).schedPriority := by
    intro t ht
    cases c with
    | createPthread u p =>
      rw [createPthread_state] at ht
      by_cases htu : t = u
      · simp [htu] at ht
      · rw [if_neg htu] at ht
        exact ⟨ht, by simp [call, createPthreadStruct, modify_thread, htu]⟩
    | deletePthread u =>
      refine ⟨deletePthreadStruct_state.symm.trans ht, ?_⟩
      by_cases htu : t = u <;> simp [call, deletePthreadStruct, removeSs_thread, htu]
    | finishThread u =>
      simp only [call, finishThread_state] at ht
      by_cases htu : t = u
      · simp [htu] at ht
      · rw [if_neg htu] at ht
        exact ⟨ht, by simp [call, finishThread, modify_thread, removeSs_thread, htu]⟩
    | signals u p m b =>
      refine ⟨signals_state.symm.trans ht, ?_⟩
      by_cases htu : t = u <;> simp [call, modify_thread, htu]
    | _ => exact absurd hc id
  have hprio : ((s.call c).thread s.currentThread).schedPriority =
      (s.thread s.currentThread).schedPriority := by
    rcases call_prio (s := s) (c := c) s.currentThread with he | hset
    · exact he
    · cases c with
      | createPthread u p =>
        have hne : s.currentThread ≠ u := Ne.symm hc
        simp [call, createPthreadStruct, modify_thread, hne]
      | deletePthread | finishThread | signals => exact absurd hset id
      | _ => exact absurd hc id
  refine ⟨⟨fun he t ht => ?_, fun hne t ht => ?_⟩, hcur⟩
  · rw [hcur, hidle] at he
    exact h.1 he t (hready t ht).1
  · rw [hcur, hidle] at hne
    rw [hcur, hprio, (hready t ht).2]
    exact h.2 hne t (hready t ht).1

theorem Top.quiets (h : Top s) {cs : List (SchedCall T)}
    (hcs : ∀ c ∈ cs, Quiet s.currentThread c) : Top (s.calls cs) := by
  induction cs generalizing s with
  | nil => exact h
  | cons c cs ih =>
    obtain ⟨htop, hcur⟩ := h.quiet (hcs c List.mem_cons_self)
    refine ih htop fun c' hc' => ?_
    rw [hcur]
    exact hcs c' (List.mem_cons_of_mem _ hc')

end

end Sched

-- ---------------------------------------------------------------------------
-- What the thread calls do
-- ---------------------------------------------------------------------------

namespace Threads

variable [DecidableEq T]

/-- Priorities come from the attributes, which are checked, or from the caller. -/
def ThreadSets (a : ThreadAction T) (c : SchedCall T) : Prop :=
  ∀ p, Sched.SetsPrio c p → PrioOk p ∨ ∃ t, a = .setschedparam (some t) (some p)

/-- The mutexes are left alone, and either no thread becomes READY or the scheduler is
called last. -/
def Does (x : Threads T) (a : ThreadAction T) (y : Threads T) : Prop :=
  y.kernel.mutex = x.kernel.mutex ∧ ∃ cs : List (SchedCall T), (∀ c ∈ cs, ThreadSets a c) ∧
    ((∀ c ∈ cs, Sched.Quiet x.cur c) ∧ y.kernel.sched = x.kernel.sched.calls cs ∨
      y.kernel.sched = (x.kernel.sched.calls cs).scheduling)

section
variable {x y : Threads T} {a : ThreadAction T}

theorem does_nothing (hm : y.kernel.mutex = x.kernel.mutex) (hs : y.kernel.sched = x.kernel.sched) :
    Does x a y := ⟨hm, [], by simp, .inl ⟨by simp, hs⟩⟩

theorem does_quiet (cs : List (SchedCall T)) (hm : y.kernel.mutex = x.kernel.mutex)
    (hs : y.kernel.sched = x.kernel.sched.calls cs) (hc : ∀ c ∈ cs, Sched.Quiet x.cur c)
    (hp : ∀ c ∈ cs, ThreadSets a c) : Does x a y := ⟨hm, cs, hp, .inl ⟨hc, hs⟩⟩

theorem does_switch (cs : List (SchedCall T)) (hm : y.kernel.mutex = x.kernel.mutex)
    (hs : y.kernel.sched = (x.kernel.sched.calls cs).scheduling)
    (hp : ∀ c ∈ cs, ThreadSets a c) : Does x a y := ⟨hm, cs, hp, .inr hs⟩

theorem ret_does (r : Ret) : Does x a (x.ret r) := does_nothing rfl rfl

theorem createSys_does (hc : x.created x.cur = true) {o : Option T}
    (hs : x.createSys o attr stack = some y) : Does x a y := by
  unfold createSys at hs
  split at hs
  · exact Option.some.inj hs ▸ ret_does _
  · rename_i hattr
    cases o with
    | none => exact Option.some.inj hs ▸ ret_does _
    | some t =>
      simp only [Option.ite_none_right_eq_some] at hs
      obtain ⟨⟨ht, -⟩, hs⟩ := hs
      have htc : t ≠ x.cur := by
        rintro rfl
        rw [hc] at ht
        cases ht
      have hnew : ∃ prio d, PrioOk prio ∧ (if stack = true then
          some (((x.newThread t prio d).call (.activateThread t)).scheduling .create)
          else some ((x.newThread t prio d).ret (.fail .eagain))) = some y := by
        cases attr with
        | none => exact ⟨_, _, by decide, hs⟩
        | some at' =>
          refine ⟨_, _, ?_, hs⟩
          simp only [Option.any_some, Bool.or_eq_true, decide_eq_true_eq, not_or] at hattr
          unfold PrioOk
          unfold minSchedPriority maxSchedPriority at hattr
          omega
      obtain ⟨prio, d, hp, hs⟩ := hnew
      have hsets : ThreadSets a (.createPthread t prio) := fun p hset => .inl (by
        rw [show p = prio from hset]
        exact hp)
      split at hs
      · obtain rfl := Option.some.inj hs
        refine does_switch [.createPthread t prio, .activateThread t] rfl rfl fun c hmem => ?_
        simp only [List.mem_cons, List.not_mem_nil, or_false] at hmem
        rcases hmem with rfl | rfl
        · exact hsets
        · exact nofun
      · obtain rfl := Option.some.inj hs
        refine does_quiet [.createPthread t prio] rfl rfl ?_ ?_ <;> intro c hmem <;>
          obtain rfl := List.mem_singleton.mp hmem
        · exact htc
        · exact hsets

theorem joinSys_does {o : Option T} (hs : x.joinSys o = some y) : Does x a y := by
  cases o with
  | none => exact Option.some.inj hs ▸ ret_does _
  | some t =>
    simp only [joinSys, Option.ite_none_left_eq_some] at hs
    obtain ⟨-, hs⟩ := hs
    split at hs
    · exact Option.some.inj hs ▸ ret_does _
    · unfold joinLoop at hs
      split at hs
      · obtain rfl := Option.some.inj hs
        exact does_switch [.suspendThread x.cur] rfl rfl (by simp [ThreadSets, Sched.SetsPrio])
      · split at hs
        · cases hs
        · obtain rfl := Option.some.inj hs
          exact does_quiet [.deletePthread t] rfl rfl (by simp [Sched.Quiet])
            (by simp [ThreadSets, Sched.SetsPrio])

theorem detachSys_does {o : Option T} (hs : x.detachSys o = some y) : Does x a y := by
  cases o with
  | none => exact Option.some.inj hs ▸ ret_does _
  | some t =>
    simp only [detachSys, Option.ite_none_left_eq_some] at hs
    obtain ⟨-, hs⟩ := hs
    split at hs
    · exact Option.some.inj hs ▸ ret_does _
    · obtain ⟨j, -, rfl⟩ := Option.map_eq_some_iff.mp hs
      exact does_switch [.activateThread j] rfl rfl (by simp [ThreadSets, Sched.SetsPrio])

theorem setschedparamSys_does {o : Option T} {param : Option Int}
    (hs : x.setschedparamSys o param = some y) : Does x (.setschedparam o param) y := by
  cases o with
  | none => exact Option.some.inj hs ▸ ret_does _
  | some t =>
    simp only [setschedparamSys, Option.ite_none_left_eq_some] at hs
    obtain ⟨-, hs⟩ := hs
    cases param with
    | none => exact Option.some.inj hs ▸ ret_does _
    | some p =>
      obtain rfl := Option.some.inj hs
      refine does_switch [.changeThreadPrio t p] rfl rfl fun c hmem q hset => ?_
      obtain rfl := List.mem_singleton.mp hmem
      exact .inr ⟨t, by rw [show q = p from hset]⟩

theorem exitEnd_does (hs : x.exitEnd = some y) : Does x a y := by
  simp only [exitEnd, Option.ite_none_left_eq_some, Option.some.injEq] at hs
  obtain ⟨-, rfl⟩ := hs
  unfold wakeJoining
  split
  · rename_i j _ _
    exact does_switch [.activateThread j] rfl rfl (by simp [ThreadSets, Sched.SetsPrio])
  · exact does_switch [] rfl rfl (by simp)

theorem deleteNpSys_does (hs : x.deleteNpSys t = some y) : Does x a y := by
  simp only [deleteNpSys, Option.ite_none_left_eq_some, Option.some.injEq] at hs
  obtain ⟨-, rfl⟩ := hs
  exact does_switch [.finishThread t, .deletePthread t] rfl rfl
    (by simp [ThreadSets, Sched.SetsPrio])

theorem setSignals_does : Does x a (x.setSignals p m b) :=
  does_quiet [.signals x.cur p m b] rfl rfl (by simp [Sched.Quiet])
    (by simp [ThreadSets, Sched.SetsPrio])

theorem suspendForSignal_does : Does x a (x.suspendForSignal mask b p) :=
  does_switch [.signals x.cur _ _ _, .suspendThread x.cur] rfl rfl
    (by simp [ThreadSets, Sched.SetsPrio])

theorem sigwaitSys_does (set : Option (BitVec 32)) : Does x a (x.sigwaitSys set) := by
  cases set with
  | none => exact ret_does _
  | some set =>
    simp only [sigwaitSys]
    split
    · rename_i z hs
      obtain ⟨sig, -, rfl⟩ := Option.map_eq_some_iff.mp hs
      exact setSignals_does
    · exact suspendForSignal_does

theorem sigwaitEnd_does (set old : BitVec 32) : Does x a (x.sigwaitEnd set old) := by
  unfold sigwaitEnd
  dsimp only
  split
  · rename_i z hs
    obtain ⟨sig, -, rfl⟩ := Option.map_eq_some_iff.mp hs
    exact does_quiet [.signals x.cur _ _ _, .signals x.cur _ _ _] rfl rfl (by simp [Sched.Quiet])
      (by simp [ThreadSets, Sched.SetsPrio])
  · exact setSignals_does

theorem resume_does (hs : x.resume p = some y) : Does x a y := by
  cases p with
  | create | detach | setschedparam | delete => exact Option.some.inj hs ▸ ret_does _
  | join t => exact joinSys_does (o := some t) hs
  | exit => exact Option.some.inj hs ▸ does_nothing rfl rfl
  | sigsuspend old => exact Option.some.inj hs ▸ setSignals_does
  | sigwait set old => exact Option.some.inj hs ▸ sigwaitEnd_does set old

theorem syscall_does [Fintype T] (hc : x.created x.cur = true) (hs : x.syscall a = some y) :
    Does x a y ∨ ∃ t, a = .cancel (some t) ∧ y.kernel = x.kernel.pthreadKill t cancelSignal := by
  have hpop : Does x a x.cleanupPopSys := by
    unfold cleanupPopSys
    split <;> exact does_nothing rfl rfl
  cases a with
  | create o attr stack => exact .inl (createSys_does hc hs)
  | join o => exact .inl (joinSys_does hs)
  | detach o => exact .inl (detachSys_does hs)
  | cancel o =>
    cases o with
    | none => exact .inl (Option.some.inj hs ▸ ret_does _)
    | some t =>
      simp only [syscall, cancelSys, Option.ite_none_left_eq_some, Option.some.injEq] at hs
      exact .inr ⟨t, rfl, hs.2 ▸ rfl⟩
  | cleanupPush =>
    obtain rfl := Option.some.inj hs
    refine .inl ?_
    unfold cleanupPushSys
    split <;> exact does_nothing rfl rfl
  | cleanupPop => exact .inl (Option.some.inj hs ▸ hpop)
  | setschedparam o param => exact .inl (setschedparamSys_does hs)
  | exit =>
    refine .inl (Option.some.inj hs ▸ ?_)
    exact does_quiet [.finishThread x.cur] rfl rfl (by simp [Sched.Quiet])
      (by simp [ThreadSets, Sched.SetsPrio])
  | cleanupHandler =>
    simp only [syscall, Option.ite_none_right_eq_some, Option.some.injEq] at hs
    exact .inl (hs.2 ▸ hpop)
  | exitEnd =>
    simp only [syscall, Option.ite_none_right_eq_some] at hs
    exact .inl (exitEnd_does hs.2)
  | deleteNp t => exact .inl (deleteNpSys_does hs)
  | sigsuspend mask => exact .inl (Option.some.inj hs ▸ suspendForSignal_does)
  | sigwait set => exact .inl (Option.some.inj hs ▸ sigwaitSys_does set)
  | signals p m => exact .inl (Option.some.inj hs ▸ setSignals_does)
  | kernel a => cases hs
  | resume => cases hs

end

-- ---------------------------------------------------------------------------
-- Priorities stay in range
-- ---------------------------------------------------------------------------

/-- Every thread's, every ceiling and what the owners will get back. -/
structure Prios (k : Kernel T) : Prop where
  thread : ∀ t, PrioOk (k.prio t)
  ceiling : ∀ m, (k.mutex m).attr.prioProtection = .protect → PrioOk (k.mutex m).attr.prio
  saved : ∀ m t, (k.mutex m).owner = some t → (k.mutex m).attr.prioProtection = .protect →
    PrioOk (k.mutex m).attr.ownerPrio

section
variable {k k' : Kernel T}

omit [DecidableEq T] in
theorem Prios.of_eq (h : Prios k) (hm : k'.mutex = k.mutex) (hp : ∀ t, PrioOk (k'.prio t)) :
    Prios k' where
  thread := hp
  ceiling m := by rw [hm]; exact h.ceiling m
  saved m t := by rw [hm]; exact h.saved m t

omit [DecidableEq T] in
theorem Prios.update (h : Prios k) {m : Nat} {mutex : Mutex T}
    (hm : k'.mutex = Function.update k.mutex m mutex) (hp : ∀ t, PrioOk (k'.prio t))
    (hceil : mutex.attr.prioProtection = .protect → PrioOk mutex.attr.prio)
    (hsaved : ∀ t, mutex.owner = some t → mutex.attr.prioProtection = .protect →
      PrioOk mutex.attr.ownerPrio) : Prios k' where
  thread := hp
  ceiling o := by
    by_cases hom : o = m
    · subst hom
      rw [hm, Function.update_self]
      exact hceil
    · rw [hm, Function.update_of_ne hom]
      exact h.ceiling o
  saved o := by
    by_cases hom : o = m
    · subst hom
      rw [hm, Function.update_self]
      exact hsaved
    · rw [hm, Function.update_of_ne hom]
      exact h.saved o

theorem Prios.mutexStep (h : Prios k) (hs : Kernel.MutexStep k w k') : Prios k' := by
  cases hs with
  | same hm hp => exact h.of_eq hm fun t => hp ▸ h.thread t
  | @own m n _ ho hm hp =>
    obtain ⟨hprot, hprio, -⟩ := (k.mutex m).takenBy_attr (t := k.cur) (n := n) (p := k.prio k.cur)
    refine h.update hm (fun t => ?_) (fun hpo => ?_) fun t _ hpo => ?_
    · rw [hp t]
      split
      · rename_i hraise
        exact h.ceiling m hraise.2.1
      · exact h.thread t
    · rw [hprot] at hpo
      rw [hprio]
      exact h.ceiling m hpo
    · rw [hprot] at hpo
      rw [(k.mutex m).takenBy_ownerPrio hpo]
      exact h.thread k.cur
  | @count m n ho hm hp => exact h.update hm (fun t => hp ▸ h.thread t) (h.ceiling m) (h.saved m)
  | @disown m _ ho _ hm hp =>
    refine h.update hm (fun t => ?_) (h.ceiling m) fun t hown => ?_
    · rw [hp t]
      split
      · rename_i hrest
        exact h.saved m k.cur ho hrest.2.1
      · exact h.thread t
    · simp at hown

end

-- ---------------------------------------------------------------------------
-- Waking without `scheduling ()`
-- ---------------------------------------------------------------------------

/-- The signal wakes a thread of higher priority than the caller's. -/
def KillsHigher (x : Threads T) (t : T) (sig : Int) : Prop :=
  ∃ bit : Fin 32, (bit.val : Int) = sig ∧ x.kernel.sched.WokenBy t bit ∧
    (x.thread t).state = .suspended ∧ (x.thread t).schedPriority < (x.thread x.cur).schedPriority

/-- The owner gives the mutex back for good and keeps its priority, and a thread of higher
priority waits for the mutex. -/
def UnlocksHigher (x : Threads T) (m : Nat) : Prop :=
  (x.kernel.mutex m).owner = some x.cur ∧
    ¬((x.kernel.mutex m).attr.type = .recursive ∧ 0 < int32 ((x.kernel.mutex m).counter - 1)) ∧
    ¬x.kernel.RestoresPrio m ∧ ∃ t, (x.kernel.lists .mutex).Linked m t ∧
      (x.thread t).state = .suspended ∧
        (x.thread t).schedPriority < (x.thread x.cur).schedPriority

instance (x : Threads T) (t : T) (sig : Int) : Decidable (KillsHigher x t sig) :=
  inferInstanceAs (Decidable (∃ _, _))

instance [Fintype T] (x : Threads T) (m : Nat) : Decidable (UnlocksHigher x m) :=
  inferInstanceAs (Decidable (_ ∧ _ ∧ _ ∧ ∃ _, _))

/-- The step wakes nobody of higher priority without a `scheduling ()`, and sets no priority
out of range. -/
def Meets (x : Threads T) : ThreadAction T → Prop
  | .kernel (.call (.kill (some t) sig) _) => ¬KillsHigher x t sig
  | .kernel (.call (.mutexUnlock m) _) => ¬UnlocksHigher x m
  | .cancel (some t) => ¬KillsHigher x t cancelSignal.val
  | .setschedparam _ (some p) => PrioOk p
  | _ => True

instance [Fintype T] (x : Threads T) (a : ThreadAction T) : Decidable (Meets x a) := by
  unfold Meets
  split <;> infer_instance

theorem pthreadKill_ready {k : Kernel T} (ht : ((k.pthreadKill u bit).sched.thread t).state = .ready) :
    (k.sched.thread t).state = .ready ∨
      t = u ∧ k.sched.WokenBy u bit ∧ (k.sched.thread u).state = .suspended := by
  have hraise : ∀ v, ((k.sched.modify u (·.raise bit)).thread v).state = (k.sched.thread v).state := by
    intro v
    by_cases hv : v = u <;> simp [Sched.modify_thread, Thread.raise, hv]
  rw [Kernel.pthreadKill_sched] at ht
  split at ht
  · rename_i hw
    rw [Sched.activateThread_state, hraise] at ht
    by_cases htu : t = u
    · subst htu
      cases hs : (k.sched.thread t).state with
      | ready => exact .inl rfl
      | suspended => exact .inr ⟨rfl, hw, rfl⟩
      | finished => simp [hs] at ht
    · rw [if_neg htu] at ht
      exact .inl ht
  · rw [hraise] at ht
    exact .inl ht

theorem popFront_linked {w : Lists Nat T} (h : (w.popFront i).2.Linked j t) : w.Linked j t := by
  cases hh : w.head i with
  | none => simpa [Lists.popFront, hh] using h
  | some x =>
    simp only [Lists.popFront, hh] at h
    induction h with
    | @head y hy =>
      by_cases hj : j = i
      · subst hj
        simp only [Function.update_self] at hy
        exact .next (.head hh) hy
      · dsimp only at hy
        rw [Function.update_of_ne hj] at hy
        exact .head hy
    | @next y z _ hz ih =>
      by_cases hyx : y = x
      · subst hyx
        simp [IntrusiveList.Node.free] at hz
      · dsimp only at hz
        rw [Function.update_of_ne hyx, IntrusiveList.setPrev_next] at hz
        exact ih.next hz

theorem wakeAll_ready {k : Kernel T} (ht : ((k.wakeAll κ o n).sched.thread t).state = .ready) :
    (k.sched.thread t).state = .ready ∨
      (k.lists κ).Linked o t ∧ (k.sched.thread t).state = .suspended := by
  induction n generalizing k with
  | zero => exact .inl ht
  | succ n ih =>
    unfold Kernel.wakeAll Kernel.removeHeadPthreadList at ht
    split at ht
    · exact .inl ht
    · rename_i u k₁ hpop
      obtain ⟨hu, rfl⟩ := Prod.mk.inj hpop
      have hhead : (k.lists κ).head o = some u := by
        cases hh : (k.lists κ).head o with
        | none => simp [hh] at hu
        | some v => simpa [Lists.popFront, hh] using hu
      rcases ih ht with hready | ⟨hlinked, hsus⟩
      · change ((k.sched.activateThread u).thread t).state = .ready at hready
        rw [Sched.activateThread_state] at hready
        by_cases htu : t = u
        · subst htu
          cases hs : (k.sched.thread t).state with
          | ready => exact .inl rfl
          | suspended => exact .inr ⟨.head hhead, rfl⟩
          | finished => simp [hs] at hready
        · rw [if_neg htu] at hready
          exact .inl hready
      · change ((k.sched.activateThread u).thread t).state = .suspended at hsus
        rw [Sched.activateThread_state] at hsus
        simp only [Kernel.activateThread_rest, Kernel.setLists_self] at hlinked
        refine .inr ⟨popFront_linked (i := o) hlinked, ?_⟩
        by_cases htu : t = u
        · rw [if_pos htu] at hsus
          split at hsus <;> cases hsus
        · rwa [if_neg htu] at hsus

-- ---------------------------------------------------------------------------
-- Steps
-- ---------------------------------------------------------------------------

section
variable {x y : Threads T} {a : ThreadAction T}

theorem Does.prios (h : Prios x.kernel) (hd : Does x a y) (hc : Meets x a) : Prios y.kernel := by
  obtain ⟨hm, cs, hsets, hends⟩ := hd
  have hcalls : ∀ t, PrioOk ((x.kernel.sched.calls cs).thread t).schedPriority := by
    refine Sched.calls_prioOk h.thread fun c hmem p hp => ?_
    rcases hsets c hmem p hp with hok | ⟨t, rfl⟩
    · exact hok
    · exact hc
  refine h.of_eq hm fun t => ?_
  unfold Kernel.prio
  rcases hends with ⟨-, hs⟩ | hs
  · rw [hs]
    exact hcalls t
  · rw [hs]
    exact hcalls t

omit [DecidableEq T] in
theorem Base.top (h : Base y) (hp : Prios y.kernel) {s : Sched T}
    (hs : y.kernel.sched = s.scheduling) : y.kernel.sched.Top := by
  have hagain : y.kernel.sched.scheduling = y.kernel.sched := by
    rw [hs]
    rfl
  rw [← hagain]
  exact Sched.scheduling_top h.live.toFiled h.live.idle.1 hp.thread

theorem Does.top (hd : Does x a y) (ht : x.kernel.sched.Top) (hy : Base y) (hp : Prios y.kernel) :
    y.kernel.sched.Top := by
  obtain ⟨-, cs, -, ⟨hquiet, hs⟩ | hs⟩ := hd
  · rw [hs]
    exact ht.quiets hquiet
  · exact hy.top hp hs

theorem kill_top {k : Kernel T} (ht : x.kernel.sched.Top) (hi : x.cur ≠ x.idle)
    (hc : ¬KillsHigher x u bit.val) (hk : k.sched = (x.kernel.pthreadKill u bit).sched) :
    k.sched.Top := by
  have hf := Kernel.pthreadKill_frame x.kernel u bit
  rw [hk]
  refine ht.woken hi hf.cur hf.idle (congrFun hf.prio) fun t hready => ?_
  rcases pthreadKill_ready hready with hr | ⟨rfl, hw, hsus⟩
  · exact .inl hr
  · refine .inr (not_lt.mp fun hlt => hc ?_)
    exact ⟨bit, rfl, hw, hsus, hlt⟩

variable [Fintype T]

theorem unlock_top {k : Kernel T} (ht : x.kernel.sched.Top) (hi : x.cur ≠ x.idle)
    (hc : ¬UnlocksHigher x m) (hk : x.kernel.Unlocks m k) : k.sched.Top := by
  obtain ⟨ho, hlast, hr, hs⟩ := hk
  have hf := Kernel.wakeAll_frame x.kernel .mutex m (Fintype.card T + 1)
  rw [hs]
  refine ht.woken hi hf.cur hf.idle (congrFun hf.prio) fun t hready => ?_
  rcases wakeAll_ready hready with hr' | ⟨hlinked, hsus⟩
  · exact .inl hr'
  · refine .inr (not_lt.mp fun hlt => hc ?_)
    exact ⟨ho, hlast, hr, t, hlinked, hsus, hlt⟩

theorem kernel_top (h : Base x) (hr : Running x) (ht : x.kernel.sched.Top) {a : Action T}
    {k : Kernel T} (htargets : ∀ t ∈ a.targets, x.created t = true)
    (hk : x.kernel.step a = some k) (hp : Prios k) (hc : Meets x (.kernel a)) : k.sched.Top := by
  have hbase : Base { x with kernel := k } := by
    rcases kernel_steps h hr htargets hk with hgo | hgo
    · exact hgo.1.base
    · exact hgo.2.1
  have hcall : ∀ c env, a = .call c env → x.cur ≠ x.idle := by
    rintro c env rfl
    simp only [Kernel.step, Option.ite_none_right_eq_some] at hk
    exact hk.1.2
  have hout := Kernel.step_outcome h.within (fun t hmem => h.ne_idle (htargets t hmem)) hk
  cases hout with
  | ends he =>
    rcases he with ⟨s, -, hs⟩ | hs
    · exact hbase.top hp hs
    · rw [hs]
      exact ht
  | yields hs => exact hbase.top hp hs
  | kills _ hsig hs =>
    subst hsig
    exact kill_top ht (hcall _ _ rfl) hc hs
  | unlocks hs => exact unlock_top ht (hcall _ _ rfl) hc hs

theorem step_top (h : Base x) (hr : Running x) (hp : Prios x.kernel) (ht : x.kernel.sched.Top)
    (hc : Meets x a) (hs : x.step a = some y) : Prios y.kernel ∧ y.kernel.sched.Top := by
  have hbase : Base y := (step_base h hr hs).1
  have hdoes (hd : Does x a y) : Prios y.kernel ∧ y.kernel.sched.Top :=
    ⟨hd.prios hp hc, hd.top ht hbase (hd.prios hp hc)⟩
  have huser (hs : (if x.User ∧ x.cur ≠ x.idle then x.syscall a else none) = some y) :
      Prios y.kernel ∧ y.kernel.sched.Top := by
    simp only [Option.ite_none_right_eq_some] at hs
    obtain ⟨⟨-, hi⟩, hs⟩ := hs
    rcases syscall_does (Base.cur_created hr hi) hs with hd | ⟨t, rfl, hk⟩
    · exact hdoes hd
    · have hf := Kernel.pthreadKill_frame x.kernel t cancelSignal
      refine ⟨hp.of_eq (hk ▸ hf.mutex) fun u => ?_, kill_top ht hi hc (congrArg _ hk)⟩
      rw [hk, hf.prio]
      exact hp.thread u
  cases a with
  | kernel a =>
    simp only [step, Option.ite_none_right_eq_some] at hs
    obtain ⟨⟨-, htargets⟩, hs⟩ := hs
    obtain ⟨k, hk, rfl⟩ := Option.map_eq_some_iff.mp hs
    have hprios : Prios k := hp.mutexStep (Kernel.step_mutex hk)
    exact ⟨hprios, kernel_top h hr ht htargets hk hprios hc⟩
  | resume =>
    obtain ⟨p, -, hs⟩ := Option.bind_eq_some_iff.mp hs
    exact hdoes (resume_does hs)
  | _ => exact huser hs

omit [Fintype T] in
theorem boot_top {idle mainapp : T} (hm : mainapp ≠ idle) {sem : Nat → BitVec 32}
    {attr : Nat → MutexAttr}
    (ha : ∀ m, (attr m).prioProtection = .protect → PrioOk (attr m).prio) :
    Prios (boot idle mainapp sem attr).kernel ∧ (boot idle mainapp sem attr).kernel.sched.Top := by
  have hprios : Prios (boot idle mainapp sem attr).kernel := by
    refine ⟨Sched.calls_prioOk (fun t => ?_) fun c hc p hp => ?_, ha, nofun⟩
    · by_cases ht : t = idle <;> simp [bootSched, ht, PrioOk]
    · simp only [List.mem_cons, List.not_mem_nil, or_false] at hc
      rcases hc with rfl | rfl | rfl
      · rw [show p = minSchedPriority from hp]
        decide
      · exact absurd hp id
      · exact absurd hp id
  exact ⟨hprios, (boot_base hm sem attr).1.top hprios rfl⟩

end

/-- In every state of a run whose steps wake nobody of higher priority without a
`scheduling ()`, no READY thread should run instead. -/
theorem highest_runs [Fintype T] {idle mainapp : T} (hm : mainapp ≠ idle)
    {sem : Nat → BitVec 32} {attr : Nat → MutexAttr}
    (ha : ∀ m, (attr m).prioProtection = .protect → PrioOk (attr m).prio)
    {tr : List (Threads T × ThreadAction T)} {x y : Threads T}
    (hr : Run step (boot idle mainapp sem attr) tr x) (hc : ∀ e ∈ tr, Meets e.1 e.2)
    (hv : Visited tr x y) : y.kernel.sched.Top := by
  have hboot := boot_base hm sem attr
  have hall : (Base y ∧ Running y) ∧ Prios y.kernel ∧ y.kernel.sched.Top := by
    refine hr.invariant_visited (C := Meets)
      (I := fun x => (Base x ∧ Running x) ∧ Prios x.kernel ∧ x.kernel.sched.Top)
      ⟨⟨hboot.1, hboot.2.1⟩, boot_top hm ha⟩ (fun s a s' hs hc hstep => ⟨?_, ?_⟩) hc hv
    · exact step_base hs.1.1 hs.1.2 hstep
    · exact step_top hs.1.1 hs.1.2 hs.2.1 hs.2.2 hc hstep
  exact hall.2.2

/-- A mutex is unlocked with a thread of the same priority waiting, and a signal wakes one of
lower priority. -/
theorem highest_runs_run : ∃ tr x,
    Run step (boot (none : Option Bool) (some false) (fun _ => 0)
      fun _ => { prioProtection := .none }) tr x ∧
      (x.thread (some false)).state = .ready ∧ x.cur = some true ∧
      ∀ y, Visited tr x y → y.kernel.sched.Top := by
  have hrun : (exec step (boot (none : Option Bool) (some false) (fun _ => 0)
      fun _ => { prioProtection := .none })
      [.create (some (some true)) none true, .kernel (.call (.mutexLock 0) {}),
        .kernel (.call .yield {}), .resume, .kernel (.call (.mutexLock 0) {}),
        .kernel (.resume {}), .kernel (.call (.mutexUnlock 0) {}),
        .setschedparam (some (some true)) (some 5), .resume,
        .kernel (.call (.kill (some (some false)) 12) {})]).any fun r =>
      decide ((∀ e ∈ r.1, Meets e.1 e.2) ∧ (r.2.thread (some false)).state = .ready ∧
        r.2.cur = some true) := by
    decide +kernel
  obtain ⟨tr, x, hr, hx⟩ := exec_any hrun
  simp only [decide_eq_true_eq] at hx
  exact ⟨tr, x, hr, hx.2.1, hx.2.2, fun y hv =>
    highest_runs (Option.some_ne_none false) (by simp) hr hx.1 hv⟩

/-- The main thread has a mutex that a thread of priority 5 waits for. It unlocks the mutex and
runs on. -/
theorem unlock_inverts : ∃ tr x,
    Run step (boot (none : Option Bool) (some false) (fun _ => 0)
      fun _ => { prioProtection := .none }) tr x ∧
      tr.map Prod.snd = [.kernel (.call (.mutexUnlock 0) {}), .resume,
        .kernel (.call (.mutexLock 0) {}), .create (some (some true)) (some { schedPriority := 5 }) true,
        .kernel (.call (.mutexLock 0) {})] ∧
      x.User ∧ x.cur = some false ∧ (x.thread (some true)).state = .ready ∧
      (x.thread (some true)).schedPriority < (x.thread x.cur).schedPriority := by
  have hrun : (exec step (boot (none : Option Bool) (some false) (fun _ => 0)
      fun _ => { prioProtection := .none })
      [.kernel (.call (.mutexLock 0) {}),
        .create (some (some true)) (some { schedPriority := 5 }) true,
        .kernel (.call (.mutexLock 0) {}), .resume,
        .kernel (.call (.mutexUnlock 0) {})]).any fun r =>
      decide (r.2.User ∧ r.2.cur = some false ∧ (r.2.thread (some true)).state = .ready ∧
        (r.2.thread (some true)).schedPriority < (r.2.thread r.2.cur).schedPriority) := by
    decide +kernel
  obtain ⟨tr, x, hr, hacts, hx⟩ := exec_any_actions hrun
  simp only [decide_eq_true_eq] at hx
  exact ⟨tr, x, hr, hacts, hx⟩

end Threads

end Xmertl.Partikle
