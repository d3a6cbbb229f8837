import Xmertl.Partikle.ThreadBase
import Xmertl.Partikle.TimerTable

/-!
# What a deleted thread leaves

`pthread_delete_np_sys` and the end of `pthread_join_sys`, over the threads with the kernel
timers and their owners. `delete_pthread_struct` takes a thread off the ready structure and
the thread list and frees it. Wait lists, mutexes, `joining_thread`s and timers keep what
they have of it.
-/

namespace Xmertl.Partikle

open IntrusiveList (Lists)
open Runs

structure ThreadTimers (T : Type) where
  threads : Threads T
  timers : TimerTable T

inductive ReapAction (T : Type)
  | thread (a : ThreadAction T)
  /-- A call of `time.c`, by whichever thread or by the clock. -/
  | timer (c : TimerCall T)

/-- Whether `pthread_create_sys` refuses the attributes. -/
def refusesAttr (attr : Option PthreadAttr) : Bool :=
  attr.any fun a => !a.schedFifo || decide (a.schedPriority > minSchedPriority) ||
    decide (a.schedPriority < maxSchedPriority)

namespace ThreadTimers

variable {T : Type} [DecidableEq T]

/-- What a call of a thread does to the timers itself: `create_pthread_struct` and
`pthread_exit_sys`. -/
def threadTimers (x : ThreadTimers T) : ThreadAction T → Option (TimerTable T)
  | .create (some t) attr _ =>
    some (if refusesAttr attr then x.timers else x.timers.createThread t)
  | .exit => x.timers.exitThread x.threads.cur
  | _ => some x.timers

def step [Fintype T] (x : ThreadTimers T) : ReapAction T → Option (ThreadTimers T)
  | .thread a => do return { threads := ← x.threads.step a, timers := ← x.threadTimers a }
  | .timer (.createThread _) | .timer (.exitThread _) => none
  | .timer c => do return { x with timers := ← x.timers.step c }

/-- The idle thread and the main thread have their timers. -/
def boot (idle mainapp : T) (sem : Nat → BitVec 32) (attr : Nat → MutexAttr)
    (timers : TimerTable T) : ThreadTimers T where
  threads := Threads.boot idle mainapp sem attr
  timers := (timers.initTime.createThread idle).createThread mainapp

-- ---------------------------------------------------------------------------
-- References
-- ---------------------------------------------------------------------------

/-- A list head, or the link of another thread, points to `t`. -/
def OnList (x : ThreadTimers T) (κ : Kind) (t : T) : Prop :=
  (∃ o, (x.threads.kernel.lists κ).head o = some t) ∨
  ∃ u, u ≠ t ∧ x.threads.created u = true ∧
    (((x.threads.kernel.lists κ).node u).prev = some t ∨
      ((x.threads.kernel.lists κ).node u).next = some t)

/-- A timer of the table that is allocated or armed is `t`'s. -/
def HasTimer (x : ThreadTimers T) (t : T) : Prop :=
  ∃ id, InTable id ∧ ((x.timers.timerArray id).inUse = true ∨ (x.timers.timerArray id).armed = true) ∧
    (x.timers.timerArray id).owner = t

/-- What `delete_pthread_struct` does not look at: `t` is on no wait list, owns no mutex,
is joining nobody and has no timer. -/
structure Free (x : ThreadTimers T) (t : T) : Prop where
  lists : ∀ κ, ¬x.OnList κ t
  owner : ∀ m, (x.threads.kernel.mutex m).owner ≠ some t
  joining : ∀ u, u ≠ t → x.threads.created u = true → x.threads.joiningThread u ≠ some t
  timers : ¬x.HasTimer t

/-- Nothing refers to the structure of `t`. -/
structure Unreferenced (x : ThreadTimers T) (t : T) : Prop extends Free x t where
  ready : ¬x.threads.kernel.sched.Linked t
  threadList : x.threads.created t = false

/-- The step frees the structure of `t`. -/
def Reaps (x y : ThreadTimers T) (t : T) : Prop :=
  x.threads.created t = true ∧ y.threads.created t = false

instance (x y : ThreadTimers T) (t : T) : Decidable (Reaps x y t) :=
  inferInstanceAs (Decidable (_ ∧ _))

end ThreadTimers

-- ---------------------------------------------------------------------------
-- Which steps delete a thread
-- ---------------------------------------------------------------------------

namespace Threads

variable {T : Type} [DecidableEq T] {x y : Threads T} {t : T}

def Grows (x y : Threads T) : Prop := ∀ u, x.created u = true → y.created u = true

omit [DecidableEq T] in
theorem Grows.of_eq (h : y.created = x.created) : Grows x y := fun u hu => by rw [h]; exact hu

/-- `delete_pthread_struct`: one structure less, and nothing else that refers to threads. -/
structure Deleted (x y : Threads T) (t : T) : Prop where
  created : y.created = Function.update x.created t false
  lists : y.kernel.lists = x.kernel.lists
  mutex : y.kernel.mutex = x.kernel.mutex
  joining : y.joiningThread = x.joiningThread

theorem newThread_grows (t : T) (prio : Int) (detachstate : Bool) :
    Grows x (x.newThread t prio detachstate) := by
  intro u hu
  by_cases h : u = t
  · rw [h]
    exact Function.update_self ..
  · exact (Function.update_of_ne h ..).trans hu

theorem createSys_grows {o : Option T} {attr : Option PthreadAttr} {stack : Bool}
    (hs : x.createSys o attr stack = some y) : Grows x y := by
  unfold createSys at hs
  split at hs
  · cases hs
    exact .of_eq rfl
  · cases o with
    | none =>
      cases hs
      exact .of_eq rfl
    | some t =>
      dsimp only at hs
      split at hs
      · cases attr with
        | none =>
          split at hs
          · cases hs
            exact newThread_grows t minSchedPriority false
          · cases hs
            exact newThread_grows t minSchedPriority false
        | some a =>
          split at hs
          · cases hs
            exact newThread_grows t a.schedPriority a.detachstate
          · cases hs
            exact newThread_grows t a.schedPriority a.detachstate
      · cases hs

theorem joinLoop_created (hs : x.joinLoop t = some y) : Grows x y ∨ Deleted x y t := by
  unfold joinLoop at hs
  split at hs
  · cases hs
    exact .inl (.of_eq rfl)
  · split at hs
    · cases hs
    · cases hs
      exact .inr ⟨rfl, rfl, rfl, rfl⟩

theorem joinSys_created {o : Option T} (hs : x.joinSys o = some y) :
    Grows x y ∨ ∃ t, Deleted x y t := by
  cases o with
  | none =>
    cases hs
    exact .inl (.of_eq rfl)
  | some t =>
    unfold joinSys at hs
    dsimp only at hs
    split at hs
    · cases hs
    · split at hs
      · cases hs
        exact .inl (.of_eq rfl)
      · exact (joinLoop_created hs).imp_right fun h => ⟨t, h⟩

theorem deleteNpSys_created (hs : x.deleteNpSys t = some y) : Deleted x y t := by
  unfold deleteNpSys at hs
  split at hs
  · cases hs
  · cases hs
    exact ⟨rfl, rfl, rfl, rfl⟩

theorem detachSys_created {o : Option T} (hs : x.detachSys o = some y) : y.created = x.created := by
  cases o with
  | none =>
    cases hs
    rfl
  | some t =>
    unfold detachSys at hs
    dsimp only at hs
    split at hs
    · cases hs
    · split at hs
      · cases hs
        rfl
      · obtain ⟨j, -, rfl⟩ := Option.map_eq_some_iff.mp hs
        rfl

theorem cancelSys_created {o : Option T} (hs : x.cancelSys o = some y) : y.created = x.created := by
  cases o with
  | none =>
    cases hs
    rfl
  | some t =>
    unfold cancelSys at hs
    dsimp only at hs
    split at hs
    · cases hs
    · cases hs
      rfl

theorem setschedparamSys_created {o : Option T} {param : Option Int}
    (hs : x.setschedparamSys o param = some y) : y.created = x.created := by
  cases o with
  | none =>
    cases hs
    rfl
  | some t =>
    unfold setschedparamSys at hs
    dsimp only at hs
    split at hs
    · cases hs
    · cases param with
      | none =>
        cases hs
        rfl
      | some prio =>
        cases hs
        rfl

theorem cleanupPushSys_created : x.cleanupPushSys.created = x.created := by
  unfold cleanupPushSys
  split <;> rfl

theorem cleanupPopSys_created : x.cleanupPopSys.created = x.created := by
  unfold cleanupPopSys
  split <;> rfl

theorem exitEnd_created (hs : x.exitEnd = some y) : y.created = x.created := by
  unfold exitEnd wakeJoining at hs
  split at hs
  · cases hs
  · cases hs
    split <;> rfl

theorem takeSignal_created {set : BitVec 32} (hs : x.takeSignal set = some y) :
    y.created = x.created := by
  obtain ⟨sig, -, rfl⟩ := Option.map_eq_some_iff.mp hs
  rfl

theorem sigwaitSys_created (set : Option (BitVec 32)) : (x.sigwaitSys set).created = x.created := by
  cases set with
  | none => rfl
  | some set =>
    unfold sigwaitSys
    dsimp only
    split
    next x' h =>
      have hx' := takeSignal_created h
      exact hx'
    next => rfl

theorem sigwaitEnd_created (set oldMask : BitVec 32) :
    (x.sigwaitEnd set oldMask).created = x.created := by
  unfold sigwaitEnd
  dsimp only
  split
  next x' h =>
    have hx' := takeSignal_created h
    exact hx'
  next => rfl

theorem resume_created {p : ThreadPc T} (hs : x.resume p = some y) :
    Grows x y ∨ ∃ t, Deleted x y t := by
  cases p with
  | join t => exact joinSys_created (o := some t) hs
  | sigwait set oldMask =>
    cases hs
    exact .inl (.of_eq (sigwaitEnd_created set oldMask))
  | _ =>
    cases hs
    exact .inl (.of_eq rfl)

theorem syscall_created [Fintype T] {a : ThreadAction T} (hs : x.syscall a = some y) :
    Grows x y ∨ (∃ t, Deleted x y t) ∧ ((∃ o, a = .join o) ∨ ∃ t, a = .deleteNp t) := by
  cases a with
  | kernel _ => cases hs
  | resume => cases hs
  | create o attr stack => exact .inl (createSys_grows hs)
  | join o => exact (joinSys_created hs).imp_right fun h => ⟨h, .inl ⟨o, rfl⟩⟩
  | detach o => exact .inl (.of_eq (detachSys_created hs))
  | cancel o => exact .inl (.of_eq (cancelSys_created hs))
  | cleanupPush =>
    cases hs
    exact .inl (.of_eq cleanupPushSys_created)
  | cleanupPop =>
    cases hs
    exact .inl (.of_eq cleanupPopSys_created)
  | setschedparam o param => exact .inl (.of_eq (setschedparamSys_created hs))
  | exit =>
    cases hs
    exact .inl (.of_eq rfl)
  | cleanupHandler =>
    obtain ⟨-, hs⟩ := Option.ite_none_right_eq_some.mp hs
    cases hs
    exact .inl (.of_eq cleanupPopSys_created)
  | exitEnd =>
    obtain ⟨-, hs⟩ := Option.ite_none_right_eq_some.mp hs
    exact .inl (.of_eq (exitEnd_created hs))
  | deleteNp t => exact .inr ⟨⟨t, deleteNpSys_created hs⟩, .inr ⟨t, rfl⟩⟩
  | sigsuspend mask =>
    cases hs
    exact .inl (.of_eq rfl)
  | sigwait set =>
    cases hs
    exact .inl (.of_eq (sigwaitSys_created set))
  | signals p m =>
    cases hs
    exact .inl (.of_eq rfl)

def MayDelete (a : ThreadAction T) : Prop := (∃ o, a = .join o) ∨ (∃ t, a = .deleteNp t) ∨ a = .resume

theorem step_created [Fintype T] {a : ThreadAction T} (hs : x.step a = some y) :
    Grows x y ∨ (∃ t, Deleted x y t) ∧ MayDelete a := by
  cases a with
  | kernel a =>
    obtain ⟨-, hs⟩ := Option.ite_none_right_eq_some.mp hs
    obtain ⟨k, -, rfl⟩ := Option.map_eq_some_iff.mp hs
    exact .inl (.of_eq rfl)
  | resume =>
    obtain ⟨p, -, hs⟩ := Option.bind_eq_some_iff.mp hs
    exact (resume_created hs).imp_right fun h => ⟨h, .inr (.inr rfl)⟩
  | _ =>
    obtain ⟨-, hs⟩ := Option.ite_none_right_eq_some.mp hs
    exact (syscall_created hs).imp_right fun ⟨h, ha⟩ => ⟨h, ha.imp_right .inl⟩

end Threads

namespace ThreadTimers

variable {T : Type} [DecidableEq T] [Fintype T] {x y : ThreadTimers T} {t : T}

theorem timer_threads {c : TimerCall T} (hs : x.step (.timer c) = some y) :
    y.threads = x.threads := by
  cases c with
  | createThread _ => cases hs
  | exitThread _ => cases hs
  | _ =>
    simp only [step, Option.bind_eq_bind, Option.bind_eq_some_iff] at hs
    obtain ⟨timers, -, hs⟩ := hs
    cases hs
    rfl

theorem step_threads {a : ReapAction T} (hs : x.step a = some y) :
    y.threads = x.threads ∨ ∃ a, x.threads.step a = some y.threads := by
  cases a with
  | thread a =>
    obtain ⟨threads, ht, hs⟩ := Option.bind_eq_some_iff.mp hs
    obtain ⟨timers, -, hs⟩ := Option.bind_eq_some_iff.mp hs
    cases hs
    exact .inr ⟨a, ht⟩
  | timer c => exact .inl (timer_threads hs)

/-- The freed structure leaves the thread list, and everything `Free` speaks of is as it was. -/
structure Reaped (x y : ThreadTimers T) (t : T) : Prop where
  threads : Threads.Deleted x.threads y.threads t
  timers : y.timers = x.timers

theorem reaped_of_step {a : ReapAction T} (hs : x.step a = some y) (ht : Reaps x y t) :
    Reaped x y t := by
  obtain ⟨hx, hy⟩ := ht
  have hgone : ¬Threads.Grows x.threads y.threads := fun h => by simp [h t hx] at hy
  cases a with
  | thread a =>
    obtain ⟨threads, hthreads, hs⟩ := Option.bind_eq_some_iff.mp hs
    obtain ⟨timers, htimers, hs⟩ := Option.bind_eq_some_iff.mp hs
    cases hs
    obtain ⟨⟨u, hu⟩, ha⟩ := (Threads.step_created hthreads).resolve_left hgone
    have htu : t = u := by
      by_contra hne
      rw [hu.created, Function.update_of_ne hne, hx] at hy
      cases hy
    subst htu
    refine ⟨hu, ?_⟩
    rcases ha with ⟨o, rfl⟩ | ⟨u, rfl⟩ | rfl
    · exact (Option.some.inj htimers).symm
    · exact (Option.some.inj htimers).symm
    · exact (Option.some.inj htimers).symm
  | timer c => exact absurd (.of_eq (by rw [timer_threads hs])) hgone

-- ---------------------------------------------------------------------------
-- What is left
-- ---------------------------------------------------------------------------

omit [Fintype T] in
theorem Reaped.others (h : Reaped x y t) {u : T} (hu : u ≠ t) :
    y.threads.created u = x.threads.created u := by
  rw [h.threads.created, Function.update_of_ne hu]

omit [Fintype T] in
theorem Reaped.onList_iff (h : Reaped x y t) (κ : Kind) : y.OnList κ t ↔ x.OnList κ t := by
  unfold OnList
  rw [h.threads.lists]
  refine or_congr_right (exists_congr fun u => and_congr_right fun hu => ?_)
  rw [h.others hu]

omit [Fintype T] in
theorem Reaped.free_iff (h : Reaped x y t) : y.Free t ↔ x.Free t := by
  have htimer : y.HasTimer t ↔ x.HasTimer t := by
    unfold HasTimer
    rw [h.timers]
  have hjoin : (∀ u, u ≠ t → y.threads.created u = true → y.threads.joiningThread u ≠ some t) ↔
      ∀ u, u ≠ t → x.threads.created u = true → x.threads.joiningThread u ≠ some t := by
    refine forall_congr' fun u => forall_congr' fun hu => ?_
    rw [h.others hu, h.threads.joining]
  have howner : (∀ m, (y.threads.kernel.mutex m).owner ≠ some t) ↔
      ∀ m, (x.threads.kernel.mutex m).owner ≠ some t := by
    rw [h.threads.mutex]
  constructor
  · intro hf
    exact
      { lists := fun κ => mt (h.onList_iff κ).mpr (hf.lists κ)
        owner := howner.mp hf.owner
        joining := hjoin.mp hf.joining
        timers := mt htimer.mpr hf.timers }
  · intro hf
    exact
      { lists := fun κ => mt (h.onList_iff κ).mp (hf.lists κ)
        owner := howner.mpr hf.owner
        joining := hjoin.mpr hf.joining
        timers := mt htimer.mp hf.timers }

theorem step_base {a : ReapAction T} (hb : x.threads.Base ∧ x.threads.Running)
    (hs : x.step a = some y) : y.threads.Base ∧ y.threads.Running := by
  rcases step_threads hs with h | ⟨a, h⟩
  · rw [h]
    exact hb
  · exact Threads.step_base hb.1 hb.2 h

theorem delete_unreferenced_iff {idle mainapp : T} (hm : mainapp ≠ idle)
    {sem : Nat → BitVec 32} {attr : Nat → MutexAttr} {timers : TimerTable T}
    {tr : List (ThreadTimers T × ReapAction T)} {a : ReapAction T}
    (hr : Run step (boot idle mainapp sem attr timers) tr x) (hs : x.step a = some y)
    (ht : Reaps x y t) : Unreferenced y t ↔ Free x t := by
  have hboot := Threads.boot_base hm sem attr
  have hbase : x.threads.Base ∧ x.threads.Running :=
    hr.invariant (C := fun _ _ => True) (I := fun x => x.threads.Base ∧ x.threads.Running)
      ⟨hboot.1, hboot.2.1⟩ (fun _ _ _ hb _ hstep => step_base hb hstep) (fun _ _ => trivial)
  have hnot := (step_base hbase hs).1.not_linked ht.2
  have hfree := (reaped_of_step hs ht).free_iff
  constructor
  · exact fun hu => hfree.mp hu.toFree
  · exact fun hf => ⟨hfree.mpr hf, hnot, ht.2⟩

def twoThreads : ThreadTimers (Option Bool) :=
  boot none (some false) (fun _ => 0) (fun _ => {})
    { timerArray := fun _ => { owner := none }
      timerHeap := { array := fun _ => none, nelem := 0 }
      sleepKtimer := fun _ => 0
      asleep := fun _ => false
      finished := fun _ => false
      interval := none }

/-- A thread that runs at once and exits, and the main thread joins it. -/
theorem delete_unreferenced_join : ∃ tr x y, Run step twoThreads tr x ∧
    x.step (.thread (.join (some (some true)))) = some y ∧ Reaps x y (some true) ∧
    (Unreferenced y (some true) ↔ Free x (some true)) := by
  have hrun : (exec step twoThreads
      [.thread (.create (some (some true)) (some { schedPriority := 5 }) true), .thread .exit,
        .thread .exitEnd, .thread .resume]).any (fun r =>
      (step r.2 (.thread (.join (some (some true))))).any fun y =>
        decide (Reaps r.2 y (some true))) = true := by decide +kernel
  obtain ⟨tr, x, hr, hp⟩ := exec_any hrun
  obtain ⟨y, hy, hd⟩ := (Option.any_eq_true ..).mp hp
  have hreaps := of_decide_eq_true hd
  exact ⟨tr, x, y, hr, hy, hreaps, delete_unreferenced_iff (by decide) hr hy hreaps⟩

/-- The sleep timer of a thread that `pthread_delete_np_sys` deletes stays the thread's. -/
theorem deleted_keeps_timer : ∃ tr x y, Run step twoThreads tr x ∧
    x.step (.thread (.deleteNp (some true))) = some y ∧ Reaps x y (some true) ∧
    ¬Unreferenced y (some true) := by
  have hrun : (exec step twoThreads
      [.thread (.create (some (some true)) none true), .thread (.kernel (.call .yield {})),
        .thread .resume]).any (fun r =>
      (step r.2 (.thread (.deleteNp (some true)))).any fun y =>
        decide (Reaps r.2 y (some true) ∧ (y.timers.timerArray 2).inUse = true ∧
          (y.timers.timerArray 2).owner = some true)) = true := by decide +kernel
  obtain ⟨tr, x, hr, hp⟩ := exec_any hrun
  obtain ⟨y, hy, hd⟩ := (Option.any_eq_true ..).mp hp
  obtain ⟨hreaps, hinUse, howner⟩ := of_decide_eq_true hd
  exact ⟨tr, x, y, hr, hy, hreaps, fun hu =>
    hu.timers ⟨2, by decide, .inl hinUse, howner⟩⟩

end ThreadTimers

end Xmertl.Partikle
