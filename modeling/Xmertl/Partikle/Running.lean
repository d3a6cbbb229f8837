import Xmertl.Lib.Runs
import Xmertl.Partikle.Moves

/-!
# The running thread

Between steps, the current thread is the idle thread or is READY, the ready
structure agrees with the threads' states, and the idle thread is in no call
(`SchedOk`). Inside a call the current thread is not the idle thread
(`Calling`) and, until it suspends itself, READY (`Active`).
-/

namespace Xmertl.Partikle.Kernel

variable {T : Type}

structure SchedOk (k : Kernel T) : Prop where
  wf : k.sched.Wf
  running : k.cur = k.sched.idleThread ∨ k.state k.cur = .ready
  idle : k.pc k.sched.idleThread = .user

structure Calling (k : Kernel T) : Prop where
  wf : k.sched.Wf
  notIdle : k.cur ≠ k.sched.idleThread
  idle : k.pc k.sched.idleThread = .user

structure Active (k : Kernel T) : Prop extends Calling k where
  ready : k.state k.cur = .ready

theorem Calling.of_eq {k : Kernel T} (k' : Kernel T) (h : Calling k) (hs : k'.sched = k.sched)
    (hp : k'.pc = k.pc) : Calling k' :=
  ⟨hs ▸ h.wf, by simpa only [cur, hs] using h.notIdle, by rw [hs, hp]; exact h.idle⟩

theorem Active.of_eq {k : Kernel T} (k' : Kernel T) (h : Active k) (hs : k'.sched = k.sched)
    (hp : k'.pc = k.pc) : Active k' :=
  ⟨h.toCalling.of_eq k' hs hp, by simpa only [cur, state, hs] using h.ready⟩

theorem Calling.frame {k k' : Kernel T} (h : Calling k) (hf : WakeFrame k k') : Calling k' where
  wf := hf.wf h.wf
  notIdle := by rw [hf.cur, hf.idle]; exact h.notIdle
  idle := by rw [hf.idle, hf.pc]; exact h.idle

theorem Active.frame {k k' : Kernel T} (h : Active k) (hf : WakeFrame k k') : Active k' :=
  ⟨h.toCalling.frame hf, by rw [hf.cur]; exact hf.ready h.ready⟩

theorem SchedOk.active {k : Kernel T} (h : SchedOk k) (hi : k.cur ≠ k.sched.idleThread) :
    Active k :=
  ⟨⟨h.wf, hi, h.idle⟩, h.running.resolve_left hi⟩

theorem SchedOk.resuming {k : Kernel T} (h : SchedOk k) (hp : k.pc k.cur ≠ .user) : Active k := by
  refine h.active fun hi => hp ?_
  rw [hi]
  exact h.idle

variable [DecidableEq T]

theorem Calling.suspendThread {k : Kernel T} (h : Calling k) : Calling (k.suspendThread t) where
  wf := h.wf.suspendThread
  notIdle := by
    rw [(suspendThread_rest k).2.2.2.2.2.2.1]
    simpa [Kernel.suspendThread] using h.notIdle
  idle := by simpa [Kernel.suspendThread] using h.idle

theorem Active.changeThreadPrio {k : Kernel T} (h : Active k) :
    Active (k.changeThreadPrio t p) where
  wf := h.wf.changeThreadPrio
  notIdle := by
    rw [(changeThreadPrio_rest k).2.2.2.2.2.2.1]
    simpa [Kernel.changeThreadPrio] using h.notIdle
  idle := by simpa [Kernel.changeThreadPrio] using h.idle
  ready := by simpa using h.ready

theorem Active.yield {k : Kernel T} (h : Active k) :
    Active { k with sched := k.sched.pthreadYield } where
  wf := h.wf.pthreadYield h.ready
  notIdle := by simpa [cur] using h.notIdle
  idle := by simpa using h.idle
  ready := by simpa [cur, state] using h.ready

theorem Active.setOwner {k : Kernel T} (h : Active k) : Active (k.setOwner m n) := by
  have hset : Active ((k.record (.acquire k.cur m)).setMutex m
      ((k.mutex m).takenBy k.cur n (k.prio k.cur))) := h.of_eq _ rfl rfl
  unfold Kernel.setOwner
  simp only
  split
  · exact hset.changeThreadPrio
  · exact hset

theorem Active.clearOwner {k : Kernel T} (h : Active k) : Active (k.clearOwner m) := by
  have hset : Active ((k.record (.release k.cur m)).setMutex m
      { k.mutex m with owner := none, counter := 0 }) := h.of_eq _ rfl rfl
  unfold Kernel.clearOwner
  simp only
  split
  · exact hset.changeThreadPrio
  · exact hset

theorem Active.move {k k' : Kernel T} (h : Active k) (hm : Move k₀ A k k') : Active k' := by
  cases hm with
  | sem => exact h.of_eq _ rfl rfl
  | wake => exact (h.of_eq (k.setLists _ _) rfl rfl).frame (activateThread_frame _ _)
  | kill => exact h.frame (pthreadKill_frame _ _ _)
  | yield => exact h.yield
  | own => exact h.setOwner
  | again => exact h.of_eq _ rfl rfl
  | countdown => exact h.of_eq _ rfl rfl
  | disown => exact h.clearOwner

theorem Active.moves {k k' : Kernel T} (h : Active k) (hm : Moves k₀ A k k') : Active k' := by
  induction hm with
  | refl => exact h
  | tail _ hmove ih => exact ih.move hmove

theorem Calling.scheduling {k : Kernel T} (h : Calling k) : SchedOk (k.scheduling p) where
  wf := h.wf.scheduling
  running := h.wf.scheduling_current
  idle := by simpa [Function.update_of_ne h.notIdle.symm] using h.idle

theorem Active.exit {k k' : Kernel T} (h : Active k) (he : Exit A k k') : SchedOk k' := by
  cases he with
  | ret =>
    refine ⟨h.wf, .inr h.ready, ?_⟩
    simpa [Function.update_of_ne h.notIdle.symm] using h.idle
  | scheduling => exact h.toCalling.scheduling
  | @block κ o =>
    exact (h.suspendThread.of_eq ((k.suspendThread k.cur).insertPthreadList κ o k.cur) rfl
      rfl).scheduling
  | @sleep κ o env =>
    have harm : Calling (k.insertPthreadList κ o k.cur).armTimer := h.toCalling.of_eq _ rfl rfl
    exact (harm.suspendThread.frame (updateHwtimer_frame _ env)).scheduling
  | suspend => exact h.suspendThread.scheduling

theorem SchedOk.clockHandler {k : Kernel T} (h : SchedOk k) : SchedOk (k.clockHandler env) := by
  have hf : WakeFrame k (k.updateHwtimer env) := updateHwtimer_frame k env
  have hw : (k.updateHwtimer env).sched.Wf := hf.wf h.wf
  refine ⟨hw.scheduling, hw.scheduling_current, ?_⟩
  change (k.updateHwtimer env).pc (k.updateHwtimer env).sched.idleThread = .user
  rw [hf.idle, hf.pc]
  exact h.idle

omit [DecidableEq T] in
theorem SchedOk.enters {k : Kernel T} (h : SchedOk k) (hi : k.cur ≠ k.sched.idleThread) :
    Active (k.record (.call k.cur c)) := (h.active hi).of_eq _ rfl rfl

theorem SchedOk.leaves {k : Kernel T} (h : SchedOk k) (hp : k.pc k.cur ≠ .user) :
    Active k.leave := (h.resuming hp).of_eq _ (leave_rest k).1 (leave_rest k).2.1

theorem boot_schedOk (c : Config T) : SchedOk (boot c) := by
  have hw (ts : List T) (s : Sched T) (h : s.Wf) : (ts.foldl Sched.activateThread s).Wf := by
    induction ts generalizing s with
    | nil => exact h
    | cons t ts ih => exact ih _ h.activateThread
  have hall : Sched.Wf (c.ready.foldl Sched.activateThread
      { thread := fun t => { schedPriority := c.prio t, sigmask := c.sigmask t }
        threadMatrix := fun _ => []
        currentThread := c.idle
        idleThread := c.idle }) :=
    hw _ _ ⟨fun i t ht => by simp at ht, fun _ => List.nodup_nil⟩
  exact ⟨hall.scheduling, hall.scheduling_current, rfl⟩

variable [Fintype T]

theorem SchedOk.step {k k' : Kernel T} (h : SchedOk k) (hs : k.step a = some k') : SchedOk k' := by
  cases step_shape hs with
  | call _ hi hm he => exact ((h.enters hi).moves hm).exit he
  | resume hp hm he => exact ((h.leaves hp).moves hm).exit he
  | interrupt => exact h.clockHandler

theorem run_schedOk {k : Kernel T} (hr : Runs.Run step (boot c) tr k) : SchedOk k :=
  hr.invariant (C := fun _ _ => True) (boot_schedOk c) (fun _ _ _ h _ hs => h.step hs)
    fun _ _ => trivial

end Xmertl.Partikle.Kernel

namespace Xmertl.Partikle

instance instNeZeroThreads : @NeZero Nat Zero.ofOfNat0 3 := ⟨Nat.succ_ne_zero 2⟩

/-- Threads 1 and 2 in order of priority, and the idle thread 0. -/
def twoThreads : Config (Fin 3) where
  idle := 0
  prio t := t.val
  ready := [1, 2]

/-- Thread 1 blocks, thread 2 posts. -/
def postedWait : List (Action (Fin 3)) :=
  [.call (.semWait (some 0)) {}, .call (.semPost (some 0)) {}, .resume {}]

end Xmertl.Partikle
