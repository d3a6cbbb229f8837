import Xmertl.Lib.Runs
import Xmertl.Partikle.Pthread
import Xmertl.Partikle.Semaphore

/-!
# The kernel as a step function

One step runs the current thread up to its next `scheduling ()` or out of the
kernel, or is a timer interrupt between two instructions of user code. A
thread the scheduler picks inside a call goes on from there (`resume`) before
anything else happens, for interrupts are off. They are on where
`sem_timedwait_sys` changes the value before it sleeps: that part, one step
here, goes access by access in `SemTimedwait`. The idle thread makes no calls.
-/

namespace Xmertl.Partikle

inductive Action (T : Type)
  | call (call : Call T) (env : Env T)
  | resume (env : Env T)
  | interrupt (env : Env T)

/-- A system before its first call: its threads' priorities and signal masks,
the threads made READY in this order, and the objects' initial values. -/
structure Config (T : Type) where
  idle : T
  prio : T → Int
  sigmask : T → BitVec 32 := fun _ => 0
  ready : List T
  sem : Nat → BitVec 32 := fun _ => 0
  attr : Nat → MutexAttr := fun _ => {}

theorem sig_lt {sig : Int} (h : 0 ≤ sig ∧ sig < 32) : sig.toNat < 32 := by omega

namespace Kernel

variable {T : Type} [DecidableEq T]

def boot (c : Config T) : Kernel T :=
  let sched : Sched T :=
    { thread := fun t => { schedPriority := c.prio t, sigmask := c.sigmask t }
      threadMatrix := fun _ => []
      currentThread := c.idle
      idleThread := c.idle }
  { sched := (c.ready.foldl Sched.activateThread sched).scheduling
    pc := fun _ => .user
    sem := fun s => semInit (c.sem s)
    mutex := fun m => { attr := c.attr m }
    lists := fun _ => { head := fun _ => none, node := fun _ => .free }
    sleepTimer := fun _ => 0
    log := [] }

variable [Fintype T]

def pthreadKillSys (k : Kernel T) : Option T → Int → Kernel T
  | none, sig => k.ret (.kill none sig) (.fail .esrch)
  | some t, sig =>
    if h : 0 ≤ sig ∧ sig < 32 then
      (k.pthreadKill t ⟨sig.toNat, sig_lt h⟩).ret (.kill (some t) sig) .ok
    else k.ret (.kill (some t) sig) (.fail .einval)

def pthreadYieldSys (k : Kernel T) : Kernel T :=
  { k with sched := k.sched.pthreadYield }.scheduling (.returning .yield)

def sleepThreadHandler (k : Kernel T) : Kernel T :=
  (k.suspendThread k.cur).scheduling (.returning .sleepThread)

def enter (k : Kernel T) (env : Env T) : Call T → Kernel T
  | .semWait s => k.semWaitSys s
  | .semTrywait s => k.semTrywaitSys s
  | .semTimedwait s abstime => k.semTimedwaitSys env s abstime
  | .semPost s => k.semPostSys s
  | .mutexLock m => k.mutexLockSys env m .lock
  | .mutexTrylock m => k.mutexTrylockSys env m
  | .mutexUnlock m => k.mutexUnlockSys env m .unlock
  | .condSignal c => k.condSignalSys c
  | .condBroadcast c => k.condBroadcastSys c
  | .condWait c m => k.condWaitSys env c m
  | .condTimedwait c m abstime => k.condTimedwaitSys env c m abstime
  | .kill t sig => k.pthreadKillSys t sig
  | .yield => k.pthreadYieldSys
  | .sleepThread => k.sleepThreadHandler

/-- The current thread returns from the `scheduling ()` it is in. -/
def resume (k : Kernel T) (env : Env T) : Kernel T :=
  match k.pc k.cur with
  | .user => k
  | .returning c => k.ret c.call .ok
  | .semWait s => k.semWaitEnd s
  | .semTimedwait s abstime => k.semTimedwaitEnd s abstime
  | .semPost s => k.semPostEnd s
  | .mutexLock m caller => k.mutexLockSys env m caller
  | .lockPrio m caller => k.lockReturn env m caller .ok
  | .unlockPrio m caller => k.unlockReturn env m caller .ok
  | .condWait c m => k.mutexLockSys env m (.condWait c)
  | .condTimedwait c m abstime d =>
    (k.removePthreadList .cond c k.cur).mutexLockSys env m
      (.condTimedwait c abstime (sleepForResult d env))

/-- `clock_handler`, and the `scheduling ()` on the way out of the interrupt. -/
def clockHandler (k : Kernel T) (env : Env T) : Kernel T :=
  let k := k.updateHwtimer env
  { k with sched := k.sched.scheduling }

def step (k : Kernel T) : Action T → Option (Kernel T)
  | .call c env =>
    if k.pc k.cur = .user ∧ k.cur ≠ k.sched.idleThread then
      some ((k.record (.call k.cur c)).enter env c)
    else none
  | .resume env => if k.pc k.cur = .user then none else some (k.resume env)
  | .interrupt env => if k.pc k.cur = .user then some (k.clockHandler env) else none

end Kernel

end Xmertl.Partikle
