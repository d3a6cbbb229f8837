import Xmertl.Lib.Bitmap
import Xmertl.Partikle.Moves
import Xmertl.Partikle.SchedCalls

/-!
# Threads come and go

The thread calls of `pthread.c` and `rtl.c` and the waiting calls of `signal.c`, over the
`Kernel` with its mutexes, conditions, semaphores and timers. A thread that has finished runs
its cleanup handlers, which are user code and may call anything, before it leaves
`pthread_exit_sys`.

What a call does with the memory of a thread that has been deleted is left open: such a step
has no result. `exitValue`s are not modelled; they decide nothing.
-/

namespace Xmertl.Partikle

def minSchedPriority : Int := 1023

def maxSchedPriority : Int := 0

def maxCleanupHandlers : Nat := 8

def cancelSignal : Fin 32 := ⟨1, by decide⟩

/-- `pthread_attr_t`; `schedFifo` says that the policy is SCHED_FIFO. -/
structure PthreadAttr where
  schedFifo : Bool := true
  schedPriority : Int
  detachstate : Bool := false

/-- The `scheduling ()` of a thread call that its thread has not returned from. -/
inductive ThreadPc (T : Type)
  | create
  | detach
  | setschedparam
  | delete
  /-- In the loop of `pthread_join_sys`. -/
  | join (thread : T)
  /-- The last one of `pthread_exit_sys`. -/
  | exit
  | sigsuspend (oldMask : BitVec 32)
  | sigwait (set oldMask : BitVec 32)
  deriving DecidableEq

inductive ThreadAction (T : Type)
  | kernel (a : Action T)
  /-- With the structure `create_pthread_struct` gets, if any, and whether there is a stack. -/
  | create (thread : Option T) (attr : Option PthreadAttr) (stack : Bool)
  | join (thread : Option T)
  | detach (thread : Option T)
  | cancel (thread : Option T)
  | cleanupPush
  | cleanupPop
  | setschedparam (thread : Option T) (param : Option Int)
  /-- `pthread_exit_sys` up to its first cleanup handler. -/
  | exit
  /-- Its next cleanup handler. -/
  | cleanupHandler
  /-- The rest, when the handlers have run. -/
  | exitEnd
  | deleteNp (thread : T)
  | sigsuspend (mask : Option (BitVec 32))
  | sigwait (set : Option (BitVec 32))
  /-- What `pthread_sigmask_sys` and `do_signals` leave of the current thread's signals. -/
  | signals (sigpending sigmask : BitVec 32)
  /-- The current thread returns from the `scheduling ()` it is in. -/
  | resume

/-- `created` threads have their structure in `thread_list`. `exiting` counts the calls of
`pthread_exit_sys` a thread is in, and `lastRet` is what its last thread call gave. -/
structure Threads (T : Type) where
  kernel : Kernel T
  mainappThread : T
  created : T → Bool
  detachState : T → Bool
  joiningThread : T → Option T
  topCrTable : T → Nat
  exiting : T → Nat
  pc : T → Option (ThreadPc T)
  lastRet : T → Ret

namespace Threads

variable {T : Type}

def cur (x : Threads T) : T := x.kernel.cur

def idle (x : Threads T) : T := x.kernel.sched.idleThread

def User (x : Threads T) : Prop := x.kernel.pc x.cur = .user ∧ x.pc x.cur = none

def thread (x : Threads T) (t : T) : Thread := x.kernel.sched.thread t

variable [DecidableEq T]

instance (x : Threads T) : Decidable x.User := inferInstanceAs (Decidable (_ ∧ _))

def call (x : Threads T) (c : SchedCall T) : Threads T :=
  { x with kernel := { x.kernel with sched := x.kernel.sched.call c } }

/-- The current thread calls `scheduling ()` and will go on from `p`. -/
def scheduling (x : Threads T) (p : ThreadPc T) : Threads T :=
  { x with pc := Function.update x.pc x.cur (some p) }.call .scheduling

def ret (x : Threads T) (r : Ret) : Threads T :=
  { x with
    pc := Function.update x.pc x.cur none
    lastRet := Function.update x.lastRet x.cur r }

def setSignals (x : Threads T) (sigpending sigmask : BitVec 32) (activateOnSignal : Bool) :
    Threads T :=
  x.call (.signals x.cur sigpending sigmask activateOnSignal)

-- ---------------------------------------------------------------------------
-- pthread.c
-- ---------------------------------------------------------------------------

/-- `create_pthread_struct` and the attributes. -/
def newThread (x : Threads T) (t : T) (prio : Int) (detachstate : Bool) : Threads T :=
  let freed := fun κ => { x.kernel.lists κ with
    node := Function.update (x.kernel.lists κ).node t .free }
  { x with
    kernel := { x.kernel with lists := freed, pc := Function.update x.kernel.pc t .user }
    created := Function.update x.created t true
    detachState := Function.update x.detachState t detachstate
    joiningThread := Function.update x.joiningThread t none
    topCrTable := Function.update x.topCrTable t 0
    exiting := Function.update x.exiting t 0
    pc := Function.update x.pc t none }.call (.createPthread t prio)

def createSys (x : Threads T) (thread : Option T) (attr : Option PthreadAttr) (stack : Bool) :
    Option (Threads T) :=
  if attr.any fun a => !a.schedFifo || decide (a.schedPriority > minSchedPriority) ||
      decide (a.schedPriority < maxSchedPriority) then
    some (x.ret (.fail .einval))
  else
    match thread with
    | none => some (x.ret (.fail .eagain))
    | some t =>
      if x.created t = false ∧ t ≠ x.idle then
        let x := match attr with
          | some a => x.newThread t a.schedPriority a.detachstate
          | none => x.newThread t minSchedPriority false
        if stack then some ((x.call (.activateThread t)).scheduling .create)
        else some (x.ret (.fail .eagain))
      else none

/-- The loop of `pthread_join_sys`, from its test on. -/
def joinLoop (x : Threads T) (t : T) : Option (Threads T) :=
  if (x.thread t).state ≠ .finished then
    some (({ x with joiningThread := Function.update x.joiningThread t (some x.cur) }.call
      (.suspendThread x.cur)).scheduling (.join t))
  else if t = x.cur then none
  else some (({ x with created := Function.update x.created t false }.call
    (.deletePthread t)).ret .ok)

/-- Back from its `scheduling ()`, it makes the same tests again. -/
def joinSys (x : Threads T) : Option T → Option (Threads T)
  | none => some (x.ret (.fail .esrch))
  | some t =>
    if x.created t = false then none
    else if x.detachState t then some (x.ret (.fail .einval))
    else x.joinLoop t

/-- It wakes the thread that joins the current one, which must be there. -/
def detachSys (x : Threads T) : Option T → Option (Threads T)
  | none => some (x.ret (.fail .esrch))
  | some t =>
    if x.created t = false then none
    else if x.detachState t then some (x.ret (.fail .einval))
    else
      (x.joiningThread x.cur).map fun j =>
        ({ x with
          detachState := Function.update x.detachState t true
          joiningThread := Function.update x.joiningThread x.cur none }.call
            (.activateThread j)).scheduling .detach

def cancelSys (x : Threads T) : Option T → Option (Threads T)
  | none => some (x.ret (.fail .esrch))
  | some t =>
    if x.created t = false then none
    else some ({ x with kernel := x.kernel.pthreadKill t cancelSignal }.ret .ok)

def cleanupPushSys (x : Threads T) : Threads T :=
  if x.topCrTable x.cur < maxCleanupHandlers then
    { x with topCrTable := Function.update x.topCrTable x.cur (x.topCrTable x.cur + 1) }
  else x

/-- A handler it executes is user code that follows. -/
def cleanupPopSys (x : Threads T) : Threads T :=
  if x.topCrTable x.cur > 0 then
    { x with topCrTable := Function.update x.topCrTable x.cur (x.topCrTable x.cur - 1) }
  else x

/-- `change_thread_prio` sets the priority that has been copied already. -/
def setschedparamSys (x : Threads T) : Option T → Option Int → Option (Threads T)
  | none, _ => some (x.ret (.fail .esrch))
  | some t, param =>
    if x.created t = false then none
    else
      match param with
      | none => some (x.ret (.fail .einval))
      | some prio => some ((x.call (.changeThreadPrio t prio)).scheduling .setschedparam)

def exitSys (x : Threads T) : Threads T :=
  let sleepTimer := Function.update x.kernel.sleepTimer x.cur (x.kernel.sleepTimer x.cur - 1)
  { x with
    kernel := { x.kernel with sleepTimer }
    exiting := Function.update x.exiting x.cur (x.exiting x.cur + 1) }.call (.finishThread x.cur)

def wakeJoining (x : Threads T) : Threads T :=
  match x.detachState x.cur, x.joiningThread x.cur with
  | false, some j => x.call (.activateThread j)
  | _, _ => x

/-- Where the main thread exits, so does the system. -/
def exitEnd (x : Threads T) : Option (Threads T) :=
  if x.cur = x.mainappThread then none else some (x.wakeJoining.scheduling .exit)

-- ---------------------------------------------------------------------------
-- rtl.c and signal.c
-- ---------------------------------------------------------------------------

def deleteNpSys (x : Threads T) (t : T) : Option (Threads T) :=
  if x.created t = false then none
  else some ((({ x with created := Function.update x.created t false }.call
    (.finishThread t)).call (.deletePthread t)).scheduling .delete)

/-- With the mask and the mark that the waiting thread has until it is back. -/
def suspendForSignal (x : Threads T) (mask : BitVec 32) (activateOnSignal : Bool) (p : ThreadPc T) :
    Threads T :=
  ((x.setSignals (x.thread x.cur).sigpending mask activateOnSignal).call
    (.suspendThread x.cur)).scheduling p

def sigsuspendSys (x : Threads T) (mask : Option (BitVec 32)) : Threads T :=
  let th := x.thread x.cur
  x.suspendForSignal (mask.getD th.sigmask) th.activateOnSignal (.sigsuspend th.sigmask)

def takeSignal (x : Threads T) (set : BitVec 32) : Option (Threads T) :=
  let th := x.thread x.cur
  (th.sigpending &&& (set &&& ~~~nonMaskableSignals)).first.map fun sig =>
    x.setSignals (th.sigpending.clearBit sig) th.sigmask th.activateOnSignal

def sigwaitSys (x : Threads T) : Option (BitVec 32) → Threads T
  | none => x.ret (.fail .einval)
  | some set =>
    match x.takeSignal set with
    | some x => x.ret .ok
    | none => x.suspendForSignal set true (.sigwait set (x.thread x.cur).sigmask)

def sigwaitEnd (x : Threads T) (set oldMask : BitVec 32) : Threads T :=
  let x := x.setSignals (x.thread x.cur).sigpending oldMask false
  match x.takeSignal set with
  | some x => x.ret .ok
  | none => x.ret (.fail .einval)

def resume (x : Threads T) : ThreadPc T → Option (Threads T)
  | .create | .detach | .setschedparam | .delete => some (x.ret .ok)
  | .join t => x.joinSys (some t)
  | .exit =>
    some ({ x with exiting := Function.update x.exiting x.cur (x.exiting x.cur - 1) }.ret .ok)
  | .sigsuspend oldMask =>
    let th := x.thread x.cur
    some ((x.setSignals th.sigpending oldMask th.activateOnSignal).ret .ok)
  | .sigwait set oldMask => some (x.sigwaitEnd set oldMask)

-- ---------------------------------------------------------------------------
-- Runs
-- ---------------------------------------------------------------------------

/-- A call of the current thread; the idle thread makes none. -/
def syscall [Fintype T] (x : Threads T) : ThreadAction T → Option (Threads T)
  | .create thread attr stack => x.createSys thread attr stack
  | .join thread => x.joinSys thread
  | .detach thread => x.detachSys thread
  | .cancel thread => x.cancelSys thread
  | .cleanupPush => some x.cleanupPushSys
  | .cleanupPop => some x.cleanupPopSys
  | .setschedparam thread param => x.setschedparamSys thread param
  | .exit => some x.exitSys
  | .cleanupHandler =>
    if 0 < x.exiting x.cur ∧ 0 < x.topCrTable x.cur then some x.cleanupPopSys else none
  | .exitEnd => if 0 < x.exiting x.cur ∧ x.topCrTable x.cur = 0 then x.exitEnd else none
  | .deleteNp thread => x.deleteNpSys thread
  | .sigsuspend mask => some (x.sigsuspendSys mask)
  | .sigwait set => some (x.sigwaitSys set)
  | .signals sigpending sigmask =>
    some (x.setSignals sigpending sigmask (x.thread x.cur).activateOnSignal)
  | .kernel _ | .resume => none

/-- User code and its timers only have the threads that were created. -/
def step [Fintype T] (x : Threads T) : ThreadAction T → Option (Threads T)
  | .kernel a =>
    if x.pc x.cur = none ∧ ∀ t ∈ a.targets, x.created t = true then
      (x.kernel.step a).map fun kernel => { x with kernel }
    else none
  | .resume => (x.pc x.cur).bind x.resume
  | a => if x.User ∧ x.cur ≠ x.idle then x.syscall a else none

/-- Before the main thread is created. A structure that is not in use counts as FINISHED,
which nothing activates. -/
def bootSched (idle : T) : Sched T where
  thread t := if t = idle then {} else { state := .finished, ss := none }
  threadMatrix _ := []
  currentThread := idle
  idleThread := idle

def boot (idle mainapp : T) (sem : Nat → BitVec 32) (attr : Nat → MutexAttr) : Threads T :=
  { kernel :=
      { sched := (bootSched idle).calls
          [.createPthread mainapp minSchedPriority, .activateThread mainapp, .scheduling]
        pc := fun _ => .user
        sem := fun s => Kernel.semInit (sem s)
        mutex := fun m => { attr := attr m }
        lists := fun _ => { head := fun _ => none, node := fun _ => .free }
        sleepTimer := fun _ => 0
        log := [] }
    mainappThread := mainapp
    created := fun t => decide (t = mainapp)
    detachState := fun _ => false
    joiningThread := fun _ => none
    topCrTable := fun _ => 0
    exiting := fun _ => 0
    pc := fun _ => none
    lastRet := fun _ => .ok }

end Threads

end Xmertl.Partikle
