import Xmertl.Partikle.Kernel

/-!
# Mutex and condition variable calls

The mutex and condition part of `pthread.c`. `pthread_mutex_lock_sys` and
`pthread_mutex_unlock_sys` are also called inside the condition calls, so what
follows their return is a parameter (`LockCaller`, `UnlockCaller`).
-/

namespace Xmertl.Partikle

variable {T : Type}

/-- A mutex taken by `t`, which runs at priority `prio`. -/
def Mutex.takenBy (mutex : Mutex T) (t : T) (counter prio : Int) : Mutex T where
  owner := some t
  counter := counter
  attr :=
    if mutex.attr.prioProtection = .protect then { mutex.attr with ownerPrio := prio }
    else mutex.attr

@[simp] theorem Mutex.takenBy_owner (mutex : Mutex T) :
    (mutex.takenBy t n p).owner = some t := rfl

@[simp] theorem Mutex.takenBy_counter (mutex : Mutex T) :
    (mutex.takenBy t n p).counter = n := rfl

@[simp] theorem Mutex.takenBy_attr (mutex : Mutex T) :
    (mutex.takenBy t n p).attr.prioProtection = mutex.attr.prioProtection ∧
    (mutex.takenBy t n p).attr.prio = mutex.attr.prio ∧
    (mutex.takenBy t n p).attr.type = mutex.attr.type := by
  unfold takenBy
  split <;> simp

theorem Mutex.takenBy_ownerPrio (mutex : Mutex T) (h : mutex.attr.prioProtection = .protect) :
    (mutex.takenBy t n p).attr.ownerPrio = p := by
  simp [takenBy, h]

namespace Kernel

variable [DecidableEq T]

/-- The return of `pthread_mutex_lock_sys` or `_trylock_sys` into its caller.
The condition calls do not look at the result. -/
def lockReturn (k : Kernel T) (env : Env T) (m : Nat) : LockCaller → Ret → Kernel T
  | .lock, r => k.ret (.mutexLock m) r
  | .trylock, r => k.ret (.mutexTrylock m) r
  | .condWait c, _ => k.ret (.condWait (some c) (some m)) .ok
  | .condTimedwait c abstime rest, _ =>
    k.ret (.condTimedwait (some c) (some m) (some abstime))
      (if rest < env.monotonic then .fail .etimedout else .ok)

/-- Below the ceiling of a PTHREAD_PRIO_PROTECT mutex, the owner is raised to it. -/
def RaisesPrio (k : Kernel T) (m : Nat) : Prop :=
  (k.mutex m).attr.prioProtection = .protect ∧ k.prio k.cur > (k.mutex m).attr.prio

instance (k : Kernel T) (m : Nat) : Decidable (k.RaisesPrio m) :=
  inferInstanceAs (Decidable (_ ∧ _))

/-- "Locking the mutex", up to the `scheduling ()` after the raise. -/
def setOwner (k : Kernel T) (m : Nat) (counter : Int) : Kernel T :=
  let k' := (k.record (.acquire k.cur m)).setMutex m
    ((k.mutex m).takenBy k.cur counter (k.prio k.cur))
  if k.RaisesPrio m then k'.changeThreadPrio k.cur (k.mutex m).attr.prio else k'

def takeMutex (k : Kernel T) (env : Env T) (m : Nat) (counter : Int) (caller : LockCaller) :
    Kernel T :=
  if k.RaisesPrio m then (k.setOwner m counter).scheduling (.lockPrio m caller)
  else (k.setOwner m counter).lockReturn env m caller .ok

def setCounter (k : Kernel T) (m : Nat) (counter : Int) : Kernel T :=
  k.setMutex m { k.mutex m with counter := counter }

/-- The owner of a recursive mutex takes it once more. -/
def relockMutex (k : Kernel T) (env : Env T) (m : Nat) (caller : LockCaller) : Kernel T :=
  ((k.record (.acquire k.cur m)).setCounter m (int32 ((k.mutex m).counter + 1))).lockReturn
    env m caller .ok

/-- `pthread_mutex_lock_sys`, from the test of its loop on. -/
def mutexLockSys (k : Kernel T) (env : Env T) (m : Nat) (caller : LockCaller) : Kernel T :=
  let wait :=
    ((k.suspendThread k.cur).insertPthreadList .mutex m k.cur).scheduling (.mutexLock m caller)
  match (k.mutex m).owner with
  | none => k.takeMutex env m 1 caller
  | some owner =>
    if owner = k.cur then
      match (k.mutex m).attr.type with
      | .errorcheck => k.lockReturn env m caller (.fail .edeadlk)
      | .recursive => k.relockMutex env m caller
      | .normal => wait
    else wait

/-- Unlike the lock, it does not set the counter. -/
def mutexTrylockSys (k : Kernel T) (env : Env T) (m : Nat) : Kernel T :=
  match (k.mutex m).owner with
  | none => k.takeMutex env m (k.mutex m).counter .trylock
  | some owner =>
    if owner = k.cur ∧ (k.mutex m).attr.type = .recursive then k.relockMutex env m .trylock
    else k.lockReturn env m .trylock (.fail .ebusy)

/-- The return of `pthread_mutex_unlock_sys` into its caller. The condition
calls go on to wait, whatever the result. -/
def unlockReturn (k : Kernel T) (env : Env T) (m : Nat) : UnlockCaller → Ret → Kernel T
  | .unlock, r => k.ret (.mutexUnlock m) r
  | .condWait c, _ =>
    ((k.suspendThread k.cur).insertPthreadList .cond c k.cur).scheduling (.condWait c m)
  | .condTimedwait c abstime d, _ =>
    (k.insertPthreadList .cond c k.cur).sleepFor env (.condTimedwait c m abstime d)

def RestoresPrio (k : Kernel T) (m : Nat) : Prop :=
  (k.mutex m).attr.prioProtection = .protect ∧ (k.mutex m).attr.ownerPrio ≠ k.prio k.cur

instance (k : Kernel T) (m : Nat) : Decidable (k.RestoresPrio m) :=
  inferInstanceAs (Decidable (_ ∧ _))

/-- The release after the waiters are awake, up to the `scheduling ()` after the
restored priority. `mutex_list = NULL` is left out: the loop has emptied the
list (`wakeThreads_head`). -/
def clearOwner (k : Kernel T) (m : Nat) : Kernel T :=
  let k' := (k.record (.release k.cur m)).setMutex m
    { k.mutex m with owner := none, counter := 0 }
  if k.RestoresPrio m then k'.changeThreadPrio k.cur (k.mutex m).attr.ownerPrio else k'

-- ---------------------------------------------------------------------------
-- What the changes of a mutex leave alone
-- ---------------------------------------------------------------------------

section
variable (k : Kernel T)

omit [DecidableEq T] in
@[simp] theorem setCounter_rest : (k.setCounter m n).sched = k.sched ∧
    (k.setCounter m n).pc = k.pc ∧ (k.setCounter m n).sem = k.sem ∧
    (k.setCounter m n).lists = k.lists ∧ (k.setCounter m n).log = k.log ∧
    (k.setCounter m n).cur = k.cur ∧ (k.setCounter m n).state = k.state ∧
    (k.setCounter m n).prio = k.prio := by
  exact ⟨rfl, rfl, rfl, rfl, rfl, rfl, rfl, rfl⟩

omit [DecidableEq T] in
@[simp] theorem setCounter_mutex : (k.setCounter m n).mutex =
    Function.update k.mutex m { k.mutex m with counter := n } := rfl

@[simp] theorem setOwner_rest : (k.setOwner m n).pc = k.pc ∧
    (k.setOwner m n).sem = k.sem ∧ (k.setOwner m n).lists = k.lists ∧
    (k.setOwner m n).log = .acquire k.cur m :: k.log ∧ (k.setOwner m n).cur = k.cur ∧
    (k.setOwner m n).state = k.state := by
  unfold setOwner
  simp only
  split <;> simp

theorem setOwner_mutex : (k.setOwner m n).mutex =
    Function.update k.mutex m ((k.mutex m).takenBy k.cur n (k.prio k.cur)) := by
  unfold setOwner
  simp only
  split <;> simp

theorem setOwner_prio : (k.setOwner m n).prio t =
    if t = k.cur ∧ k.RaisesPrio m then (k.mutex m).attr.prio else k.prio t := by
  unfold setOwner
  simp only
  by_cases h : k.RaisesPrio m
  · simp [h, changeThreadPrio_prio]
  · simp [h]

@[simp] theorem clearOwner_rest : (k.clearOwner m).pc = k.pc ∧
    (k.clearOwner m).sem = k.sem ∧ (k.clearOwner m).lists = k.lists ∧
    (k.clearOwner m).log = .release k.cur m :: k.log ∧ (k.clearOwner m).cur = k.cur ∧
    (k.clearOwner m).state = k.state := by
  unfold clearOwner
  simp only
  split <;> simp

theorem clearOwner_mutex : (k.clearOwner m).mutex =
    Function.update k.mutex m { k.mutex m with owner := none, counter := 0 } := by
  unfold clearOwner
  simp only
  split <;> simp

theorem clearOwner_prio : (k.clearOwner m).prio t =
    if t = k.cur ∧ k.RestoresPrio m then (k.mutex m).attr.ownerPrio else k.prio t := by
  unfold clearOwner
  simp only
  by_cases h : k.RestoresPrio m
  · simp [h, changeThreadPrio_prio]
  · simp [h]

end

-- ---------------------------------------------------------------------------
-- Release and condition variables
-- ---------------------------------------------------------------------------

variable [Fintype T]

def releaseMutex (k : Kernel T) (env : Env T) (m : Nat) (caller : UnlockCaller) : Kernel T :=
  let k := k.wakeThreads .mutex m
  if k.RestoresPrio m then (k.clearOwner m).scheduling (.unlockPrio m caller)
  else (k.clearOwner m).unlockReturn env m caller .ok

def mutexUnlockSys (k : Kernel T) (env : Env T) (m : Nat) (caller : UnlockCaller) : Kernel T :=
  let mutex := k.mutex m
  match mutex.owner with
  | none =>
    k.unlockReturn env m caller (if mutex.attr.type = .errorcheck then .fail .eperm else .ok)
  | some owner =>
    if owner = k.cur then
      let counter := int32 (mutex.counter - 1)
      if mutex.attr.type = .recursive ∧ 0 < counter then
        ((k.record (.release k.cur m)).setCounter m counter).unlockReturn env m caller .ok
      else k.releaseMutex env m caller
    else k.unlockReturn env m caller (.fail .eperm)

def condSignalSys (k : Kernel T) : Option Nat → Kernel T
  | none => k.ret (.condSignal none) (.fail .einval)
  | some c =>
    match k.removeHeadPthreadList .cond c with
    | (some t, k) => (k.activateThread t).scheduling (.returning (.condSignal c))
    | (none, k) => k.scheduling (.returning (.condSignal c))

def condBroadcastSys (k : Kernel T) : Option Nat → Kernel T
  | none => k.ret (.condBroadcast none) (.fail .einval)
  | some c => (k.wakeThreads .cond c).scheduling (.returning (.condBroadcast c))

def condWaitSys (k : Kernel T) (env : Env T) : Option Nat → Option Nat → Kernel T
  | some c, some m =>
    if (k.mutex m).owner = some k.cur then k.mutexUnlockSys env m (.condWait c)
    else k.ret (.condWait (some c) (some m)) (.fail .eperm)
  | c, m => k.ret (.condWait c m) (.fail .einval)

def condTimedwaitSys (k : Kernel T) (env : Env T) :
    Option Nat → Option Nat → Option Timespec → Kernel T
  | some c, some m, some abstime =>
    let d := int64 (abstime.tvSec * nsecsPerSec + abstime.tvNsec - env.realtime)
    if (k.mutex m).owner = some k.cur then
      k.mutexUnlockSys env m (.condTimedwait c abstime d)
    else k.ret (.condTimedwait (some c) (some m) (some abstime)) (.fail .eperm)
  | c, m, abstime => k.ret (.condTimedwait c m abstime) (.fail .einval)

end Kernel

end Xmertl.Partikle
