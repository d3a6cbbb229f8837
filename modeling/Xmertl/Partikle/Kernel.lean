import Mathlib.Data.Fintype.Card
import Xmertl.Lib.IntrusiveList
import Xmertl.Partikle.Sched

/-!
# The PaRTiKle kernel state

What the system calls of `semaphore.c`, `pthread.c` and `signal.c` read and
write, and the kernel functions they share. Interrupts are off inside a call,
so a call runs alone up to its next `scheduling ()`; `Pc` says, for each
thread, which `scheduling ()` it has not returned from yet.

The three wait lists (`mutex_list`, `cond_list`, `sem_list`) are pointer
structures: `lists κ` holds the list heads of all objects of one kind and the
node each thread has for that kind.

`log` is a ghost record of calls, returns and changes of ownership, newest
first. No function reads it.
-/

namespace Xmertl.Partikle

open IntrusiveList (Lists)

inductive Errno
  | eperm | esrch | eagain | ebusy | einval | erange | edeadlk | etimedout
  deriving DecidableEq

/-- What a system call gives its caller: 0, or -1 with `errno` set. -/
inductive Ret
  | ok
  | fail (e : Errno)
  deriving DecidableEq

structure Timespec where
  tvSec : Int
  tvNsec : Int
  deriving DecidableEq

def nsecsPerSec : Int := 1000000000

def int32 (x : Int) : Int := x.bmod 4294967296

def int64 (x : Int) : Int := x.bmod 18446744073709551616

theorem int32_eq (h₁ : -2147483648 ≤ x) (h₂ : x < 2147483648) : int32 x = x := by
  unfold int32
  rw [Int.bmod_eq_of_le] <;> omega

def semValueMax : Int := 2147483647

structure Sem where
  value : Int

inductive MutexType
  | normal | recursive | errorcheck
  deriving DecidableEq

inductive PrioProtection
  | none | protect
  deriving DecidableEq

structure MutexAttr where
  prioProtection : PrioProtection := .protect
  prio : Int := 0
  type : MutexType := .normal
  ownerPrio : Int := 0

structure Mutex (T : Type) where
  counter : Int := 0
  attr : MutexAttr := {}
  owner : Option T := .none

/-- The kinds of object a thread can be linked to. -/
inductive Kind
  | mutex | cond | sem
  deriving DecidableEq

/-- The modelled system calls. A `none` stands for a null pointer. -/
inductive Call (T : Type)
  | semWait (sem : Option Nat)
  | semTrywait (sem : Option Nat)
  | semTimedwait (sem : Option Nat) (abstime : Option Timespec)
  | semPost (sem : Option Nat)
  | mutexLock (mutex : Nat)
  | mutexTrylock (mutex : Nat)
  | mutexUnlock (mutex : Nat)
  | condSignal (cond : Option Nat)
  | condBroadcast (cond : Option Nat)
  | condWait (cond mutex : Option Nat)
  | condTimedwait (cond mutex : Option Nat) (abstime : Option Timespec)
  | kill (thread : Option T) (sig : Int)
  | yield
  /-- `SLEEP_THREAD_handler`, run by `do_signals` on the way out of the kernel. -/
  | sleepThread
  deriving DecidableEq

/-- The calls whose last act is a `scheduling ()`. -/
inductive LastCall
  | condSignal (cond : Nat)
  | condBroadcast (cond : Nat)
  | yield
  | sleepThread
  deriving DecidableEq

def LastCall.call : LastCall → Call T
  | .condSignal c => .condSignal (some c)
  | .condBroadcast c => .condBroadcast (some c)
  | .yield => .yield
  | .sleepThread => .sleepThread

/-- Who called `pthread_mutex_lock_sys`, or did what it does. -/
inductive LockCaller
  | lock
  | trylock
  | condWait (cond : Nat)
  | condTimedwait (cond : Nat) (abstime : Timespec) (r : Int)
  deriving DecidableEq

inductive UnlockCaller
  | unlock
  | condWait (cond : Nat)
  | condTimedwait (cond : Nat) (abstime : Timespec) (d : Int)
  deriving DecidableEq

/-- The `scheduling ()` a thread is in; `user` for a thread outside the calls. -/
inductive Pc (T : Type)
  | user
  /-- The call only returns 0 now. -/
  | returning (call : LastCall)
  | semWait (sem : Nat)
  | semTimedwait (sem : Nat) (abstime : Timespec)
  | semPost (sem : Nat)
  /-- In the loop of `pthread_mutex_lock_sys`. -/
  | mutexLock (mutex : Nat) (caller : LockCaller)
  /-- Owner already, after raising the own priority. -/
  | lockPrio (mutex : Nat) (caller : LockCaller)
  /-- Owner no more, after restoring the own priority. -/
  | unlockPrio (mutex : Nat) (caller : UnlockCaller)
  | condWait (cond mutex : Nat)
  | condTimedwait (cond mutex : Nat) (abstime : Timespec) (d : Int)
  deriving DecidableEq

inductive Event (T : Type)
  | call (thread : T) (call : Call T)
  | ret (thread : T) (call : Call T) (ret : Ret)
  | acquire (thread : T) (mutex : Nat)
  | release (thread : T) (mutex : Nat)
  deriving DecidableEq

structure Kernel (T : Type) where
  sched : Sched T
  pc : T → Pc T
  sem : Nat → Sem
  mutex : Nat → Mutex T
  lists : Kind → Lists Nat T
  /-- Entries of a thread's sleep timer in the timer heap; an entry stays
  when the sleep ends early. -/
  sleepTimer : T → Nat
  log : List (Event T)

inductive Expiry (T : Type)
  | wakeup (owner : T)
  | kill (owner : T) (sig : Fin 32)
  deriving DecidableEq

/-- What a call reads of the world: the clocks, and the timers
`update_hwtimer` finds expired. -/
structure Env (T : Type) where
  realtime : Int := 0
  monotonic : Int := 0
  expired : List (Expiry T) := []

/-- `sigpending.sig |= (1 << sig)`. -/
def Thread.raise (th : Thread) (sig : Fin 32) : Thread :=
  { th with sigpending := th.sigpending ||| (1#32 <<< sig.val) }

def nonMaskableSignals : BitVec 32 := (1#32 <<< 6) - 1

namespace Kernel

variable {T : Type}

def cur (k : Kernel T) : T := k.sched.currentThread

def state (k : Kernel T) (t : T) : ThreadState := (k.sched.thread t).state

def prio (k : Kernel T) (t : T) : Int := (k.sched.thread t).schedPriority

def setSem (k : Kernel T) (s : Nat) (value : Int) : Kernel T :=
  { k with sem := Function.update k.sem s ⟨value⟩ }

def setMutex (k : Kernel T) (m : Nat) (mutex : Mutex T) : Kernel T :=
  { k with mutex := Function.update k.mutex m mutex }

def setLists (k : Kernel T) (κ : Kind) (w : Lists Nat T) : Kernel T :=
  { k with lists := Function.update k.lists κ w }

def record (k : Kernel T) (e : Event T) : Kernel T := { k with log := e :: k.log }

@[simp] theorem setSem_sem (k : Kernel T) (s : Nat) (v : Int) :
    (k.setSem s v).sem = Function.update k.sem s ⟨v⟩ := rfl

@[simp] theorem setMutex_mutex (k : Kernel T) (m : Nat) (x : Mutex T) :
    (k.setMutex m x).mutex = Function.update k.mutex m x := rfl

@[simp] theorem setLists_lists (k : Kernel T) (κ : Kind) (w : Lists Nat T) :
    (k.setLists κ w).lists = Function.update k.lists κ w := rfl

@[simp] theorem setLists_self (k : Kernel T) (κ : Kind) (w : Lists Nat T) :
    (k.setLists κ w).lists κ = w := by simp [setLists]

variable [DecidableEq T]

def setPc (k : Kernel T) (p : Pc T) : Kernel T :=
  { k with pc := Function.update k.pc k.cur p }

def ret (k : Kernel T) (c : Call T) (r : Ret) : Kernel T :=
  (k.setPc .user).record (.ret k.cur c r)

/-- The current thread calls `scheduling ()` and will go on from `p`. -/
def scheduling (k : Kernel T) (p : Pc T) : Kernel T :=
  let k := k.setPc p
  { k with sched := k.sched.scheduling }

def suspendThread (k : Kernel T) (t : T) : Kernel T :=
  { k with sched := k.sched.suspendThread t }

def activateThread (k : Kernel T) (t : T) : Kernel T :=
  { k with sched := k.sched.activateThread t }

def changeThreadPrio (k : Kernel T) (t : T) (prio : Int) : Kernel T :=
  { k with sched := k.sched.changeThreadPrio t prio }

-- ---------------------------------------------------------------------------
-- pthread_list.h, on the list of object `o` of kind `κ`
-- ---------------------------------------------------------------------------

def insertPthreadList (k : Kernel T) (κ : Kind) (o : Nat) (t : T) : Kernel T :=
  k.setLists κ ((k.lists κ).pushFront o t)

def removePthreadList (k : Kernel T) (κ : Kind) (o : Nat) (t : T) : Kernel T :=
  k.setLists κ ((k.lists κ).unlink o t)

def removeHeadPthreadList (k : Kernel T) (κ : Kind) (o : Nat) : Option T × Kernel T :=
  let (t, w) := (k.lists κ).popFront o
  (t, k.setLists κ w)

/-- `while ((thread = remove_head_pthread_list (..))) activate_thread (thread);` -/
def wakeAll (k : Kernel T) (κ : Kind) (o : Nat) : Nat → Kernel T
  | 0 => k
  | n + 1 =>
    match k.removeHeadPthreadList κ o with
    | (none, _) => k
    | (some t, k) => (k.activateThread t).wakeAll κ o n

/-- The loop to its end: it takes no more rounds than this
(`wakeThreads_head`). -/
def wakeThreads [Fintype T] (k : Kernel T) (κ : Kind) (o : Nat) : Kernel T :=
  k.wakeAll κ o (Fintype.card T + 1)

-- ---------------------------------------------------------------------------
-- signal.c, time.c
-- ---------------------------------------------------------------------------

def pthreadKill (k : Kernel T) (t : T) (sig : Fin 32) : Kernel T :=
  let k := { k with sched := k.sched.modify t (·.raise sig) }
  let th := k.sched.thread t
  if ~~~(th.sigmask &&& ~~~nonMaskableSignals) &&& th.sigpending ≠ 0 ∨ th.activateOnSignal then
    k.activateThread t
  else k

/-- One round of `update_hwtimer`: the expired timer's action. -/
def expire (k : Kernel T) : Expiry T → Kernel T
  | .wakeup t =>
    if 0 < k.sleepTimer t then
      { k.activateThread t with
        sleepTimer := Function.update k.sleepTimer t (k.sleepTimer t - 1) }
    else k
  | .kill t sig => k.pthreadKill t sig

def updateHwtimer (k : Kernel T) (env : Env T) : Kernel T := env.expired.foldl expire k

/-- `arm_timer` on the current thread's sleep timer. -/
def armTimer (k : Kernel T) : Kernel T :=
  { k with sleepTimer := Function.update k.sleepTimer k.cur (k.sleepTimer k.cur + 1) }

/-- `sleep_for`, up to its `scheduling ()`. -/
def sleepFor (k : Kernel T) (env : Env T) (p : Pc T) : Kernel T :=
  let k := k.armTimer
  ((k.suspendThread k.cur).updateHwtimer env).scheduling p

/-- `sleep_for`'s result, read when the thread runs again. -/
def sleepForResult (d : Int) (env : Env T) : Int :=
  if d > env.monotonic then d - env.monotonic else 0

-- ---------------------------------------------------------------------------
-- What each operation leaves alone
-- ---------------------------------------------------------------------------

section
variable (k : Kernel T)

omit [DecidableEq T] in
@[simp] theorem setSem_rest : (k.setSem s v).sched = k.sched ∧ (k.setSem s v).pc = k.pc ∧
    (k.setSem s v).mutex = k.mutex ∧ (k.setSem s v).lists = k.lists ∧
    (k.setSem s v).sleepTimer = k.sleepTimer ∧ (k.setSem s v).log = k.log ∧
    (k.setSem s v).cur = k.cur ∧ (k.setSem s v).state = k.state ∧
    (k.setSem s v).prio = k.prio := by
  exact ⟨rfl, rfl, rfl, rfl, rfl, rfl, rfl, rfl, rfl⟩

omit [DecidableEq T] in
@[simp] theorem setMutex_rest : (k.setMutex m x).sched = k.sched ∧ (k.setMutex m x).pc = k.pc ∧
    (k.setMutex m x).sem = k.sem ∧ (k.setMutex m x).lists = k.lists ∧
    (k.setMutex m x).sleepTimer = k.sleepTimer ∧ (k.setMutex m x).log = k.log ∧
    (k.setMutex m x).cur = k.cur ∧ (k.setMutex m x).state = k.state ∧
    (k.setMutex m x).prio = k.prio := by
  exact ⟨rfl, rfl, rfl, rfl, rfl, rfl, rfl, rfl, rfl⟩

omit [DecidableEq T] in
@[simp] theorem setLists_rest : (k.setLists κ w).sched = k.sched ∧ (k.setLists κ w).pc = k.pc ∧
    (k.setLists κ w).sem = k.sem ∧ (k.setLists κ w).mutex = k.mutex ∧
    (k.setLists κ w).sleepTimer = k.sleepTimer ∧ (k.setLists κ w).log = k.log ∧
    (k.setLists κ w).cur = k.cur ∧ (k.setLists κ w).state = k.state ∧
    (k.setLists κ w).prio = k.prio := by
  exact ⟨rfl, rfl, rfl, rfl, rfl, rfl, rfl, rfl, rfl⟩

omit [DecidableEq T] in
@[simp] theorem record_rest : (k.record e).sched = k.sched ∧ (k.record e).pc = k.pc ∧
    (k.record e).sem = k.sem ∧ (k.record e).mutex = k.mutex ∧ (k.record e).lists = k.lists ∧
    (k.record e).sleepTimer = k.sleepTimer ∧ (k.record e).log = e :: k.log ∧
    (k.record e).cur = k.cur ∧ (k.record e).state = k.state ∧
    (k.record e).prio = k.prio := by
  exact ⟨rfl, rfl, rfl, rfl, rfl, rfl, rfl, rfl, rfl, rfl⟩

@[simp] theorem ret_rest : (k.ret c r).sched = k.sched ∧
    (k.ret c r).pc = Function.update k.pc k.cur .user ∧
    (k.ret c r).sem = k.sem ∧ (k.ret c r).mutex = k.mutex ∧ (k.ret c r).lists = k.lists ∧
    (k.ret c r).sleepTimer = k.sleepTimer ∧ (k.ret c r).log = .ret k.cur c r :: k.log ∧
    (k.ret c r).cur = k.cur ∧ (k.ret c r).state = k.state ∧
    (k.ret c r).prio = k.prio := by
  exact ⟨rfl, rfl, rfl, rfl, rfl, rfl, rfl, rfl, rfl, rfl⟩

@[simp] theorem scheduling_rest : (k.scheduling p).sched = k.sched.scheduling ∧
    (k.scheduling p).pc = Function.update k.pc k.cur p ∧
    (k.scheduling p).sem = k.sem ∧ (k.scheduling p).mutex = k.mutex ∧
    (k.scheduling p).lists = k.lists ∧ (k.scheduling p).sleepTimer = k.sleepTimer ∧
    (k.scheduling p).log = k.log ∧ (k.scheduling p).state = k.state ∧
    (k.scheduling p).prio = k.prio := by
  exact ⟨rfl, rfl, rfl, rfl, rfl, rfl, rfl, rfl, rfl⟩

@[simp] theorem suspendThread_rest : (k.suspendThread t).pc = k.pc ∧
    (k.suspendThread t).sem = k.sem ∧ (k.suspendThread t).mutex = k.mutex ∧
    (k.suspendThread t).lists = k.lists ∧ (k.suspendThread t).sleepTimer = k.sleepTimer ∧
    (k.suspendThread t).log = k.log ∧ (k.suspendThread t).cur = k.cur ∧
    (k.suspendThread t).prio = k.prio := by
  refine ⟨rfl, rfl, rfl, rfl, rfl, rfl, by simp [suspendThread, cur], ?_⟩
  funext u
  exact Sched.suspendThread_prio _ _ _

@[simp] theorem activateThread_rest : (k.activateThread t).pc = k.pc ∧
    (k.activateThread t).sem = k.sem ∧ (k.activateThread t).mutex = k.mutex ∧
    (k.activateThread t).lists = k.lists ∧ (k.activateThread t).sleepTimer = k.sleepTimer ∧
    (k.activateThread t).log = k.log ∧ (k.activateThread t).cur = k.cur ∧
    (k.activateThread t).prio = k.prio := by
  refine ⟨rfl, rfl, rfl, rfl, rfl, rfl, by simp [activateThread, cur], ?_⟩
  funext u
  exact Sched.activateThread_prio _ _ _

@[simp] theorem changeThreadPrio_rest : (k.changeThreadPrio t p).pc = k.pc ∧
    (k.changeThreadPrio t p).sem = k.sem ∧ (k.changeThreadPrio t p).mutex = k.mutex ∧
    (k.changeThreadPrio t p).lists = k.lists ∧
    (k.changeThreadPrio t p).sleepTimer = k.sleepTimer ∧
    (k.changeThreadPrio t p).log = k.log ∧ (k.changeThreadPrio t p).cur = k.cur ∧
    (k.changeThreadPrio t p).state = k.state := by
  refine ⟨rfl, rfl, rfl, rfl, rfl, rfl, by simp [changeThreadPrio, cur], ?_⟩
  funext u
  exact Sched.changeThreadPrio_state _ _ _ _

theorem suspendThread_state : (k.suspendThread t).state u =
    if u = t then if k.state u = .finished then .finished else .suspended else k.state u :=
  Sched.suspendThread_state _ _ _

theorem activateThread_state : (k.activateThread t).state u =
    if u = t then if k.state u = .finished then .finished else .ready else k.state u :=
  Sched.activateThread_state _ _ _

theorem changeThreadPrio_prio :
    (k.changeThreadPrio t p).prio u = if u = t then p else k.prio u :=
  Sched.changeThreadPrio_prio _ _ _ _

end

/-- What waking threads up does: the other fields stay, and every thread keeps
its state or becomes READY. -/
structure WakeFrame (k k' : Kernel T) : Prop where
  pc : k'.pc = k.pc
  sem : k'.sem = k.sem
  mutex : k'.mutex = k.mutex
  log : k'.log = k.log
  cur : k'.cur = k.cur
  idle : k'.sched.idleThread = k.sched.idleThread
  prio : k'.prio = k.prio
  state : ∀ t, k'.state t = k.state t ∨ k'.state t = .ready
  wf : k.sched.Wf → k'.sched.Wf

omit [DecidableEq T] in
theorem WakeFrame.refl (k : Kernel T) : WakeFrame k k :=
  ⟨rfl, rfl, rfl, rfl, rfl, rfl, rfl, fun _ => .inl rfl, fun h => h⟩

omit [DecidableEq T] in
theorem WakeFrame.trans {k₁ k₂ k₃ : Kernel T} (h : WakeFrame k₁ k₂) (h' : WakeFrame k₂ k₃) :
    WakeFrame k₁ k₃ :=
  ⟨h'.pc.trans h.pc, h'.sem.trans h.sem, h'.mutex.trans h.mutex, h'.log.trans h.log,
    h'.cur.trans h.cur, h'.idle.trans h.idle, h'.prio.trans h.prio,
    fun t => by rcases h'.state t with he | he
                · rw [he]; exact h.state t
                · exact .inr he,
    fun hw => h'.wf (h.wf hw)⟩

omit [DecidableEq T] in
theorem WakeFrame.ready {k k' : Kernel T} (h : WakeFrame k k') (ht : k.state t = .ready) :
    k'.state t = .ready := by
  rcases h.state t with he | he
  · rw [he, ht]
  · exact he

theorem activateThread_frame (k : Kernel T) (t : T) : WakeFrame k (k.activateThread t) := by
  refine ⟨rfl, rfl, rfl, rfl, by simp, by simp [activateThread], by simp, fun u => ?_,
    fun hw => hw.activateThread⟩
  rw [activateThread_state]
  split
  · split
    · rename_i hf
      exact .inl hf.symm
    · exact .inr rfl
  · exact .inl rfl

theorem wakeAll_frame (k : Kernel T) (κ : Kind) (o n : Nat) : WakeFrame k (k.wakeAll κ o n) := by
  induction n generalizing k with
  | zero => exact .refl k
  | succ n ih =>
    unfold wakeAll removeHeadPthreadList
    split
    · exact .refl k
    · rename_i hpop
      obtain ⟨-, rfl⟩ := Prod.mk.inj hpop
      have hset : WakeFrame k (k.setLists κ ((k.lists κ).popFront o).2) :=
        ⟨rfl, rfl, rfl, rfl, rfl, rfl, rfl, fun _ => .inl rfl, fun h => h⟩
      exact (hset.trans (activateThread_frame _ _)).trans (ih _)

theorem pthreadKill_frame (k : Kernel T) (t : T) (sig : Fin 32) :
    WakeFrame k (k.pthreadKill t sig) := by
  have hset : WakeFrame k { k with sched := k.sched.modify t (·.raise sig) } := by
    refine ⟨rfl, rfl, rfl, rfl, rfl, rfl, ?_, ?_, ?_⟩
    · funext u
      by_cases h : u = t <;> simp [prio, Sched.modify_thread, Thread.raise, h]
    · intro u
      by_cases h : u = t <;> simp [state, Sched.modify_thread, Thread.raise, h]
    · intro hw
      exact Sched.Wf.modify_fields (f := fun th => th.raise sig) hw rfl rfl rfl
  unfold pthreadKill
  simp only
  split
  · exact hset.trans (activateThread_frame _ _)
  · exact hset

theorem expire_frame (k : Kernel T) (e : Expiry T) : WakeFrame k (k.expire e) := by
  cases e with
  | wakeup t =>
    simp only [expire]
    split
    · obtain ⟨h₁, h₂, h₃, h₄, h₅, h₆, h₇, h₈, h₉⟩ := activateThread_frame k t
      exact ⟨h₁, h₂, h₃, h₄, h₅, h₆, h₇, h₈, h₉⟩
    · exact .refl k
  | kill t sig => exact pthreadKill_frame k t sig

theorem updateHwtimer_frame (k : Kernel T) (env : Env T) : WakeFrame k (k.updateHwtimer env) := by
  unfold updateHwtimer
  induction env.expired generalizing k with
  | nil => exact .refl k
  | cons e es ih => exact (expire_frame k e).trans (ih _)

theorem sleepFor_rest (k : Kernel T) (env : Env T) (p : Pc T) :
    (k.sleepFor env p).pc = Function.update k.pc k.cur p ∧ (k.sleepFor env p).sem = k.sem ∧
    (k.sleepFor env p).mutex = k.mutex ∧ (k.sleepFor env p).log = k.log := by
  have hframe := updateHwtimer_frame (k.armTimer.suspendThread k.armTimer.cur) env
  have hcur : ((k.armTimer.suspendThread k.armTimer.cur).updateHwtimer env).cur = k.cur :=
    hframe.cur.trans (suspendThread_rest k.armTimer).2.2.2.2.2.2.1
  refine ⟨?_, hframe.sem, hframe.mutex, hframe.log⟩
  rw [sleepFor, (scheduling_rest _).2.1]
  exact congrArg₂ (Function.update · · p) hframe.pc hcur

-- ---------------------------------------------------------------------------
-- The wake-up loop ends
-- ---------------------------------------------------------------------------

theorem wakeAll_of_none (k : Kernel T) (h : (k.lists κ).head o = none) : k.wakeAll κ o n = k := by
  cases n with
  | zero => rfl
  | succ n => simp [wakeAll, removeHeadPthreadList, Lists.popFront, h]

theorem wakeAll_head [Fintype T] (k : Kernel T) (h : ((k.lists κ).links).card < n) :
    ((k.wakeAll κ o n).lists κ).head o = none := by
  induction n generalizing k with
  | zero => omega
  | succ n ih =>
    cases hh : (k.lists κ).head o with
    | none => rwa [wakeAll_of_none k hh]
    | some t =>
      have hpop : ((k.lists κ).popFront o).1 = some t := by simp [Lists.popFront, hh]
      simp only [wakeAll, removeHeadPthreadList, hpop]
      rcases Lists.popFront_links hh with hnone | hless
      · have hnone' :
            (((k.setLists κ ((k.lists κ).popFront o).2).activateThread t).lists κ).head o =
            none := by simpa [activateThread] using hnone
        rwa [wakeAll_of_none _ hnone']
      · exact ih _ (by simp only [activateThread, setLists_self]; omega)

theorem wakeThreads_head [Fintype T] (k : Kernel T) :
    ((k.wakeThreads κ o).lists κ).head o = none :=
  wakeAll_head k (Nat.lt_succ_of_le (Finset.card_le_univ _))

end Kernel

end Xmertl.Partikle
