import Xmertl.Partikle.Heap
import Xmertl.Partikle.Kernel

/-!
# Kernel timers

`time.c`, with the timer that `create_pthread_struct` and `pthread_exit_sys` get
and give back. Pointers into `timer_array` are indices, which may lie outside: to
look there has no result. What a system call writes for its caller is left out.

Of the threads there is no more than whether one has finished, and whether one is
asleep in `sleep_for`. Clock readings are inputs. `sleep_for` and
`timer_settime_sys` enable the interrupts before they call `update_hwtimer`, so
that this call is a step of its own.
-/

namespace Xmertl.Partikle

/-- What `read_clock` points to. -/
inductive Clock
  | realtime | monotonic | threadCputime
  deriving DecidableEq

abbrev Readings (T : Type) := Clock → T → Int

/-- What `action` points to. -/
inductive KtimerAction
  | wakeup | kill
  deriving DecidableEq

/-- `ktimer_t`; `inUse`, `armed` and `abstime` are the bits of `flags`. -/
structure Ktimer (T : Type) where
  owner : T
  timerValue : Int := 0
  timerInterval : Int := 0
  inUse : Bool := false
  armed : Bool := false
  abstime : Bool := false
  readClock : Clock := .monotonic
  action : KtimerAction := .wakeup
  sigevSigno : Int := 0

structure Hwtimer where
  getMinInterval : Int
  getMaxInterval : Int

structure Itimerspec where
  itInterval : Timespec
  itValue : Timespec

def Timespec.nsecs (t : Timespec) : Int := t.tvSec * nsecsPerSec + t.tvNsec

def sigalarm : Int := 8

/-- `interval` is what the hardware timer was last programmed with. -/
structure TimerTable (T : Type) where
  timerArray : Int → Ktimer T
  timerHeap : Heap Int
  sleepKtimer : T → Int
  asleep : T → Bool
  finished : T → Bool
  interval : Option Int

/-- How the loop of `update_hwtimer` stands: left with an empty heap, left with the
time to the first timer, or not left. -/
inductive LoopEnd
  | empty
  | first (nextTime : Int)
  | running
  deriving DecidableEq

def InTable (id : Int) : Prop := 0 ≤ id ∧ id < maxTimers

instance (id : Int) : Decidable (InTable id) := inferInstanceAs (Decidable (_ ∧ _))

section
variable {T : Type} [DecidableEq T]

namespace TimerTable

def timerValue (x : TimerTable T) (id : Int) : Int := (x.timerArray id).timerValue

/-- Follows a pointer into `timer_array`. -/
def deref (x : TimerTable T) (id : Int) : Option (Ktimer T) :=
  if InTable id then some (x.timerArray id) else none

def set (x : TimerTable T) (id : Int) (k : Ktimer T) : TimerTable T :=
  { x with timerArray := Function.update x.timerArray id k }

def insert (x : TimerTable T) (id : Int) : Option (TimerTable T) := do
  let (timerHeap, _) ← heapInsert x.timerValue x.timerHeap id
  return { x with timerHeap }

def remove (x : TimerTable T) (id : Int) : Option (TimerTable T) := do
  let (timerHeap, _) ← heapRemoveElement x.timerValue x.timerHeap id
  return { x with timerHeap }

/-- `init_time`, with timers that are not in use. -/
def initTime (x : TimerTable T) : TimerTable T :=
  { x with
    timerArray := fun id => { owner := (x.timerArray id).owner }
    timerHeap := { array := fun _ => none, nelem := 0 } }

def allocKtimer (x : TimerTable T) (clockid : Clock) (thread : T) (act : KtimerAction) :
    TimerTable T × Int :=
  match (List.range maxTimers).find? fun (timerid : Nat) => !(x.timerArray timerid).inUse with
  | none => (x, -1)
  | some timerid =>
    (x.set timerid { owner := thread, inUse := true, readClock := clockid, action := act }, timerid)

def freeKtimer (x : TimerTable T) (id : Int) : Option (TimerTable T) := do
  let x ← x.remove id
  let k ← x.deref id
  return x.set id { k with inUse := false, armed := false, abstime := false }

def armTimer (x : TimerTable T) (id value interval : Int) (now : Readings T) :
    Option (TimerTable T × Int) := do
  let k ← x.deref id
  if !k.inUse then return (x, -1)
  let timerValue := if k.abstime then value else value + now k.readClock k.owner
  let x := x.set id { k with timerValue, armed := true, timerInterval := interval }
  return (← x.insert id, 0)

def disarmTimer (x : TimerTable T) (id : Int) : Option (TimerTable T) := do
  let x ← x.remove id
  let k ← x.deref id
  return x.set id { k with armed := false }

/-- `action_wakeup` wakes the owner; what `action_kill` does to it is left to
`TimerCall.wake`. -/
def act (x : TimerTable T) (k : Ktimer T) : TimerTable T :=
  match k.action with
  | .wakeup => { x with asleep := Function.update x.asleep k.owner false }
  | .kill => x

/-- A round of the loop of `update_hwtimer` after the action. -/
def rearm (x : TimerTable T) (k : Ktimer T) (ctime : Int) (id : Int) :
    Option (TimerTable T) := do
  let (timerHeap, _) ← heapRemoveMin x.timerValue x.timerHeap
  let x : TimerTable T := { x with timerHeap }
  if k.timerInterval > 0 ∧ !x.finished k.owner then
    (x.set id { k with timerValue := k.timerInterval + ctime }).insert id
  else return x.set id { k with armed := false }

/-- The loop of `update_hwtimer`. `now n` are the clocks when they are read for the
`n`-th time. With the timers so far whose action has run. -/
def updateLoop (now : Nat → Readings T) :
    Nat → Nat → TimerTable T → List Int → Option (TimerTable T × List Int × LoopEnd)
  | 0, _, x, acted => some (x, acted, .running)
  | rounds + 1, n, x, acted => do
    match ← heapMin x.timerHeap with
    | none => return (x, acted, .empty)
    | some id =>
      let k ← x.deref id
      let ctime := now n k.readClock k.owner
      if k.timerValue ≤ ctime then
        let x ← (x.act k).rearm k ctime id
        updateLoop now rounds (n + 1) x (acted ++ [id])
      else return (x, acted, .first (k.timerValue - ctime))

end TimerTable

/-- An `unsigned long long`. -/
def uint64 (x : Int) : Int := x % 18446744073709551616

/-- `next_time` as `update_hwtimer` programs it. -/
def Hwtimer.clamp (dev : Hwtimer) (nextTime : Int) : Int :=
  if uint64 nextTime < uint64 dev.getMinInterval then dev.getMinInterval
  else if uint64 nextTime > uint64 dev.getMaxInterval then dev.getMaxInterval
  else nextTime

namespace TimerTable

def program (x : TimerTable T) (dev : Hwtimer) : LoopEnd → TimerTable T
  | .first nextTime => { x with interval := some (dev.clamp nextTime) }
  | .empty | .running => x

/-- `update_hwtimer` for as many rounds as its loop takes, and at most `rounds`. With
the timers whose action has run. -/
def updateHwtimer (dev : Hwtimer) (rounds : Nat) (x : TimerTable T) (now : Nat → Readings T) :
    Option (TimerTable T × List Int × LoopEnd) := do
  let (x, acted, left) ← updateLoop now rounds 0 x []
  return (x.program dev left, acted, left)

/-- `sleep_for` up to its call of `update_hwtimer`. -/
def sleepFor (x : TimerTable T) (current : T) (d : Int) (now : Readings T) :
    Option (TimerTable T) := do
  let (x, _) ← x.armTimer (x.sleepKtimer current) d 0 now
  return { x with asleep := Function.update x.asleep current true }

/-- A clock other than the three is no `Clock`. -/
def timerCreateSys (x : TimerTable T) (current : T) (clockid : Clock) (signo : Option Int) :
    Option (TimerTable T) := do
  let (x, timerid) := x.allocKtimer clockid current .kill
  if timerid ≥ maxTimers then return x
  let k ← x.deref timerid
  return x.set timerid { k with sigevSigno := signo.getD sigalarm }

def timerDeleteSys (x : TimerTable T) (timerid : Int) : Option (TimerTable T) := do
  if timerid ≥ maxTimers then return x
  let k ← x.deref timerid
  if !k.inUse then return x
  x.freeKtimer timerid

/-- `timer_settime_sys` from where it sets the flags. -/
def settimeDisarmed (x : TimerTable T) (timerid : Int) (abstime : Bool)
    (value : Option Itimerspec) (now : Readings T) : Option (TimerTable T) := do
  let k ← x.deref timerid
  let x := x.set timerid { k with abstime }
  match value with
  | none => return x
  | some value =>
    if value.itValue.tvSec ≠ 0 ∨ value.itValue.tvNsec ≠ 0 then
      return (← x.armTimer timerid value.itValue.nsecs value.itInterval.nsecs now).1
    else return x

/-- `timer_settime_sys` up to its call of `update_hwtimer`. -/
def timerSettimeSys (x : TimerTable T) (timerid : Int) (abstime : Bool)
    (value : Option Itimerspec) (now : Readings T) : Option (TimerTable T) := do
  if timerid ≥ maxTimers then return x
  let k ← x.deref timerid
  if !k.inUse then return x
  if k.armed then (← x.disarmTimer timerid).settimeDisarmed timerid abstime value now
  else x.settimeDisarmed timerid abstime value now

/-- What `create_pthread_struct` does for `sleep_for`. -/
def createThread (x : TimerTable T) (thread : T) : TimerTable T :=
  let (x, timerid) := x.allocKtimer .monotonic thread .wakeup
  { x with sleepKtimer := Function.update x.sleepKtimer thread timerid }

/-- What `pthread_exit_sys` does to the timers. -/
def exitThread (x : TimerTable T) (current : T) : Option (TimerTable T) := do
  let x ← x.freeKtimer (x.sleepKtimer current)
  return { x with finished := Function.update x.finished current true }

end TimerTable

inductive TimerCall (T : Type)
  | createThread (thread : T)
  | exitThread (current : T)
  | alloc (clockid : Clock) (thread : T) (act : KtimerAction)
  | free (id : Int)
  | arm (id value interval : Int) (now : Readings T)
  | disarm (id : Int)
  | sleep (current : T) (d : Int) (now : Readings T)
  /-- A signal, or whatever else wakes a thread that is asleep. -/
  | wake (thread : T)
  | create (current : T) (clockid : Clock) (signo : Option Int)
  | delete (timerid : Int)
  | settime (timerid : Int) (abstime : Bool) (value : Option Itimerspec) (now : Readings T)
  | update (dev : Hwtimer) (now : Nat → Readings T) (rounds : Nat)

def TimerTable.call (x : TimerTable T) : TimerCall T → Option (TimerTable T)
  | .createThread thread => some (x.createThread thread)
  | .exitThread current => x.exitThread current
  | .alloc clockid thread act => some (x.allocKtimer clockid thread act).1
  | .free id => x.freeKtimer id
  | .arm id value interval now => (x.armTimer id value interval now).map Prod.fst
  | .disarm id => x.disarmTimer id
  | .sleep current d now => x.sleepFor current d now
  | .wake thread => some { x with asleep := Function.update x.asleep thread false }
  | .create current clockid signo => x.timerCreateSys current clockid signo
  | .delete timerid => x.timerDeleteSys timerid
  | .settime timerid abstime value now => x.timerSettimeSys timerid abstime value now
  | .update dev now rounds => (x.updateHwtimer dev rounds now).map Prod.fst

def TimerCall.caller : TimerCall T → Option T
  | .exitThread current | .sleep current _ _ | .create current _ _ => some current
  | _ => none

/-- A thread that is asleep calls nothing. -/
def TimerTable.step (x : TimerTable T) (a : TimerCall T) : Option (TimerTable T) :=
  if a.caller.any x.asleep then none else x.call a

end

end Xmertl.Partikle
