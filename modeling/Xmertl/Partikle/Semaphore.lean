import Xmertl.Partikle.Kernel

/-!
# Semaphore calls

`semaphore.c`. A call that reaches `scheduling ()` is cut there; the rest of
it, from the return of `scheduling ()` on, is the definition named `..End`.
-/

namespace Xmertl.Partikle.Kernel

variable {T : Type} [DecidableEq T]

/-- `sem_init_sys` with `pshared` 0: the `unsigned` value becomes an `int`. -/
def semInit (value : BitVec 32) : Sem := ⟨value.toInt⟩

def semWaitEnd (k : Kernel T) (s : Nat) : Kernel T :=
  (k.setSem s (int32 ((k.sem s).value - 1))).ret (.semWait (some s)) .ok

def semWaitSys (k : Kernel T) : Option Nat → Kernel T
  | none => k.ret (.semWait none) (.fail .einval)
  | some s =>
    if (k.sem s).value = 0 then
      ((k.suspendThread k.cur).insertPthreadList .sem s k.cur).scheduling (.semWait s)
    else k.semWaitEnd s

def semTrywaitSys (k : Kernel T) : Option Nat → Kernel T
  | none => k.ret (.semTrywait none) (.fail .einval)
  | some s =>
    if (k.sem s).value = 0 then k.ret (.semTrywait (some s)) (.fail .eagain)
    else (k.setSem s (int32 ((k.sem s).value - 1))).ret (.semTrywait (some s)) .ok

/-- The first test of `sem_timedwait_sys`: takes a unit where there is one. -/
def semTimedwaitTake (k : Kernel T) (s : Nat) : Kernel T :=
  if 0 < (k.sem s).value then k.setSem s (int32 ((k.sem s).value - 1)) else k

/-- The deadline only decides when the sleep timer expires. -/
def semTimedwaitSys (k : Kernel T) (env : Env T) : Option Nat → Option Timespec → Kernel T
  | some s, some abstime =>
    let taken := k.semTimedwaitTake s
    if 0 < (k.sem s).value ∧ 0 < (taken.sem s).value then
      taken.ret (.semTimedwait (some s) (some abstime)) .ok
    else if abstime.tvNsec < 0 ∨ nsecsPerSec ≤ abstime.tvNsec then
      taken.ret (.semTimedwait (some s) (some abstime)) (.fail .einval)
    else (taken.insertPthreadList .sem s taken.cur).sleepFor env (.semTimedwait s abstime)
  | s, abstime => k.ret (.semTimedwait s abstime) (.fail .einval)

def semTimedwaitEnd (k : Kernel T) (s : Nat) (abstime : Timespec) : Kernel T :=
  ((k.removePthreadList .sem s k.cur).semTimedwaitTake s).ret
    (.semTimedwait (some s) (some abstime)) .ok

def semPostEnd (k : Kernel T) (s : Nat) : Kernel T :=
  if (k.sem s).value < semValueMax then
    (k.setSem s ((k.sem s).value + 1)).ret (.semPost (some s)) .ok
  else k.ret (.semPost (some s)) (.fail .erange)

def semPostSys (k : Kernel T) : Option Nat → Kernel T
  | none => k.ret (.semPost none) (.fail .einval)
  | some s =>
    if (k.sem s).value = 0 then
      match k.removeHeadPthreadList .sem s with
      | (some t, k) => (k.activateThread t).scheduling (.semPost s)
      | (none, k) => k.semPostEnd s
    else k.semPostEnd s

end Xmertl.Partikle.Kernel
