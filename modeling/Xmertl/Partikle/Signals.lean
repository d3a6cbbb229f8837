import Xmertl.Lib.Bitmap
import Xmertl.Lib.Runs
import Xmertl.Partikle.Threads

/-!
# Signals of PaRTiKle

`signal.c` and `do_signals` on the way out of each system call. A thread has a stack of
what it is in the middle of: a handler, the loop of `do_signals`, `sigsuspend_sys`.
Interrupts are off inside a call, so it runs alone up to its `scheduling ()`.
-/

namespace Xmertl.Partikle

open Runs

inductive SigErrno
  | eintr | esrch | einval
  deriving DecidableEq

/-- The result of a call; `signal` is a 0 with `*sig` set. -/
inductive SigRet
  | ok
  | fail (e : SigErrno)
  | signal (sig : Fin 32)
  deriving DecidableEq

/-- An entry of `signal_table`: the handlers of `signal.c`, or one of the application. -/
inductive SigHandler
  | sigDfl
  | sigIgn
  | wakeupThread
  | sleepThread
  | cancelThread
  | user
  deriving DecidableEq

inductive SigFrame
  /-- In the `scheduling ()` of `sigsuspend_sys`, for `sigwait_sys` on a set. -/
  | sigsuspend (oldMask : BitVec 32) (sigwait : Option (BitVec 32))
  /-- In another `scheduling ()`. -/
  | scheduling
  /-- A call is over, `do_signals` is next. -/
  | gate
  /-- In the loop of `do_signals`. -/
  | loop (signal : Nat) (sigpend oldSigmask : BitVec 32)
  /-- A handler of the application. -/
  | handler
  /-- In the cleanup handlers of `pthread_exit_sys`. -/
  | exit
  deriving DecidableEq

structure Signals (T : Type) where
  sched : Sched T
  handler : Fin 32 → SigHandler
  saMask : Fin 32 → BitVec 32
  /-- GET_THREAD_CANCEL_STATE. -/
  cancelState : T → Bool
  stack : T → List SigFrame
  ret : T → SigRet
  /-- After `exit_sys`. -/
  halted : Bool

inductive SigCall (T : Type)
  | kill (thread : Option T) (sig : Int)
  | sigmask (how : Int) (set : Option (BitVec 32))
  | sigsuspend (mask : Option (BitVec 32))
  | sigwait (set : Option (BitVec 32))
  | sigaction (sig : Int) (act : Option (SigHandler × BitVec 32))
  | setcancelstate (state : Bool)
  /-- A call that suspends the thread for another reason. -/
  | block
  /-- A call that activates a thread for another reason. -/
  | activate (thread : T)

inductive SigAction (T : Type)
  /-- The current thread calls, from the application. -/
  | call (c : SigCall T)
  /-- The current thread goes on with what is on top of its stack. -/
  | next
  /-- An interrupt: a timer's signal, and `scheduling ()` at its end. -/
  | timer (thread : T) (sig : Fin 32)
  | reschedule

/-- `1 << sig`. -/
def sigBit (sig : Nat) : BitVec 32 := 1#32 <<< sig

def unblocked (mask : BitVec 32) : BitVec 32 := ~~~(mask &&& ~~~nonMaskableSignals)

def firstUserSignal : Int := 6

namespace Sched

variable {T : Type} [DecidableEq T]

/-- `pthread_kill_sys` with arguments that are valid. -/
def pthreadKill (s : Sched T) (t : T) (sig : Fin 32) : Sched T :=
  let s := s.modify t (·.raise sig)
  let th := s.thread t
  if unblocked th.sigmask &&& th.sigpending ≠ 0 ∨ th.activateOnSignal then s.activateThread t else s

end Sched

namespace Signals

variable {T : Type} [DecidableEq T]

def cur (x : Signals T) : T := x.sched.currentThread

def me (x : Signals T) : Thread := x.sched.thread x.cur

def modify (x : Signals T) (f : Thread → Thread) : Signals T :=
  { x with sched := x.sched.modify x.cur f }

def setStack (x : Signals T) (fs : List SigFrame) : Signals T :=
  { x with stack := Function.update x.stack x.cur fs }

def push (x : Signals T) (f : SigFrame) : Signals T := x.setStack (f :: x.stack x.cur)

def answer (x : Signals T) (r : SigRet) : Signals T :=
  { x with ret := Function.update x.ret x.cur r }

/-- The current thread is left with `f` on top and `scheduling ()` called. -/
def suspend (x : Signals T) (f : SigFrame) : Signals T :=
  let x := x.push f
  { x with sched := (x.sched.suspendThread x.cur).scheduling }

def pthreadKillSys (x : Signals T) (thread : Option T) (sig : Int) : Signals T :=
  match thread with
  | none => x.answer (.fail .esrch)
  | some t =>
    if h : 0 ≤ sig ∧ sig < 32 then
      { x with sched := x.sched.pthreadKill t ⟨sig.toNat, sig_lt h⟩ }.answer .ok
    else x.answer (.fail .einval)

/-- SIG_BLOCK is 0, SIG_SETMASK 1 and SIG_UNBLOCK 2. -/
def pthreadSigmaskSys (x : Signals T) (how : Int) (set : Option (BitVec 32)) : Signals T :=
  match set with
  | none => x.answer .ok
  | some set =>
    if how = 0 then (x.modify fun th => { th with sigmask := th.sigmask ||| set }).answer .ok
    else if how = 1 then (x.modify fun th => { th with sigmask := set }).answer .ok
    else if how = 2 then
      (x.modify fun th => { th with sigmask := th.sigmask &&& ~~~set }).answer .ok
    else x.answer (.fail .einval)

/-- Up to its `scheduling ()`. -/
def sigsuspendSys (x : Signals T) (mask : Option (BitVec 32)) (sigwait : Option (BitVec 32)) :
    Signals T :=
  (x.modify fun th => { th with sigmask := mask.getD th.sigmask }).suspend
    (.sigsuspend x.me.sigmask sigwait)

/-- What `sigwait_sys` on `set` finds pending. -/
def waited (x : Signals T) (set : BitVec 32) : BitVec 32 :=
  x.me.sigpending &&& (set &&& ~~~nonMaskableSignals)

def take (x : Signals T) (sig : Fin 32) : Signals T :=
  (x.modify fun th => { th with sigpending := th.sigpending &&& ~~~sigBit sig }).answer (.signal sig)

def sigwaitSys (x : Signals T) (set : Option (BitVec 32)) : Signals T :=
  match set with
  | none => x.answer (.fail .einval)
  | some set =>
    match (x.waited set).first with
    | some sig => x.take sig
    | none =>
      (x.modify fun th => { th with activateOnSignal := true }).sigsuspendSys (some set) (some set)

/-- The rest of `sigsuspend_sys`, and of `sigwait_sys`. -/
def sigsuspendEnd (x : Signals T) (oldMask : BitVec 32) (sigwait : Option (BitVec 32)) : Signals T :=
  let x := x.modify fun th => { th with sigmask := oldMask }
  match sigwait with
  | none => x.answer .ok
  | some set =>
    let x := x.modify fun th => { th with activateOnSignal := false }
    match (x.waited set).first with
    | some sig => x.take sig
    | none => x.answer (.fail .einval)

def sigactionSys (x : Signals T) (sig : Int) (act : Option (SigHandler × BitVec 32)) : Signals T :=
  if h : firstUserSignal ≤ sig ∧ sig < 32 then
    match act with
    | none => x.answer .ok
    | some (handler, saMask) =>
      let i : Fin 32 := ⟨sig.toNat, by unfold firstUserSignal at h; omega⟩
      { x with
        handler := Function.update x.handler i handler
        saMask := Function.update x.saMask i saMask }.answer .ok
  else x.answer (.fail .eintr)

def pthreadSetcancelstateSys (x : Signals T) (state : Bool) : Signals T :=
  { x with cancelState := Function.update x.cancelState x.cur state }.answer .ok

def syscall (x : Signals T) : SigCall T → Signals T
  | .kill thread sig => x.pthreadKillSys thread sig
  | .sigmask how set => x.pthreadSigmaskSys how set
  | .sigsuspend mask => x.sigsuspendSys mask none
  | .sigwait set => x.sigwaitSys set
  | .sigaction sig act => x.sigactionSys sig act
  | .setcancelstate state => x.pthreadSetcancelstateSys state
  | .block => x.suspend .scheduling
  | .activate t => { x with sched := x.sched.activateThread t }

def doSignals (x : Signals T) : Signals T :=
  let sigpend := x.me.sigpending &&& unblocked x.me.sigmask
  let x' := x.modify fun th => { th with sigpending := th.sigpending &&& ~~~sigpend }
  if x.cancelState x.cur then
    (x'.modify fun th =>
      { th with sigpending := th.sigpending ||| (sigpend &&& sigBit cancelSignal) }).push
      (.loop 0 (sigpend &&& ~~~sigBit cancelSignal) x.me.sigmask)
  else x'.push (.loop 0 sigpend x.me.sigmask)

/-- `pthread_exit_sys` up to the cleanup handlers. -/
def pthreadExit (x : Signals T) : Signals T :=
  { x with sched := x.sched.finishThread x.cur }.push .exit

def runHandler (x : Signals T) : SigHandler → Signals T
  | .sigDfl => { x with halted := true }
  | .sigIgn | .wakeupThread => x
  | .sleepThread => x.suspend .scheduling
  | .cancelThread => x.pthreadExit
  | .user => x.push .handler

/-- A round of the loop of `do_signals`, or what is after it. -/
def round (x : Signals T) (signal : Nat) (sigpend oldSigmask : BitVec 32) : Signals T :=
  if h : signal < 32 ∧ sigpend ≠ 0 then
    let i : Fin 32 := ⟨signal, h.1⟩
    let x := (x.modify fun th => { th with
      sigmask := oldSigmask ||| x.saMask i ||| sigBit signal }).push
        (.loop (signal + 1) (sigpend >>> 1) oldSigmask)
    if sigpend &&& 1 ≠ 0 then x.runHandler (x.handler i) else x
  else x.modify fun th => { th with sigmask := oldSigmask }

def userLevel (x : Signals T) : Bool :=
  match x.stack x.cur with
  | [] | .handler :: _ | .exit :: _ => true
  | _ => false

def next (x : Signals T) : Option (Signals T) :=
  match x.stack x.cur with
  | [] => none
  | .sigsuspend oldMask sigwait :: fs => some ((x.setStack fs).sigsuspendEnd oldMask sigwait)
  | .scheduling :: fs | .handler :: fs => some (x.setStack fs)
  | .gate :: fs => some (x.setStack fs).doSignals
  | .loop signal sigpend oldSigmask :: fs => some ((x.setStack fs).round signal sigpend oldSigmask)
  | .exit :: fs =>
    let x := x.setStack (.scheduling :: fs)
    some { x with sched := x.sched.scheduling }

def step (x : Signals T) (a : SigAction T) : Option (Signals T) :=
  if x.halted then none
  else
    match a with
    | .call c => if x.userLevel then some ((x.push .gate).syscall c) else none
    | .next => x.next
    | .timer t sig => some { x with sched := x.sched.pthreadKill t sig }
    | .reschedule => some { x with sched := x.sched.scheduling }

def start (sched : Sched T) (handler : Fin 32 → SigHandler) (saMask : Fin 32 → BitVec 32)
    (cancelState : T → Bool) : Signals T where
  sched
  handler
  saMask
  cancelState
  stack _ := []
  ret _ := .ok
  halted := false

/-- A thread suspended inside `sigsuspend_sys` has no signal pending that the mask leaves
unblocked, and inside `sigwait_sys` none of the set. -/
def NoneLost (x : Signals T) (t : T) : Prop :=
  ∀ oldMask sigwait, (x.stack t).head? = some (.sigsuspend oldMask sigwait) →
    (x.sched.thread t).state = .suspended →
    unblocked (x.sched.thread t).sigmask &&& (x.sched.thread t).sigpending = 0 ∧
    ∀ set, sigwait = some set → set &&& (x.sched.thread t).sigpending = 0

/-- The condition: a call that suspends finds no signal pending that its mask leaves
unblocked. -/
def Nothing (x : Signals T) : SigAction T → Prop
  | .call (.sigsuspend mask) => unblocked (mask.getD x.me.sigmask) &&& x.me.sigpending = 0
  | .call (.sigwait (some set)) => x.waited set = 0 → unblocked set &&& x.me.sigpending = 0
  | _ => True

instance (x : Signals T) : (a : SigAction T) → Decidable (Nothing x a)
  | .call (.sigsuspend mask) =>
    inferInstanceAs (Decidable (unblocked (mask.getD x.me.sigmask) &&& x.me.sigpending = 0))
  | .call (.sigwait (some set)) =>
    inferInstanceAs (Decidable (x.waited set = 0 → unblocked set &&& x.me.sigpending = 0))
  | .call (.sigwait none) | .call (.kill ..) | .call (.sigmask ..) | .call (.sigaction ..)
  | .call (.setcancelstate _) | .call .block | .call (.activate _) | .next | .timer ..
  | .reschedule => isTrue trivial

-- ---------------------------------------------------------------------------
-- The invariant
-- ---------------------------------------------------------------------------

/-- None of the frames is in `sigsuspend_sys`. -/
def NoWait (fs : List SigFrame) : Prop := ∀ f ∈ fs, ∀ oldMask sigwait, f ≠ .sigsuspend oldMask sigwait

structure WaitOk (fs : List SigFrame) (th : Thread) : Prop where
  tail : NoWait fs.tail
  head : ∀ oldMask sigwait, fs.head? = some (.sigsuspend oldMask sigwait) →
    th.state = .suspended →
    unblocked th.sigmask &&& th.sigpending = 0 ∧
    ∀ set, sigwait = some set → set &&& th.sigpending = 0 ∧ th.activateOnSignal = true

def Inv (x : Signals T) : Prop := ∀ t, WaitOk (x.stack t) (x.sched.thread t)

omit [DecidableEq T] in
theorem Inv.noneLost {x : Signals T} (h : Inv x) (t : T) : NoneLost x t := by
  intro oldMask sigwait hhead hstate
  obtain ⟨hmask, hset⟩ := (h t).head oldMask sigwait hhead hstate
  exact ⟨hmask, fun set hs => (hset set hs).1⟩

section
variable {x y : Signals T} {s : Sched T} {fs : List SigFrame} {f : SigFrame} {th : Thread} {c t u : T}

theorem NoWait.cons (h : NoWait fs) (hf : ∀ oldMask sigwait, f ≠ .sigsuspend oldMask sigwait) :
    NoWait (f :: fs) := by
  intro g hg
  rcases List.mem_cons.mp hg with rfl | hg
  · exact hf
  · exact h g hg

theorem NoWait.waitOk (h : NoWait fs) : WaitOk fs th where
  tail g hg := h g (List.mem_of_mem_tail hg)
  head oldMask sigwait hhead _ := absurd rfl (h _ (List.mem_of_mem_head? hhead) oldMask sigwait)

-- ---------------------------------------------------------------------------
-- What leaves the other threads alone
-- ---------------------------------------------------------------------------

/-- From `x` to `y` only thread `c` has changed. -/
def Only (c : T) (x y : Signals T) : Prop :=
  ∀ t, t ≠ c → y.stack t = x.stack t ∧ y.sched.thread t = x.sched.thread t

omit [DecidableEq T] in
theorem Only.trans {z : Signals T} (h : Only c x y) (h' : Only c y z) : Only c x z := by
  intro t ht
  exact ⟨(h' t ht).1.trans (h t ht).1, (h' t ht).2.trans (h t ht).2⟩

theorem Inv.of_only (h : Inv x) (ho : Only c x y) (hc : WaitOk (y.stack c) (y.sched.thread c)) :
    Inv y := by
  intro t
  by_cases ht : t = c
  · rw [ht]
    exact hc
  · rw [(ho t ht).1, (ho t ht).2]
    exact h t

theorem modify_only (x : Signals T) (g : Thread → Thread) : Only x.cur x (x.modify g) := by
  intro t ht
  exact ⟨rfl, by rw [modify, Sched.modify_thread, if_neg ht]⟩

@[simp] theorem modify_me (x : Signals T) (g : Thread → Thread) : (x.modify g).me = g x.me :=
  (Sched.modify_thread ..).trans (if_pos rfl)

theorem setStack_only (x : Signals T) (fs : List SigFrame) : Only x.cur x (x.setStack fs) := by
  intro t ht
  exact ⟨Function.update_of_ne ht _ _, rfl⟩

@[simp] theorem setStack_self (x : Signals T) (fs : List SigFrame) :
    (x.setStack fs).stack x.cur = fs := Function.update_self ..

@[simp] theorem push_self (x : Signals T) (f : SigFrame) :
    (x.push f).stack x.cur = f :: x.stack x.cur := Function.update_self ..

theorem suspendThread_of_ne (h : t ≠ c) : (s.suspendThread c).thread t = s.thread t := by
  rw [Sched.suspendThread, Sched.modify_thread, if_neg h, Sched.removeSs_thread, if_neg h]

theorem suspendThread_signals :
    ((s.suspendThread c).thread t).sigmask = (s.thread t).sigmask ∧
    ((s.suspendThread c).thread t).sigpending = (s.thread t).sigpending ∧
    ((s.suspendThread c).thread t).activateOnSignal = (s.thread t).activateOnSignal := by
  by_cases h : t = c <;> simp [Sched.suspendThread, Sched.modify_thread, Sched.removeSs_thread, h]

theorem suspend_only (x : Signals T) (f : SigFrame) : Only x.cur x (x.suspend f) := by
  intro t ht
  exact ⟨Function.update_of_ne ht _ _, suspendThread_of_ne ht⟩

/-- The current thread is not inside `sigsuspend_sys`. -/
def Calling (x : Signals T) : Prop := NoWait (x.stack x.cur)

theorem Inv.modify (h : Inv x) (hc : Calling x) (g : Thread → Thread) : Inv (x.modify g) :=
  h.of_only (modify_only x g) (NoWait.waitOk hc)

theorem Inv.push (h : Inv x) (hc : Calling x)
    (hf : ∀ oldMask sigwait, f ≠ .sigsuspend oldMask sigwait) : Inv (x.push f) := by
  refine h.of_only (setStack_only x _) (NoWait.waitOk ?_)
  rw [push_self]
  exact NoWait.cons hc hf

theorem Calling.push (hc : Calling x) (hf : ∀ oldMask sigwait, f ≠ .sigsuspend oldMask sigwait) :
    Calling (x.push f) := by
  show NoWait ((x.push f).stack x.cur)
  rw [push_self]
  exact NoWait.cons hc hf

theorem Inv.suspend (h : Inv x) (hc : Calling x)
    (hf : ∀ oldMask sigwait, f ≠ .sigsuspend oldMask sigwait) : Inv (x.suspend f) := by
  refine h.of_only (suspend_only x f) (NoWait.waitOk ?_)
  show NoWait ((x.push f).stack x.cur)
  rw [push_self]
  exact NoWait.cons hc hf

-- ---------------------------------------------------------------------------
-- Signals and activations
-- ---------------------------------------------------------------------------

theorem activateThread_of_ne (h : t ≠ c) : (s.activateThread c).thread t = s.thread t := by
  unfold Sched.activateThread
  split
  · rw [Sched.modify_thread, if_neg h, Sched.insertSs_thread, if_neg h]
  · rfl

theorem activateThread_not_suspended : ((s.activateThread t).thread t).state ≠ .suspended := by
  rw [Sched.activateThread_state, if_pos rfl]
  split <;> decide

theorem WaitOk.of_not_suspended {th' : Thread} (h : WaitOk fs th) (hs : th'.state ≠ .suspended) :
    WaitOk fs th' :=
  ⟨h.tail, fun _ _ _ hstate => absurd hstate hs⟩

theorem Inv.activateThread (h : Inv x) (t : T) :
    Inv { x with sched := x.sched.activateThread t } := by
  intro u
  by_cases hu : u = t
  · rw [hu]
    exact (h t).of_not_suspended activateThread_not_suspended
  · show WaitOk (x.stack u) ((x.sched.activateThread t).thread u)
    rw [activateThread_of_ne hu]
    exact h u

/-- A signal that is not blocked wakes the thread, and each wakes one in `sigwait_sys`. -/
theorem Inv.pthreadKill (h : Inv x) (t : T) (sig : Fin 32) :
    Inv { x with sched := x.sched.pthreadKill t sig } := by
  intro u
  show WaitOk (x.stack u) ((x.sched.pthreadKill t sig).thread u)
  unfold Sched.pthreadKill
  dsimp only
  have hraise := Sched.modify_thread x.sched t u (·.raise sig)
  split
  · by_cases hu : u = t
    · rw [hu]
      exact (h t).of_not_suspended activateThread_not_suspended
    · rw [activateThread_of_ne hu, hraise, if_neg hu]
      exact h u
  · rename_i hquiet
    by_cases hu : u = t
    · rw [hu] at hraise ⊢
      rw [if_pos rfl] at hraise
      rw [hraise] at hquiet ⊢
      obtain ⟨hmask, hwait⟩ := not_or.mp hquiet
      refine ⟨(h t).tail, fun oldMask sigwait hhead hstate => ⟨not_not.mp hmask, fun set hset => ?_⟩⟩
      have hactive := ((h t).head oldMask sigwait hhead hstate).2 set hset
      exact absurd hactive.2 hwait
    · rw [hraise, if_neg hu]
      exact h u

-- ---------------------------------------------------------------------------
-- System calls
-- ---------------------------------------------------------------------------

theorem suspend_self (x : Signals T) (f : SigFrame) :
    (x.suspend f).stack x.cur = f :: x.stack x.cur := push_self x f

theorem sigsuspendSys_only (x : Signals T) (mask sigwait : Option (BitVec 32)) :
    Only x.cur x (x.sigsuspendSys mask sigwait) := by
  let z := x.modify fun th => { th with sigmask := mask.getD th.sigmask }
  have hz : Only x.cur x z := modify_only x _
  have hsuspend : Only x.cur z (z.suspend (.sigsuspend x.me.sigmask sigwait)) := suspend_only z _
  exact hz.trans hsuspend

theorem sigsuspendSys_self (x : Signals T) (mask sigwait : Option (BitVec 32)) :
    (x.sigsuspendSys mask sigwait).stack x.cur =
      .sigsuspend x.me.sigmask sigwait :: x.stack x.cur :=
  suspend_self (x.modify _) _

theorem sigsuspendSys_signals (x : Signals T) (mask sigwait : Option (BitVec 32)) :
    ((x.sigsuspendSys mask sigwait).sched.thread x.cur).sigmask = mask.getD x.me.sigmask ∧
    ((x.sigsuspendSys mask sigwait).sched.thread x.cur).sigpending = x.me.sigpending ∧
    ((x.sigsuspendSys mask sigwait).sched.thread x.cur).activateOnSignal =
      x.me.activateOnSignal := by
  let s := x.sched.modify x.cur fun th => { th with sigmask := mask.getD th.sigmask }
  have hsuspend := suspendThread_signals (s := s) (c := x.cur) (t := x.cur)
  have hself : s.thread x.cur = { x.me with sigmask := mask.getD x.me.sigmask } :=
    (Sched.modify_thread ..).trans (if_pos rfl)
  rw [hself] at hsuspend
  exact hsuspend

theorem Inv.sigsuspendSys (h : Inv x) (hc : Calling x) {mask sigwait : Option (BitVec 32)}
    (hnone : unblocked (mask.getD x.me.sigmask) &&& x.me.sigpending = 0)
    (hwait : ∀ set, sigwait = some set →
      set &&& x.me.sigpending = 0 ∧ x.me.activateOnSignal = true) :
    Inv (x.sigsuspendSys mask sigwait) := by
  obtain ⟨hmask, hpending, hactive⟩ := sigsuspendSys_signals x mask sigwait
  refine h.of_only (sigsuspendSys_only x mask sigwait) ⟨?_, fun _ _ hhead _ => ?_⟩
  · rw [sigsuspendSys_self]
    exact hc
  · rw [sigsuspendSys_self] at hhead
    obtain ⟨-, rfl⟩ := SigFrame.sigsuspend.inj (Option.some.inj hhead)
    rw [hmask, hpending, hactive]
    exact ⟨hnone, hwait⟩

/-- Of a set whose blockable signals are not pending, none is where nothing else is. -/
theorem set_and_pending {set pending : BitVec 32}
    (hwaited : pending &&& (set &&& ~~~nonMaskableSignals) = 0)
    (hnone : unblocked set &&& pending = 0) : set &&& pending = 0 := by
  refine BitVec.eq_zero_iff.mpr fun i hi => ?_
  have hpending := (BitVec.has_and.mp hi).2
  refine BitVec.eq_zero_iff.mp hnone i (BitVec.has_and.mpr ⟨?_, hpending⟩)
  rw [unblocked, BitVec.has_not]
  exact fun hblocked => BitVec.eq_zero_iff.mp hwaited i (BitVec.has_and.mpr ⟨hpending, hblocked⟩)

theorem Inv.take (h : Inv x) (hc : Calling x) (sig : Fin 32) : Inv (x.take sig) :=
  h.of_only (modify_only x fun th => { th with sigpending := th.sigpending &&& ~~~sigBit sig })
    (NoWait.waitOk hc)

theorem Inv.sigwaitSys (h : Inv x) (hc : Calling x) {set : Option (BitVec 32)}
    (hnone : ∀ m, set = some m → x.waited m = 0 → unblocked m &&& x.me.sigpending = 0) :
    Inv (x.sigwaitSys set) := by
  unfold Signals.sigwaitSys
  split
  · exact h
  · rename_i set
    split
    · exact h.take hc _
    · rename_i hfirst
      have hwaited : x.waited set = 0 := BitVec.eq_zero_iff.mpr (BitVec.first_eq_none.mp hfirst)
      have hpending := hnone set rfl hwaited
      have hme := modify_me x fun th => { th with activateOnSignal := true }
      refine (h.modify hc _).sigsuspendSys hc ?_ ?_
      · rw [hme]
        exact hpending
      · rintro set' hset
        rw [← Option.some.inj hset, hme]
        exact ⟨set_and_pending hwaited hpending, rfl⟩

theorem Inv.pthreadKillSys (h : Inv x) (thread : Option T) (sig : Int) :
    Inv (x.pthreadKillSys thread sig) := by
  unfold Signals.pthreadKillSys
  split
  · exact h
  · split
    · exact h.pthreadKill _ _
    · exact h

theorem Inv.pthreadSigmaskSys (h : Inv x) (hc : Calling x) (how : Int)
    (set : Option (BitVec 32)) : Inv (x.pthreadSigmaskSys how set) := by
  unfold Signals.pthreadSigmaskSys
  split
  · exact h
  · rename_i set
    have hmask : ∀ g r, Inv ((x.modify g).answer r) := fun g _ => h.modify hc g
    split
    · exact hmask _ _
    · split
      · exact hmask _ _
      · split
        · exact hmask _ _
        · exact h

theorem Inv.sigactionSys (h : Inv x) (sig : Int) (act : Option (SigHandler × BitVec 32)) :
    Inv (x.sigactionSys sig act) := by
  unfold Signals.sigactionSys
  split
  · split <;> exact h
  · exact h

theorem Inv.syscall (h : Inv x) (hc : Calling x) (call : SigCall T)
    (hnothing : Nothing x (.call call)) : Inv (x.syscall call) := by
  cases call with
  | kill thread sig => exact h.pthreadKillSys thread sig
  | sigmask how set => exact h.pthreadSigmaskSys hc how set
  | sigsuspend mask => exact h.sigsuspendSys hc hnothing fun _ hset => absurd hset nofun
  | sigwait set =>
    refine h.sigwaitSys hc ?_
    rintro m rfl
    exact hnothing
  | sigaction sig act => exact h.sigactionSys sig act
  | setcancelstate state => exact h
  | block => exact h.suspend hc nofun
  | activate t => exact h.activateThread t

-- ---------------------------------------------------------------------------
-- Inside the kernel
-- ---------------------------------------------------------------------------

theorem Inv.sigsuspendEnd (h : Inv x) (hc : Calling x) (oldMask : BitVec 32)
    (sigwait : Option (BitVec 32)) : Inv (x.sigsuspendEnd oldMask sigwait) := by
  unfold Signals.sigsuspendEnd
  dsimp only
  have hmask : Inv (x.modify fun th => { th with sigmask := oldMask }) := h.modify hc _
  split
  · exact hmask
  · have hflag : Inv ((x.modify fun th => { th with sigmask := oldMask }).modify
        fun th => { th with activateOnSignal := false }) := hmask.modify hc _
    split
    · exact hflag.take hc _
    · exact hflag

theorem Inv.doSignals (h : Inv x) (hc : Calling x) : Inv x.doSignals := by
  unfold Signals.doSignals
  dsimp only
  split
  · exact Inv.push ((h.modify hc _).modify hc _) hc nofun
  · exact Inv.push (h.modify hc _) hc nofun

theorem finishThread_current : (s.finishThread c).currentThread = s.currentThread := by
  rw [Sched.finishThread, Sched.modify_current, Sched.removeSs_current]

theorem finishThread_of_ne (h : t ≠ c) : (s.finishThread c).thread t = s.thread t := by
  rw [Sched.finishThread, Sched.modify_thread, if_neg h, Sched.removeSs_thread, if_neg h]

theorem Inv.runHandler (h : Inv x) (hc : Calling x) (handler : SigHandler) :
    Inv (x.runHandler handler) := by
  cases handler with
  | sigDfl | sigIgn | wakeupThread => exact h
  | sleepThread => exact h.suspend hc nofun
  | user => exact h.push hc nofun
  | cancelThread =>
    have hfinish : Inv { x with sched := x.sched.finishThread x.cur } :=
      h.of_only (fun t ht => ⟨rfl, finishThread_of_ne ht⟩) (NoWait.waitOk hc)
    have hcalling : Calling { x with sched := x.sched.finishThread x.cur } := by
      show NoWait (x.stack (x.sched.finishThread x.cur).currentThread)
      rw [finishThread_current]
      exact hc
    exact hfinish.push hcalling nofun

theorem Inv.round (h : Inv x) (hc : Calling x) (signal : Nat) (sigpend oldSigmask : BitVec 32) :
    Inv (x.round signal sigpend oldSigmask) := by
  unfold Signals.round
  split
  · rename_i hround
    have hloop : ∀ g (p m : BitVec 32), Inv ((x.modify g).push (.loop (signal + 1) p m)) ∧
        Calling ((x.modify g).push (.loop (signal + 1) p m)) := by
      intro g p m
      have hf : ∀ o w, SigFrame.loop (signal + 1) p m ≠ .sigsuspend o w := fun _ _ h => by cases h
      exact ⟨(h.modify hc g).push hc hf, Calling.push (x := x.modify g) hc hf⟩
    dsimp only
    split
    · exact (hloop _ _ _).1.runHandler (hloop _ _ _).2 _
    · exact (hloop _ _ _).1
  · exact h.modify hc _

theorem Inv.pop (h : Inv x) (hstack : x.stack x.cur = f :: fs) :
    Inv (x.setStack fs) ∧ Calling (x.setStack fs) := by
  have htail := (h x.cur).tail
  rw [hstack] at htail
  have hself : NoWait ((x.setStack fs).stack x.cur) := by
    rw [setStack_self]
    exact htail
  exact ⟨h.of_only (setStack_only x fs) (NoWait.waitOk hself), hself⟩

theorem Inv.next (h : Inv x) (hs : x.next = some y) : Inv y := by
  unfold Signals.next at hs
  split at hs
  · cases hs
  · rename_i oldMask sigwait fs hstack
    obtain ⟨hinv, hc⟩ := h.pop hstack
    rw [← Option.some.inj hs]
    exact hinv.sigsuspendEnd hc oldMask sigwait
  · rename_i fs hstack
    rw [← Option.some.inj hs]
    exact (h.pop hstack).1
  · rename_i fs hstack
    rw [← Option.some.inj hs]
    exact (h.pop hstack).1
  · rename_i fs hstack
    obtain ⟨hinv, hc⟩ := h.pop hstack
    rw [← Option.some.inj hs]
    exact hinv.doSignals hc
  · rename_i signal sigpend oldSigmask fs hstack
    obtain ⟨hinv, hc⟩ := h.pop hstack
    rw [← Option.some.inj hs]
    exact hinv.round hc signal sigpend oldSigmask
  · rename_i fs hstack
    have htail := (h x.cur).tail
    rw [hstack] at htail
    rw [← Option.some.inj hs]
    refine h.of_only (setStack_only x (.scheduling :: fs)) (NoWait.waitOk ?_)
    rw [setStack_self]
    exact NoWait.cons htail fun _ _ heq => by cases heq

omit [DecidableEq T] in
theorem Inv.calling (h : Inv x) (hu : x.userLevel = true) : Calling x := by
  have htail := (h x.cur).tail
  unfold userLevel at hu
  show NoWait (x.stack x.cur)
  split at hu
  · rename_i hstack
    rw [hstack]
    exact fun f hf => absurd hf List.not_mem_nil
  · rename_i fs hstack
    rw [hstack] at htail ⊢
    exact NoWait.cons htail fun _ _ heq => by cases heq
  · rename_i fs hstack
    rw [hstack] at htail ⊢
    exact NoWait.cons htail fun _ _ heq => by cases heq
  · cases hu

theorem step_inv {a : SigAction T} (h : Inv x) (hnothing : Nothing x a) (hs : step x a = some y) :
    Inv y := by
  unfold step at hs
  split at hs
  · cases hs
  · cases a with
    | call c =>
      dsimp only at hs
      split at hs
      · rename_i hu
        have hc := h.calling hu
        have hgate : ∀ o w, SigFrame.gate ≠ .sigsuspend o w := fun _ _ heq => by cases heq
        rw [← Option.some.inj hs]
        refine (h.push hc hgate).syscall (hc.push hgate) c ?_
        cases c <;> exact hnothing
      · cases hs
    | next => exact h.next hs
    | timer t sig =>
      rw [← Option.some.inj hs]
      exact h.pthreadKill t sig
    | reschedule =>
      rw [← Option.some.inj hs]
      exact h

omit [DecidableEq T] in
theorem start_inv (sched : Sched T) (handler : Fin 32 → SigHandler) (saMask : Fin 32 → BitVec 32)
    (cancelState : T → Bool) : Inv (start sched handler saMask cancelState) :=
  fun _ => NoWait.waitOk fun _ hf => absurd hf List.not_mem_nil

theorem no_signal_lost {handler : Fin 32 → SigHandler} {saMask : Fin 32 → BitVec 32}
    {cancelState : T → Bool} {tr : List (Signals T × SigAction T)} {z : Signals T}
    (hr : Run step (start s handler saMask cancelState) tr z)
    (hc : ∀ e ∈ tr, Nothing e.1 e.2) (hx : Visited tr z x) (t : T) : NoneLost x t :=
  (hr.invariant_visited (I := Inv) (C := Nothing) (start_inv s handler saMask cancelState)
    (fun _ _ _ h hn hs => step_inv h hn hs) hc hx).noneLost t

end

-- ---------------------------------------------------------------------------
-- A signal that was blocked
-- ---------------------------------------------------------------------------

def twoThreads : Signals (Option Bool) :=
  start
    { thread := fun _ => { state := .ready, ss := some 0 }
      threadMatrix := fun i => if i = 0 then [some false, some true] else []
      currentThread := some false
      idleThread := none }
    (fun _ => .sigIgn) (fun i => sigBit i.val) (fun _ => false)

/-- The thread blocks signal 6, raises it for itself and waits for it with an empty mask. -/
theorem blocked_signal_lost : ∃ tr z, Run step twoThreads tr z ∧ ¬NoneLost z (some false) := by
  have hrun : (exec step twoThreads
      [.call (.sigmask 0 (some (sigBit 6))), .next, .next, .call (.kill (some (some false)) 6),
        .next, .next, .call (.sigsuspend (some 0))]).any
      fun r => decide ((r.2.stack (some false)).head? = some (.sigsuspend (sigBit 6) none) ∧
        (r.2.sched.thread (some false)).state = .suspended ∧
        unblocked (r.2.sched.thread (some false)).sigmask &&&
          (r.2.sched.thread (some false)).sigpending ≠ 0) := by
    decide +kernel
  obtain ⟨tr, z, hr, hz⟩ := exec_any hrun
  obtain ⟨hhead, hstate, hlost⟩ := of_decide_eq_true hz
  exact ⟨tr, z, hr, fun hnone => hlost (hnone _ _ hhead hstate).1⟩

/-- The signal comes from the other thread while the first waits. -/
theorem no_signal_lost_kill : ∃ tr z, Run step twoThreads tr z ∧
    (z.sched.thread (some false)).state = .ready ∧ ∀ x, Visited tr z x → ∀ t, NoneLost x t := by
  have hrun : (exec step twoThreads
      [.call (.sigsuspend (some 0)), .call (.kill (some (some false)) 6)]).any
      fun r => decide ((r.2.sched.thread (some false)).state = .ready ∧
        ∀ e ∈ r.1, Nothing e.1 e.2) := by
    decide +kernel
  obtain ⟨tr, z, hr, hz⟩ := exec_any hrun
  obtain ⟨hready, hnothing⟩ := of_decide_eq_true hz
  exact ⟨tr, z, hr, hready, fun x hx t => no_signal_lost hr hnothing hx t⟩

end Signals

end Xmertl.Partikle
