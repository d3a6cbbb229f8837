import Xmertl.Partikle.Signals

/-!
# What each event does to a thread's signals

The steps of `Signals`, and an interrupt that calls `do_signals` on its way out: for each
thread one case that says what becomes of its stack, its mask and its pending signals.
-/

namespace Xmertl.Partikle

namespace Signals

inductive SigEvent (T : Type)
  | act (a : SigAction T)
  /-- An interrupt, on a port that calls `do_signals` on the way out of it. -/
  | irq

variable {T : Type} [DecidableEq T]

/-- Interrupts are on in the application, and around the handlers of `do_signals`. -/
def interruptible (x : Signals T) : Bool :=
  match x.stack x.cur with
  | [] | .handler :: _ | .exit :: _ | .loop .. :: _ => true
  | _ => false

def event (x : Signals T) : SigEvent T → Option (Signals T)
  | .act a => x.step a
  | .irq => if !x.halted && x.interruptible then some (x.push .gate) else none

def mask (x : Signals T) (t : T) : BitVec 32 := (x.sched.thread t).sigmask

def pending (x : Signals T) (t : T) : BitVec 32 := (x.sched.thread t).sigpending

/-- What `do_signals` finds for the current thread. -/
def deliverable (x : Signals T) : BitVec 32 :=
  let sigpend := x.me.sigpending &&& unblocked x.me.sigmask
  if x.cancelState x.cur then sigpend &&& ~~~sigBit cancelSignal else sigpend

/-- The signal whose handler the event starts, and the mask its `do_signals` was called with. -/
def delivery (x : Signals T) : SigEvent T → Option (Fin 32 × BitVec 32)
  | .act .next =>
    match x.stack x.cur with
    | .loop signal sigpend oldSigmask :: _ =>
      if h : signal < 32 ∧ sigpend &&& 1 ≠ 0 then some (⟨signal, h.1⟩, oldSigmask) else none
    | _ => none
  | _ => none

/-- The signal that `sigwait_sys` takes. -/
def sigwaits (x : Signals T) : SigEvent T → Option (Fin 32)
  | .act (.call (.sigwait (some set))) => (x.waited set).first
  | .act .next =>
    match x.stack x.cur with
    | .sigsuspend _ (some set) :: _ => (x.waited set).first
    | _ => none
  | _ => none

def setsMask : SigEvent T → Bool
  | .act (.call (.sigmask ..)) | .act (.call (.sigsuspend _)) | .act (.call (.sigwait _)) => true
  | _ => false

-- ---------------------------------------------------------------------------
-- What an event does to a thread
-- ---------------------------------------------------------------------------

def NoLoop (fs : List SigFrame) : Prop := ∀ f ∈ fs, ∀ n p m, f ≠ .loop n p m

/-- For `t` nothing happens but that signals are raised. -/
structure Raises (t : T) (x y : Signals T) : Prop where
  stack : y.stack t = x.stack t
  mask : y.mask t = x.mask t
  pending : ∀ i, (x.pending t).Has i → (y.pending t).Has i

def active (x : Signals T) (t : T) : Bool := (x.sched.thread t).activateOnSignal

/-- The signals that an event raises for `t`. -/
def raised (t : T) : SigEvent T → BitVec 32
  | .act (.call (.kill (some u) sig)) =>
    if u = t ∧ 0 ≤ sig ∧ sig < 32 then sigBit sig.toNat else 0
  | .act (.timer u sig) => if u = t then sigBit sig else 0
  | _ => 0

/-- For `t` nothing happens but that the signals `b` are raised. -/
structure Gets (t : T) (b : BitVec 32) (x y : Signals T) : Prop where
  stack : y.stack t = x.stack t
  mask : y.mask t = x.mask t
  active : y.active t = x.active t
  pending : y.pending t = x.pending t ||| b

/-- What an event does to thread `t`. -/
inductive Move (t : T) (x : Signals T) (e : SigEvent T) (y : Signals T) : Prop
  | other (hcur : x.cur = t → e ≠ .act .next) (h : Raises t x y)
  /-- A call, or an interrupt. -/
  | calls (fs : List SigFrame) (he : e ≠ .act .next) (hcur : x.cur = t) (hloop : NoLoop fs)
      (hstack : y.stack t = fs ++ x.stack t)
      (hmask : setsMask e = false → y.mask t = x.mask t ∧ NoWait fs)
      (hpending : ∀ i, (x.pending t).Has i → (y.pending t).Has i ∨ x.sigwaits e = some i)
  /-- The end of a handler or of a call's wait. -/
  | leaves (f : SigFrame) (fs below : List SigFrame) (hcur : x.cur = t)
      (hx : x.stack t = f :: below) (hf : NoLoop [f]) (hloop : NoLoop fs) (hwait : NoWait fs)
      (hstack : y.stack t = fs ++ below)
      (hmask : y.mask t = x.mask t ∨ ∃ w, f = .sigsuspend (y.mask t) w)
      (hpending : ∀ i, (x.pending t).Has i → (y.pending t).Has i ∨ x.sigwaits e = some i)
  /-- The start of `do_signals`. -/
  | enters (below : List SigFrame) (hcur : x.cur = t) (hx : x.stack t = .gate :: below)
      (hstack : y.stack t = .loop 0 x.deliverable (x.mask t) :: below)
      (hmask : y.mask t = x.mask t) (hpending : y.pending t = x.pending t &&& ~~~x.deliverable)
  | round (n : Nat) (p m : BitVec 32) (fs below : List SigFrame) (he : e = .act .next)
      (hcur : x.cur = t) (hx : x.stack t = .loop n p m :: below) (hn : n < 32)
      (hloop : NoLoop fs) (hwait : NoWait fs)
      (hstack : y.stack t = fs ++ .loop (n + 1) (p >>> 1) m :: below)
      (hmask : y.mask t = m ||| x.saMask ⟨n, hn⟩ ||| sigBit n)
      (hpending : y.pending t = x.pending t)
  /-- The end of `do_signals`. -/
  | done (n : Nat) (p m : BitVec 32) (below : List SigFrame) (he : e = .act .next)
      (hcur : x.cur = t) (hx : x.stack t = .loop n p m :: below) (hn : ¬(n < 32 ∧ p ≠ 0))
      (hstack : y.stack t = below) (hmask : y.mask t = m) (hpending : y.pending t = x.pending t)

section
variable {x y z : Signals T} {s : Sched T} {t u c : T} {fs : List SigFrame} {i : Fin 32}

omit [DecidableEq T] in
theorem Gets.raises {b : BitVec 32} (h : Gets t b x y) : Raises t x y := by
  refine ⟨h.stack, h.mask, fun i hi => ?_⟩
  rw [h.pending]
  exact BitVec.has_or.mpr (.inl hi)

omit [DecidableEq T] in
theorem Gets.of_thread (hstack : y.stack t = x.stack t)
    (h : y.sched.thread t = x.sched.thread t) : Gets t 0 x y where
  stack := hstack
  mask := congrArg Thread.sigmask h
  active := congrArg Thread.activateOnSignal h
  pending := (congrArg Thread.sigpending h).trans BitVec.or_zero.symm

omit [DecidableEq T] in
theorem Raises.of_thread (hstack : y.stack t = x.stack t)
    (h : y.sched.thread t = x.sched.thread t) : Raises t x y := (Gets.of_thread hstack h).raises

omit [DecidableEq T] in
theorem Gets.of_only (h : Only c x y) (ht : t ≠ c) : Gets t 0 x y :=
  Gets.of_thread (h t ht).1 (h t ht).2

omit [DecidableEq T] in
theorem Gets.zero_trans {b : BitVec 32} (h : Gets t 0 x y) (h' : Gets t b y z) : Gets t b x z where
  stack := h'.stack.trans h.stack
  mask := h'.mask.trans h.mask
  active := h'.active.trans h.active
  pending := by rw [h'.pending, h.pending, show x.pending t ||| 0 = _ from BitVec.or_zero]

omit [DecidableEq T] in
theorem Gets.trans_zero {b : BitVec 32} (h : Gets t b x y) (h' : Gets t 0 y z) : Gets t b x z where
  stack := h'.stack.trans h.stack
  mask := h'.mask.trans h.mask
  active := h'.active.trans h.active
  pending := by rw [h'.pending, show y.pending t ||| 0 = _ from BitVec.or_zero, h.pending]

theorem activateThread_signals :
    ((s.activateThread c).thread t).sigmask = (s.thread t).sigmask ∧
    ((s.activateThread c).thread t).sigpending = (s.thread t).sigpending ∧
    ((s.activateThread c).thread t).activateOnSignal = (s.thread t).activateOnSignal := by
  unfold Sched.activateThread
  by_cases h : t = c <;> split <;> simp [Sched.modify_thread, Sched.insertSs_thread, h]

theorem finishThread_signals :
    ((s.finishThread c).thread t).sigmask = (s.thread t).sigmask ∧
    ((s.finishThread c).thread t).sigpending = (s.thread t).sigpending := by
  by_cases h : t = c <;> simp [Sched.finishThread, Sched.modify_thread, Sched.removeSs_thread, h]

theorem Gets.activateThread (x : Signals T) (t u : T) :
    Gets t 0 x { x with sched := x.sched.activateThread u } where
  stack := rfl
  mask := activateThread_signals.1
  active := activateThread_signals.2.2
  pending := activateThread_signals.2.1.trans BitVec.or_zero.symm

theorem Gets.raise (x : Signals T) (t u : T) (sig : Fin 32) :
    Gets t (if u = t then sigBit sig else 0) x
      { x with sched := x.sched.modify u (·.raise sig) } := by
  have hraise := Sched.modify_thread x.sched u t (·.raise sig)
  by_cases ht : t = u
  · rw [if_pos ht] at hraise
    rw [if_pos ht.symm]
    have hmask := congrArg Thread.sigmask hraise
    have hactive := congrArg Thread.activateOnSignal hraise
    have hpending := congrArg Thread.sigpending hraise
    exact ⟨rfl, hmask, hactive, hpending⟩
  · rw [if_neg ht] at hraise
    rw [if_neg (Ne.symm ht)]
    exact Gets.of_thread rfl hraise

theorem Gets.pthreadKill (x : Signals T) (t u : T) (sig : Fin 32) :
    Gets t (if u = t then sigBit sig else 0) x
      { x with sched := x.sched.pthreadKill u sig } := by
  have hraise := Gets.raise x t u sig
  generalize (if u = t then sigBit sig else 0) = b at hraise ⊢
  unfold Sched.pthreadKill
  dsimp only
  split
  · exact hraise.trans_zero (Gets.activateThread _ t u)
  · exact hraise

theorem has_sigBit {j : Fin 32} : (sigBit i).Has j ↔ j = i := BitVec.has_twoPow

theorem has_clear {p : BitVec 32} {j : Fin 32} (h : p.Has j) :
    (p &&& ~~~sigBit i).Has j ∨ i = j := by
  by_cases hj : j = i
  · exact .inr hj.symm
  · exact .inl (BitVec.has_and.mpr ⟨h, BitVec.has_not.mpr fun hb => hj (has_sigBit.mp hb)⟩)

-- ---------------------------------------------------------------------------
-- System calls
-- ---------------------------------------------------------------------------

theorem Gets.answer {b : BitVec 32} (h : Gets t b x y) (r : SigRet) : Gets t b x (y.answer r) :=
  ⟨h.stack, h.mask, h.active, h.pending⟩

theorem Gets.pthreadKillSys (x : Signals T) (t : T) (thread : Option T) (sig : Int) :
    Gets t (raised t (.act (.call (.kill thread sig)))) x (x.pthreadKillSys thread sig) := by
  cases thread with
  | none => exact Gets.of_thread rfl rfl
  | some u =>
    unfold Signals.pthreadKillSys raised
    by_cases hsig : 0 ≤ sig ∧ sig < 32
    · simp only [hsig, and_true]
      exact (Gets.pthreadKill x t u ⟨sig.toNat, sig_lt hsig⟩).answer .ok
    · simp only [hsig, and_false, if_false]
      exact Gets.of_thread rfl rfl

theorem pthreadSigmaskSys_only (x : Signals T) (how : Int) (set : Option (BitVec 32)) :
    Only x.cur x (x.pthreadSigmaskSys how set) := by
  have hmodify (g : Thread → Thread) : Only x.cur x ((x.modify g).answer .ok) := modify_only x g
  unfold pthreadSigmaskSys
  split
  · exact fun t _ => ⟨rfl, rfl⟩
  · split
    · exact hmodify _
    · split
      · exact hmodify _
      · split
        · exact hmodify _
        · exact fun t _ => ⟨rfl, rfl⟩

theorem take_only (x : Signals T) (sig : Fin 32) : Only x.cur x (x.take sig) :=
  modify_only x fun th => { th with sigpending := th.sigpending &&& ~~~sigBit sig }

theorem sigwaitSys_only (x : Signals T) (set : Option (BitVec 32)) :
    Only x.cur x (x.sigwaitSys set) := by
  unfold sigwaitSys
  split
  · exact fun t _ => ⟨rfl, rfl⟩
  · split
    · exact take_only x _
    · exact (modify_only x _).trans (sigsuspendSys_only (x.modify _) _ _)

theorem sigactionSys_threads (x : Signals T) (sig : Int) (act : Option (SigHandler × BitVec 32)) :
    (x.sigactionSys sig act).stack = x.stack ∧ (x.sigactionSys sig act).sched = x.sched := by
  unfold sigactionSys
  split
  · split <;> exact ⟨rfl, rfl⟩
  · exact ⟨rfl, rfl⟩

theorem Gets.syscall (ht : t ≠ x.cur) (call : SigCall T) :
    Gets t (raised t (.act (.call call))) x (x.syscall call) := by
  cases call with
  | kill thread sig => exact Gets.pthreadKillSys x t thread sig
  | sigmask how set => exact Gets.of_only (pthreadSigmaskSys_only x how set) ht
  | sigsuspend mask => exact Gets.of_only (sigsuspendSys_only x mask none) ht
  | sigwait set => exact Gets.of_only (sigwaitSys_only x set) ht
  | sigaction sig act =>
    obtain ⟨hstack, hsched⟩ := sigactionSys_threads x sig act
    exact Gets.of_thread (congrFun hstack t) (congrArg (fun s => s.thread t) hsched)
  | setcancelstate state => exact Gets.of_thread rfl rfl
  | block => exact Gets.of_only (suspend_only x .scheduling) ht
  | activate u => exact Gets.activateThread x t u

structure Called (x : Signals T) (call : SigCall T) (fs : List SigFrame) (y : Signals T) :
    Prop where
  noLoop : NoLoop fs
  stack : y.stack x.cur = fs ++ x.stack x.cur
  mask : setsMask (.act (.call call)) = false → y.mask x.cur = x.mask x.cur ∧ NoWait fs
  pending : ∀ i, (x.pending x.cur).Has i →
    (y.pending x.cur).Has i ∨ x.sigwaits (.act (.call call)) = some i

theorem noLoop_nil : NoLoop [] := fun _ hf => absurd hf List.not_mem_nil

theorem noWait_nil : NoWait [] := fun _ hf => absurd hf List.not_mem_nil

theorem NoLoop.cons {f : SigFrame} (h : NoLoop fs) (hf : ∀ n p m, f ≠ .loop n p m) :
    NoLoop (f :: fs) := List.forall_mem_cons.mpr ⟨hf, h⟩

omit [DecidableEq T] in
theorem Called.of_raises {call : SigCall T} (h : Raises x.cur x y) : Called x call [] y where
  noLoop := noLoop_nil
  stack := h.stack
  mask _ := ⟨h.mask, noWait_nil⟩
  pending i hi := .inl (h.pending i hi)

theorem modify_pending (x : Signals T) (g : Thread → Thread) :
    (x.modify g).pending x.cur = (g x.me).sigpending := congrArg Thread.sigpending (modify_me x g)

theorem modify_mask (x : Signals T) (g : Thread → Thread) :
    (x.modify g).mask x.cur = (g x.me).sigmask := congrArg Thread.sigmask (modify_me x g)

theorem Called.of_modify {call : SigCall T} {g : Thread → Thread} {r : SigRet}
    (hcall : setsMask (.act (.call call)) = true) (hg : (g x.me).sigpending = x.me.sigpending) :
    Called x call [] ((x.modify g).answer r) where
  noLoop := noLoop_nil
  stack := rfl
  mask h := by rw [hcall] at h; cases h
  pending i hi := by
    refine .inl ?_
    show ((x.modify g).pending x.cur).Has i
    rw [modify_pending, hg]
    exact hi

theorem Called.sigsuspendSys {call : SigCall T} {mask sigwait : Option (BitVec 32)}
    (hcall : setsMask (.act (.call call)) = true) :
    Called x call [.sigsuspend x.me.sigmask sigwait] (x.sigsuspendSys mask sigwait) where
  noLoop := noLoop_nil.cons fun _ _ _ h => by cases h
  stack := sigsuspendSys_self x mask sigwait
  mask h := by rw [hcall] at h; cases h
  pending i hi := by
    refine .inl ?_
    unfold Signals.pending
    rw [(sigsuspendSys_signals x mask sigwait).2.1]
    exact hi

theorem Called.take {call : SigCall T} {set : BitVec 32} {sig : Fin 32}
    (hcall : call = .sigwait (some set)) (hfirst : (x.waited set).first = some sig) :
    Called x call [] (x.take sig) where
  noLoop := noLoop_nil
  stack := rfl
  mask h := by rw [hcall] at h; cases h
  pending i hi := by
    have hpending : (x.take sig).pending x.cur = x.pending x.cur &&& ~~~sigBit sig :=
      modify_pending x fun th => { th with sigpending := th.sigpending &&& ~~~sigBit sig }
    rw [hcall, hpending]
    show _ ∨ (x.waited set).first = some i
    rw [hfirst, Option.some.injEq]
    exact has_clear hi

theorem called (x : Signals T) (call : SigCall T) : ∃ fs, Called x call fs (x.syscall call) := by
  have hnone (r : SigRet) : Raises x.cur x (x.answer r) := Raises.of_thread rfl rfl
  cases call with
  | kill thread sig => exact ⟨[], Called.of_raises (Gets.pthreadKillSys x x.cur thread sig).raises⟩
  | sigmask how set =>
    refine ⟨[], ?_⟩
    unfold Signals.syscall pthreadSigmaskSys
    dsimp only
    split
    · exact Called.of_raises (hnone _)
    · split
      · exact Called.of_modify rfl rfl
      · split
        · exact Called.of_modify rfl rfl
        · split
          · exact Called.of_modify rfl rfl
          · exact Called.of_raises (hnone _)
  | sigsuspend mask => exact ⟨_, Called.sigsuspendSys rfl⟩
  | sigwait set =>
    unfold Signals.syscall sigwaitSys
    dsimp only
    split
    · exact ⟨[], Called.of_raises (hnone _)⟩
    · rename_i set
      split
      · rename_i sig hfirst
        exact ⟨[], Called.take rfl hfirst⟩
      · let z := x.modify fun th => { th with activateOnSignal := true }
        have hz : Called z (.sigwait (some set)) _ (z.sigsuspendSys (some set) (some set)) :=
          Called.sigsuspendSys rfl
        refine ⟨_, hz.noLoop, hz.stack, nofun, fun i hi => ?_⟩
        have hpending : z.pending x.cur = x.pending x.cur := modify_pending x _
        refine (hz.pending i ?_).imp_right fun h => ?_
        · show (z.pending x.cur).Has i
          rwa [hpending]
        · have hwaited : z.waited set = x.waited set := by
            unfold waited
            rw [modify_me]
          show (x.waited set).first = some i
          rw [← hwaited]
          exact h
  | sigaction sig act =>
    obtain ⟨hstack, hsched⟩ := sigactionSys_threads x sig act
    exact ⟨[], Called.of_raises (Raises.of_thread (congrFun hstack x.cur)
      (congrArg (fun s => s.thread x.cur) hsched))⟩
  | setcancelstate state => exact ⟨[], Called.of_raises (Raises.of_thread rfl rfl)⟩
  | block =>
    have hsignals := suspendThread_signals (s := x.sched) (c := x.cur) (t := x.cur)
    refine ⟨[.scheduling], noLoop_nil.cons fun _ _ _ h => ?_, suspend_self x _, fun _ => ⟨?_, ?_⟩,
      fun i hi => .inl ?_⟩
    · cases h
    · exact hsignals.1
    · exact noWait_nil.cons fun _ _ h => by cases h
    · unfold Signals.pending
      have hpending : ((x.suspend .scheduling).sched.thread x.cur).sigpending = x.pending x.cur :=
        hsignals.2.1
      rw [show x.syscall .block = x.suspend .scheduling from rfl, hpending]
      exact hi
  | activate u => exact ⟨[], Called.of_raises (Gets.activateThread x x.cur u).raises⟩

theorem Gets.call (ht : t ≠ x.cur) (call : SigCall T) :
    Gets t (raised t (.act (.call call))) x ((x.push .gate).syscall call) :=
  (Gets.of_only (setStack_only x _) ht).zero_trans (Gets.syscall (x := x.push .gate) ht call)

theorem push_sigwaits (x : Signals T) (call : SigCall T) :
    (x.push .gate).sigwaits (.act (.call call)) = x.sigwaits (.act (.call call)) := by
  cases call with
  | sigwait set => cases set <;> rfl
  | _ => rfl

theorem move_call (x : Signals T) (call : SigCall T) :
    Move x.cur x (.act (.call call)) ((x.push .gate).syscall call) := by
  obtain ⟨fs, hcalled⟩ := called (x.push .gate) call
  refine .calls (fs ++ [.gate]) (fun h => by cases h) rfl ?_ ?_ (fun h => ?_) fun i hi => ?_
  · exact List.forall_mem_append.mpr ⟨hcalled.noLoop, noLoop_nil.cons fun _ _ _ h => by cases h⟩
  · have hstack := hcalled.stack
    have hpush : (x.push .gate).stack x.cur = .gate :: x.stack x.cur := push_self x .gate
    show ((x.push .gate).syscall call).stack (x.push .gate).cur = _
    rw [hstack, List.append_assoc]
    exact congrArg (fs ++ ·) hpush
  · obtain ⟨hmask, hwait⟩ := hcalled.mask h
    exact ⟨hmask, List.forall_mem_append.mpr
      ⟨hwait, noWait_nil.cons fun _ _ h => by cases h⟩⟩
  · rw [← push_sigwaits]
    exact hcalled.pending i hi

-- ---------------------------------------------------------------------------
-- Inside the kernel
-- ---------------------------------------------------------------------------

/-- In `y` the current thread has `fs` on top, its signals as in `x`. -/
structure Pushed (x : Signals T) (fs : List SigFrame) (y : Signals T) : Prop where
  noLoop : NoLoop fs
  noWait : NoWait fs
  stack : y.stack x.cur = fs ++ x.stack x.cur
  mask : y.mask x.cur = x.mask x.cur
  pending : y.pending x.cur = x.pending x.cur

theorem runHandler_pushed (x : Signals T) (handler : SigHandler) :
    ∃ fs, Pushed x fs (x.runHandler handler) := by
  have hnone : Pushed x [] x := ⟨noLoop_nil, noWait_nil, rfl, rfl, rfl⟩
  cases handler with
  | sigDfl => exact ⟨[], noLoop_nil, noWait_nil, rfl, rfl, rfl⟩
  | sigIgn | wakeupThread => exact ⟨[], hnone⟩
  | sleepThread =>
    have hsignals := suspendThread_signals (s := x.sched) (c := x.cur) (t := x.cur)
    refine ⟨[.scheduling], noLoop_nil.cons fun _ _ _ h => ?_, noWait_nil.cons fun _ _ h => ?_,
      suspend_self x _, hsignals.1, hsignals.2.1⟩ <;> cases h
  | cancelThread =>
    have hsignals := finishThread_signals (s := x.sched) (c := x.cur) (t := x.cur)
    let z : Signals T := { x with sched := x.sched.finishThread x.cur }
    have hcur : z.cur = x.cur := finishThread_current
    refine ⟨[.exit], noLoop_nil.cons fun _ _ _ h => ?_, noWait_nil.cons fun _ _ h => ?_, ?_,
      hsignals.1, hsignals.2⟩
    · cases h
    · cases h
    · have hpush := push_self z .exit
      rw [hcur] at hpush
      exact hpush
  | user =>
    refine ⟨[.handler], noLoop_nil.cons fun _ _ _ h => ?_, noWait_nil.cons fun _ _ h => ?_,
      push_self x _, rfl, rfl⟩ <;> cases h

theorem doSignals_stack (x : Signals T) :
    x.doSignals.stack x.cur = .loop 0 x.deliverable (x.mask x.cur) :: x.stack x.cur := by
  unfold doSignals deliverable
  dsimp only
  split
  · exact push_self ((x.modify _).modify _) _
  · exact push_self (x.modify _) _

theorem push_me (x : Signals T) (f : SigFrame) : (x.push f).me = x.me := rfl

theorem doSignals_cur (x : Signals T) : x.doSignals.cur = x.cur := by
  unfold doSignals
  dsimp only
  split <;> rfl

theorem put_back {a b c : BitVec 32} :
    a &&& ~~~(a &&& b) ||| a &&& b &&& c = a &&& ~~~(a &&& b &&& ~~~c) := by
  refine BitVec.eq_of_has fun i => ?_
  simp only [BitVec.has_or, BitVec.has_and, BitVec.has_not]
  tauto

theorem doSignals_me (x : Signals T) :
    x.doSignals.me = { x.me with sigpending := x.me.sigpending &&& ~~~x.deliverable } := by
  unfold doSignals deliverable
  dsimp only
  split
  · rw [push_me, modify_me, modify_me, put_back]
  · rw [push_me, modify_me]

theorem doSignals_mask (x : Signals T) : x.doSignals.mask x.cur = x.mask x.cur := by
  have hme := congrArg Thread.sigmask (doSignals_me x)
  rw [me, doSignals_cur] at hme
  exact hme

theorem doSignals_pending (x : Signals T) :
    x.doSignals.pending x.cur = x.pending x.cur &&& ~~~x.deliverable := by
  have hme := congrArg Thread.sigpending (doSignals_me x)
  rw [me, doSignals_cur] at hme
  exact hme

theorem doSignals_only (x : Signals T) : Only x.cur x x.doSignals := by
  unfold doSignals
  dsimp only
  split
  · exact ((modify_only x _).trans (modify_only (x.modify _) _)).trans
      (setStack_only ((x.modify _).modify _) _)
  · exact (modify_only x _).trans (setStack_only (x.modify _) _)

theorem runHandler_only (x : Signals T) (handler : SigHandler) :
    Only x.cur x (x.runHandler handler) := by
  cases handler with
  | sigDfl | sigIgn | wakeupThread => exact fun t _ => ⟨rfl, rfl⟩
  | sleepThread => exact suspend_only x _
  | cancelThread =>
    let z : Signals T := { x with sched := x.sched.finishThread x.cur }
    have hz : Only x.cur x z := fun t ht => ⟨rfl, finishThread_of_ne ht⟩
    have hcur : z.cur = x.cur := finishThread_current
    have hpush : Only z.cur z (z.push .exit) := setStack_only z _
    exact hz.trans (hcur ▸ hpush)
  | user => exact setStack_only x _

theorem round_only (x : Signals T) (signal : Nat) (sigpend oldSigmask : BitVec 32) :
    Only x.cur x (x.round signal sigpend oldSigmask) := by
  unfold round
  split
  · dsimp only
    have hloop (g : Thread → Thread) (f : SigFrame) : Only x.cur x ((x.modify g).push f) :=
      (modify_only x g).trans (setStack_only (x.modify g) _)
    split
    · exact (hloop _ _).trans (runHandler_only ((x.modify _).push _) _)
    · exact hloop _ _
  · exact modify_only x _

theorem sigsuspendEnd_only (x : Signals T) (oldMask : BitVec 32) (sigwait : Option (BitVec 32)) :
    Only x.cur x (x.sigsuspendEnd oldMask sigwait) := by
  unfold sigsuspendEnd
  dsimp only
  have hmask : Only x.cur x (x.modify fun th => { th with sigmask := oldMask }) := modify_only x _
  split
  · exact hmask
  · have hflag := hmask.trans (modify_only (x.modify fun th => { th with sigmask := oldMask })
      fun th => { th with activateOnSignal := false })
    split
    · exact hflag.trans (take_only ((x.modify _).modify _) _)
    · exact hflag

theorem next_only (hs : x.next = some y) : Only x.cur x y := by
  have hpop (fs : List SigFrame) : Only x.cur x (x.setStack fs) := setStack_only x fs
  unfold Signals.next at hs
  split at hs
  · cases hs
  · rw [← Option.some.inj hs]
    exact (hpop _).trans (sigsuspendEnd_only (x.setStack _) _ _)
  · rw [← Option.some.inj hs]
    exact hpop _
  · rw [← Option.some.inj hs]
    exact hpop _
  · rw [← Option.some.inj hs]
    exact (hpop _).trans (doSignals_only (x.setStack _))
  · rw [← Option.some.inj hs]
    exact (hpop _).trans (round_only (x.setStack _) _ _ _)
  · rw [← Option.some.inj hs]
    exact hpop _

theorem take_pending (x : Signals T) (sig : Fin 32) :
    (x.take sig).pending x.cur = x.pending x.cur &&& ~~~sigBit sig :=
  modify_pending x fun th => { th with sigpending := th.sigpending &&& ~~~sigBit sig }

theorem sigsuspendEnd_signals (x : Signals T) (oldMask : BitVec 32)
    (sigwait : Option (BitVec 32)) :
    (x.sigsuspendEnd oldMask sigwait).stack = x.stack ∧
    (x.sigsuspendEnd oldMask sigwait).mask x.cur = oldMask ∧
    ∀ i, (x.pending x.cur).Has i → ((x.sigsuspendEnd oldMask sigwait).pending x.cur).Has i ∨
      ∃ set, sigwait = some set ∧ (x.waited set).first = some i := by
  let z := x.modify fun th => { th with sigmask := oldMask }
  let w := z.modify fun th => { th with activateOnSignal := false }
  have hzme : z.me = { x.me with sigmask := oldMask } := modify_me x _
  have hwme : w.me = { x.me with sigmask := oldMask, activateOnSignal := false } :=
    (modify_me z _).trans (by rw [hzme])
  unfold sigsuspendEnd
  dsimp only
  split
  · refine ⟨rfl, congrArg Thread.sigmask hzme, fun i hi => .inl ?_⟩
    have hpending : z.pending x.cur = x.pending x.cur := modify_pending x _
    show (z.pending x.cur).Has i
    rwa [hpending]
  · rename_i set
    have hpending := congrArg Thread.sigpending hwme
    change w.pending x.cur = x.pending x.cur at hpending
    have hwaited : w.waited set = x.waited set := by
      unfold waited
      rw [hwme]
    split
    · rename_i sig hfirst
      have hmask : (w.take sig).mask x.cur = oldMask :=
        (modify_mask w fun th => { th with sigpending := th.sigpending &&& ~~~sigBit sig }).trans
          (congrArg Thread.sigmask hwme)
      refine ⟨rfl, hmask, fun i hi => ?_⟩
      have htake : (w.take sig).pending x.cur = w.pending x.cur &&& ~~~sigBit sig :=
        take_pending w sig
      rw [hpending] at htake
      show ((w.take sig).pending x.cur).Has i ∨ _
      rw [htake]
      refine (has_clear (i := sig) hi).imp_right fun h => ⟨set, rfl, ?_⟩
      rw [← hwaited, ← h]
      exact hfirst
    · refine ⟨rfl, congrArg Thread.sigmask hwme, fun i hi => .inl ?_⟩
      show (w.pending x.cur).Has i
      rwa [hpending]

theorem move_leaves {f : SigFrame} {below : List SigFrame} (hx : x.stack x.cur = f :: below)
    (hf : ∀ n p m, f ≠ .loop n p m) : Move x.cur x (.act .next) (x.setStack below) :=
  .leaves f [] below rfl hx (noLoop_nil.cons hf) noLoop_nil noWait_nil (setStack_self x below)
    (.inl rfl) fun _ hi => .inl hi

theorem move_sigsuspendEnd {oldMask : BitVec 32} {sigwait : Option (BitVec 32)}
    {below : List SigFrame} (hx : x.stack x.cur = .sigsuspend oldMask sigwait :: below) :
    Move x.cur x (.act .next) ((x.setStack below).sigsuspendEnd oldMask sigwait) := by
  obtain ⟨hstack, hmask, hpending⟩ :=
    sigsuspendEnd_signals (x.setStack below) oldMask sigwait
  have hnew : ((x.setStack below).sigsuspendEnd oldMask sigwait).stack x.cur = [] ++ below := by
    rw [hstack]
    exact setStack_self x below
  refine .leaves _ [] below rfl hx (noLoop_nil.cons fun _ _ _ h => ?_) noLoop_nil noWait_nil hnew
    (.inr ⟨sigwait, ?_⟩) fun i hi => ?_
  · cases h
  · exact congrArg (SigFrame.sigsuspend · sigwait) hmask.symm
  · refine (hpending i hi).imp_right ?_
    rintro ⟨set, rfl, hfirst⟩
    unfold sigwaits
    dsimp only
    rw [hx]
    exact hfirst

theorem move_round {n : Nat} {p m : BitVec 32} {below : List SigFrame}
    (hx : x.stack x.cur = .loop n p m :: below) :
    Move x.cur x (.act .next) ((x.setStack below).round n p m) := by
  let z := x.setStack below
  have hz : z.stack x.cur = below := setStack_self x below
  unfold round
  split
  · rename_i hn
    dsimp only
    let w := (z.modify fun th => { th with
      sigmask := m ||| z.saMask ⟨n, hn.1⟩ ||| sigBit n }).push (.loop (n + 1) (p >>> 1) m)
    have hme : w.me = { x.me with sigmask := m ||| z.saMask ⟨n, hn.1⟩ ||| sigBit n } :=
      modify_me z _
    have hstack : w.stack x.cur = .loop (n + 1) (p >>> 1) m :: below := by
      have hpush := push_self (z.modify fun th => { th with
        sigmask := m ||| z.saMask ⟨n, hn.1⟩ ||| sigBit n }) (.loop (n + 1) (p >>> 1) m)
      exact hpush.trans (congrArg _ hz)
    have hmask := congrArg Thread.sigmask hme
    have hpending := congrArg Thread.sigpending hme
    split
    · obtain ⟨fs, h⟩ := runHandler_pushed w (w.handler ⟨n, hn.1⟩)
      have hnew := h.stack
      rw [show w.stack w.cur = _ from hstack] at hnew
      exact .round n p m fs below rfl rfl hx hn.1 h.noLoop h.noWait hnew (h.mask.trans hmask)
        (h.pending.trans hpending)
    · exact .round n p m [] below rfl rfl hx hn.1 noLoop_nil noWait_nil hstack hmask hpending
  · rename_i hn
    exact .done n p m below rfl rfl hx hn hz (modify_mask z _) (modify_pending z _)

theorem move_next (hs : x.next = some y) : Move x.cur x (.act .next) y := by
  unfold Signals.next at hs
  split at hs
  · cases hs
  · rename_i hx
    rw [← Option.some.inj hs]
    exact move_sigsuspendEnd hx
  · rename_i fs hx
    rw [← Option.some.inj hs]
    exact move_leaves hx fun _ _ _ h => by cases h
  · rename_i fs hx
    rw [← Option.some.inj hs]
    exact move_leaves hx fun _ _ _ h => by cases h
  · rename_i fs hx
    rw [← Option.some.inj hs]
    have hstack := doSignals_stack (x.setStack fs)
    rw [show (x.setStack fs).stack (x.setStack fs).cur = fs from setStack_self x fs] at hstack
    exact .enters fs rfl hx hstack (doSignals_mask (x.setStack fs))
      (doSignals_pending (x.setStack fs))
  · rename_i hx
    rw [← Option.some.inj hs]
    exact move_round hx
  · rename_i fs hx
    rw [← Option.some.inj hs]
    refine .leaves .exit [.scheduling] fs rfl hx (noLoop_nil.cons fun _ _ _ h => ?_)
      (noLoop_nil.cons fun _ _ _ h => ?_) (noWait_nil.cons fun _ _ h => ?_)
      (setStack_self x _) (.inl rfl) fun i hi => .inl hi <;> cases h

theorem event_call {call : SigCall T} (hs : x.event (.act (.call call)) = some y) :
    x.userLevel = true ∧ y = (x.push .gate).syscall call := by
  unfold event step at hs
  dsimp only at hs
  split at hs
  · cases hs
  · split at hs
    · rename_i hu
      exact ⟨hu, (Option.some.inj hs).symm⟩
    · cases hs

theorem event_next (hs : x.event (.act .next) = some y) : x.next = some y := by
  unfold event step at hs
  dsimp only at hs
  split at hs
  · cases hs
  · exact hs

theorem event_irq (hs : x.event .irq = some y) : x.interruptible = true ∧ y = x.push .gate := by
  unfold event at hs
  dsimp only at hs
  split at hs
  · rename_i hi
    exact ⟨(Bool.and_eq_true_iff.mp hi).2, (Option.some.inj hs).symm⟩
  · cases hs

theorem event_gets {e : SigEvent T} (t : T) (hs : x.event e = some y)
    (ht : x.cur = t → (∃ u sig, e = .act (.timer u sig)) ∨ e = .act .reschedule) :
    Gets t (raised t e) x y := by
  have hne (h : ¬((∃ u sig, e = .act (.timer u sig)) ∨ e = .act .reschedule)) : t ≠ x.cur :=
    fun hcur => h (ht hcur.symm)
  cases e with
  | irq =>
    obtain ⟨-, rfl⟩ := event_irq hs
    exact Gets.of_only (setStack_only x _) (hne (by simp))
  | act a =>
    cases a with
    | call call =>
      obtain ⟨-, rfl⟩ := event_call hs
      exact Gets.call (hne (by simp)) call
    | next => exact Gets.of_only (next_only (event_next hs)) (hne (by simp))
    | timer u sig =>
      unfold event step at hs
      dsimp only at hs
      split at hs
      · cases hs
      · rw [← Option.some.inj hs]
        exact Gets.pthreadKill x t u sig
    | reschedule =>
      unfold event step at hs
      dsimp only at hs
      split at hs
      · cases hs
      · rw [← Option.some.inj hs]
        exact Gets.of_thread rfl rfl

theorem event_move {e : SigEvent T} (t : T) (hs : x.event e = some y) : Move t x e y := by
  by_cases ht : x.cur = t
  · subst ht
    have hgets := event_gets x.cur hs
    cases e with
    | irq =>
      obtain ⟨-, rfl⟩ := event_irq hs
      refine .calls [.gate] nofun rfl (noLoop_nil.cons fun _ _ _ h => ?_) (push_self x .gate)
        (fun _ => ⟨rfl, noWait_nil.cons fun _ _ h => ?_⟩) fun i hi => .inl hi <;> cases h
    | act a =>
      cases a with
      | timer u sig =>
        exact .other (fun _ h => by cases h) (hgets fun _ => .inl ⟨u, sig, rfl⟩).raises
      | reschedule => exact .other (fun _ h => by cases h) (hgets fun _ => .inr rfl).raises
      | call call =>
        obtain ⟨-, rfl⟩ := event_call hs
        exact move_call x call
      | next => exact move_next (event_next hs)
  · exact .other (fun h => absurd h ht) (event_gets t hs fun h => absurd h ht).raises

end

end Signals

end Xmertl.Partikle
