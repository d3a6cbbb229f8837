import Xmertl.Partikle.SignalMoves

/-!
# Waiting for a signal

A call of `sigwait_sys` takes one pending signal of its set, whatever is raised meanwhile. It
is over when its thread's stack is back to the `.gate` of the call, and `do_signals` is next.
-/

namespace Xmertl.Partikle

namespace Signals

open Runs

variable {T : Type} [DecidableEq T]

/-- What the events of a run raise for `t`. -/
def raisedIn (t : T) (tr : List (Signals T × SigEvent T)) : BitVec 32 :=
  tr.foldr (fun d b => b ||| raised t d.2) 0

/-- A call of `sigwait_sys` by `t`, up to where it has its result. -/
structure SigwaitCall (t : T) (set : Option (BitVec 32)) (before begun : Signals T)
    (tr : List (Signals T × SigEvent T)) (after : Signals T) : Prop where
  cur : before.cur = t
  enter : before.event (.act (.call (.sigwait set))) = some begun
  run : Run event begun tr after
  inside : ∀ d ∈ tr, d.1.stack t ≠ .gate :: before.stack t
  back : after.stack t = .gate :: before.stack t

/-- What the call does that returns `sig`. -/
structure Consumes (t : T) (set : Option (BitVec 32)) (before : Signals T)
    (tr : List (Signals T × SigEvent T)) (after : Signals T) (sig : Fin 32) : Prop where
  mem : ∃ m, set = some m ∧ m.Has sig
  pending : (before.pending t ||| raisedIn t tr).Has sig
  /-- Of what was pending or has been raised, `sig` is taken and nothing else. -/
  cleared : after.pending t = (before.pending t ||| raisedIn t tr) &&& ~~~sigBit sig
  mask : after.mask t = before.mask t
  active : after.active t = before.active t
  /-- The thread starts no handler during the call, and none for `sig` at its end. -/
  quiet : ∀ d ∈ tr, d.1.cur = t → d.1.delivery d.2 = none
  next : after.cur = t ∧ ¬after.deliverable.Has sig

/-- The activation flag is that of a thread in `sigwait_sys`. -/
def FlagOk (x : Signals T) : Prop :=
  ∀ t, x.active t = true → ∃ o m, (x.stack t).head? = some (.sigsuspend o (some m))

section
variable {x y : Signals T} {s : Sched T} {t u : T} {fs : List SigFrame} {m o b : BitVec 32}
  {sig : Fin 32} {past tr : List (Signals T × SigEvent T)} {e : SigEvent T}

-- ---------------------------------------------------------------------------
-- The activation flag
-- ---------------------------------------------------------------------------

@[simp] theorem setStack_active : (x.setStack fs).active t = x.active t := rfl

@[simp] theorem push_active {f : SigFrame} : (x.push f).active t = x.active t := rfl

@[simp] theorem answer_active {r : SigRet} : (x.answer r).active t = x.active t := rfl

theorem modify_active (x : Signals T) (g : Thread → Thread)
    (hg : ∀ th, (g th).activateOnSignal = th.activateOnSignal) :
    (x.modify g).active t = x.active t := by
  unfold active modify
  rw [Sched.modify_thread]
  split
  · rename_i ht
    rw [hg, ht]
  · rfl

theorem take_active : (x.take sig).active t = x.active t := by
  unfold take
  rw [answer_active]
  exact modify_active _ _ fun _ => rfl

theorem suspend_active {f : SigFrame} : (x.suspend f).active t = x.active t :=
  suspendThread_signals.2.2

theorem sigsuspendSys_active {mask sigwait : Option (BitVec 32)} :
    (x.sigsuspendSys mask sigwait).active t = x.active t := by
  unfold sigsuspendSys
  rw [suspend_active]
  exact modify_active _ _ fun _ => rfl

theorem pthreadKillSys_active {thread : Option T} {n : Int} :
    (x.pthreadKillSys thread n).active t = x.active t := (Gets.pthreadKillSys x t thread n).active

theorem pthreadSigmaskSys_active {how : Int} {set : Option (BitVec 32)} :
    (x.pthreadSigmaskSys how set).active t = x.active t := by
  have hmodify (g : Thread → Thread) (hg : ∀ th, (g th).activateOnSignal = th.activateOnSignal) :
      ((x.modify g).answer .ok).active t = x.active t := modify_active x g hg
  unfold pthreadSigmaskSys
  split
  · rfl
  · split
    · exact hmodify _ fun _ => rfl
    · split
      · exact hmodify _ fun _ => rfl
      · split
        · exact hmodify _ fun _ => rfl
        · rfl

theorem syscall_active {call : SigCall T} (hcall : ∀ m, call ≠ .sigwait (some m)) :
    (x.syscall call).active t = x.active t := by
  cases call with
  | kill thread n => exact pthreadKillSys_active
  | sigmask how set => exact pthreadSigmaskSys_active
  | sigsuspend mask => exact sigsuspendSys_active
  | sigwait set =>
    cases set with
    | none => rfl
    | some m => exact absurd rfl (hcall m)
  | sigaction n act =>
    show ((x.sigactionSys n act).sched.thread t).activateOnSignal = _
    rw [(sigactionSys_threads x n act).2]
    rfl
  | setcancelstate state => rfl
  | block => exact suspend_active
  | activate u => exact (Gets.activateThread x t u).active

theorem doSignals_active : x.doSignals.active t = x.active t := by
  unfold doSignals
  dsimp only
  split
  · simp [modify_active]
  · simp [modify_active]

theorem finishThread_active : ((s.finishThread u).thread t).activateOnSignal =
    (s.thread t).activateOnSignal := by
  by_cases h : t = u <;> simp [Sched.finishThread, Sched.modify_thread, Sched.removeSs_thread, h]

theorem runHandler_active {handler : SigHandler} :
    (x.runHandler handler).active t = x.active t := by
  cases handler with
  | sigDfl | sigIgn | wakeupThread | user => rfl
  | sleepThread => exact suspend_active
  | cancelThread => exact finishThread_active

theorem round_active {n : Nat} {p : BitVec 32} : (x.round n p m).active t = x.active t := by
  unfold round
  split
  · dsimp only
    split
    · simp [runHandler_active, modify_active]
    · simp [modify_active]
  · simp [modify_active]

theorem sigwaitSys_flag (h : x.active x.cur = false) :
    (x.sigwaitSys (some m)).active x.cur = false ∨
      (x.sigwaitSys (some m)).stack x.cur = .sigsuspend x.me.sigmask (some m) :: x.stack x.cur := by
  unfold sigwaitSys
  dsimp only
  split
  · rw [take_active]
    exact .inl h
  · refine .inr ?_
    have hstack := sigsuspendSys_self
      (x.modify fun th => { th with activateOnSignal := true }) (some m) (some m)
    rw [modify_me] at hstack
    exact hstack

theorem sigsuspendEnd_flag {w : Option (BitVec 32)}
    (h : w = none → x.active x.cur = false) : (x.sigsuspendEnd o w).active x.cur = false := by
  let z := x.modify fun th => { th with sigmask := o }
  have hz : z.active x.cur = x.active x.cur := modify_active x _ fun _ => rfl
  have hflag : (z.modify fun th => { th with activateOnSignal := false }).active x.cur = false :=
    congrArg Thread.activateOnSignal (modify_me z _)
  unfold sigsuspendEnd
  cases w with
  | none => exact hz.trans (h rfl)
  | some m =>
    dsimp only
    split
    · rw [take_active]
      exact hflag
    · exact hflag

omit [DecidableEq T] in
theorem FlagOk.userLevel (h : FlagOk x) (hu : x.userLevel = true) : x.active x.cur = false := by
  by_contra hactive
  obtain ⟨o, m, hhead⟩ := h x.cur (Bool.of_not_eq_false hactive)
  obtain ⟨fs, hstack⟩ := List.head?_eq_some_iff.mp hhead
  unfold Signals.userLevel at hu
  rw [hstack] at hu
  cases hu

theorem FlagOk.next (h : FlagOk x) (hs : x.next = some y) : y.active x.cur = false := by
  have hnone : (∀ o m, (x.stack x.cur).head? ≠ some (.sigsuspend o (some m))) →
      x.active x.cur = false := by
    intro hhead
    by_contra hactive
    obtain ⟨o, m, hm⟩ := h x.cur (Bool.of_not_eq_false hactive)
    exact hhead o m hm
  unfold Signals.next at hs
  split at hs
  · cases hs
  · rename_i o w fs hstack
    rw [← Option.some.inj hs]
    refine sigsuspendEnd_flag (x := x.setStack fs) ?_
    rintro rfl
    refine hnone fun o' m hm => ?_
    rw [hstack] at hm
    cases hm
  all_goals
    rename_i hstack
    have hflag := hnone fun o m hm => by rw [hstack] at hm; cases hm
    rw [← Option.some.inj hs]
  · exact hflag
  · exact hflag
  · exact doSignals_active.trans hflag
  · exact round_active.trans hflag
  · exact hflag

omit [DecidableEq T] in
theorem FlagOk.gets {b : BitVec 32} (h : FlagOk x) (hg : Gets t b x y) (hactive : y.active t = true) :
    ∃ o m, (y.stack t).head? = some (.sigsuspend o (some m)) := by
  rw [hg.active] at hactive
  rw [hg.stack]
  exact h t hactive

/-- A thread that calls `sigwait_sys` has the flag as long as it waits, and no other has. -/
theorem event_flagOk (h : FlagOk x) (hs : x.event e = some y) : FlagOk y := by
  intro t hactive
  by_cases ht : x.cur = t
  · subst ht
    cases e with
    | irq =>
      obtain ⟨hi, rfl⟩ := event_irq hs
      obtain ⟨o, m, hhead⟩ := h x.cur hactive
      obtain ⟨fs, hstack⟩ := List.head?_eq_some_iff.mp hhead
      unfold interruptible at hi
      rw [hstack] at hi
      cases hi
    | act a =>
      cases a with
      | timer u sig => exact h.gets (event_gets x.cur hs fun _ => .inl ⟨u, sig, rfl⟩) hactive
      | reschedule => exact h.gets (event_gets x.cur hs fun _ => .inr rfl) hactive
      | next =>
        rw [h.next (event_next hs)] at hactive
        cases hactive
      | call call =>
        obtain ⟨hu, rfl⟩ := event_call hs
        have hflag := h.userLevel hu
        by_cases hcall : ∃ m, call = .sigwait (some m)
        · obtain ⟨m, rfl⟩ := hcall
          rcases sigwaitSys_flag (x := x.push .gate) (m := m) hflag with hoff | hstack
          · exact absurd (hoff.symm.trans hactive) Bool.false_ne_true
          · exact ⟨_, m, List.head?_eq_some_iff.mpr ⟨_, hstack⟩⟩
        · rw [syscall_active fun m hm => hcall ⟨m, hm⟩, push_active, hflag] at hactive
          cases hactive
  · exact h.gets (event_gets t hs fun hcur => absurd hcur ht) hactive

omit [DecidableEq T] in
theorem start_flagOk {handler : Fin 32 → SigHandler} {saMask : Fin 32 → BitVec 32}
    {cancelState : T → Bool} (hs : ∀ t, (s.thread t).activateOnSignal = false) :
    FlagOk (start s handler saMask cancelState) :=
  fun t ht => absurd ((hs t).symm.trans ht) Bool.false_ne_true

-- ---------------------------------------------------------------------------
-- One call
-- ---------------------------------------------------------------------------

omit [DecidableEq T] in
theorem waited_has {i : Fin 32} (h : (x.waited m).Has i) : (x.pending x.cur).Has i ∧ m.Has i := by
  obtain ⟨hpending, hm⟩ := BitVec.has_and.mp h
  exact ⟨hpending, (BitVec.has_and.mp hm).1⟩

structure Takes (m : BitVec 32) (x y : Signals T) (sig : Fin 32) : Prop where
  mem : m.Has sig
  pending : (x.pending x.cur).Has sig
  cleared : y.pending x.cur = x.pending x.cur &&& ~~~sigBit sig
  cur : y.cur = x.cur

theorem takes_take (hfirst : (x.waited m).first = some sig) : Takes m x (x.take sig) sig where
  mem := (waited_has (BitVec.has_of_first hfirst)).2
  pending := (waited_has (BitVec.has_of_first hfirst)).1
  cleared := take_pending x sig
  cur := rfl

theorem take_ret (x : Signals T) (sig : Fin 32) : (x.take sig).ret x.cur = .signal sig :=
  Function.update_self ..

def awake (x : Signals T) (o : BitVec 32) : Signals T :=
  (x.modify fun th => { th with sigmask := o }).modify fun th => { th with activateOnSignal := false }

theorem sigsuspendEnd_some (h : ((x.awake o).waited m).first = some i) :
    x.sigsuspendEnd o (some m) = (x.awake o).take i := by
  unfold awake at h ⊢
  simp only [sigsuspendEnd, h]

theorem sigsuspendEnd_none (h : ((x.awake o).waited m).first = none) :
    x.sigsuspendEnd o (some m) = (x.awake o).answer (.fail .einval) := by
  unfold awake at h ⊢
  simp only [sigsuspendEnd, h]

theorem sigsuspendEnd_takes
    (h : (x.sigsuspendEnd o (some m)).ret x.cur = .signal sig) :
    Takes m x (x.sigsuspendEnd o (some m)) sig := by
  have hme : (x.awake o).me = { x.me with sigmask := o, activateOnSignal := false } :=
    (modify_me _ _).trans (by rw [modify_me])
  have hwaited : (x.awake o).waited m = x.waited m := by
    unfold waited
    rw [hme]
  have hpending := congrArg Thread.sigpending hme
  change (x.awake o).pending x.cur = x.pending x.cur at hpending
  cases hfirst : ((x.awake o).waited m).first with
  | none =>
    rw [sigsuspendEnd_none hfirst] at h
    have hret : ((x.awake o).answer (.fail .einval)).ret x.cur = .fail .einval :=
      Function.update_self ..
    exact absurd (hret.symm.trans h) (by simp)
  | some i =>
    rw [sigsuspendEnd_some hfirst] at h ⊢
    obtain rfl : i = sig := SigRet.signal.inj ((take_ret (x.awake o) i).symm.trans h)
    have htake := takes_take hfirst
    exact ⟨htake.mem, hpending ▸ htake.pending, hpending ▸ htake.cleared, htake.cur⟩

/-- The call of `t` waits, with what has been raised so far. -/
structure Waits (t : T) (o m : BitVec 32) (fs : List SigFrame) (b : BitVec 32)
    (past : List (Signals T × SigEvent T)) (x : Signals T) : Prop where
  stack : x.stack t = .sigsuspend o (some m) :: .gate :: fs
  pending : x.pending t = b ||| raisedIn t past
  quiet : ∀ d ∈ past, d.1.cur = t → d.1.delivery d.2 = none

theorem Waits.gets (h : Waits t o m fs b past x) (hg : Gets t (raised t e) x y)
    (he : x.cur = t → x.delivery e = none) : Waits t o m fs b ((x, e) :: past) y := by
  refine ⟨hg.stack.trans h.stack, ?_, List.forall_mem_cons.mpr ⟨he, h.quiet⟩⟩
  rw [hg.pending, h.pending, BitVec.or_assoc]
  rfl

def Returned (t : T) (m : BitVec 32) (before : Signals T) (past : List (Signals T × SigEvent T))
    (x : Signals T) : Prop :=
  x.stack t = .gate :: before.stack t ∧
    ∀ sig, x.ret t = .signal sig → Consumes t (some m) before past x sig

theorem Takes.consumes {before : Signals T} (h : Takes m x y sig)
    (hpending : x.pending x.cur = before.pending x.cur ||| raisedIn x.cur past)
    (hmask : y.mask x.cur = before.mask x.cur) (hactive : y.active x.cur = before.active x.cur)
    (hquiet : ∀ d ∈ past, d.1.cur = x.cur → d.1.delivery d.2 = none) :
    Consumes x.cur (some m) before past y sig where
  mem := ⟨m, rfl, h.mem⟩
  pending := hpending ▸ h.pending
  cleared := hpending ▸ h.cleared
  mask := hmask
  active := hactive
  quiet := hquiet
  next := by
    refine ⟨h.cur, fun hsig => ?_⟩
    have hhas : (y.pending y.cur).Has sig := by
      unfold deliverable at hsig
      dsimp only at hsig
      split at hsig
      · exact (BitVec.has_and.mp (BitVec.has_and.mp hsig).1).1
      · exact (BitVec.has_and.mp hsig).1
    rw [h.cur, h.cleared] at hhas
    exact BitVec.has_not.mp (BitVec.has_and.mp hhas).2 (has_sigBit.mpr rfl)

theorem Waits.event {before : Signals T} (hflag : before.active t = false)
    (h : Waits t (before.mask t) m (before.stack t) (before.pending t) past x)
    (hs : x.event e = some y) :
    Waits t (before.mask t) m (before.stack t) (before.pending t) ((x, e) :: past) y ∨
      Returned t m before ((x, e) :: past) y := by
  by_cases ht : x.cur = t
  · subst ht
    cases e with
    | irq =>
      have hi := (event_irq hs).1
      unfold interruptible at hi
      rw [h.stack] at hi
      cases hi
    | act a =>
      cases a with
      | call call =>
        have hu := (event_call hs).1
        unfold userLevel at hu
        rw [h.stack] at hu
        cases hu
      | timer u n =>
        exact .inl (h.gets (event_gets x.cur hs fun _ => .inl ⟨u, n, rfl⟩) fun _ => rfl)
      | reschedule => exact .inl (h.gets (event_gets x.cur hs fun _ => .inr rfl) fun _ => rfl)
      | next =>
        let z := x.setStack (.gate :: before.stack x.cur)
        have hy : z.sigsuspendEnd (before.mask x.cur) (some m) = y := by
          have hnext := event_next hs
          unfold Signals.next at hnext
          rw [h.stack] at hnext
          exact Option.some.inj hnext
        obtain ⟨hstack, hmask, -⟩ := sigsuspendEnd_signals z (before.mask x.cur) (some m)
        have hactive := sigsuspendEnd_flag (x := z) (o := before.mask x.cur) (w := some m) (by simp)
        rw [hy] at hstack hmask hactive
        refine .inr ⟨?_, fun sig hret => ?_⟩
        · rw [hstack]
          exact setStack_self x _
        · have htakes : Takes m z y sig := hy ▸ sigsuspendEnd_takes (hy ▸ hret)
          have hraised : raisedIn x.cur ((x, .act .next) :: past) = raisedIn x.cur past :=
            BitVec.or_zero
          refine htakes.consumes ?_ hmask (hactive.trans hflag.symm) ?_
          · exact h.pending.trans (congrArg (before.pending x.cur ||| ·) hraised.symm)
          · refine List.forall_mem_cons.mpr ⟨fun _ => ?_, h.quiet⟩
            unfold delivery
            dsimp only
            rw [h.stack]
  · refine .inl (h.gets (event_gets t hs fun hcur => absurd hcur ht) fun hcur => absurd hcur ht)

theorem sigwait_begins {before begun : Signals T}
    (hs : before.event (.act (.call (.sigwait (some m)))) = some begun) :
    Waits before.cur (before.mask before.cur) m (before.stack before.cur)
        (before.pending before.cur) [] begun ∨ Returned before.cur m before [] begun := by
  obtain ⟨-, rfl⟩ := event_call hs
  let z := before.push .gate
  have hz : z.stack z.cur = .gate :: before.stack before.cur := push_self before .gate
  have hnone : before.pending before.cur ||| raisedIn before.cur [] = before.pending before.cur :=
    BitVec.or_zero
  show Waits _ _ m _ _ [] (z.sigwaitSys (some m)) ∨ Returned _ m before [] (z.sigwaitSys (some m))
  unfold sigwaitSys
  cases hfirst : (z.waited m).first with
  | some i =>
    simp only [hfirst]
    refine .inr ⟨hz, fun sig hret => ?_⟩
    obtain rfl : i = sig := SigRet.signal.inj ((take_ret z i).symm.trans hret)
    have hmask : (z.take i).mask z.cur = z.mask z.cur :=
      modify_mask z fun th => { th with sigpending := th.sigpending &&& ~~~sigBit i }
    exact (takes_take hfirst).consumes hnone.symm hmask take_active (by simp)
  | none =>
    simp only [hfirst]
    let w := z.modify fun th => { th with activateOnSignal := true }
    have hme : w.me = { z.me with activateOnSignal := true } := modify_me z _
    have hstack := sigsuspendSys_self w (some m) (some m)
    have hpending := (sigsuspendSys_signals w (some m) (some m)).2.1
    rw [hme] at hstack hpending
    exact .inl ⟨hstack.trans (congrArg _ hz), hpending.trans hnone.symm, by simp⟩

end

end Signals

end Xmertl.Partikle
