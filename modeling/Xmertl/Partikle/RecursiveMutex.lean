import Xmertl.Partikle.Ownership

/-!
# Counting a recursive mutex

`outstanding log m` is how many acquisitions of `m`, by a lock, a trylock or on
the way back from a condition wait, its owner has not given back yet. The
counter of a recursive mutex is meant to be that number. When the first of them
was made by `pthread_mutex_trylock_sys`, which leaves the counter at 0, it is
one less.
-/

namespace Xmertl.Partikle

variable {T : Type}

def Event.acquires (m : Nat) : Event T → Bool
  | .acquire _ n => n = m
  | _ => false

def Event.releases (m : Nat) : Event T → Bool
  | .release _ n => n = m
  | _ => false

def Event.returns : Event T → Bool
  | .ret .. => true
  | _ => false

def outstanding (log : List (Event T)) (m : Nat) : Int :=
  log.countP (·.acquires m) - log.countP (·.releases m)

/-- The acquisition that ended the time in which `m` was free was a trylock's. -/
def openedByTrylock [DecidableEq T] (m : Nat) : List (Event T) → Bool
  | [] => false
  | .acquire t n :: log =>
    if n = m ∧ outstanding log m = 0 then log.head? = some (.call t (.mutexTrylock m))
    else openedByTrylock m log
  | _ :: log => openedByTrylock m log

/-- What the counter should be, and is but for the wraparound. -/
def counted [DecidableEq T] (log : List (Event T)) (m : Nat) : Int :=
  outstanding log m - if openedByTrylock m log then 1 else 0

section
variable {log l : List (Event T)} {e : Event T} {m : Nat}

@[simp] theorem outstanding_nil : outstanding ([] : List (Event T)) m = 0 := rfl

/-- Neither an acquisition nor a release of `m`. -/
def Event.Leaves (m : Nat) (e : Event T) : Prop := e.acquires m = false ∧ e.releases m = false

theorem Event.leaves_ret (h : e.returns = true) : e.Leaves m := by
  cases e <;> simp_all [Event.returns, Event.Leaves, Event.acquires, Event.releases]

theorem outstanding_cons (h : e.Leaves m) : outstanding (e :: log) m = outstanding log m := by
  simp [outstanding, h.1, h.2]

theorem outstanding_acquire (t : T) :
    outstanding (.acquire t m :: log) m = outstanding log m + 1 := by
  simp [outstanding, Event.acquires, Event.releases]
  omega

theorem outstanding_release (t : T) :
    outstanding (.release t m :: log) m = outstanding log m - 1 := by
  simp [outstanding, Event.acquires, Event.releases]
  omega

theorem outstanding_append (h : ∀ e ∈ l, e.Leaves m) :
    outstanding (l ++ log) m = outstanding log m := by
  induction l with
  | nil => rfl
  | cons e l ih =>
    rw [List.cons_append, outstanding_cons (h e List.mem_cons_self)]
    exact ih fun e he => h e (List.mem_cons_of_mem _ he)

variable [DecidableEq T]

theorem openedByTrylock_cons (h : e.Leaves m) :
    openedByTrylock m (e :: log) = openedByTrylock m log := by
  cases e with
  | acquire t n =>
    have hn : n ≠ m := by simpa [Event.acquires] using h.1
    simp [openedByTrylock, hn]
  | _ => rfl

theorem openedByTrylock_append (h : ∀ e ∈ l, e.Leaves m) :
    openedByTrylock m (l ++ log) = openedByTrylock m log := by
  induction l with
  | nil => rfl
  | cons e l ih =>
    rw [List.cons_append, openedByTrylock_cons (h e List.mem_cons_self)]
    exact ih fun e he => h e (List.mem_cons_of_mem _ he)

theorem counted_append (h : ∀ e ∈ l, e.Leaves m) : counted (l ++ log) m = counted log m := by
  rw [counted, outstanding_append h, openedByTrylock_append h, counted]

theorem counted_first (t : T) (h : outstanding log m = 0) : counted (.acquire t m :: log) m =
    if log.head? = some (.call t (.mutexTrylock m)) then 0 else 1 := by
  simp only [counted, outstanding_acquire, openedByTrylock, h, and_self, ↓reduceIte,
    decide_eq_true_eq]
  split <;> rfl

theorem counted_again (t : T) (h : outstanding log m ≠ 0) :
    counted (.acquire t m :: log) m = counted log m + 1 := by
  simp only [counted, outstanding_acquire, openedByTrylock, h, and_false, ↓reduceIte]
  split <;> omega

theorem counted_release (t : T) : counted (.release t m :: log) m = counted log m - 1 := by
  have hopened : openedByTrylock m (.release t m :: log) = openedByTrylock m log := rfl
  simp only [counted, outstanding_release, hopened]
  split <;> omega

end

namespace Kernel

variable [DecidableEq T]

-- ---------------------------------------------------------------------------
-- What a call does to the mutexes
-- ---------------------------------------------------------------------------

variable {k k₁ k' : Kernel T} {m : Nat}

/-- The mutexes are as before, and what is new in the log are returns. -/
structure Quiet (k k' : Kernel T) : Prop where
  mutex : k'.mutex = k.mutex
  log : ∃ l, k'.log = l ++ k.log ∧ ∀ e ∈ l, e.returns = true

/-- What a thread does to `m` in a lock call; `first` is the counter it sets when the
mutex is free. -/
inductive LockEffect (m : Nat) (first : Int) (k k' : Kernel T) : Prop
  | none : Quiet k k' → LockEffect m first k k'
  | own : (k.mutex m).owner = .none → Quiet (k.setOwner m first) k' → LockEffect m first k k'
  | again : (k.mutex m).owner = some k.cur → (k.mutex m).attr.type = .recursive →
      Quiet ((k.record (.acquire k.cur m)).setCounter m (int32 ((k.mutex m).counter + 1))) k' →
      LockEffect m first k k'

/-- What a thread does to `m` in an unlock call. -/
inductive UnlockEffect (m : Nat) (k k' : Kernel T) : Prop
  | none : (k.mutex m).owner ≠ some k.cur → Quiet k k' → UnlockEffect m k k'
  | countdown : (k.mutex m).owner = some k.cur → (k.mutex m).attr.type = .recursive →
      0 < int32 ((k.mutex m).counter - 1) →
      Quiet ((k.record (.release k.cur m)).setCounter m (int32 ((k.mutex m).counter - 1))) k' →
      UnlockEffect m k k'
  | disown : (k.mutex m).owner = some k.cur →
      ¬((k.mutex m).attr.type = .recursive ∧ 0 < int32 ((k.mutex m).counter - 1)) →
      Quiet (k.clearOwner m) k' → UnlockEffect m k k'

omit [DecidableEq T] in
theorem Quiet.refl (k : Kernel T) : Quiet k k := ⟨rfl, [], rfl, by simp⟩

omit [DecidableEq T] in
theorem Quiet.of_eq (hm : k'.mutex = k.mutex) (hl : k'.log = k.log) : Quiet k k' :=
  ⟨hm, [], hl, by simp⟩

omit [DecidableEq T] in
theorem Quiet.trans (h : Quiet k k₁) (h' : Quiet k₁ k') : Quiet k k' := by
  obtain ⟨hm, l, hl, hr⟩ := h
  obtain ⟨hm', l', hl', hr'⟩ := h'
  refine ⟨hm'.trans hm, l' ++ l, by rw [hl', hl, List.append_assoc], fun e he => ?_⟩
  rcases List.mem_append.mp he with he | he
  · exact hr' e he
  · exact hr e he

theorem ret_quiet (k : Kernel T) : Quiet k (k.ret c r) :=
  ⟨rfl, [.ret k.cur c r], rfl, by simp [Event.returns]⟩

theorem lockReturn_quiet (k : Kernel T) : Quiet k (k.lockReturn env m caller r) := by
  cases caller <;> exact ret_quiet k

theorem unlockReturn_quiet (k : Kernel T) : Quiet k (k.unlockReturn env m caller r) := by
  cases caller with
  | unlock => exact ret_quiet k
  | condWait c => exact .of_eq rfl rfl
  | condTimedwait c abstime d =>
    have hf := updateHwtimer_frame ((k.insertPthreadList .cond c k.cur).armTimer.suspendThread
      (k.insertPthreadList .cond c k.cur).armTimer.cur) env
    exact .of_eq hf.mutex hf.log

theorem takeMutex_quiet (k : Kernel T) : Quiet (k.setOwner m n) (k.takeMutex env m n caller) := by
  unfold takeMutex
  split
  · exact .of_eq rfl rfl
  · exact lockReturn_quiet _

theorem mutexLockSys_effect (k : Kernel T) : LockEffect m 1 k (k.mutexLockSys env m caller) := by
  have hwait : Quiet k (((k.suspendThread k.cur).insertPthreadList .mutex m k.cur).scheduling
      (.mutexLock m caller)) := .of_eq rfl rfl
  unfold mutexLockSys
  simp only
  split
  · rename_i ho
    exact .own ho (takeMutex_quiet k)
  · rename_i owner ho
    split
    · rename_i hcur
      split
      · exact .none (lockReturn_quiet k)
      · rename_i ht
        exact .again (hcur ▸ ho) ht (lockReturn_quiet _)
      · exact .none hwait
    · exact .none hwait

theorem mutexTrylockSys_effect (k : Kernel T) :
    LockEffect m (k.mutex m).counter k (k.mutexTrylockSys env m) := by
  unfold mutexTrylockSys
  split
  · rename_i ho
    exact .own ho (takeMutex_quiet k)
  · rename_i owner ho
    split
    · rename_i h
      exact .again (h.1 ▸ ho) h.2 (lockReturn_quiet _)
    · exact .none (lockReturn_quiet k)

theorem mutexTrylockSys_log (k : Kernel T) (env : Env T) (m : Nat) :
    ∃ e, (∀ t c, e ≠ .call t c) ∧ (k.mutexTrylockSys env m).log.head? = some e := by
  unfold mutexTrylockSys
  split
  · unfold takeMutex
    split
    · exact ⟨.acquire k.cur m, by simp, by simp⟩
    · exact ⟨.ret (k.setOwner m (k.mutex m).counter).cur (.mutexTrylock m) .ok, by simp, rfl⟩
  · split
    · exact ⟨.ret k.cur (.mutexTrylock m) .ok, by simp, rfl⟩
    · exact ⟨.ret k.cur (.mutexTrylock m) (.fail .ebusy), by simp, rfl⟩

variable [Fintype T]

theorem mutexUnlockSys_effect (k : Kernel T) :
    UnlockEffect m k (k.mutexUnlockSys env m caller) := by
  unfold mutexUnlockSys
  simp only
  split
  · rename_i ho
    exact .none (by simp [ho]) (unlockReturn_quiet k)
  · rename_i owner ho
    split
    · rename_i hcur
      split
      · rename_i h
        exact .countdown (hcur ▸ ho) h.1 h.2 (unlockReturn_quiet _)
      · rename_i hlast
        have hf : WakeFrame k (k.wakeThreads .mutex m) := wakeAll_frame _ _ _ _
        have hwake : Quiet (k.clearOwner m) ((k.wakeThreads .mutex m).clearOwner m) := by
          refine .of_eq ?_ ?_
          · rw [clearOwner_mutex, clearOwner_mutex, hf.mutex]
          · rw [(clearOwner_rest _).2.2.2.1, (clearOwner_rest _).2.2.2.1, hf.cur, hf.log]
        refine .disown (hcur ▸ ho) hlast (hwake.trans ?_)
        unfold releaseMutex
        simp only
        split
        · exact .of_eq rfl rfl
        · exact unlockReturn_quiet _
    · rename_i hcur
      exact .none (by simp [ho, hcur]) (unlockReturn_quiet k)

-- ---------------------------------------------------------------------------
-- One step
-- ---------------------------------------------------------------------------

def begin (k : Kernel T) : Action T → Kernel T
  | .call c _ => k.record (.call k.cur c)
  | .resume _ => k.leave
  | .interrupt _ => k

/-- The counter of `m` when this step takes it while it is free. -/
def first (k : Kernel T) (m : Nat) : Action T → Int
  | .call (.mutexTrylock _) _ => (k.mutex m).counter
  | _ => 1

omit [Fintype T] in
theorem Move.quiet (h : Move k₀ w k k') (hl : w.locks = none) (hu : w.unlocks = none) :
    Quiet k k' := by
  cases h with
  | own h => simp [hl] at h
  | again h => simp [hl] at h
  | countdown h => simp [hu] at h
  | disown h => simp [hu] at h
  | @kill t sig =>
    have hf := pthreadKill_frame k t sig
    exact .of_eq hf.mutex hf.log
  | _ => exact .of_eq rfl rfl

omit [Fintype T] in
theorem Moves.quiet (h : Moves k₀ w k k') (hl : w.locks = none) (hu : w.unlocks = none) :
    Quiet k k' := by
  induction h with
  | refl => exact .refl k
  | tail _ hm ih => exact ih.trans (hm.quiet hl hu)

omit [Fintype T] in
theorem Exit.quiet (h : Exit w k k') : Quiet k k' := by
  cases h with
  | ret => exact ret_quiet k
  | scheduling => exact .of_eq rfl rfl
  | block => exact .of_eq rfl rfl
  | @sleep κ o env =>
    have hf :=
      updateHwtimer_frame ((k.insertPthreadList κ o k.cur).armTimer.suspendThread k.cur) env
    exact .of_eq hf.mutex hf.log
  | suspend => exact .of_eq rfl rfl

theorem step_quiet (hs : k.step a = some k') (hl : (k.scope a).locks = none)
    (hu : (k.scope a).unlocks = none) : Quiet (k.begin a) k' := by
  cases step_shape hs with
  | call _ _ hmoves he => exact (hmoves.quiet hl hu).trans he.quiet
  | resume _ hmoves he => exact (hmoves.quiet hl hu).trans he.quiet
  | @interrupt env =>
    have hf := updateHwtimer_frame k env
    exact .of_eq hf.mutex hf.log

theorem step_locks (hs : k.step a = some k') (hl : (k.scope a).locks = some m) :
    LockEffect m (k.first m a) (k.begin a) k' := by
  cases a with
  | interrupt env => cases hl
  | call c env =>
    simp only [Kernel.step, Option.ite_none_right_eq_some, Option.some.injEq] at hs
    obtain ⟨-, rfl⟩ := hs
    cases c with
    | mutexLock n =>
      obtain rfl := Option.some.inj hl
      exact mutexLockSys_effect _
    | mutexTrylock n =>
      obtain rfl := Option.some.inj hl
      exact mutexTrylockSys_effect (k.record _)
    | _ => cases hl
  | resume env =>
    simp only [Kernel.step, Option.ite_none_left_eq_some, Option.some.injEq] at hs
    obtain ⟨-, rfl⟩ := hs
    unfold resume
    simp only [scope] at hl
    cases hpc : k.pc k.cur with
    | mutexLock n caller =>
      obtain rfl : n = m := by simpa [hpc, Pc.locks] using hl
      rw [begin, leave_untimed k (by simp [hpc, Pc.timed])]
      exact mutexLockSys_effect _
    | condWait c n =>
      obtain rfl : n = m := by simpa [hpc, Pc.locks] using hl
      rw [begin, leave_untimed k (by simp [hpc, Pc.timed])]
      exact mutexLockSys_effect _
    | condTimedwait c n abstime d =>
      obtain rfl : n = m := by simpa [hpc, Pc.locks] using hl
      have hleave : k.leave = k.removePthreadList .cond c k.cur := by simp [leave, hpc]
      rw [begin, hleave]
      exact mutexLockSys_effect _
    | _ => simp [hpc, Pc.locks] at hl

theorem step_unlocks (hs : k.step a = some k') (hu : (k.scope a).unlocks = some m) :
    UnlockEffect m (k.begin a) k' := by
  cases a with
  | interrupt env => cases hu
  | resume env => cases hu
  | call c env =>
    simp only [Kernel.step, Option.ite_none_right_eq_some, Option.some.injEq] at hs
    obtain ⟨-, rfl⟩ := hs
    cases c with
    | mutexUnlock n =>
      obtain rfl := Option.some.inj hu
      exact mutexUnlockSys_effect (k.record _)
    | condWait c n =>
      cases c <;> cases n <;> try cases hu
      rename_i c
      change UnlockEffect m _ (condWaitSys _ env (some c) (some m))
      unfold condWaitSys
      simp only
      split
      · exact mutexUnlockSys_effect (k.record _)
      · rename_i ho
        exact .none ho (ret_quiet _)
    | condTimedwait c n abstime =>
      cases c <;> cases n <;> cases abstime <;> try cases hu
      rename_i c abstime
      change UnlockEffect m _ (condTimedwaitSys _ env (some c) (some m) (some abstime))
      unfold condTimedwaitSys
      simp only
      split
      · exact mutexUnlockSys_effect (k.record _)
      · rename_i ho
        exact .none ho (ret_quiet _)
    | _ => cases hu

-- ---------------------------------------------------------------------------
-- The counter over a run
-- ---------------------------------------------------------------------------

/-- The mutex is free exactly when every acquisition has been given back. -/
def FreeWhenEven (k : Kernel T) (m : Nat) : Prop :=
  (k.mutex m).owner = none ↔ outstanding k.log m = 0

structure CountOk (k : Kernel T) (m : Nat) : Prop where
  type : (k.mutex m).attr.type = .recursive
  free : (k.mutex m).owner = none → (k.mutex m).counter = 0 ∧ outstanding k.log m = 0
  taken : (k.mutex m).owner ≠ none →
    1 ≤ outstanding k.log m ∧ (k.mutex m).counter = int32 (counted k.log m)

/-- An unlock by the owner finds one acquisition, or a counter that stays positive:
with fewer than 2 ^ 31 acquisitions, not two of which a trylock made the first
(`unlocksRight_iff`). -/
def UnlocksRight (m : Nat) (k : Kernel T) (a : Action T) : Prop :=
  (k.scope a).unlocks = some m → (k.mutex m).owner = some k.cur →
    outstanding k.log m = 1 ∨ 0 < int32 (counted k.log m - 1)

def NoTry (k : Kernel T) : Prop := ∀ t m, k.log.head? ≠ some (.call t (.mutexTrylock m))

omit [Fintype T] in
theorem CountOk.freeWhenEven (h : CountOk k m) : FreeWhenEven k m := by
  constructor
  · intro ho
    exact (h.free ho).2
  · intro heven
    by_contra ho
    have hpos := (h.taken ho).1
    omega

omit [Fintype T] in
theorem CountOk.congr (h : CountOk k m) (hm : k'.mutex m = k.mutex m)
    (hlog : ∃ l, k'.log = l ++ k.log ∧ ∀ e ∈ l, e.Leaves m) : CountOk k' m := by
  obtain ⟨l, hl, hleaves⟩ := hlog
  have hout : outstanding k'.log m = outstanding k.log m := by rw [hl, outstanding_append hleaves]
  have hcount : counted k'.log m = counted k.log m := by rw [hl, counted_append hleaves]
  refine ⟨hm ▸ h.type, fun ho => ?_, fun ho => ?_⟩
  · rw [hm] at ho ⊢
    rw [hout]
    exact h.free ho
  · rw [hm] at ho ⊢
    rw [hout, hcount]
    exact h.taken ho

omit [Fintype T] in
theorem CountOk.quiet (h : CountOk k m) (hq : Quiet k k') : CountOk k' m := by
  obtain ⟨l, hl, hr⟩ := hq.log
  exact h.congr (congrFun hq.mutex m) ⟨l, hl, fun e he => e.leaves_ret (hr e he)⟩

omit [DecidableEq T] [Fintype T] in
theorem Quiet.freeWhenEven (h : Quiet k k') : FreeWhenEven k' m ↔ FreeWhenEven k m := by
  obtain ⟨l, hl, hr⟩ := h.log
  rw [FreeWhenEven, FreeWhenEven, h.mutex, hl,
    outstanding_append fun e he => e.leaves_ret (hr e he)]

omit [Fintype T] in
theorem begin_rest (k : Kernel T) (a : Action T) :
    (k.begin a).mutex = k.mutex ∧ (k.begin a).cur = k.cur := by
  cases a with
  | resume => exact ⟨(leave_rest k).2.2.2.1, (leave_rest k).2.2.2.2.2.1⟩
  | _ => exact ⟨rfl, rfl⟩

omit [Fintype T] in
theorem begin_log (k : Kernel T) (a : Action T) :
    ∃ l, (k.begin a).log = l ++ k.log ∧ ∀ e ∈ l, ∀ m, e.Leaves m := by
  cases a with
  | call c env =>
    refine ⟨[.call k.cur c], rfl, fun e he m => ?_⟩
    obtain rfl := List.mem_singleton.mp he
    exact ⟨rfl, rfl⟩
  | resume => exact ⟨[], (leave_rest k).2.2.2.2.1, by simp⟩
  | interrupt => exact ⟨[], rfl, by simp⟩

omit [Fintype T] in
theorem CountOk.begin (h : CountOk k m) (a : Action T) : CountOk (k.begin a) m := by
  obtain ⟨l, hl, hleaves⟩ := begin_log k a
  exact h.congr (congrFun (begin_rest k a).1 m) ⟨l, hl, fun e he => hleaves e he m⟩

omit [Fintype T] in
theorem begin_outstanding (k : Kernel T) (a : Action T) :
    outstanding (k.begin a).log m = outstanding k.log m ∧
      counted (k.begin a).log m = counted k.log m := by
  obtain ⟨l, hl, hleaves⟩ := begin_log k a
  rw [hl]
  exact ⟨outstanding_append fun e he => hleaves e he m, counted_append fun e he => hleaves e he m⟩

omit [Fintype T] in
theorem first_eq (hn : NoTry k) (hl : (k.scope a).locks = some m) (hc : (k.mutex m).counter = 0) :
    k.first m a = if (k.begin a).log.head? = some (.call (k.begin a).cur (.mutexTrylock m))
      then 0 else 1 := by
  cases a with
  | interrupt env => cases hl
  | resume env =>
    have hlog : (k.begin (.resume env)).log = k.log := (leave_rest k).2.2.2.2.1
    rw [hlog, if_neg (hn _ m)]
    rfl
  | call c env =>
    cases c with
    | mutexTrylock n =>
      obtain rfl := Option.some.inj hl
      simp [first, begin, hc]
    | mutexLock n => simp [first, begin]
    | _ => cases hl

omit [Fintype T] in
theorem CountOk.own (h : CountOk k m) (ho : (k.mutex m).owner = none)
    (hn : n = if k.log.head? = some (.call k.cur (.mutexTrylock m)) then 0 else 1) :
    CountOk (k.setOwner m n) m := by
  have heven : outstanding k.log m = 0 := (h.free ho).2
  refine ⟨?_, fun hfree => ?_, fun _ => ?_⟩
  · simp [setOwner_mutex, h.type]
  · simp [setOwner_mutex] at hfree
  · rw [(setOwner_rest k).2.2.2.1, outstanding_acquire, counted_first _ heven, ← hn]
    refine ⟨by omega, ?_⟩
    simp only [setOwner_mutex, Function.update_self, Mutex.takenBy_counter]
    rw [hn]
    split <;> rfl

omit [Fintype T] in
theorem CountOk.own_other (h : CountOk k m) (hne : m ≠ n) : CountOk (k.setOwner n x) m :=
  h.congr (by simp [setOwner_mutex, hne]) ⟨[.acquire k.cur n], (setOwner_rest k).2.2.2.1, by
    simp [Event.Leaves, Event.acquires, Event.releases, hne.symm]⟩

omit [DecidableEq T] [Fintype T] in
theorem int32_add (x d : Int) : int32 (int32 x + d) = int32 (x + d) := by
  simp [int32]

omit [DecidableEq T] [Fintype T] in
theorem int32_sub (x d : Int) : int32 (int32 x - d) = int32 (x - d) := by
  simp [int32]

omit [Fintype T] in
theorem CountOk.again (h : CountOk k m) (ho : (k.mutex m).owner = some k.cur) :
    CountOk ((k.record (.acquire k.cur m)).setCounter m (int32 ((k.mutex m).counter + 1))) m := by
  obtain ⟨hpos, hcounter⟩ := h.taken (by simp [ho])
  refine ⟨by simp [h.type], fun hfree => ?_, fun _ => ?_⟩
  · simp [ho] at hfree
  · simp only [setCounter_mutex, setCounter_rest, record_rest, Function.update_self]
    rw [outstanding_acquire, counted_again _ (by omega), hcounter, int32_add]
    exact ⟨by omega, rfl⟩

omit [Fintype T] in
theorem CountOk.countdown (h : CountOk k m) (ho : (k.mutex m).owner = some k.cur)
    (hmore : 2 ≤ outstanding k.log m) :
    CountOk ((k.record (.release k.cur m)).setCounter m (int32 ((k.mutex m).counter - 1))) m := by
  obtain ⟨-, hcounter⟩ := h.taken (by simp [ho])
  refine ⟨by simp [h.type], fun hfree => ?_, fun _ => ?_⟩
  · simp [ho] at hfree
  · simp only [setCounter_mutex, setCounter_rest, record_rest, Function.update_self]
    rw [outstanding_release, counted_release, hcounter, int32_sub]
    exact ⟨by omega, rfl⟩

omit [Fintype T] in
theorem CountOk.disown (h : CountOk k m) (hone : outstanding k.log m = 1) :
    CountOk (k.clearOwner m) m := by
  refine ⟨by simp [clearOwner_mutex, h.type], fun _ => ?_, fun hne => ?_⟩
  · rw [(clearOwner_rest k).2.2.2.1, outstanding_release, hone]
    simp [clearOwner_mutex]
  · simp [clearOwner_mutex] at hne

omit [Fintype T] in
theorem not_counted_last (hone : outstanding k.log m = 1) : ¬0 < int32 (counted k.log m - 1) := by
  rw [counted, hone]
  split <;> decide

omit [Fintype T] in
theorem CountOk.lock {x : Int} (h : CountOk k m) (he : LockEffect n x k k')
    (hfirst : n = m → (k.mutex m).owner = none →
      x = if k.log.head? = some (.call k.cur (.mutexTrylock m)) then 0 else 1) :
    CountOk k' m := by
  by_cases hne : n = m
  · subst hne
    cases he with
    | none hq => exact h.quiet hq
    | own ho hq => exact (h.own ho (hfirst rfl ho)).quiet hq
    | again ho _ hq => exact (h.again ho).quiet hq
  · cases he with
    | none hq => exact h.quiet hq
    | own _ hq => exact (h.own_other (Ne.symm hne)).quiet hq
    | again _ _ hq =>
      refine (h.congr (by simp [Ne.symm hne]) ⟨[.acquire k.cur n], rfl, ?_⟩).quiet hq
      simp [Event.Leaves, Event.acquires, Event.releases, hne]

omit [Fintype T] in
theorem CountOk.unlock_other (h : CountOk k m) (he : UnlockEffect n k k') (hne : n ≠ m) :
    CountOk k' m := by
  have hleaves : ∀ e ∈ [Event.release k.cur n], e.Leaves m := by
    simp [Event.Leaves, Event.acquires, Event.releases, hne]
  cases he with
  | none _ hq => exact h.quiet hq
  | countdown _ _ _ hq =>
    exact (h.congr (by simp [Ne.symm hne]) ⟨[.release k.cur n], rfl, hleaves⟩).quiet hq
  | disown _ _ hq =>
    refine (h.congr (by simp [clearOwner_mutex, Ne.symm hne]) ⟨[.release k.cur n], ?_, hleaves⟩).quiet
      hq
    exact (clearOwner_rest k).2.2.2.1

omit [Fintype T] in
/-- An unlock keeps the count exactly when it finds one acquisition, or a counter that
stays positive. -/
theorem CountOk.unlock (h : CountOk k m) (he : UnlockEffect m k k') :
    (((k.mutex m).owner = some k.cur →
        outstanding k.log m = 1 ∨ 0 < int32 (counted k.log m - 1)) → CountOk k' m) ∧
      (¬((k.mutex m).owner = some k.cur →
        outstanding k.log m = 1 ∨ 0 < int32 (counted k.log m - 1)) → ¬FreeWhenEven k' m) := by
  have hcounter (ho : (k.mutex m).owner = some k.cur) :
      int32 ((k.mutex m).counter - 1) = int32 (counted k.log m - 1) := by
    rw [(h.taken (by simp [ho])).2, int32_sub]
  cases he with
  | none ho hq => exact ⟨fun _ => h.quiet hq, fun hc => absurd (fun h => absurd h ho) hc⟩
  | countdown ho _ hpos hq =>
    rw [hcounter ho] at hpos
    have hmore : 2 ≤ outstanding k.log m := by
      have hone := (h.taken (by simp [ho])).1
      by_contra hless
      exact not_counted_last (by omega) hpos
    exact ⟨fun _ => (h.countdown ho hmore).quiet hq, fun hc => absurd (fun _ => .inr hpos) hc⟩
  | disown ho hlast hq =>
    have hnot : ¬0 < int32 (counted k.log m - 1) := by
      rw [← hcounter ho]
      exact fun hpos => hlast ⟨h.type, hpos⟩
    refine ⟨fun hc => (h.disown ((hc ho).resolve_right hnot)).quiet hq, fun hc hfree => ?_⟩
    have hone : outstanding k.log m ≠ 1 := fun hone => hc fun _ => .inl hone
    have heven := (hq.freeWhenEven.mp hfree).mp (by simp [clearOwner_mutex])
    rw [(clearOwner_rest k).2.2.2.1, outstanding_release] at heven
    exact hone (by omega)

theorem CountOk.step (h : CountOk k m) (hn : NoTry k) (hs : k.step a = some k') :
    (UnlocksRight m k a → CountOk k' m) ∧ (¬UnlocksRight m k a → ¬FreeWhenEven k' m) := by
  have hb : CountOk (k.begin a) m := h.begin a
  obtain ⟨hmutex, hcur⟩ := begin_rest k a
  cases hu : (k.scope a).unlocks with
  | none =>
    have hright : UnlocksRight m k a := by
      intro hm
      rw [hu] at hm
      cases hm
    refine ⟨fun _ => ?_, fun hc => absurd hright hc⟩
    cases hl : (k.scope a).locks with
    | none => exact hb.quiet (step_quiet hs hl hu)
    | some n =>
      refine hb.lock (step_locks hs hl) ?_
      rintro rfl ho
      rw [hmutex] at ho
      exact first_eq hn hl (h.free ho).1
  | some n =>
    have he := step_unlocks hs hu
    by_cases hne : n = m
    · subst hne
      obtain ⟨hout, hcount⟩ := begin_outstanding (m := n) k a
      have hboth := hb.unlock he
      rw [hmutex, hcur, hout, hcount] at hboth
      have hright : UnlocksRight n k a ↔ ((k.mutex n).owner = some k.cur →
          outstanding k.log n = 1 ∨ 0 < int32 (counted k.log n - 1)) :=
        ⟨fun hc => hc hu, fun hc _ => hc⟩
      rwa [hright]
    · refine ⟨fun _ => hb.unlock_other he hne, fun hc => absurd ?_ hc⟩
      intro hm
      rw [hu, Option.some.injEq] at hm
      exact absurd hm hne

-- ---------------------------------------------------------------------------
-- The log's newest event
-- ---------------------------------------------------------------------------

def NoCall (k k' : Kernel T) : Prop :=
  ∃ l, k'.log = l ++ k.log ∧ ∀ e ∈ l, ∀ t c, e ≠ .call t c

omit [DecidableEq T] [Fintype T] in
theorem NoCall.trans (h : NoCall k k₁) (h' : NoCall k₁ k') : NoCall k k' := by
  obtain ⟨l, hl, hne⟩ := h
  obtain ⟨l', hl', hne'⟩ := h'
  refine ⟨l' ++ l, by rw [hl', hl, List.append_assoc], fun e he => ?_⟩
  rcases List.mem_append.mp he with he | he
  · exact hne' e he
  · exact hne e he

omit [DecidableEq T] [Fintype T] in
theorem Quiet.noCall (h : Quiet k k') : NoCall k k' := by
  obtain ⟨l, hl, hr⟩ := h.log
  refine ⟨l, hl, ?_⟩
  rintro _ he t c rfl
  exact absurd (hr _ he) (by simp [Event.returns])

omit [Fintype T] in
theorem Move.noCall (h : Move k₀ w k k') : NoCall k k' := by
  have hone {e : Event T} (hlog : k'.log = e :: k.log) (he : ∀ t c, e ≠ .call t c) :
      NoCall k k' := ⟨[e], hlog, by simpa using he⟩
  have hnone (hlog : k'.log = k.log) : NoCall k k' := ⟨[], hlog, by simp⟩
  cases h with
  | own => exact hone (setOwner_rest k).2.2.2.1 (by simp)
  | again => exact hone rfl (by simp)
  | countdown => exact hone rfl (by simp)
  | disown => exact hone (clearOwner_rest k).2.2.2.1 (by simp)
  | kill => exact hnone (pthreadKill_frame _ _ _).log
  | _ => exact hnone rfl

omit [Fintype T] in
theorem Moves.noCall (h : Moves k₀ w k k') : NoCall k k' := by
  induction h with
  | refl => exact ⟨[], rfl, by simp⟩
  | tail _ hm ih => exact ih.trans hm.noCall

theorem step_noCall (hs : k.step a = some k') : NoCall (k.begin a) k' := by
  cases step_shape hs with
  | call _ _ hm he => exact hm.noCall.trans he.quiet.noCall
  | resume _ hm he => exact hm.noCall.trans he.quiet.noCall
  | @interrupt env => exact ⟨[], (updateHwtimer_frame k env).log, by simp⟩

theorem NoTry.step (h : NoTry k) (hs : k.step a = some k') : NoTry k' := by
  have hgrows : (∀ t m, (k.begin a).log.head? ≠ some (.call t (.mutexTrylock m))) → NoTry k' := by
    obtain ⟨l, hl, hne⟩ := step_noCall hs
    intro hb t m
    rw [hl]
    cases l with
    | nil => exact hb t m
    | cons e l =>
      rw [List.cons_append, List.head?_cons]
      exact fun he => hne e List.mem_cons_self _ _ (Option.some.inj he)
  cases a with
  | resume env =>
    refine hgrows fun t m => ?_
    rw [show (k.begin (.resume env)).log = k.log from (leave_rest k).2.2.2.2.1]
    exact h t m
  | interrupt env => exact hgrows h
  | call c env =>
    by_cases hc : ∃ m, c = .mutexTrylock m
    · obtain ⟨m, rfl⟩ := hc
      simp only [Kernel.step, Option.ite_none_right_eq_some, Option.some.injEq] at hs
      obtain ⟨-, rfl⟩ := hs
      obtain ⟨e, hne, hhead⟩ :=
        mutexTrylockSys_log (k.record (.call k.cur (.mutexTrylock m))) env m
      intro t n
      rw [show ((k.record (.call k.cur (.mutexTrylock m))).enter env (.mutexTrylock m)).log.head? =
        some e from hhead]
      exact fun he => hne _ _ (Option.some.inj he)
    · refine hgrows fun t m he => hc ⟨m, ?_⟩
      simp only [begin, record_rest, List.head?_cons, Option.some.injEq, Event.call.injEq] at he
      exact he.2

-- ---------------------------------------------------------------------------
-- Whole runs
-- ---------------------------------------------------------------------------

omit [Fintype T] in
theorem boot_countOk (c : Config T) (htype : (c.attr m).type = .recursive) :
    CountOk (boot c) m := ⟨htype, fun _ => ⟨rfl, rfl⟩, fun ho => absurd rfl ho⟩

omit [Fintype T] in
theorem unlocksRight_iff (hpos : 1 ≤ outstanding k.log m)
    (hsmall : outstanding k.log m ≤ 2147483648) (hu : (k.scope a).unlocks = some m)
    (ho : (k.mutex m).owner = some k.cur) : UnlocksRight m k a ↔
      ¬(outstanding k.log m = 2 ∧ openedByTrylock m k.log = true) := by
  have hcases : UnlocksRight m k a ↔
      outstanding k.log m = 1 ∨ 0 < int32 (counted k.log m - 1) :=
    ⟨fun h => h hu ho, fun h _ _ => h⟩
  rw [hcases, counted]
  by_cases hopened : openedByTrylock m k.log = true
  · simp only [hopened, ↓reduceIte, and_true]
    rw [int32_eq (by omega) (by omega)]
    omega
  · simp only [hopened, Bool.false_eq_true, ↓reduceIte, and_false, not_false_eq_true, iff_true]
    rw [int32_eq (by omega) (by omega)]
    omega

/-- A recursive mutex is free exactly when all acquisitions have been given back, in
every state of the runs whose unlocks are right. -/
theorem recursive_mutex_counts {c : Config T} {tr : List (Kernel T × Action T)} {k : Kernel T}
    (hr : Runs.Run step (boot c) tr k) (m : Nat) (htype : (c.attr m).type = .recursive) :
    (∀ x, Runs.Visited tr k x → FreeWhenEven x m) ↔ ∀ e ∈ tr, UnlocksRight m e.1 e.2 := by
  refine hr.visited_iff_first (I := fun k => CountOk k m ∧ NoTry k)
    ⟨boot_countOk c htype, fun t n => by simp [boot]⟩ (fun _ h => h.1.freeWhenEven) ?_
  rintro k a k' ⟨hok, hn⟩ hs
  exact ⟨fun hc => ⟨(hok.step hn hs).1 hc, hn.step hs⟩, (hok.step hn hs).2⟩

end Kernel

-- ---------------------------------------------------------------------------
-- A lock on top of a trylock
-- ---------------------------------------------------------------------------

/-- Two locks and a trylock, and as many unlocks. -/
def lockedTwice : List (Action (Fin 3)) :=
  [.call (.mutexLock 0) {}, .call (.mutexTrylock 0) {}, .call (.mutexUnlock 0) {},
    .call (.mutexUnlock 0) {}]

theorem recursive_mutex_counts_locks :
    ∃ tr k, Runs.Run Kernel.step (Kernel.boot twoThreadsRecursive) tr k ∧ tr.length = 4 ∧
      ∀ x, Runs.Visited tr k x → Kernel.FreeWhenEven x 0 := by
  have hrun : (Runs.exec Kernel.step (Kernel.boot twoThreadsRecursive) lockedTwice).any fun r =>
      decide (r.1.length = 4) && r.1.all fun e =>
        decide (outstanding e.1.log 0 = 1 ∨ 0 < int32 (counted e.1.log 0 - 1) ∨
          (e.1.scope e.2).unlocks = none) := by decide +kernel
  obtain ⟨tr, k, hr, hk⟩ := Runs.exec_any hrun
  simp only [Bool.and_eq_true, decide_eq_true_eq, List.all_eq_true] at hk
  obtain ⟨hlength, hsteps⟩ := hk
  refine ⟨tr, k, hr, hlength, (Kernel.recursive_mutex_counts hr 0 rfl).mpr fun e he hu _ => ?_⟩
  rcases hsteps e he with hone | hpos | hnone
  · exact .inl hone
  · exact .inr hpos
  · rw [hu] at hnone
    cases hnone

/-- Taken by a trylock and a lock, the mutex is free after one unlock. -/
theorem recursive_mutex_released :
    ∃ tr k, Runs.Run Kernel.step (Kernel.boot twoThreadsRecursive) tr k ∧
      tr.map Prod.snd = [.call (.mutexUnlock 0) {}, .call (.mutexLock 0) {},
        .call (.mutexTrylock 0) {}] ∧
      (k.mutex 0).owner = none ∧ outstanding k.log 0 = 1 ∧ ¬Kernel.FreeWhenEven k 0 := by
  have hrun : (Runs.exec Kernel.step (Kernel.boot twoThreadsRecursive)
      [.call (.mutexTrylock 0) {}, .call (.mutexLock 0) {}, .call (.mutexUnlock 0) {}]).any fun r =>
      decide ((r.2.mutex 0).owner = none ∧ outstanding r.2.log 0 = 1) := by decide +kernel
  obtain ⟨tr, k, hr, hactions, hk⟩ := Runs.exec_any_actions hrun
  simp only [decide_eq_true_eq] at hk
  refine ⟨tr, k, hr, hactions, hk.1, hk.2, fun h => ?_⟩
  have heven := h.mp hk.1
  rw [hk.2] at heven
  exact absurd heven (by decide)

end Xmertl.Partikle
