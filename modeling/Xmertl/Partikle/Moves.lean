import Mathlib.Logic.Relation
import Xmertl.Partikle.Machine

/-!
# What a step can do

A call is a sequence of small changes (`Move`) and one way out (`Exit`): the
call returns, or the thread goes into `scheduling ()`. `step_shape` says so of
every step. What holds over runs is proved of the moves and the exits, and the
calls themselves are not unfolded again.

`k₀` is the state before the step, its `Scope` the objects it works on and the
threads that a signal or an expired timer may activate.
-/

namespace Xmertl.Partikle

open IntrusiveList (Lists)

variable {T : Type}

def Call.objects : Call T → List (Kind × Nat)
  | .semWait s | .semTrywait s | .semTimedwait s _ | .semPost s => s.toList.map (.sem, ·)
  | .mutexLock m | .mutexTrylock m | .mutexUnlock m => [(.mutex, m)]
  | .condSignal c | .condBroadcast c => c.toList.map (.cond, ·)
  | .condWait c m | .condTimedwait c m _ => c.toList.map (.cond, ·) ++ m.toList.map (.mutex, ·)
  | .kill .. | .yield | .sleepThread => []

def LockCaller.objects : LockCaller → List (Kind × Nat)
  | .lock | .trylock => []
  | .condWait c | .condTimedwait c _ _ => [(.cond, c)]

def UnlockCaller.objects : UnlockCaller → List (Kind × Nat)
  | .unlock => []
  | .condWait c | .condTimedwait c _ _ => [(.cond, c)]

def Pc.objects : Pc T → List (Kind × Nat)
  | .user => []
  | .returning c => (c.call : Call T).objects
  | .semWait s | .semTimedwait s _ | .semPost s => [(.sem, s)]
  | .mutexLock m caller | .lockPrio m caller => (.mutex, m) :: caller.objects
  | .unlockPrio m caller => (.mutex, m) :: caller.objects
  | .condWait c m | .condTimedwait c m _ _ => [(.cond, c), (.mutex, m)]

/-- The list a thread has put itself on before this `scheduling ()`. -/
def Pc.waits : Pc T → Option (Kind × Nat)
  | .semWait s | .semTimedwait s _ => some (.sem, s)
  | .mutexLock m _ => some (.mutex, m)
  | .condWait c _ | .condTimedwait c _ _ _ => some (.cond, c)
  | .user | .returning _ | .semPost _ | .lockPrio .. | .unlockPrio .. => none

theorem Call.of_sem {c : Call T} (h : (.sem, s) ∈ c.objects) :
    c = .semWait (some s) ∨ c = .semTrywait (some s) ∨
      (∃ abstime, c = .semTimedwait (some s) abstime) ∨ c = .semPost (some s) := by
  cases c <;> simp_all [Call.objects]

theorem Pc.of_sem {p : Pc T} (h : (.sem, s) ∈ p.objects) :
    p = .semWait s ∨ (∃ abstime, p = .semTimedwait s abstime) ∨ p = .semPost s := by
  cases p with
  | returning c => cases c <;> simp [Pc.objects, LastCall.call, Call.objects] at h
  | mutexLock m caller => cases caller <;> simp [Pc.objects, LockCaller.objects] at h
  | lockPrio m caller => cases caller <;> simp [Pc.objects, LockCaller.objects] at h
  | unlockPrio m caller => cases caller <;> simp [Pc.objects, UnlockCaller.objects] at h
  | _ => simp_all [Pc.objects]

theorem Pc.waits_objects {p : Pc T} (h : p.waits = some (κ, o)) : (κ, o) ∈ p.objects := by
  cases p <;> simp_all [Pc.waits, Pc.objects]

/-- A wait that ends by itself, and then takes the thread off the list. -/
def Pc.timed : Pc T → Bool
  | .semTimedwait .. | .condTimedwait .. => true
  | _ => false

def Expiry.target : Expiry T → T
  | .wakeup t | .kill t _ => t

def Call.target : Call T → Option T
  | .kill t _ => t
  | _ => none

def Action.env : Action T → Env T
  | .call _ env | .resume env | .interrupt env => env

/-- The threads a signal or an expired timer of this step is for. -/
def Action.targets (a : Action T) : List T :=
  a.env.expired.map Expiry.target ++
    match a with
    | .call c _ => c.target.toList
    | _ => []

def Call.locks : Call T → Option Nat
  | .mutexLock m | .mutexTrylock m => some m
  | _ => none

def Pc.locks : Pc T → Option Nat
  | .mutexLock m _ | .condWait _ m | .condTimedwait _ m _ _ => some m
  | _ => none

def Call.unlocks : Call T → Option Nat
  | .mutexUnlock m | .condWait (some _) (some m) | .condTimedwait (some _) (some m) (some _) => some m
  | _ => none

structure Scope (T : Type) where
  objects : List (Kind × Nat)
  locks : Option Nat
  unlocks : Option Nat
  targets : List T

/-- The mutex a thread at this point has locked, if it is in a lock call. -/
def Pc.locked : Pc T → Option Nat
  | .lockPrio m _ => some m
  | _ => none

/-- The mutex a thread at this point has released, if it is in an unlock call. -/
def Pc.unlocking : Pc T → Option Nat
  | .unlockPrio m _ => some m
  | _ => none

theorem Pc.locked_of_waits {p : Pc T} (h : p.waits = some x) : p.locked = none := by
  cases p <;> simp_all [Pc.waits, Pc.locked]

theorem Pc.unlocking_of_waits {p : Pc T} (h : p.waits = some x) : p.unlocking = none := by
  cases p <;> simp_all [Pc.waits, Pc.unlocking]

namespace Kernel

variable [DecidableEq T]

def scope (k : Kernel T) (a : Action T) : Scope T where
  objects :=
    match a with
    | .call c _ => c.objects
    | .resume _ => (k.pc k.cur).objects
    | .interrupt _ => []
  locks :=
    match a with
    | .call c _ => c.locks
    | .resume _ => (k.pc k.cur).locks
    | .interrupt _ => none
  unlocks :=
    match a with
    | .call c _ => c.unlocks
    | _ => none
  targets := a.targets

def leave (k : Kernel T) : Kernel T :=
  match k.pc k.cur with
  | .semTimedwait s _ => k.removePthreadList .sem s k.cur
  | .condTimedwait c _ _ _ => k.removePthreadList .cond c k.cur
  | _ => k

theorem leave_untimed (k : Kernel T) (h : (k.pc k.cur).timed = false) : k.leave = k := by
  unfold leave
  cases hpc : k.pc k.cur with
  | semTimedwait s abstime => simp [hpc, Pc.timed] at h
  | condTimedwait c m abstime d => simp [hpc, Pc.timed] at h
  | _ => rfl

theorem leave_timed (k : Kernel T) (h : (k.pc k.cur).timed = true) :
    ∃ κ o, (k.pc k.cur).waits = some (κ, o) ∧ k.leave = k.removePthreadList κ o k.cur := by
  unfold leave
  cases hpc : k.pc k.cur with
  | semTimedwait s abstime => exact ⟨.sem, s, rfl, rfl⟩
  | condTimedwait c m abstime d => exact ⟨.cond, c, rfl, rfl⟩
  | _ => simp [hpc, Pc.timed] at h

theorem leave_rest (k : Kernel T) : k.leave.sched = k.sched ∧ k.leave.pc = k.pc ∧
    k.leave.sem = k.sem ∧ k.leave.mutex = k.mutex ∧ k.leave.log = k.log ∧
    k.leave.cur = k.cur ∧ k.leave.state = k.state ∧ k.leave.prio = k.prio := by
  unfold leave
  split <;> exact ⟨rfl, rfl, rfl, rfl, rfl, rfl, rfl, rfl⟩

/-- Neither the mutexes nor the current thread nor its priority are touched yet. -/
structure Same (k₀ k : Kernel T) : Prop where
  mutex : k.mutex = k₀.mutex
  cur : k.cur = k₀.cur
  prio : k.prio = k₀.prio

inductive Move (k₀ : Kernel T) (w : Scope T) (k : Kernel T) : Kernel T → Prop
  | sem : (.sem, s) ∈ w.objects → Move k₀ w k (k.setSem s v)
  | wake : (k.lists κ).popFront o = (some t, l) → Move k₀ w k ((k.setLists κ l).activateThread t)
  | kill : t ∈ w.targets → Move k₀ w k (k.pthreadKill t sig)
  | yield : Move k₀ w k { k with sched := k.sched.pthreadYield }
  | own : w.locks = some m → Same k₀ k → (k.mutex m).owner = none →
      counter = 1 ∨ counter = (k.mutex m).counter → Move k₀ w k (k.setOwner m counter)
  | again : w.locks = some m → Same k₀ k → (k.mutex m).owner = some k.cur →
      (k.mutex m).attr.type = .recursive →
      Move k₀ w k
        ((k.record (.acquire k.cur m)).setCounter m (int32 ((k.mutex m).counter + 1)))
  | countdown : w.unlocks = some m → k.pc k.cur = .user → Same k₀ k →
      (k.mutex m).owner = some k.cur →
      (k.mutex m).attr.type = .recursive → 0 < int32 ((k.mutex m).counter - 1) →
      Move k₀ w k
        ((k.record (.release k.cur m)).setCounter m (int32 ((k.mutex m).counter - 1)))
  | disown : w.unlocks = some m → k.pc k.cur = .user → Same k₀ k → (k.mutex m).owner = some k.cur →
      ¬((k.mutex m).attr.type = .recursive ∧ 0 < int32 ((k.mutex m).counter - 1)) →
      (k.lists .mutex).head m = none → Move k₀ w k (k.clearOwner m)

abbrev Moves (k₀ : Kernel T) (w : Scope T) : Kernel T → Kernel T → Prop :=
  Relation.ReflTransGen (Move k₀ w)

/-- A lock call that succeeds has its mutex, or got it before its last `scheduling ()`. -/
def HasLock (k : Kernel T) (m : Nat) : Prop :=
  (k.mutex m).owner = some k.cur ∨ (k.pc k.cur).locked = some m

inductive Exit (w : Scope T) (k : Kernel T) : Kernel T → Prop
  | ret : c.objects ⊆ w.objects →
      (∀ m, c = .mutexLock m ∨ c = .mutexTrylock m → r = .ok → k.HasLock m) →
      Exit w k (k.ret c r)
  | scheduling : p.objects ⊆ w.objects → p.waits = none →
      (∀ m, p.locked = some m → (k.mutex m).owner = some k.cur) →
      (∀ m, p.unlocking = some m → w.unlocks = some m) → Exit w k (k.scheduling p)
  | block : p.objects ⊆ w.objects → p.waits = some (κ, o) → p.timed = false →
      Exit w k (((k.suspendThread k.cur).insertPthreadList κ o k.cur).scheduling p)
  | sleep : p.objects ⊆ w.objects → p.waits = some (κ, o) → p.timed = true →
      (∀ e ∈ env.expired, e.target ∈ w.targets) →
      Exit w k ((k.insertPthreadList κ o k.cur).sleepFor env p)
  | suspend : Exit w k ((k.suspendThread k.cur).scheduling (.returning .sleepThread))

inductive Shape (k : Kernel T) : Action T → Kernel T → Prop
  | call : k.pc k.cur = .user → k.cur ≠ k.sched.idleThread →
      Moves k (k.scope (.call c env)) (k.record (.call k.cur c)) k₁ →
      Exit (k.scope (.call c env)) k₁ k' → Shape k (.call c env) k'
  | resume : k.pc k.cur ≠ .user → Moves k (k.scope (.resume env)) k.leave k₁ →
      Exit (k.scope (.resume env)) k₁ k' → Shape k (.resume env) k'
  | interrupt : k.pc k.cur = .user → Shape k (.interrupt env) (k.clockHandler env)

def Path (k₀ : Kernel T) (w : Scope T) (k k' : Kernel T) : Prop :=
  ∃ k₁, Moves k₀ w k k₁ ∧ Exit w k₁ k'

theorem Path.exit {k k' : Kernel T} (h : Exit w k k') : Path k₀ w k k' := ⟨k, .refl, h⟩

theorem Path.move {k k₁ k' : Kernel T} (h : Move k₀ w k k₁) (hp : Path k₀ w k₁ k') :
    Path k₀ w k k' := by
  obtain ⟨k₂, hm, he⟩ := hp
  exact ⟨k₂, hm.head h, he⟩

theorem Path.moves {k k₁ k' : Kernel T} (h : Moves k₀ w k k₁) (hp : Path k₀ w k₁ k') :
    Path k₀ w k k' := by
  obtain ⟨k₂, hm, he⟩ := hp
  exact ⟨k₂, h.trans hm, he⟩

-- ---------------------------------------------------------------------------
-- Mutex calls
-- ---------------------------------------------------------------------------

section
variable {k₀ k : Kernel T} {w : Scope T} {m : Nat}

theorem Exit.returns (hA : c.objects ⊆ w.objects) (h₁ : ∀ m, c ≠ .mutexLock m)
    (h₂ : ∀ m, c ≠ .mutexTrylock m) : Exit w k (k.ret c r) := by
  refine .ret hA ?_
  rintro m (rfl | rfl)
  · exact absurd rfl (h₁ m)
  · exact absurd rfl (h₂ m)

theorem lockReturn_exit (hA : (.mutex, m) ∈ w.objects) (hc : caller.objects ⊆ w.objects)
    (hl : r = .ok → k.HasLock m) : Exit w k (k.lockReturn env m caller r) := by
  cases caller with
  | lock => exact .ret (by simpa [Call.objects] using hA) (by rintro m (⟨⟨⟩⟩ | ⟨⟨⟩⟩); exact hl)
  | trylock => exact .ret (by simpa [Call.objects] using hA) (by rintro m (⟨⟨⟩⟩ | ⟨⟨⟩⟩); exact hl)
  | condWait c =>
    refine .returns ?_ (by simp) (by simp)
    simpa [Call.objects, hA, LockCaller.objects] using hc
  | condTimedwait c abstime rest =>
    refine .returns ?_ (by simp) (by simp)
    simpa [Call.objects, hA, LockCaller.objects] using hc

theorem takeMutex_path (hl : w.locks = some m) (hA : (.mutex, m) ∈ w.objects)
    (hc : caller.objects ⊆ w.objects)
    (hs : Same k₀ k) (ho : (k.mutex m).owner = none) (hn : n = 1 ∨ n = (k.mutex m).counter) :
    Path k₀ w k (k.takeMutex env m n caller) := by
  refine .move (.own hl hs ho hn) (.exit ?_)
  have hown : ((k.setOwner m n).mutex m).owner = some (k.setOwner m n).cur := by
    simp [setOwner_mutex]
  unfold takeMutex
  split
  · refine .scheduling (by simp [Pc.objects, hA, hc]) rfl ?_ (by simp [Pc.unlocking])
    rintro m' ⟨⟩
    exact hown
  · exact lockReturn_exit hA hc fun _ => .inl hown

theorem relockMutex_path (hl : w.locks = some m) (hA : (.mutex, m) ∈ w.objects)
    (hc : caller.objects ⊆ w.objects)
    (hs : Same k₀ k) (ho : (k.mutex m).owner = some k.cur)
    (ht : (k.mutex m).attr.type = .recursive) :
    Path k₀ w k (k.relockMutex env m caller) := by
  refine .move (.again hl hs ho ht) (.exit (lockReturn_exit hA hc fun _ => .inl ?_))
  simp [ho]

theorem mutexLockSys_path (hl : w.locks = some m) (hA : (.mutex, m) ∈ w.objects)
    (hc : caller.objects ⊆ w.objects)
    (hs : Same k₀ k) : Path k₀ w k (k.mutexLockSys env m caller) := by
  have hwait : Exit w k (((k.suspendThread k.cur).insertPthreadList .mutex m k.cur).scheduling
      (.mutexLock m caller)) := .block (by simp [Pc.objects, hA, hc]) rfl rfl
  unfold mutexLockSys
  simp only
  split
  · rename_i ho
    exact takeMutex_path hl hA hc hs ho (.inl rfl)
  · rename_i owner ho
    split
    · rename_i hcur
      rw [hcur] at ho
      split
      · exact .exit (lockReturn_exit hA hc (by simp))
      · rename_i ht
        exact relockMutex_path hl hA hc hs ho ht
      · exact .exit hwait
    · exact .exit hwait

theorem mutexTrylockSys_path (hl : w.locks = some m) (hA : (.mutex, m) ∈ w.objects)
    (hs : Same k₀ k) :
    Path k₀ w k (k.mutexTrylockSys env m) := by
  have hc : LockCaller.trylock.objects ⊆ w.objects := by simp [LockCaller.objects]
  unfold mutexTrylockSys
  split
  · rename_i ho
    exact takeMutex_path hl hA hc hs ho (.inr rfl)
  · rename_i owner ho
    split
    · rename_i h
      obtain ⟨hcur, ht⟩ := h
      exact relockMutex_path hl hA hc hs (hcur ▸ ho) ht
    · exact .exit (lockReturn_exit hA hc (by simp))

theorem unlockReturn_exit (hA : (.mutex, m) ∈ w.objects) (hc : caller.objects ⊆ w.objects)
    (ht : ∀ e ∈ env.expired, e.target ∈ w.targets) : Exit w k (k.unlockReturn env m caller r) := by
  cases caller with
  | unlock => exact .returns (by simpa [Call.objects] using hA) (by simp) (by simp)
  | condWait c =>
    refine .block ?_ rfl rfl
    simpa [Pc.objects, hA, UnlockCaller.objects] using hc
  | condTimedwait c abstime d =>
    refine .sleep ?_ rfl rfl ht
    simpa [Pc.objects, hA, UnlockCaller.objects] using hc

theorem wakeAll_moves (k : Kernel T) : Moves k₀ w k (k.wakeAll κ o n) := by
  induction n generalizing k with
  | zero => exact .refl
  | succ n ih =>
    unfold wakeAll removeHeadPthreadList
    split
    · exact .refl
    · rename_i t k₁ hpop
      obtain ⟨ht, rfl⟩ := Prod.mk.inj hpop
      exact (ih _).head (.wake (Prod.ext ht rfl))

variable [Fintype T]

theorem wakeThreads_moves (k : Kernel T) : Moves k₀ w k (k.wakeThreads κ o) := wakeAll_moves k

theorem Same.wakeThreads (h : Same k₀ k) : Same k₀ (k.wakeThreads κ o) := by
  have hf : WakeFrame k (k.wakeThreads κ o) := wakeAll_frame _ _ _ _
  exact ⟨hf.mutex.trans h.mutex, hf.cur.trans h.cur, hf.prio.trans h.prio⟩

theorem releaseMutex_path (hl : w.unlocks = some m) (hu : k.pc k.cur = .user)
    (hA : (.mutex, m) ∈ w.objects) (hc : caller.objects ⊆ w.objects)
    (ht : ∀ e ∈ env.expired, e.target ∈ w.targets) (hs : Same k₀ k)
    (ho : (k.mutex m).owner = some k.cur)
    (hlast : ¬((k.mutex m).attr.type = .recursive ∧ 0 < int32 ((k.mutex m).counter - 1))) :
    Path k₀ w k (k.releaseMutex env m caller) := by
  have hf : WakeFrame k (k.wakeThreads .mutex m) := wakeAll_frame _ _ _ _
  have hsame : Same k₀ (k.wakeThreads .mutex m) := hs.wakeThreads
  have hclear : Move k₀ w (k.wakeThreads .mutex m) ((k.wakeThreads .mutex m).clearOwner m) := by
    refine .disown hl ?_ hsame ?_ ?_ (wakeThreads_head k)
    · rw [hf.pc, hf.cur]
      exact hu
    · rw [hf.mutex, hf.cur]
      exact ho
    · rw [hf.mutex]
      exact hlast
  refine .moves (wakeThreads_moves k) (.move hclear (.exit ?_))
  unfold releaseMutex
  simp only
  split
  · exact .scheduling (by simp [Pc.objects, hA, hc]) rfl (by simp [Pc.locked])
      (by simpa [Pc.unlocking] using hl)
  · exact unlockReturn_exit hA hc ht

theorem mutexUnlockSys_path (hl : w.unlocks = some m) (hu : k.pc k.cur = .user)
    (hA : (.mutex, m) ∈ w.objects) (hc : caller.objects ⊆ w.objects)
    (ht : ∀ e ∈ env.expired, e.target ∈ w.targets) (hs : Same k₀ k) :
    Path k₀ w k (k.mutexUnlockSys env m caller) := by
  unfold mutexUnlockSys
  simp only
  split
  · exact .exit (unlockReturn_exit hA hc ht)
  · rename_i owner ho
    split
    · rename_i hcur
      rw [hcur] at ho
      split
      · rename_i h
        obtain ⟨htype, hpos⟩ := h
        exact .move (.countdown hl hu hs ho htype hpos) (.exit (unlockReturn_exit hA hc ht))
      · rename_i hlast
        exact releaseMutex_path hl hu hA hc ht hs ho hlast
    · exact .exit (unlockReturn_exit hA hc ht)

-- ---------------------------------------------------------------------------
-- Condition calls
-- ---------------------------------------------------------------------------

omit [Fintype T] in
theorem removeHeadPthreadList_none (h : k.removeHeadPthreadList κ o = (none, k')) : k' = k := by
  obtain ⟨hpop, rfl⟩ := Prod.mk.inj h
  simp only at hpop ⊢
  split at hpop
  · simp [setLists]
  · simp at hpop

omit [Fintype T] in
theorem removeHeadPthreadList_some (h : k.removeHeadPthreadList κ o = (some t, k')) :
    ∃ l, (k.lists κ).popFront o = (some t, l) ∧ k' = k.setLists κ l := by
  obtain ⟨ht, rfl⟩ := Prod.mk.inj h
  exact ⟨_, Prod.ext ht rfl, rfl⟩

omit [Fintype T] in
theorem removeHeadPthreadList_move (h : k.removeHeadPthreadList κ o = (some t, k')) :
    Move k₀ w k (k'.activateThread t) := by
  obtain ⟨l, hpop, rfl⟩ := removeHeadPthreadList_some h
  exact .wake hpop

omit [Fintype T] in
theorem condSignalSys_path (hA : (Call.condSignal (T := T) c).objects ⊆ w.objects) :
    Path k₀ w k (k.condSignalSys c) := by
  cases c with
  | none => exact .exit (.returns (by simp [Call.objects]) (by simp) (by simp))
  | some c =>
    have hleave (k : Kernel T) : Exit w k (k.scheduling (.returning (.condSignal c))) :=
      .scheduling hA rfl (by simp [Pc.locked]) (by simp [Pc.unlocking])
    simp only [condSignalSys]
    split
    · rename_i hpop
      exact .move (removeHeadPthreadList_move hpop) (.exit (hleave _))
    · rename_i hpop
      rw [removeHeadPthreadList_none hpop]
      exact .exit (hleave k)

theorem condBroadcastSys_path (hA : (Call.condBroadcast (T := T) c).objects ⊆ w.objects) :
    Path k₀ w k (k.condBroadcastSys c) := by
  cases c with
  | none => exact .exit (.returns (by simp [Call.objects]) (by simp) (by simp))
  | some c =>
    exact .moves (wakeThreads_moves k)
      (.exit (.scheduling hA rfl (by simp [Pc.locked]) (by simp [Pc.unlocking])))

theorem condWaitSys_path {c m : Option Nat} (hl : w.unlocks = (Call.condWait (T := T) c m).unlocks)
    (hA : (Call.condWait (T := T) c m).objects ⊆ w.objects)
    (ht : ∀ e ∈ env.expired, e.target ∈ w.targets) (hu : k.pc k.cur = .user) (hs : Same k₀ k) :
    Path k₀ w k (k.condWaitSys env c m) := by
  unfold condWaitSys
  split
  · rename_i c m
    split
    · exact mutexUnlockSys_path hl hu (hA (by simp [Call.objects]))
        (fun o ho => hA (by simp_all [Call.objects, UnlockCaller.objects])) ht hs
    · exact .exit (.returns hA (by simp) (by simp))
  · exact .exit (.returns hA (by simp) (by simp))

theorem condTimedwaitSys_path {c m : Option Nat}
    (hl : w.unlocks = (Call.condTimedwait (T := T) c m abstime).unlocks)
    (hA : (Call.condTimedwait (T := T) c m abstime).objects ⊆ w.objects)
    (ht : ∀ e ∈ env.expired, e.target ∈ w.targets) (hu : k.pc k.cur = .user) (hs : Same k₀ k) :
    Path k₀ w k (k.condTimedwaitSys env c m abstime) := by
  unfold condTimedwaitSys
  split
  · rename_i c m abstime
    simp only
    split
    · exact mutexUnlockSys_path hl hu (hA (by simp [Call.objects]))
        (fun o ho => hA (by simp_all [Call.objects, UnlockCaller.objects])) ht hs
    · exact .exit (.returns hA (by simp) (by simp))
  · exact .exit (.returns hA (by simp) (by simp))

end

-- ---------------------------------------------------------------------------
-- Semaphore calls
-- ---------------------------------------------------------------------------

section
variable {k₀ k : Kernel T} {w : Scope T}

theorem ret_path (hA : c.objects ⊆ w.objects) (h₁ : ∀ m, c ≠ .mutexLock m)
    (h₂ : ∀ m, c ≠ .mutexTrylock m) : Path k₀ w k (k.ret c r) := .exit (.returns hA h₁ h₂)

theorem semWaitEnd_path (hA : (.sem, s) ∈ w.objects) : Path k₀ w k (k.semWaitEnd s) :=
  .move (.sem hA) (ret_path (by simpa [Call.objects] using hA) (by simp) (by simp))

theorem semWaitSys_path (hA : (Call.semWait (T := T) s).objects ⊆ w.objects) :
    Path k₀ w k (k.semWaitSys s) := by
  cases s with
  | none => exact ret_path hA (by simp) (by simp)
  | some s =>
    simp only [semWaitSys]
    split
    · exact .exit (.block (by simpa [Call.objects, Pc.objects] using hA) rfl rfl)
    · exact semWaitEnd_path (hA (by simp [Call.objects]))

theorem semTrywaitSys_path (hA : (Call.semTrywait (T := T) s).objects ⊆ w.objects) :
    Path k₀ w k (k.semTrywaitSys s) := by
  cases s with
  | none => exact ret_path hA (by simp) (by simp)
  | some s =>
    simp only [semTrywaitSys]
    split
    · exact ret_path hA (by simp) (by simp)
    · exact .move (.sem (hA (by simp [Call.objects]))) (ret_path hA (by simp) (by simp))

theorem semTimedwaitTake_moves (hA : (.sem, s) ∈ w.objects) :
    Moves k₀ w k (k.semTimedwaitTake s) := by
  unfold semTimedwaitTake
  split
  · exact .single (.sem hA)
  · exact .refl

theorem semTimedwaitSys_path (hA : (Call.semTimedwait (T := T) s abstime).objects ⊆ w.objects)
    (ht : ∀ e ∈ env.expired, e.target ∈ w.targets) :
    Path k₀ w k (k.semTimedwaitSys env s abstime) := by
  unfold semTimedwaitSys
  split
  · rename_i s abstime
    have hs : (Kind.sem, s) ∈ w.objects := hA (by simp [Call.objects])
    simp only
    refine .moves (semTimedwaitTake_moves hs) ?_
    split
    · exact ret_path hA (by simp) (by simp)
    · split
      · exact ret_path hA (by simp) (by simp)
      · exact .exit (.sleep (by simpa [Call.objects, Pc.objects] using hA) rfl rfl ht)
  · exact ret_path hA (by simp) (by simp)

theorem semPostEnd_path (hA : (.sem, s) ∈ w.objects) : Path k₀ w k (k.semPostEnd s) := by
  have hc : (Call.semPost (T := T) (some s)).objects ⊆ w.objects := by
    simpa [Call.objects] using hA
  unfold semPostEnd
  split
  · exact .move (.sem hA) (ret_path hc (by simp) (by simp))
  · exact ret_path hc (by simp) (by simp)

theorem semPostSys_path (hA : (Call.semPost (T := T) s).objects ⊆ w.objects) :
    Path k₀ w k (k.semPostSys s) := by
  cases s with
  | none => exact ret_path hA (by simp) (by simp)
  | some s =>
    have hs : (Kind.sem, s) ∈ w.objects := hA (by simp [Call.objects])
    simp only [semPostSys]
    split
    · split
      · rename_i hpop
        exact .move (removeHeadPthreadList_move hpop)
          (.exit (.scheduling (by simpa [Pc.objects] using hs) rfl (by simp [Pc.locked])
            (by simp [Pc.unlocking])))
      · rename_i hpop
        rw [removeHeadPthreadList_none hpop]
        exact semPostEnd_path hs
    · exact semPostEnd_path hs

-- ---------------------------------------------------------------------------
-- Every step
-- ---------------------------------------------------------------------------

theorem pthreadKillSys_path (hc : ∀ u ∈ t, u ∈ w.targets) :
    Path k₀ w k (k.pthreadKillSys t sig) := by
  have hret (k : Kernel T) (r : Ret) : Path k₀ w k (k.ret (.kill t sig) r) :=
    ret_path (by simp [Call.objects]) (by simp) (by simp)
  cases t with
  | none => exact hret k _
  | some t =>
    simp only [pthreadKillSys]
    split
    · exact .move (.kill (hc t rfl)) (hret _ _)
    · exact hret k _

theorem enter_path [Fintype T] (hu : k.pc k.cur = .user) (hs : Same k₀ k)
    (hl : w.locks = c.locks) (hul : w.unlocks = c.unlocks) (hA : c.objects ⊆ w.objects)
    (ht : ∀ e ∈ env.expired, e.target ∈ w.targets) (hc : ∀ t ∈ c.target, t ∈ w.targets) :
    Path k₀ w k (k.enter env c) := by
  cases c with
  | semWait s => exact semWaitSys_path hA
  | semTrywait s => exact semTrywaitSys_path hA
  | semTimedwait s abstime => exact semTimedwaitSys_path hA ht
  | semPost s => exact semPostSys_path hA
  | mutexLock m =>
    exact mutexLockSys_path hl (hA (by simp [Call.objects])) (by simp [LockCaller.objects]) hs
  | mutexTrylock m => exact mutexTrylockSys_path hl (hA (by simp [Call.objects])) hs
  | mutexUnlock m =>
    exact mutexUnlockSys_path hul hu (hA (by simp [Call.objects])) (by simp [UnlockCaller.objects])
      ht hs
  | condSignal c => exact condSignalSys_path hA
  | condBroadcast c => exact condBroadcastSys_path hA
  | condWait c m => exact condWaitSys_path hul hA ht hu hs
  | condTimedwait c m abstime => exact condTimedwaitSys_path hul hA ht hu hs
  | kill t sig => exact pthreadKillSys_path hc
  | yield =>
    exact .move .yield (.exit (.scheduling hA rfl (by simp [Pc.locked]) (by simp [Pc.unlocking])))
  | sleepThread => exact .exit .suspend

theorem resume_path (hp : k.pc k.cur ≠ .user) (hl : w.locks = (k.pc k.cur).locks)
    (hA : (k.pc k.cur).objects ⊆ w.objects)
    (ht : ∀ e ∈ env.expired, e.target ∈ w.targets) : Path k w k.leave (k.resume env) := by
  unfold resume leave
  cases hpc : k.pc k.cur with
  | user => exact absurd hpc hp
  | returning c =>
    rw [hpc] at hA
    exact ret_path hA (by cases c <;> simp [LastCall.call]) (by cases c <;> simp [LastCall.call])
  | semWait s => exact semWaitEnd_path (hA (by simp [hpc, Pc.objects]))
  | semTimedwait s abstime =>
    have hs : (Kind.sem, s) ∈ w.objects := hA (by simp [hpc, Pc.objects])
    refine .moves (semTimedwaitTake_moves hs) ?_
    exact ret_path (by simpa [Call.objects] using hs) (by simp) (by simp)
  | semPost s => exact semPostEnd_path (hA (by simp [hpc, Pc.objects]))
  | mutexLock m caller =>
    rw [hpc] at hA hl
    exact mutexLockSys_path hl (hA (by simp [Pc.objects]))
      (fun o ho => hA (by simp_all [Pc.objects]))
      ⟨rfl, rfl, rfl⟩
  | lockPrio m caller =>
    rw [hpc] at hA
    refine .exit (lockReturn_exit (hA (by simp [Pc.objects]))
      (fun o ho => hA (by simp_all [Pc.objects])) fun _ => ?_)
    exact .inr (by rw [hpc]; rfl)
  | unlockPrio m caller =>
    rw [hpc] at hA
    exact .exit (unlockReturn_exit (hA (by simp [Pc.objects]))
      (fun o ho => hA (by simp_all [Pc.objects])) ht)
  | condWait c m =>
    rw [hpc] at hA hl
    exact mutexLockSys_path hl (hA (by simp [Pc.objects]))
      (fun o ho => hA (by simp_all [Pc.objects, LockCaller.objects])) ⟨rfl, rfl, rfl⟩
  | condTimedwait c m abstime d =>
    rw [hpc] at hA hl
    exact mutexLockSys_path hl (hA (by simp [Pc.objects]))
      (fun o ho => hA (by simp_all [Pc.objects, LockCaller.objects])) ⟨rfl, rfl, rfl⟩

theorem step_shape [Fintype T] {k k' : Kernel T} (hs : k.step a = some k') : Shape k a k' := by
  have hexp (e : Expiry T) (he : e ∈ a.env.expired) : e.target ∈ (k.scope a).targets :=
    List.mem_append_left _ (List.mem_map_of_mem he)
  cases a with
  | call c env =>
    simp only [step, Option.ite_none_right_eq_some, Option.some.injEq] at hs
    obtain ⟨⟨hp, hi⟩, rfl⟩ := hs
    have hpath : Path k (k.scope (.call c env)) (k.record (.call k.cur c))
        ((k.record (.call k.cur c)).enter env c) := by
      refine enter_path hp ⟨rfl, rfl, rfl⟩ rfl rfl (List.Subset.refl _) hexp fun t ht => ?_
      exact List.mem_append_right _ (Option.mem_toList.mpr ht)
    obtain ⟨k₁, hm, he⟩ := hpath
    exact .call hp hi hm he
  | resume env =>
    simp only [step, Option.ite_none_left_eq_some, Option.some.injEq] at hs
    obtain ⟨hp, rfl⟩ := hs
    obtain ⟨k₁, hm, he⟩ := resume_path hp rfl (List.Subset.refl _) hexp
    exact .resume hp hm he
  | interrupt env =>
    simp only [step, Option.ite_none_right_eq_some, Option.some.injEq] at hs
    obtain ⟨hp, rfl⟩ := hs
    exact .interrupt hp

end

section
variable {k₀ k k' : Kernel T} {w : Scope T}

-- ---------------------------------------------------------------------------
-- What moves and exits leave alone
-- ---------------------------------------------------------------------------

theorem Move.pc (h : Move k₀ w k k') : k'.pc = k.pc := by
  cases h with
  | kill => exact (pthreadKill_frame _ _ _).pc
  | _ => simp

theorem Move.cur (h : Move k₀ w k k') : k'.cur = k.cur := by
  cases h with
  | kill => exact (pthreadKill_frame _ _ _).cur
  | yield => simp [Kernel.cur]
  | _ => simp

theorem Move.state (h : Move k₀ w k k') (t : T) : k'.state t = k.state t ∨ k'.state t = .ready := by
  cases h with
  | wake => exact (activateThread_frame _ _).state t
  | kill => exact (pthreadKill_frame _ _ _).state t
  | yield => simp [Kernel.state]
  | _ => simp

theorem Exit.state (h : Exit w k k') (ht : t ≠ k.cur) :
    k'.state t = k.state t ∨ k'.state t = .ready := by
  cases h with
  | ret => simp
  | scheduling => simp
  | @block κ o => exact .inl (by simp [insertPthreadList, suspendThread_state, ht])
  | @sleep κ o env p =>
    have hf := (updateHwtimer_frame ((k.insertPthreadList κ o k.cur).armTimer.suspendThread k.cur)
      env).state t
    rw [suspendThread_state, if_neg ht] at hf
    exact hf
  | suspend => exact .inl (by simp [suspendThread_state, ht])

theorem Moves.state (h : Moves k₀ w k k') (t : T) :
    k'.state t = k.state t ∨ k'.state t = .ready := by
  induction h with
  | refl => exact .inl rfl
  | tail _ hm ih =>
    rcases hm.state t with he | he
    · exact he ▸ ih
    · exact .inr he

theorem Moves.pc (h : Moves k₀ w k k') : k'.pc = k.pc := by
  induction h with
  | refl => rfl
  | tail _ hm ih => exact hm.pc.trans ih

theorem Moves.cur (h : Moves k₀ w k k') : k'.cur = k.cur := by
  induction h with
  | refl => rfl
  | tail _ hm ih => exact hm.cur.trans ih

theorem Exit.mutex (h : Exit w k k') : k'.mutex = k.mutex := by
  cases h with
  | sleep => exact (updateHwtimer_frame _ _).mutex
  | _ => simp [insertPthreadList]

theorem Exit.pc (h : Exit w k k') (ht : t ≠ k.cur) : k'.pc t = k.pc t := by
  have hcur {k₁ : Kernel T} {p : Pc T} (hpc : k₁.pc = k.pc) (hc : k₁.cur = k.cur) :
      (k₁.scheduling p).pc t = k.pc t := by
    simp [hpc, hc, ht]
  cases h with
  | ret => simp [ht]
  | scheduling => exact hcur rfl rfl
  | block => exact hcur rfl (by simp [insertPthreadList])
  | @sleep κ o env =>
    have hf :=
      updateHwtimer_frame ((k.insertPthreadList κ o k.cur).armTimer.suspendThread k.cur) env
    exact hcur hf.pc (hf.cur.trans (suspendThread_rest _).2.2.2.2.2.2.1)
  | suspend => exact hcur rfl (by simp)

theorem Exit.pc_cur (h : Exit w k k') : (k'.pc k.cur).objects ⊆ w.objects := by
  have hcur {k₁ : Kernel T} {p : Pc T} (hp : p.objects ⊆ w.objects) (hc : k₁.cur = k.cur) :
      ((k₁.scheduling p).pc k.cur).objects ⊆ w.objects := by
    simpa [hc] using hp
  cases h with
  | ret => simp [Pc.objects]
  | scheduling hp => exact hcur hp rfl
  | block hp => exact hcur hp (by simp [insertPthreadList])
  | @sleep κ o env p hp =>
    have hf :=
      updateHwtimer_frame ((k.insertPthreadList κ o k.cur).armTimer.suspendThread k.cur) env
    exact hcur hp (hf.cur.trans (suspendThread_rest _).2.2.2.2.2.2.1)
  | suspend => exact hcur (by simp [Pc.objects, LastCall.call, Call.objects]) (by simp)

variable [Fintype T]

theorem step_pc_cur (hs : k.step a = some k') :
    (k'.pc k.cur).objects ⊆ (k.scope a).objects := by
  cases step_shape hs with
  | call _ _ hm he =>
    have hcur := he.pc_cur
    rwa [hm.cur] at hcur
  | resume _ hm he =>
    have hcur := he.pc_cur
    rwa [hm.cur, (leave_rest k).2.2.2.2.2.1] at hcur
  | @interrupt env hp =>
    have hpc : (k.clockHandler env).pc = k.pc := (updateHwtimer_frame k env).pc
    simp [hpc, hp, Pc.objects]

theorem step_pc (hs : k.step a = some k') (ht : t ≠ k.cur) : k'.pc t = k.pc t := by
  cases step_shape hs with
  | call hp hi hm he =>
    have hc : t ≠ _ := fun h => ht (h.trans hm.cur)
    rw [he.pc hc, hm.pc]
    simp
  | resume hp hm he =>
    have hc : t ≠ _ := fun h => ht (h.trans (hm.cur.trans (leave_rest k).2.2.2.2.2.1))
    rw [he.pc hc, hm.pc, (leave_rest k).2.1]
  | interrupt => exact congrFun (updateHwtimer_frame k _).pc t

theorem run_pc {y : Kernel T} {tr : List (Kernel T × Action T)}
    (hr : Runs.Run step k tr y)
    (hcur : ∀ e ∈ tr, e.1.cur ≠ t) : y.pc t = k.pc t :=
  hr.invariant (I := fun y => y.pc t = k.pc t) (C := fun y _ => y.cur ≠ t) rfl
    (fun _ _ _ h hne hs => (step_pc hs hne.symm).trans h) hcur

theorem step_state (hs : k.step a = some k') (ht : t ≠ k.cur) :
    k'.state t = k.state t ∨ k'.state t = .ready := by
  have hcombine {k₁ : Kernel T} (h₁ : k₁.state t = k.state t ∨ k₁.state t = .ready)
      (h' : k'.state t = k₁.state t ∨ k'.state t = .ready) :
      k'.state t = k.state t ∨ k'.state t = .ready := by
    rcases h' with h' | h'
    · exact h' ▸ h₁
    · exact .inr h'
  cases step_shape hs with
  | call hp hi hm he => exact hcombine (hm.state t) (he.state fun h => ht (h.trans hm.cur))
  | resume hp hm he =>
    refine hcombine ?_ (he.state fun h => ht (h.trans (hm.cur.trans (leave_rest k).2.2.2.2.2.1)))
    have := hm.state t
    rwa [(leave_rest k).2.2.2.2.2.2.1] at this
  | interrupt => exact (updateHwtimer_frame k _).state t

-- ---------------------------------------------------------------------------
-- One step and the mutexes
-- ---------------------------------------------------------------------------

/-- The owner gives `m` back for good. -/
def Releases (k : Kernel T) (a : Action T) (m : Nat) : Prop :=
  (k.scope a).unlocks = some m ∧ (k.mutex m).owner = some k.cur ∧
    ¬((k.mutex m).attr.type = .recursive ∧ 0 < int32 ((k.mutex m).counter - 1))

/-- At most one mutex changes, and no priority but the current thread's. -/
inductive MutexStep (k : Kernel T) (w : Scope T) (k' : Kernel T) : Prop
  | same : k'.mutex = k.mutex → k'.prio = k.prio → MutexStep k w k'
  | own (n : Int) : w.locks = some m → (k.mutex m).owner = none →
      k'.mutex = Function.update k.mutex m ((k.mutex m).takenBy k.cur n (k.prio k.cur)) →
      (∀ t, k'.prio t =
        if t = k.cur ∧ k.RaisesPrio m then (k.mutex m).attr.prio else k.prio t) →
      MutexStep k w k'
  | count (n : Int) : (k.mutex m).owner = some k.cur →
      k'.mutex = Function.update k.mutex m { k.mutex m with counter := n } → k'.prio = k.prio →
      MutexStep k w k'
  | disown : w.unlocks = some m → (k.mutex m).owner = some k.cur →
      ¬((k.mutex m).attr.type = .recursive ∧ 0 < int32 ((k.mutex m).counter - 1)) →
      k'.mutex = Function.update k.mutex m { k.mutex m with owner := none, counter := 0 } →
      (∀ t, k'.prio t =
        if t = k.cur ∧ k.RestoresPrio m then (k.mutex m).attr.ownerPrio else k.prio t) →
      MutexStep k w k'

omit [DecidableEq T] [Fintype T] in
theorem Same.raises (h : Same k₀ k) : k.RaisesPrio m ↔ k₀.RaisesPrio m := by
  rw [RaisesPrio, RaisesPrio, h.mutex, h.cur, h.prio]

omit [DecidableEq T] [Fintype T] in
theorem Same.restores (h : Same k₀ k) : k.RestoresPrio m ↔ k₀.RestoresPrio m := by
  rw [RestoresPrio, RestoresPrio, h.mutex, h.cur, h.prio]

omit [Fintype T] in
theorem MutexStep.trans_eq {k₁ : Kernel T} (h : MutexStep k₀ w k) (hm : k₁.mutex = k.mutex)
    (hp : k₁.prio = k.prio) : MutexStep k₀ w k₁ := by
  cases h with
  | same h₁ h₂ => exact .same (hm.trans h₁) (hp.trans h₂)
  | own n hl ho h₁ h₂ => exact .own n hl ho (hm.trans h₁) fun t => (congrFun hp t).trans (h₂ t)
  | count n ho h₁ h₂ => exact .count n ho (hm.trans h₁) (hp.trans h₂)
  | disown hl ho hlast h₁ h₂ =>
    exact .disown hl ho hlast (hm.trans h₁) fun t => (congrFun hp t).trans (h₂ t)

omit [Fintype T] in
theorem MutexStep.move (h : MutexStep k₀ w k) (hm : Move k₀ w k k') : MutexStep k₀ w k' := by
  cases hm with
  | sem => exact h.trans_eq rfl rfl
  | wake => exact h.trans_eq rfl (by simp)
  | kill => exact h.trans_eq (pthreadKill_frame _ _ _).mutex (pthreadKill_frame _ _ _).prio
  | yield => exact h.trans_eq rfl (by funext t; simp [prio])
  | @own m n hl hsame ho _ =>
    refine .own n hl (by rw [← hsame.mutex]; exact ho) ?_ fun t => ?_
    · rw [setOwner_mutex, hsame.mutex, hsame.cur, hsame.prio]
    · simp only [setOwner_prio, hsame.raises, hsame.mutex, hsame.cur, hsame.prio]
  | @again m _ hsame ho _ =>
    rw [hsame.mutex, hsame.cur] at ho
    refine .count (int32 ((k₀.mutex m).counter + 1)) ho ?_ (by simpa using hsame.prio)
    simp only [setCounter_mutex, record_rest, hsame.mutex]
  | @countdown m _ _ hsame ho _ _ =>
    rw [hsame.mutex, hsame.cur] at ho
    refine .count (int32 ((k₀.mutex m).counter - 1)) ho ?_ (by simpa using hsame.prio)
    simp only [setCounter_mutex, record_rest, hsame.mutex]
  | @disown m hl _ hsame ho hlast _ =>
    rw [hsame.mutex] at ho hlast
    refine .disown hl (by rw [← hsame.cur]; exact ho) hlast ?_ fun t => ?_
    · rw [clearOwner_mutex, hsame.mutex]
    · simp only [clearOwner_prio, hsame.restores, hsame.mutex, hsame.cur, hsame.prio]

omit [Fintype T] in
theorem MutexStep.moves (h : MutexStep k₀ w k) (hm : Moves k₀ w k k') : MutexStep k₀ w k' := by
  induction hm with
  | refl => exact h
  | tail _ hmove ih => exact ih.move hmove

omit [Fintype T] in
theorem Exit.prio (h : Exit w k k') : k'.prio = k.prio := by
  cases h with
  | @sleep κ o env p =>
    have hf :=
      updateHwtimer_frame ((k.insertPthreadList κ o k.cur).armTimer.suspendThread k.cur) env
    exact hf.prio.trans (suspendThread_rest _).2.2.2.2.2.2.2
  | _ => simp [insertPthreadList]

theorem step_mutex (hs : k.step a = some k') : MutexStep k (k.scope a) k' := by
  cases step_shape hs with
  | @call c env k₁ _ _ _ hm he =>
    have h₀ : MutexStep k (k.scope (.call c env)) (k.record (.call k.cur c)) := .same rfl rfl
    exact (h₀.moves hm).trans_eq he.mutex he.prio
  | @resume env k₁ _ _ hm he =>
    have h₀ : MutexStep k (k.scope (.resume env)) k.leave :=
      .same (leave_rest k).2.2.2.1 (leave_rest k).2.2.2.2.2.2.2
    exact (h₀.moves hm).trans_eq he.mutex he.prio
  | @interrupt env =>
    exact .same (updateHwtimer_frame k env).mutex (updateHwtimer_frame k env).prio

-- ---------------------------------------------------------------------------
-- Stopping inside an unlock
-- ---------------------------------------------------------------------------

omit [Fintype T] in
theorem Exit.unlocking (h : Exit w k k') (hp : (k'.pc k.cur).unlocking = some m) :
    w.unlocks = some m ∧ k'.state k.cur = k.state k.cur := by
  have hcur {k₁ : Kernel T} {p : Pc T} (hc : k₁.cur = k.cur) (hn : p.unlocking = none)
      (hk' : k' = k₁.scheduling p) : False := by
    rw [hk', ← hc] at hp
    simp [hn] at hp
  cases h with
  | ret => simp [Pc.unlocking] at hp
  | scheduling _ _ _ hl =>
    simp only [scheduling_rest, Function.update_self] at hp
    exact ⟨hl m hp, rfl⟩
  | block _ hw => exact (hcur (by simp [insertPthreadList]) (Pc.unlocking_of_waits hw) rfl).elim
  | @sleep κ o env p _ hw =>
    have hf :=
      updateHwtimer_frame ((k.insertPthreadList κ o k.cur).armTimer.suspendThread k.cur) env
    exact (hcur (hf.cur.trans (suspendThread_rest _).2.2.2.2.2.2.1) (Pc.unlocking_of_waits hw)
      rfl).elim
  | suspend => exact (hcur (by simp) (by simp [Pc.unlocking]) rfl).elim

theorem step_unlocking (hs : k.step a = some k') (hp : (k'.pc k.cur).unlocking = some m) :
    (k.scope a).unlocks = some m := by
  cases step_shape hs with
  | call _ _ hm he =>
    have hcur : _ = k.cur := hm.cur
    exact (he.unlocking (by rwa [hcur])).1
  | resume _ hm he =>
    have hcur : _ = k.cur := hm.cur.trans (leave_rest k).2.2.2.2.2.1
    exact (he.unlocking (by rwa [hcur])).1
  | @interrupt env hu =>
    have hpc : (k.clockHandler env).pc = k.pc := (updateHwtimer_frame k env).pc
    simp [hpc, hu, Pc.unlocking] at hp

end

end Kernel

end Xmertl.Partikle
