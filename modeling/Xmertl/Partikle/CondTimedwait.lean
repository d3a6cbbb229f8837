import Xmertl.Partikle.CondWait

/-!
# Timed waits on a condition

`pthread_cond_timedwait_sys` decides at its end whether it has timed out, by comparing the time
that `sleep_for` says is left with a reading of the monotonic clock taken after the mutex is
locked again.
-/

namespace Xmertl.Partikle

open Runs

/-- A `pthread_cond_timedwait` that has waited and returned: the call, the steps up to where its
thread goes on after `sleep_for`, that step, and the steps up to the return. -/
structure CondTimedwait (T : Type) where
  cond : Nat
  mutex : Nat
  abstime : Timespec
  before : Kernel T
  env : Env T
  after : Kernel T
  waiting : List (Kernel T × Action T)
  asleep : Kernel T
  wakeEnv : Env T
  woken : Kernel T
  locking : List (Kernel T × Action T)
  last : Kernel T

namespace Kernel

variable {T : Type}

/-- The call takes `t` off the list of condition `c`. -/
def TakesOff (k : Kernel T) (a : Action T) (c : Nat) (t : T) : Prop :=
  ∃ env, a = .call (.condSignal (some c)) env ∧ (k.lists .cond).head c = some t ∨
    a = .call (.condBroadcast (some c)) env ∧ (k.lists .cond).Linked c t

/-- A thread that has just locked a mutex, and raised its priority, owns it. -/
def LockersOwn (k : Kernel T) : Prop :=
  ∀ t m, (k.pc t).locked = some m → (k.mutex m).owner = some t

end Kernel

namespace CondTimedwait

variable {T : Type}

def thread (x : CondTimedwait T) : T := x.before.cur

def call (x : CondTimedwait T) : Call T :=
  .condTimedwait (some x.cond) (some x.mutex) (some x.abstime)

def duration (x : CondTimedwait T) : Int :=
  int64 (x.abstime.tvSec * nsecsPerSec + x.abstime.tvNsec - x.env.realtime)

def deadline (x : CondTimedwait T) : Int := x.abstime.tvSec * nsecsPerSec + x.abstime.tvNsec

def lastEnv (x : CondTimedwait T) : Env T := (x.locking.head?.map (·.2.env)).getD x.wakeEnv

def InTime (x : CondTimedwait T) : Prop :=
  ∃ e ∈ x.waiting, e.1.TakesOff e.2 x.cond x.thread ∧ e.2.env.realtime < x.deadline

def Late (x : CondTimedwait T) : Prop :=
  ¬x.InTime ∧ ((∃ e ∈ x.waiting, e.1.TakesOff e.2 x.cond x.thread) ∨
    x.deadline ≤ x.wakeEnv.realtime)

def Returns (x : CondTimedwait T) (r : Ret) : Prop :=
  x.last.log.head? = some (.ret x.thread x.call r)

structure Right (x : CondTimedwait T) : Prop where
  late : x.Returns (.fail .etimedout) ↔ x.Late
  inTime : x.InTime → x.Returns .ok
  owner : (x.last.mutex x.mutex).owner = some x.thread
  unlinked : ∀ c, ¬(x.last.lists .cond).Linked c x.thread

/-- The condition on a call: at the return the monotonic clock reads more than what `sleep_for`
said was left, counted from that clock's start, if the deadline passed, and no more if not. -/
def Admits (x : CondTimedwait T) : Prop :=
  x.Late ↔ max 0 (x.duration - x.wakeEnv.monotonic) < x.lastEnv.monotonic

variable [DecidableEq T] [Fintype T]

/-- The states are those of a run, in which the thread stays in the call. -/
structure Happens (x : CondTimedwait T) : Prop where
  enter : x.before.step (.call x.call x.env) = some x.after
  waits : Run Kernel.step x.after x.waiting x.asleep
  inWait : ∀ e ∈ x.waiting, e.1.pc x.thread ≠ .user
  asleep : x.asleep.cur = x.thread ∧ (x.asleep.pc x.thread).timed = true
  wakes : x.asleep.step (.resume x.wakeEnv) = some x.woken
  locks : Run Kernel.step x.woken x.locking x.last
  inLock : ∀ e ∈ x.locking, e.1.pc x.thread ≠ .user
  returned : x.last.pc x.thread = .user

end CondTimedwait

namespace Kernel

variable {T : Type} [DecidableEq T] {k₀ k k' : Kernel T} {w : Scope T} {m : Nat}

-- ---------------------------------------------------------------------------
-- Owners inside a lock call
-- ---------------------------------------------------------------------------

omit [DecidableEq T] in
theorem LockersOwn.congr (h : k.LockersOwn) (hm : k'.mutex = k.mutex) (hpc : k'.pc = k.pc) :
    k'.LockersOwn := by
  rwa [LockersOwn, hm, hpc]

theorem LockersOwn.move (h : k.LockersOwn) (hm : Move k₀ w k k') : k'.LockersOwn := by
  cases hm with
  | sem => exact h.congr rfl rfl
  | wake => exact h.congr rfl rfl
  | @kill t sig _ =>
    have hf := pthreadKill_frame k t sig
    exact h.congr hf.mutex hf.pc
  | yield => exact h.congr rfl rfl
  | @own m' n _ _ ho _ =>
    intro t m ht
    rw [(setOwner_rest k).1] at ht
    have hown := h t m ht
    have hne : m ≠ m' := by
      rintro rfl
      rw [ho] at hown
      contradiction
    rwa [setOwner_mutex, Function.update_of_ne hne]
  | @again m' _ _ _ _ =>
    intro t m ht
    have hown := h t m ht
    by_cases hne : m = m'
    · subst hne
      simpa using hown
    · simpa [hne] using hown
  | @countdown m' _ _ _ _ _ _ =>
    intro t m ht
    have hown := h t m ht
    by_cases hne : m = m'
    · subst hne
      simpa using hown
    · simpa [hne] using hown
  | @disown m' _ hu _ ho _ _ =>
    intro t m ht
    rw [(clearOwner_rest k).1] at ht
    have hown := h t m ht
    have hne : m ≠ m' := by
      rintro rfl
      rw [ho] at hown
      rw [← Option.some.inj hown, hu] at ht
      contradiction
    rwa [clearOwner_mutex, Function.update_of_ne hne]

theorem LockersOwn.moves (h : k.LockersOwn) (hm : Moves k₀ w k k') : k'.LockersOwn := by
  induction hm with
  | refl => exact h
  | tail _ hmove ih => exact ih.move hmove

theorem LockersOwn.exit (h : k.LockersOwn) (he : Exit w k k') : k'.LockersOwn := by
  have hpcs {k' : Kernel T} (p : Pc T) (hmutex : k'.mutex = k.mutex)
      (hpc : k'.pc = Function.update k.pc k.cur p)
      (hp : ∀ m, p.locked = some m → (k.mutex m).owner = some k.cur) : k'.LockersOwn := by
    intro t m ht
    rw [hmutex]
    by_cases htc : t = k.cur
    · rw [hpc, htc, Function.update_self] at ht
      exact htc ▸ hp m ht
    · rw [hpc, Function.update_of_ne htc] at ht
      exact h t m ht
  have hwaits {p : Pc T} {q : Kind × Nat} (hw : p.waits = some q) (m : Nat)
      (hp : p.locked = some m) : (k.mutex m).owner = some k.cur := by
    rw [Pc.locked_of_waits hw] at hp
    contradiction
  cases he with
  | ret => exact hpcs .user rfl rfl fun _ hp => absurd hp (Option.some_ne_none _).symm
  | @scheduling p _ _ hp _ => exact hpcs p rfl rfl hp
  | @block κ o p _ hw _ => exact hpcs p rfl (by simp [insertPthreadList]) (hwaits hw)
  | @sleep κ o env p _ hw =>
    obtain ⟨hpc, -, hmutex, -⟩ := sleepFor_rest (k.insertPthreadList κ o k.cur) env p
    exact hpcs p hmutex hpc (hwaits hw)
  | suspend =>
    exact hpcs (.returning .sleepThread) rfl (by simp) fun _ hp =>
      absurd hp (Option.some_ne_none _).symm

variable [Fintype T]

theorem LockersOwn.step (h : k.LockersOwn) (hs : k.step a = some k') : k'.LockersOwn := by
  cases step_shape hs with
  | @call c env _ _ _ _ hm he =>
    have hcalled : (k.record (.call k.cur c)).LockersOwn := h
    exact (hcalled.moves hm).exit he
  | resume _ hm he =>
    have hleave : k.leave.LockersOwn := h.congr (leave_rest k).2.2.2.1 (leave_rest k).2.1
    exact (hleave.moves hm).exit he
  | @interrupt env =>
    have hf := updateHwtimer_frame k env
    exact h.congr hf.mutex hf.pc

theorem run_lockersOwn {c : Config T} {tr : List (Kernel T × Action T)}
    (hr : Run step (boot c) tr k) : k.LockersOwn :=
  hr.invariant (I := LockersOwn) (C := fun _ _ => True) nofun
    (fun _ _ _ h _ hs => h.step hs) fun _ _ => trivial

-- ---------------------------------------------------------------------------
-- The way of the call
-- ---------------------------------------------------------------------------

section
variable {t : T} {c : Nat} {abstime : Timespec} {d rest : Int} {env : Env T} {r : Ret}
  {caller : LockCaller}

def TimedUnlock (k : Kernel T) (t : T) (c m : Nat) (abstime : Timespec) (d : Int) : Prop :=
  k.pc t = .unlockPrio m (.condTimedwait c abstime d) ∨ k.pc t = .condTimedwait c m abstime d

/-- In its lock, which decides with `rest`. -/
def TimedLock (k : Kernel T) (t : T) (c m : Nat) (abstime : Timespec) (rest : Int) : Prop :=
  k.pc t = .mutexLock m (.condTimedwait c abstime rest) ∨
    k.pc t = .lockPrio m (.condTimedwait c abstime rest)

/-- The call has returned what `rest` and the clock say. -/
structure TimedReturn (k : Kernel T) (t : T) (c m : Nat) (abstime : Timespec) (rest : Int)
    (env : Env T) : Prop where
  pc : k.pc t = .user
  log : k.log.head? = some (.ret t (.condTimedwait (some c) (some m) (some abstime))
    (if rest < env.monotonic then .fail .etimedout else .ok))
  owner : (k.mutex m).owner = some t

omit [Fintype T] in
theorem lockReturn_timed (ho : (k.mutex m).owner = some k.cur) :
    TimedReturn (k.lockReturn env m (.condTimedwait c abstime rest) r) k.cur c m abstime rest env :=
  ⟨Function.update_self .., rfl, ho⟩

omit [Fintype T] in
theorem mutexLockSys_timed (k : Kernel T) (abstime : Timespec) (rest : Int) (env : Env T) :
    TimedReturn (k.mutexLockSys env m (.condTimedwait c abstime rest)) k.cur c m abstime rest env ∨
    TimedLock (k.mutexLockSys env m (.condTimedwait c abstime rest)) k.cur c m abstime rest := by
  have hwait (p : Pc T) : (((k.suspendThread k.cur).insertPthreadList .mutex m
      k.cur).scheduling p).pc k.cur = p := by simp [insertPthreadList]
  unfold mutexLockSys
  dsimp only
  split
  · unfold takeMutex
    split
    · exact .inr (.inr (by simp))
    · have hown : ((k.setOwner m 1).mutex m).owner = some (k.setOwner m 1).cur := by
        simp [setOwner_mutex]
      have hreturn : TimedReturn ((k.setOwner m 1).lockReturn env m (.condTimedwait c abstime rest)
          .ok) (k.setOwner m 1).cur c m abstime rest env := lockReturn_timed hown
      rw [(setOwner_rest k).2.2.2.2.1] at hreturn
      exact .inl hreturn
  · rename_i owner ho
    split
    · rename_i hcur
      rw [hcur] at ho
      split
      · exact .inl (lockReturn_timed ho)
      · refine .inl (lockReturn_timed (k := (k.record (.acquire k.cur m)).setCounter m _) ?_)
        simpa using ho
      · exact .inr (.inl (hwait _))
    · exact .inr (.inl (hwait _))

theorem mutexUnlockSys_timed (k : Kernel T) (env : Env T) :
    TimedUnlock (k.mutexUnlockSys env m (.condTimedwait c abstime d)) k.cur c m abstime d := by
  have hreturn (k₁ : Kernel T) (r : Ret) (hcur : k₁.cur = k.cur) :
      TimedUnlock (k₁.unlockReturn env m (.condTimedwait c abstime d) r) k.cur c m abstime d := by
    refine .inr ?_
    rw [unlockReturn, (sleepFor_rest _ env _).1]
    exact hcur ▸ Function.update_self ..
  unfold mutexUnlockSys
  dsimp only
  split
  · exact hreturn k _ rfl
  · split
    · split
      · exact hreturn _ .ok (by simp)
      · have hf : WakeFrame k (k.wakeThreads .mutex m) := wakeAll_frame _ _ _ _
        unfold releaseMutex
        dsimp only
        split
        · refine .inl ?_
          rw [(scheduling_rest _).2.1, (clearOwner_rest _).2.2.2.2.1, hf.cur, Function.update_self]
        · exact hreturn _ .ok (by simp [hf.cur])
    · exact hreturn k _ rfl

omit [Fintype T] in
theorem TimedLock.resume (h : TimedLock k k.cur c m abstime rest) (ho : k.LockersOwn)
    (env : Env T) : TimedReturn (k.resume env) k.cur c m abstime rest env ∨
      TimedLock (k.resume env) k.cur c m abstime rest := by
  rcases h with hp | hp
  · rw [Kernel.resume, hp]
    exact mutexLockSys_timed k abstime rest env
  · have hown : (k.mutex m).owner = some k.cur := ho k.cur m (by rw [hp]; rfl)
    rw [Kernel.resume, hp]
    exact .inl (lockReturn_timed hown)

theorem step_inside (hs : k.step a = some k') (hp : k.pc k.cur ≠ .user) :
    k.resume a.env = k' := by
  cases a with
  | call c env =>
    rw [step, if_neg fun h => hp h.1] at hs
    contradiction
  | resume env =>
    rw [step, if_neg hp] at hs
    exact Option.some.inj hs
  | interrupt env =>
    rw [step, if_neg hp] at hs
    contradiction

theorem TimedLock.step (h : TimedLock k t c m abstime rest) (ho : k.LockersOwn)
    (hs : k.step a = some k') :
    TimedReturn k' t c m abstime rest a.env ∨ TimedLock k' t c m abstime rest := by
  by_cases ht : t = k.cur
  · subst ht
    have hp : k.pc k.cur ≠ .user := by
      intro hp
      rcases h with h | h
      · rw [hp] at h
        contradiction
      · rw [hp] at h
        contradiction
    rw [← step_inside hs hp]
    exact h.resume ho a.env
  · rw [TimedLock, step_pc hs ht]
    exact .inr h

theorem run_timedLock {z : Kernel T} {tr : List (Kernel T × Action T)} (hr : Run Kernel.step z tr k)
    (ho : z.LockersOwn)
    (hz : TimedReturn z t c m abstime rest env ∨ TimedLock z t c m abstime rest)
    (htr : ∀ e ∈ tr, e.1.pc t ≠ .user) :
    k.LockersOwn ∧ (TimedReturn k t c m abstime rest ((tr.head?.map (·.2.env)).getD env) ∨
      TimedLock k t c m abstime rest) := by
  induction hr with
  | start => exact ⟨ho, hz⟩
  | @next tr k a k' _ hs ih =>
    obtain ⟨hk, hin⟩ := ih fun e he => htr e (List.mem_cons_of_mem _ he)
    refine ⟨hk.step hs, ?_⟩
    have hp : k.pc t ≠ .user := htr (k, a) List.mem_cons_self
    rcases hin with hret | hlock
    · exact absurd hret.pc hp
    · exact hlock.step hk hs

def InTimedwait (k : Kernel T) (t : T) (c m : Nat) (abstime : Timespec) (d : Int) : Prop :=
  TimedUnlock k t c m abstime d ∨ (∃ rest, TimedLock k t c m abstime rest) ∨ k.pc t = .user

theorem InTimedwait.step (h : InTimedwait k t c m abstime d) (ho : k.LockersOwn)
    (hp : k.pc t ≠ .user) (hs : k.step a = some k') : InTimedwait k' t c m abstime d := by
  by_cases ht : t = k.cur
  · subst ht
    rcases h with (hpc | hpc) | ⟨rest, hlock⟩ | huser
    · rw [← step_inside hs hp, Kernel.resume, hpc]
      dsimp only
      refine .inl (.inr ?_)
      rw [unlockReturn, (sleepFor_rest _ a.env _).1]
      exact Function.update_self ..
    · rw [← step_inside hs hp, Kernel.resume, hpc]
      rcases mutexLockSys_timed (c := c) (m := m) (k.removePthreadList .cond c k.cur) abstime
        (sleepForResult d a.env) a.env with hret | hlock
      · exact .inr (.inr hret.pc)
      · exact .inr (.inl ⟨_, hlock⟩)
    · rcases hlock.step ho hs with hret | hlock
      · exact .inr (.inr hret.pc)
      · exact .inr (.inl ⟨rest, hlock⟩)
    · exact absurd huser hp
  · have hpc := step_pc hs ht
    rw [InTimedwait, TimedUnlock, hpc]
    refine h.imp_right (Or.imp_left ?_)
    rintro ⟨rest, hlock⟩
    refine ⟨rest, ?_⟩
    rwa [TimedLock, hpc]

end

end Kernel

-- ---------------------------------------------------------------------------
-- The verdict
-- ---------------------------------------------------------------------------

namespace CondTimedwait

open Kernel

variable {T : Type} [DecidableEq T] [Fintype T] {x : CondTimedwait T} {c : Config T}
  {tr : List (Kernel T × Action T)}

def rest (x : CondTimedwait T) : Int := sleepForResult x.duration x.wakeEnv

omit [DecidableEq T] [Fintype T] in
theorem rest_eq (x : CondTimedwait T) : x.rest = max 0 (x.duration - x.wakeEnv.monotonic) := by
  rw [rest, sleepForResult]
  split <;> omega

theorem Happens.entered (hx : x.Happens) :
    InTimedwait x.after x.thread x.cond x.mutex x.abstime x.duration := by
  have henter := hx.enter
  rw [step] at henter
  split at henter
  · rw [← Option.some.inj henter, call, Kernel.enter, condTimedwaitSys]
    split
    · exact .inl (mutexUnlockSys_timed _ _)
    · exact .inr (.inr (Function.update_self ..))
  · contradiction

theorem Happens.woken (hx : x.Happens) (ho : x.before.LockersOwn) :
    x.woken.LockersOwn ∧
      (TimedReturn x.woken x.thread x.cond x.mutex x.abstime x.rest x.wakeEnv ∨
        TimedLock x.woken x.thread x.cond x.mutex x.abstime x.rest) := by
  have hafter : x.after.LockersOwn := ho.step hx.enter
  have hasleep : x.asleep.LockersOwn ∧
      InTimedwait x.asleep x.thread x.cond x.mutex x.abstime x.duration :=
    hx.waits.invariant (I := fun k => k.LockersOwn ∧
        InTimedwait k x.thread x.cond x.mutex x.abstime x.duration)
      (C := fun k _ => k.pc x.thread ≠ .user) ⟨hafter, hx.entered⟩
      (fun _ _ _ h hp hs => ⟨h.1.step hs, h.2.step h.1 hp hs⟩) hx.inWait
  obtain ⟨hcur, htimed⟩ := hx.asleep
  have hpc : x.asleep.pc x.asleep.cur =
      .condTimedwait x.cond x.mutex x.abstime x.duration := by
    rw [hcur]
    rcases hasleep.2 with (hpc | hpc) | ⟨rest, hpc | hpc⟩ | hpc
    · rw [hpc] at htimed
      contradiction
    · exact hpc
    · rw [hpc] at htimed
      contradiction
    · rw [hpc] at htimed
      contradiction
    · rw [hpc] at htimed
      contradiction
  refine ⟨hasleep.1.step hx.wakes, ?_⟩
  have hgoes := step_inside hx.wakes (by rw [hpc]; simp)
  rw [← hgoes, Kernel.resume, hpc, ← hcur]
  exact mutexLockSys_timed (x.asleep.removePthreadList .cond x.cond x.asleep.cur) x.abstime x.rest
    x.wakeEnv

theorem Happens.returns (hx : x.Happens) (ho : x.before.LockersOwn) :
    TimedReturn x.last x.thread x.cond x.mutex x.abstime x.rest x.lastEnv := by
  obtain ⟨hlockers, hwoken⟩ := hx.woken ho
  rcases (run_timedLock hx.locks hlockers hwoken hx.inLock).2 with hret | hlock
  · exact hret
  · have huser := hx.returned
    rcases hlock with hpc | hpc
    · rw [huser] at hpc
      contradiction
    · rw [huser] at hpc
      contradiction

def steps (x : CondTimedwait T) (tr : List (Kernel T × Action T)) : List (Kernel T × Action T) :=
  x.locking ++ (x.asleep, .resume x.wakeEnv) :: x.waiting ++ (x.before, .call x.call x.env) :: tr

theorem Happens.run (hx : x.Happens) (hr : Run Kernel.step (boot c) tr x.before) :
    Run Kernel.step (boot c) (x.steps tr) x.last := by
  have hrun := (((hr.next hx.enter).append hx.waits).next hx.wakes).append hx.locks
  rwa [← List.cons_append, ← List.append_assoc] at hrun

/-- In a run in which no thread goes on from an untimed wait while it is linked, a timed wait does
what it should if and only if the condition holds. -/
theorem condTimedwait_iff (hr : Run Kernel.step (boot c) tr x.before) (hx : x.Happens)
    (hlists : ∀ e ∈ x.steps tr, ¬e.1.ResumesLinked e.2) : x.Right ↔ x.Admits := by
  have hret := hx.returns (run_lockersOwn hr)
  have hlog (r : Ret) : x.Returns r ↔
      r = if x.rest < x.lastEnv.monotonic then .fail .etimedout else .ok := by
    rw [Returns, hret.log, Option.some.injEq, Event.ret.injEq]
    exact ⟨fun h => h.2.2.symm, fun h => ⟨rfl, rfl, h.symm⟩⟩
  obtain ⟨L, hL⟩ := run_waits True (hx.run hr) fun e he => .inl ⟨trivial, hlists e he⟩
  have hunlinked (c : Nat) : ¬(x.last.lists .cond).Linked c x.thread := by
    intro hlinked
    have hwaits := hL.waits ((hL.models .cond).linked_iff.mp hlinked)
    rw [hx.returned] at hwaits
    contradiction
  rw [Admits, ← x.rest_eq]
  have htimedout : x.Returns (.fail .etimedout) ↔ x.rest < x.lastEnv.monotonic := by
    rw [hlog]
    split <;> simp_all
  constructor
  · intro h
    exact h.late.symm.trans htimedout
  · intro h
    refine ⟨htimedout.trans h.symm, fun hin => ?_, hret.owner, hunlinked⟩
    have hnot : ¬x.rest < x.lastEnv.monotonic := fun hlt => (h.mpr hlt).1 hin
    rw [hlog, if_neg hnot]

end CondTimedwait

def twoThreadsUnprotected : Config (Fin 3) :=
  { twoThreads with attr := fun _ => { prioProtection := .none } }

/-- Thread 1 waits until a deadline of 5 s, from realtime 0 on. -/
def untilFive : Action (Fin 3) := .call (.condTimedwait (some 0) (some 0) (some ⟨5, 0⟩)) {}

/-- The realtime clock reads 2 s, the monotonic one `clock`. -/
def atTwo (clock : Int) : Env (Fin 3) := { realtime := 2000000000, monotonic := clock }

theorem exec_signalled (clock : Int)
    (h : ((exec Kernel.step (Kernel.boot twoThreadsUnprotected) [.call (.mutexLock 0) {}]).any
      fun r => (r.2.step untilFive).any fun k =>
      (exec Kernel.step k [.call (.condSignal (some 0)) (atTwo clock)]).any fun q =>
      (q.2.step (.resume (atTwo clock))).any fun z =>
        decide ((∀ e ∈ r.1, e.2.targets = []) ∧
          (∀ e ∈ q.1, e.1.pc r.2.cur ≠ .user ∧ (e.1.lists .cond).head 0 = some r.2.cur) ∧
          (q.2.cur = r.2.cur ∧ (q.2.pc r.2.cur).timed) ∧ z.pc r.2.cur = .user)) = true) :
    ∃ tr, ∃ x : CondTimedwait (Fin 3),
      Run Kernel.step (Kernel.boot twoThreadsUnprotected) tr x.before ∧ x.Happens ∧ x.InTime ∧
      (∀ e ∈ x.steps tr, ¬e.1.ResumesLinked e.2) ∧ x.duration = 5000000000 ∧
      x.wakeEnv.monotonic = clock ∧ x.lastEnv.monotonic = clock := by
  obtain ⟨r, hr, h⟩ := (Option.any_eq_true _ _).mp h
  obtain ⟨k, hk, h⟩ := (Option.any_eq_true _ _).mp h
  obtain ⟨q, hq, h⟩ := (Option.any_eq_true _ _).mp h
  obtain ⟨z, hz, h⟩ := (Option.any_eq_true _ _).mp h
  obtain ⟨htargets, hwaiting, hasleep, hreturned⟩ := of_decide_eq_true h
  have hactions : q.1.map Prod.snd = [.call (.condSignal (some 0)) (atTwo clock)] :=
    exec_actions hq
  obtain ⟨e, he, hsignal⟩ := List.map_eq_singleton_iff.mp hactions
  let x : CondTimedwait (Fin 3) := ⟨0, 0, ⟨5, 0⟩, r.2, {}, k, q.1, q.2, atTwo clock, z, [], z⟩
  have hx : x.Happens := ⟨hk, exec_run hq, fun e he => (hwaiting e he).1, hasleep, hz, .start,
    fun e he => absurd he List.not_mem_nil, hreturned⟩
  have hrun : Run Kernel.step (Kernel.boot twoThreadsUnprotected) r.1 x.before := exec_run hr
  have hduration : x.duration = 5000000000 := by
    show int64 (5 * nsecsPerSec + 0 - 0) = _
    decide
  refine ⟨r.1, x, hrun, hx, ?_, ?_, hduration, rfl, rfl⟩
  · have hmem : e ∈ q.1 := he ▸ List.mem_singleton_self e
    refine ⟨e, hmem, ⟨atTwo clock, .inl ⟨hsignal, (hwaiting e hmem).2⟩⟩, ?_⟩
    rw [hsignal]
    show (2000000000 : Int) < 5 * nsecsPerSec + 0
    decide
  · refine Kernel.run_not_resumesLinked (hx.run hrun) fun e' he' => ?_
    have hnone : e'.2.targets = [] := by
      rcases List.mem_append.mp he' with he' | he'
      · rcases List.mem_cons.mp he' with rfl | he'
        · rfl
        · have hsame : e' ∈ [e] := he ▸ (show e' ∈ q.1 from he')
          rw [List.mem_singleton.mp hsame, hsignal]
          rfl
      · rcases List.mem_cons.mp he' with rfl | he'
        · rfl
        · exact htargets e' he'
    intro t ht
    rw [hnone] at ht
    contradiction

theorem condTimedwait_iff_signalled : ∃ tr, ∃ x : CondTimedwait (Fin 3),
    Run Kernel.step (Kernel.boot twoThreadsUnprotected) tr x.before ∧ x.Happens ∧ x.InTime ∧
    x.Right := by
  obtain ⟨tr, x, hr, hx, hin, hlists, hduration, hwake, hlast⟩ :=
    exec_signalled 2000000000 (by decide +kernel)
  refine ⟨tr, x, hr, hx, hin, (CondTimedwait.condTimedwait_iff hr hx hlists).mpr ?_⟩
  rw [CondTimedwait.Admits, hduration, hwake, hlast]
  exact iff_of_false (fun h => h.1 hin) (by decide)

/-- When the system has been up for 1002 seconds, the signal that comes 3 seconds before the deadline
is reported as a timeout. -/
theorem condTimedwait_wrong : ∃ tr, ∃ x : CondTimedwait (Fin 3),
    Run Kernel.step (Kernel.boot twoThreadsUnprotected) tr x.before ∧ x.Happens ∧ x.InTime ∧
    x.Returns (.fail .etimedout) ∧ ¬x.Right := by
  obtain ⟨tr, x, hr, hx, hin, -, hduration, hwake, hlast⟩ :=
    exec_signalled 1002000000000 (by decide +kernel)
  have hret := hx.returns (Kernel.run_lockersOwn hr)
  have hless : x.rest < x.lastEnv.monotonic := by
    rw [x.rest_eq, hduration, hwake, hlast]
    decide
  have htimedout : x.Returns (.fail .etimedout) := by
    rw [CondTimedwait.Returns, hret.log, if_pos hless]
    rfl
  refine ⟨tr, x, hr, hx, hin, htimedout, fun h => ?_⟩
  have hok := h.inTime hin
  rw [CondTimedwait.Returns, htimedout] at hok
  exact absurd (Option.some.inj hok) (by simp)

end Xmertl.Partikle
