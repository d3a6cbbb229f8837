import Mathlib.Algebra.Ring.Int.Defs
import Xmertl.Partikle.SemaphoreWakeups

/-!
# Timed waits on a semaphore

`sem_timedwait_sys` has two places where it takes a unit: before it turns interrupts off, and
when it goes on after it has slept. Nothing sets `time_error`, so that it returns 0 after every
sleep.

The kernel's step runs the part with interrupts on without interruption. Here each of its
accesses to the value is a step of its own, so that other threads' calls come between them.
-/

namespace Xmertl.Partikle

open Runs

/-- What a thread with interrupts on in `sem_timedwait_sys` does next: load the value, store the
loaded one less one, test the value again, or test the time and turn interrupts off. -/
inductive HeadPc
  | load
  | store (value : Int)
  | retest
  | check
  deriving DecidableEq

structure Head where
  pc : HeadPc
  sem : Nat
  abstime : Timespec

/-- The kernel, for which a thread in such a call is outside of the calls. -/
structure Heads (T : Type) where
  kernel : Kernel T
  head : T → Option Head

inductive HeadAction (T : Type)
  | kernel (a : Action T)
  /-- The current thread's next access. -/
  | head (env : Env T)

def Timespec.Invalid (t : Timespec) : Prop := t.tvNsec < 0 ∨ nsecsPerSec ≤ t.tvNsec

instance (t : Timespec) : Decidable t.Invalid := inferInstanceAs (Decidable (_ ∨ _))

namespace Heads

variable {T : Type} [DecidableEq T]

def cur (x : Heads T) : T := x.kernel.cur

def setHead (x : Heads T) (kernel : Kernel T) (head : Option Head) : Heads T :=
  ⟨kernel, Function.update x.head x.cur head⟩

def enter (x : Heads T) (s : Nat) (abstime : Timespec) : Heads T :=
  x.setHead (x.kernel.record (.call x.cur (.semTimedwait (some s) (some abstime))))
    (some ⟨if 0 < (x.kernel.sem s).value then .load else .check, s, abstime⟩)

def boot (c : Config T) : Heads T := ⟨Kernel.boot c, fun _ => none⟩

variable [Fintype T]

def advance (x : Heads T) (env : Env T) (h : Head) : Heads T :=
  let k := x.kernel
  let call := Call.semTimedwait (some h.sem) (some h.abstime)
  match h.pc with
  | .load => x.setHead k (some { h with pc := .store (k.sem h.sem).value })
  | .store value => x.setHead (k.setSem h.sem (int32 (value - 1))) (some { h with pc := .retest })
  | .retest =>
    if 0 < (k.sem h.sem).value then x.setHead (k.ret call .ok) none
    else x.setHead k (some { h with pc := .check })
  | .check =>
    if h.abstime.Invalid then x.setHead (k.ret call (.fail .einval)) none
    else
      x.setHead ((k.insertPthreadList .sem h.sem k.cur).sleepFor env
        (.semTimedwait h.sem h.abstime)) none

def step (x : Heads T) : HeadAction T → Option (Heads T)
  | .head env => (x.head x.cur).map (x.advance env)
  | .kernel (.call (.semTimedwait (some s) (some abstime)) _) =>
    if x.kernel.pc x.cur = .user ∧ x.cur ≠ x.kernel.sched.idleThread ∧ (x.head x.cur).isNone then
      some (x.enter s abstime)
    else none
  | .kernel (.interrupt env) =>
    (x.kernel.step (.interrupt env)).map fun k => { x with kernel := k }
  | .kernel a =>
    if (x.head x.cur).isNone then (x.kernel.step a).map fun k => { x with kernel := k } else none

end Heads

/-- A `sem_timedwait` of the current thread: the states before and after its first step, and
before and after each later one of its own. -/
structure Timedwait (T : Type) where
  sem : Option Nat
  abstime : Option Timespec
  before : Heads T
  after : Heads T
  own : List (Heads T × Heads T) := []

namespace Timedwait

variable {T : Type}

def thread (x : Timedwait T) : T := x.before.kernel.cur

def call (x : Timedwait T) : Call T := .semTimedwait x.sem x.abstime

def steps (x : Timedwait T) : List (Heads T × Heads T) := (x.before, x.after) :: x.own

def last (x : Timedwait T) : Heads T := (x.own.getLast?.map Prod.snd).getD x.after

def Returns (x : Timedwait T) (r : Ret) : Prop :=
  x.last.kernel.pc x.thread = .user ∧ x.last.head x.thread = none ∧
    x.last.kernel.log.head? = some (.ret x.thread x.call r)

def Slept (x : Timedwait T) : Prop := ∃ e ∈ x.own, e.2.kernel.pc x.thread ≠ .user

/-- The units that it has taken itself. -/
def taken (x : Timedwait T) : Int :=
  match x.sem with
  | none => 0
  | some s => (x.steps.map fun e => (e.1.kernel.sem s).value - (e.2.kernel.sem s).value).sum

/-- The call has left the values alone, and the lists but for its own thread. -/
def LeavesAlone (x : Timedwait T) : Prop :=
  (∀ e ∈ x.steps, e.2.kernel.sem = e.1.kernel.sem) ∧
    ((∀ e ∈ x.steps, e.2.kernel.lists .sem = e.1.kernel.lists .sem) ∨
      x.Slept ∧ ∀ s, ¬(x.last.kernel.lists .sem).Linked s x.thread)

structure Right (x : Timedwait T) : Prop where
  atOnce : ∀ s, x.sem = some s → x.abstime.isSome → 0 < (x.before.kernel.sem s).value →
    ¬x.Slept ∧ x.Returns .ok
  ok : ∀ r, x.Returns r → (r = .ok ↔ x.taken = 1)
  fails : ∀ r, x.Returns r → r ≠ .ok →
    (r = .fail .etimedout ∨ r = .fail .einval) ∧ x.LeavesAlone

/-- The condition on a call: there is a unit, the value that it stores less one is the
semaphore's still, and it finds another unit; or there is none and the time is refused, or none
and there is one when it goes on. -/
def Admits (x : Timedwait T) : Prop :=
  match x.sem, x.abstime with
  | some s, some abstime =>
    0 < (x.before.kernel.sem s).value ∧
        (∀ e ∈ x.own, ∀ value, e.1.head x.thread = some ⟨.store value, s, abstime⟩ →
          (e.1.kernel.sem s).value = value ∧ value ≠ -2147483648) ∧
        (∀ e ∈ x.own, e.1.head x.thread = some ⟨.retest, s, abstime⟩ →
          0 < (e.1.kernel.sem s).value) ∨
      (x.before.kernel.sem s).value ≤ 0 ∧ (abstime.Invalid ∨
        ∀ e ∈ x.own, e.1.kernel.pc x.thread = .semTimedwait s abstime →
          0 < (e.1.kernel.sem s).value)
  | _, _ => True

variable [DecidableEq T] [Fintype T]

def Other (t : T) (e : Heads T × HeadAction T) : Prop :=
  e.1.cur ≠ t ∨ ∃ env, e.2 = .kernel (.interrupt env)

/-- A call of thread `t` goes on by the steps `own`, other threads' steps and interrupts between
them. -/
inductive GoesOn (t : T) : Heads T → List (Heads T × Heads T) → Prop
  | stays : GoesOn t x []
  | goes : ((x.head t).isSome ∨ x.kernel.pc t ≠ .user) → Run Heads.step x tr y →
      (∀ e ∈ tr, Other t e) → ¬Other t (y, a) → y.step a = some z → GoesOn t z rest →
      GoesOn t x ((y, z) :: rest)

/-- The states are those of a run, and the call is past its part with interrupts on. -/
structure Happens (x : Timedwait T) : Prop where
  enter : ∃ env, x.before.step (.kernel (.call x.call env)) = some x.after
  goesOn : GoesOn x.thread x.after x.own
  past : x.last.head x.thread = none

end Timedwait

namespace Kernel

variable {T : Type} [DecidableEq T] [Fintype T] {k : Kernel T} {s : Nat}

omit [Fintype T] in
theorem ret_last (k : Kernel T) (c : Call T) (r : Ret) :
    (k.ret c r).pc k.cur = .user ∧ (k.ret c r).log.head? = some (.ret k.cur c r) ∧
      (k.ret c r).sem = k.sem ∧ (k.ret c r).lists = k.lists :=
  ⟨Function.update_self .., rfl, rfl, rfl⟩

omit [Fintype T] in
theorem semTimedwaitEnd_spec (abstime : Timespec) (hv : k.IntValue s) :
    (k.semTimedwaitEnd s abstime).pc k.cur = .user ∧
      (k.semTimedwaitEnd s abstime).log.head? =
        some (.ret k.cur (.semTimedwait (some s) (some abstime)) .ok) ∧
      ((k.semTimedwaitEnd s abstime).sem s).value =
        if 0 < (k.sem s).value then (k.sem s).value - 1 else (k.sem s).value := by
  have hremoved : (k.removePthreadList .sem s k.cur).IntValue s := hv.of_eq rfl
  have hcur : ((k.removePthreadList .sem s k.cur).semTimedwaitTake s).cur = k.cur :=
    (semTimedwaitTake_rest _).1
  obtain ⟨hpc, hlog, hsem, -⟩ := ret_last ((k.removePthreadList .sem s k.cur).semTimedwaitTake s)
    (.semTimedwait (some s) (some abstime)) .ok
  rw [hcur] at hpc hlog
  refine ⟨hpc, hlog, ?_⟩
  rw [semTimedwaitEnd, hsem, semTimedwaitTake_value hremoved]
  rfl

/-- A wrapped decrement that is stored over `w` has taken one unit just if `w` is what was
loaded, and the least value did not wrap around. -/
theorem int32_pred_taken {v w : Int} (hv : -2147483648 ≤ v ∧ v ≤ 2147483647)
    (hw : -2147483648 ≤ w ∧ w ≤ 2147483647) :
    w - int32 (v - 1) = 1 ↔ w = v ∧ v ≠ -2147483648 := by
  by_cases hmin : v = -2147483648
  · subst hmin
    have hwrap : int32 (-2147483648 - 1) = 2147483647 := by decide
    rw [hwrap]
    refine iff_of_false (by omega) fun h => h.2 rfl
  · rw [int32_pred (by omega) hv.2]
    omega

end Kernel

namespace Heads

variable {T : Type} [DecidableEq T] [Fintype T] {x y z : Heads T} {k k' : Kernel T} {s : Nat}
  {env : Env T} {abstime : Timespec} {t : T} {a : HeadAction T} {h : Head}

-- ---------------------------------------------------------------------------
-- One step
-- ---------------------------------------------------------------------------

omit [Fintype T] in
@[simp] theorem setHead_self (x : Heads T) (k : Kernel T) (h : Option Head) :
    (x.setHead k h).head x.cur = h := Function.update_self ..

omit [Fintype T] in
theorem setHead_of_ne (ht : t ≠ x.cur) (k : Kernel T) (h : Option Head) :
    (x.setHead k h).head t = x.head t := Function.update_of_ne ht ..

theorem step_cases (hs : x.step a = some y) :
    (∃ b, a = .kernel b ∧ x.kernel.step b = some y.kernel ∧ y.head = x.head ∧
      ((∃ env, b = .interrupt env) ∨ x.head x.cur = none)) ∨
    (∃ s abstime env, a = .kernel (.call (.semTimedwait (some s) (some abstime)) env) ∧
      x.kernel.pc x.cur = .user ∧ x.head x.cur = none ∧ y = x.enter s abstime) ∨
    ∃ env h, a = .head env ∧ x.head x.cur = some h ∧ y = x.advance env h := by
  cases a with
  | head env =>
    obtain ⟨h, hh, rfl⟩ := Option.map_eq_some_iff.mp hs
    exact .inr (.inr ⟨env, h, rfl, hh, rfl⟩)
  | kernel b =>
    have hplain (hs : (if (x.head x.cur).isNone then
        (x.kernel.step b).map fun k => ({ x with kernel := k } : Heads T) else none) = some y) :
        x.kernel.step b = some y.kernel ∧ y.head = x.head ∧ x.head x.cur = none := by
      split at hs
      · rename_i hnone
        obtain ⟨k, hk, rfl⟩ := Option.map_eq_some_iff.mp hs
        exact ⟨hk, rfl, Option.isNone_iff_eq_none.mp hnone⟩
      · contradiction
    have hkernel : (x.kernel.step b = some y.kernel ∧ y.head = x.head ∧ x.head x.cur = none) →
        ∃ b', HeadAction.kernel b = .kernel b' ∧ x.kernel.step b' = some y.kernel ∧
          y.head = x.head ∧ ((∃ env, b' = .interrupt env) ∨ x.head x.cur = none) :=
      fun ⟨hk, hhead, hnone⟩ => ⟨b, rfl, hk, hhead, .inr hnone⟩
    cases b with
    | interrupt env =>
      obtain ⟨k, hk, rfl⟩ := Option.map_eq_some_iff.mp hs
      exact .inl ⟨_, rfl, hk, rfl, .inl ⟨env, rfl⟩⟩
    | resume env => exact .inl (hkernel (hplain hs))
    | call c env =>
      cases c with
      | semTimedwait s abstime =>
        cases s with
        | none => exact .inl (hkernel (hplain hs))
        | some s =>
          cases abstime with
          | none => exact .inl (hkernel (hplain hs))
          | some abstime =>
            rw [step] at hs
            split at hs
            · rename_i hcond
              exact .inr (.inl ⟨s, abstime, env, rfl, hcond.1,
                Option.isNone_iff_eq_none.mp hcond.2.2, (Option.some.inj hs).symm⟩)
            · contradiction
      | _ => exact .inl (hkernel (hplain hs))

theorem intValue_step (hv : x.kernel.IntValue s) (hs : x.step a = some y) :
    y.kernel.IntValue s := by
  rcases step_cases hs with ⟨b, -, hk, -⟩ | ⟨s', abstime, env, -, -, -, rfl⟩ | ⟨env, h, -, -, rfl⟩
  · exact hv.step hk
  · exact hv
  · have hself (k : Kernel T) (h : Option Head) (hk : k.IntValue s) :
        (x.setHead k h).kernel.IntValue s := hk
    unfold advance
    dsimp only
    split
    · exact hv
    · rename_i value _
      by_cases hs : s = h.sem
      · exact hs ▸ Kernel.IntValue.int32 x.kernel (value - 1)
      · exact hv.of_eq (Function.update_of_ne hs ..)
    · split
      · exact hv.of_eq rfl
      · exact hv
    · split
      · exact hv.of_eq rfl
      · exact hv.of_eq (congrFun (Kernel.sleepFor_rest _ env _).2.1 s)

theorem intValue_run {c : Config T} {tr : List (Heads T × HeadAction T)}
    (hr : Run step (boot c) tr x) (s : Nat) : x.kernel.IntValue s :=
  hr.invariant (I := fun x => x.kernel.IntValue s) (C := fun _ _ => True) (Kernel.boot_served c).2
    (fun _ _ _ h _ hs => intValue_step h hs) fun _ _ => trivial

omit [Fintype T] in
theorem advance_other (ht : t ≠ x.cur) :
    (x.advance env h).head t = x.head t ∧ (x.advance env h).kernel.pc t = x.kernel.pc t := by
  have hne : t ≠ x.kernel.cur := ht
  unfold advance
  dsimp only
  split
  · exact ⟨setHead_of_ne ht .., rfl⟩
  · exact ⟨setHead_of_ne ht .., rfl⟩
  · split
    · exact ⟨setHead_of_ne ht .., Function.update_of_ne hne ..⟩
    · exact ⟨setHead_of_ne ht .., rfl⟩
  · split
    · exact ⟨setHead_of_ne ht .., Function.update_of_ne hne ..⟩
    · refine ⟨setHead_of_ne ht .., ?_⟩
      exact (congrFun (Kernel.sleepFor_rest _ env _).1 t).trans (Function.update_of_ne hne ..)

theorem step_other (ho : Timedwait.Other t (x, a)) (hs : x.step a = some y) :
    y.head t = x.head t ∧ y.kernel.pc t = x.kernel.pc t := by
  have hcall (hno : ∀ env, a ≠ .kernel (.interrupt env)) : t ≠ x.cur := by
    rintro rfl
    rcases ho with hne | ⟨env, henv⟩
    · exact hne rfl
    · exact hno env henv
  rcases step_cases hs with ⟨b, rfl, hk, hhead, -⟩ | ⟨s, abstime, env, rfl, -, -, rfl⟩ |
    ⟨env, h, rfl, -, rfl⟩
  · refine ⟨congrFun hhead t, ?_⟩
    by_cases hb : ∃ env, b = .interrupt env
    · obtain ⟨env, rfl⟩ := hb
      rw [Kernel.step] at hk
      split at hk
      · rw [← Option.some.inj hk]
        exact congrFun (Kernel.updateHwtimer_frame x.kernel env).pc t
      · contradiction
    · refine Kernel.step_pc hk (hcall fun env he => hb ⟨env, ?_⟩)
      exact HeadAction.kernel.inj he
  · exact ⟨setHead_of_ne (hcall fun env he => by cases he) .., rfl⟩
  · exact advance_other (hcall fun env he => by cases he)

theorem run_other {tr : List (Heads T × HeadAction T)} (hr : Run step x tr y)
    (ho : ∀ e ∈ tr, Timedwait.Other t e) : y.head t = x.head t ∧ y.kernel.pc t = x.kernel.pc t :=
  hr.invariant (I := fun y => y.head t = x.head t ∧ y.kernel.pc t = x.kernel.pc t)
    (C := fun y a => Timedwait.Other t (y, a)) ⟨rfl, rfl⟩
    (fun _ _ _ h ho hs => ⟨(step_other ho hs).1.trans h.1, (step_other ho hs).2.trans h.2⟩) ho

end Heads

namespace Timedwait

open Heads

variable {T : Type} [DecidableEq T] [Fintype T] {x y z : Heads T} {s : Nat} {abstime : Timespec}
  {t : T} {a : HeadAction T} {h : Head} {own : List (Heads T × Heads T)}

-- ---------------------------------------------------------------------------
-- A call's own steps
-- ---------------------------------------------------------------------------

/-- The last state of a call that goes on from `x`. -/
def lastOf (x : Heads T) (own : List (Heads T × Heads T)) : Heads T :=
  (own.getLast?.map Prod.snd).getD x

omit [DecidableEq T] [Fintype T] in
@[simp] theorem lastOf_cons : lastOf x ((y, z) :: own) = lastOf z own := by
  cases own with
  | nil => rfl
  | cons e own => simp [lastOf, List.getLast?_cons_cons]; rfl

omit [Fintype T] in
theorem own_cur (hn : ¬Other t (y, a)) : y.cur = t := by
  by_contra hne
  exact hn (.inl hne)

theorem GoesOn.next (hg : GoesOn t x own) (hv : x.kernel.IntValue s) : own = [] ∨
    ∃ y z a rest, own = (y, z) :: rest ∧ y.head t = x.head t ∧ y.kernel.pc t = x.kernel.pc t ∧
      y.cur = t ∧ y.kernel.IntValue s ∧ ¬Other t (y, a) ∧ y.step a = some z ∧ GoesOn t z rest ∧
      ((x.head t).isSome ∨ x.kernel.pc t ≠ .user) := by
  cases hg with
  | stays => exact .inl rfl
  | @goes _ tr y a z rest hgoing hr ho hn hs hrest =>
    obtain ⟨hhead, hpc⟩ := run_other hr ho
    have hvy : y.kernel.IntValue s :=
      hr.invariant (I := fun x => x.kernel.IntValue s) (C := fun _ _ => True) hv
        (fun _ _ _ h _ hs => intValue_step h hs) fun _ _ => trivial
    exact .inr ⟨y, z, a, rest, rfl, hhead, hpc, own_cur hn, hvy, hn, hs, hrest, hgoing⟩

theorem GoesOn.access (hg : GoesOn t x own) (hh : x.head t = some h) (hv : x.kernel.IntValue s)
    (hpast : (lastOf x own).head t = none) : ∃ y env rest, own = (y, y.advance env h) :: rest ∧
      y.head t = some h ∧ y.kernel.pc t = x.kernel.pc t ∧ y.cur = t ∧ y.kernel.IntValue s ∧
      (y.advance env h).kernel.IntValue s ∧ GoesOn t (y.advance env h) rest ∧
      (lastOf (y.advance env h) rest).head t = none := by
  rcases hg.next hv with rfl | ⟨y, z, a, rest, rfl, hhead, hpc, hcur, hvy, hn, hs, hrest, -⟩
  · rw [show lastOf x [] = x from rfl, hh] at hpast
    contradiction
  · rw [lastOf_cons] at hpast
    rw [hh] at hhead
    rcases step_cases hs with ⟨b, rfl, -, -, hb⟩ | ⟨s, abstime, env, -, -, hnone, -⟩ |
      ⟨env, h', -, hh', rfl⟩
    · rcases hb with ⟨env, rfl⟩ | hnone
      · exact absurd (.inr ⟨env, rfl⟩) hn
      · rw [hcur, hhead] at hnone
        contradiction
    · rw [hcur, hhead] at hnone
      contradiction
    · rw [hcur, hhead] at hh'
      obtain rfl := Option.some.inj hh'
      exact ⟨y, env, rest, rfl, hhead, hpc, hcur, hvy, intValue_step hvy hs, hrest, hpast⟩

theorem GoesOn.over (hg : GoesOn t x own) (hh : x.head t = none) (hpc : x.kernel.pc t = .user) :
    own = [] := by
  cases hg with
  | stays => rfl
  | goes hgoing =>
    rcases hgoing with hsome | hne
    · rw [hh] at hsome
      contradiction
    · exact absurd hpc hne

/-- The call has returned `r` with this step. -/
structure Returning (t : T) (s : Nat) (abstime : Timespec) (r : Ret) (z : Heads T) : Prop where
  pc : z.kernel.pc t = .user
  head : z.head t = none
  log : z.kernel.log.head? = some (.ret t (.semTimedwait (some s) (some abstime)) r)

omit [Fintype T] in
theorem returning_ret (x : Heads T) (k : Kernel T) (hk : k.cur = x.cur) (r : Ret) :
    Returning x.cur s abstime r
      (x.setHead (k.ret (.semTimedwait (some s) (some abstime)) r) none) := by
  refine ⟨?_, setHead_self .., ?_⟩
  · exact hk ▸ Function.update_self ..
  · rw [← hk]
    rfl

theorem GoesOn.wakes (hg : GoesOn t x own) (hh : x.head t = none)
    (hpc : x.kernel.pc t = .semTimedwait s abstime) (hv : x.kernel.IntValue s) : own = [] ∨
    ∃ y z, own = [(y, z)] ∧ y.head t = none ∧ y.kernel.pc t = .semTimedwait s abstime ∧
      Returning t s abstime .ok z ∧ (z.kernel.sem s).value =
        if 0 < (y.kernel.sem s).value then (y.kernel.sem s).value - 1
        else (y.kernel.sem s).value := by
  rcases hg.next hv with rfl | ⟨y, z, a, rest, rfl, hhead, hypc, hcur, hvy, hn, hs, hrest, -⟩
  · exact .inl rfl
  · rw [hh] at hhead
    rw [hpc] at hypc
    have hcur' : y.kernel.cur = t := hcur
    rcases step_cases hs with ⟨b, rfl, hk, hsame, -⟩ | ⟨s, abstime, env, -, hp, -⟩ |
      ⟨env, h', -, hh', -⟩
    · have hz : ∃ env, b = .resume env := by
        cases b with
        | resume env => exact ⟨env, rfl⟩
        | interrupt env => exact absurd (.inr ⟨env, rfl⟩) hn
        | call c env =>
          rw [Kernel.step, if_neg] at hk
          · contradiction
          · rw [hcur', hypc]
            simp
      obtain ⟨env, rfl⟩ := hz
      rw [Kernel.step, if_neg (by rw [hcur', hypc]; simp)] at hk
      have hz := Option.some.inj hk
      rw [Kernel.resume, hcur', hypc] at hz
      dsimp only at hz
      obtain ⟨hzpc, hlog, hvalue⟩ := Kernel.semTimedwaitEnd_spec abstime hvy
      rw [hz] at hzpc hlog hvalue
      rw [hcur'] at hzpc hlog
      have hret : Returning t s abstime .ok z := ⟨hzpc, (congrFun hsame t).trans hhead, hlog⟩
      obtain rfl := hrest.over hret.head hret.pc
      exact .inr ⟨y, z, rfl, hhead, hypc, hret, hvalue⟩
    · rw [hcur, hypc] at hp
      contradiction
    · rw [hcur, hhead] at hh'
      contradiction

theorem GoesOn.checks (hg : GoesOn t x own) (hh : x.head t = some ⟨.check, s, abstime⟩)
    (hpc : x.kernel.pc t = .user) (hv : x.kernel.IntValue s)
    (hpast : (lastOf x own).head t = none) : ∃ y z rest, own = (y, z) :: rest ∧
      y.head t = some ⟨.check, s, abstime⟩ ∧ y.kernel.pc t = .user ∧
      z.kernel.sem = y.kernel.sem ∧
      (abstime.Invalid ∧ rest = [] ∧ Returning t s abstime (.fail .einval) z ∧
          z.kernel.lists = y.kernel.lists ∨
        ¬abstime.Invalid ∧ z.kernel.pc t = .semTimedwait s abstime ∧ (rest = [] ∨
          ∃ y' z', rest = [(y', z')] ∧ y'.head t = none ∧
            y'.kernel.pc t = .semTimedwait s abstime ∧ Returning t s abstime .ok z' ∧
            (z'.kernel.sem s).value =
              if 0 < (y'.kernel.sem s).value then (y'.kernel.sem s).value - 1
              else (y'.kernel.sem s).value)) := by
  obtain ⟨y, env, rest, rfl, hhead, hypc, hcur, -, hvz, hrest, -⟩ := hg.access hh hv hpast
  rw [hpc] at hypc
  subst hcur
  by_cases hi : abstime.Invalid
  · have hz : y.advance env ⟨.check, s, abstime⟩ = y.setHead
        (y.kernel.ret (.semTimedwait (some s) (some abstime)) (.fail .einval)) none := if_pos hi
    have hret : Returning y.cur s abstime (.fail .einval)
        (y.advance env ⟨.check, s, abstime⟩) := by
      rw [hz]
      exact returning_ret y y.kernel rfl (.fail .einval)
    refine ⟨y, _, rest, rfl, hhead, hypc, by rw [hz]; rfl,
      .inl ⟨hi, hrest.over hret.head hret.pc, hret, by rw [hz]; rfl⟩⟩
  · have hz : y.advance env ⟨.check, s, abstime⟩ = y.setHead
        ((y.kernel.insertPthreadList .sem s y.kernel.cur).sleepFor env
          (.semTimedwait s abstime)) none := if_neg hi
    obtain ⟨hspc, hsem, -⟩ := Kernel.sleepFor_rest
      (y.kernel.insertPthreadList .sem s y.kernel.cur) env (.semTimedwait s abstime)
    have hzpc : (y.advance env ⟨.check, s, abstime⟩).kernel.pc y.cur = .semTimedwait s abstime := by
      rw [hz]
      exact (congrFun hspc _).trans (Function.update_self ..)
    have hzhead : (y.advance env ⟨.check, s, abstime⟩).head y.cur = none := by
      rw [hz]
      exact setHead_self ..
    refine ⟨y, _, rest, rfl, hhead, hypc, by rw [hz]; exact hsem, .inr ⟨hi, hzpc, ?_⟩⟩
    exact hrest.wakes hzhead hzpc hvz

theorem GoesOn.decrements (hg : GoesOn t x own) (hh : x.head t = some ⟨.load, s, abstime⟩)
    (hpc : x.kernel.pc t = .user) (hv : x.kernel.IntValue s)
    (hpast : (lastOf x own).head t = none) : ∃ y₁ z₁ y₂ z₂ y₃ env rest,
      own = (y₁, z₁) :: (y₂, z₂) :: (y₃, y₃.advance env ⟨.retest, s, abstime⟩) :: rest ∧
      (y₁.head t = some ⟨.load, s, abstime⟩ ∧ y₁.kernel.IntValue s ∧
        z₁.kernel.pc t = .user ∧ z₁.kernel.sem = y₁.kernel.sem) ∧
      (y₂.head t = some ⟨.store (y₁.kernel.sem s).value, s, abstime⟩ ∧ y₂.kernel.IntValue s ∧
        z₂.kernel.pc t = .user ∧
        (z₂.kernel.sem s).value = int32 ((y₁.kernel.sem s).value - 1)) ∧
      y₃.head t = some ⟨.retest, s, abstime⟩ ∧ y₃.kernel.pc t = .user ∧ y₃.cur = t ∧
      (y₃.advance env ⟨.retest, s, abstime⟩).kernel.IntValue s ∧
      GoesOn t (y₃.advance env ⟨.retest, s, abstime⟩) rest ∧
      (lastOf (y₃.advance env ⟨.retest, s, abstime⟩) rest).head t = none := by
  -- the load
  obtain ⟨y₁, env₁, own₁, rfl, hhead₁, hpc₁, hcur₁, hv₁, hvz₁, hgo₁, hpast₁⟩ :=
    hg.access hh hv hpast
  have hz₁ : (y₁.advance env₁ ⟨.load, s, abstime⟩).head t =
      some ⟨.store (y₁.kernel.sem s).value, s, abstime⟩ := hcur₁ ▸ setHead_self ..
  have hpcz₁ : (y₁.advance env₁ ⟨.load, s, abstime⟩).kernel.pc t = .user := hpc₁.trans hpc
  -- the store
  obtain ⟨y₂, env₂, own₂, rfl, hhead₂, hpc₂, hcur₂, hv₂, hvz₂, hgo₂, hpast₂⟩ :=
    hgo₁.access hz₁ hvz₁ hpast₁
  have hz₂ : (y₂.advance env₂ ⟨.store (y₁.kernel.sem s).value, s, abstime⟩).head t =
      some ⟨.retest, s, abstime⟩ := hcur₂ ▸ setHead_self ..
  have hpcz₂ : (y₂.advance env₂
      ⟨.store (y₁.kernel.sem s).value, s, abstime⟩).kernel.pc t = .user := hpc₂.trans hpcz₁
  have hvalue₂ : ((y₂.advance env₂
      ⟨.store (y₁.kernel.sem s).value, s, abstime⟩).kernel.sem s).value =
        int32 ((y₁.kernel.sem s).value - 1) := by
    have hkernel : (y₂.advance env₂ ⟨.store (y₁.kernel.sem s).value, s, abstime⟩).kernel =
        y₂.kernel.setSem s (int32 ((y₁.kernel.sem s).value - 1)) := rfl
    rw [hkernel, Kernel.setSem_sem, Function.update_self]
  -- the second test
  obtain ⟨y₃, env₃, own₃, rfl, hhead₃, hpc₃, hcur₃, -, hvz₃, hgo₃, hpast₃⟩ :=
    hgo₂.access hz₂ hvz₂ hpast₂
  exact ⟨y₁, _, y₂, _, y₃, env₃, own₃, rfl, ⟨hhead₁, hv₁, hpcz₁, rfl⟩,
    ⟨hhead₂, hv₂, hpcz₂, hvalue₂⟩, hhead₃, hpc₃.trans hpcz₂, hcur₃, hvz₃, hgo₃, hpast₃⟩

-- ---------------------------------------------------------------------------
-- The call
-- ---------------------------------------------------------------------------

section
variable {x : Timedwait T} {r : Ret}

omit [DecidableEq T] [Fintype T] in
theorem Returns.unique {r' : Ret} (h : x.Returns r) (h' : x.Returns r') : r = r' := by
  have heq := h.2.2.symm.trans h'.2.2
  exact (Event.ret.inj (Option.some.inj heq)).2.2

omit [DecidableEq T] [Fintype T] in
theorem Returns.right_iff (h : x.Returns r) : x.Right ↔
    (∀ s, x.sem = some s → x.abstime.isSome → 0 < (x.before.kernel.sem s).value →
      ¬x.Slept ∧ r = .ok) ∧ (r = .ok ↔ x.taken = 1) ∧
      (r ≠ .ok → (r = .fail .etimedout ∨ r = .fail .einval) ∧ x.LeavesAlone) := by
  constructor
  · intro hx
    refine ⟨fun s hs ha hpos => ?_, hx.ok r h, hx.fails r h⟩
    obtain ⟨hslept, hok⟩ := hx.atOnce s hs ha hpos
    exact ⟨hslept, h.unique hok⟩
  · rintro ⟨hatOnce, hok, hfails⟩
    refine ⟨fun s hs ha hpos => ?_, fun r' h' => ?_, fun r' h' => ?_⟩
    · obtain ⟨hslept, rfl⟩ := hatOnce s hs ha hpos
      exact ⟨hslept, h⟩
    · obtain rfl := h.unique h'
      exact hok
    · obtain rfl := h.unique h'
      exact hfails

omit [DecidableEq T] [Fintype T] in
theorem right_of_asleep (h : x.last.kernel.pc x.thread ≠ .user)
    (hnone : ∀ s, x.sem = some s → (x.before.kernel.sem s).value ≤ 0) : x.Right :=
  ⟨fun s hs _ hpos => absurd (hnone s hs) (Int.not_le.mpr hpos), fun _ hr => absurd hr.1 h,
    fun _ hr => absurd hr.1 h⟩

omit [DecidableEq T] [Fintype T] in
theorem Returning.returns {z : Heads T} (h : Returning x.thread s abstime r z) (hs : x.sem = some s)
    (ha : x.abstime = some abstime) (hlast : x.last = z) : x.Returns r := by
  subst hlast
  rw [Returns, call, hs, ha]
  exact ⟨h.pc, h.head, h.log⟩

theorem Happens.right_null (hx : x.Happens) (h : x.sem = none ∨ x.abstime = none) :
    x.Right := by
  obtain ⟨env, henter⟩ := hx.enter
  have hk : x.before.kernel.step (.call x.call env) = some x.after.kernel ∧
      x.after.head = x.before.head ∧ x.before.head x.thread = none := by
    rcases step_cases henter with ⟨b, hb, hk, hhead, hor⟩ | ⟨s, abstime, _, ha, -⟩ |
      ⟨_, _, ha, -⟩
    · obtain rfl := HeadAction.kernel.inj hb
      refine ⟨hk, hhead, hor.resolve_left ?_⟩
      rintro ⟨env, he⟩
      cases he
    · have hcall := (Action.call.inj (HeadAction.kernel.inj ha)).1
      rw [call] at hcall
      obtain ⟨hs, habs⟩ := Call.semTimedwait.inj hcall
      rcases h with h | h
      · rw [h] at hs
        contradiction
      · rw [h] at habs
        contradiction
    · cases ha
  obtain ⟨hk, hhead, hnone⟩ := hk
  have hafter : x.after.kernel =
      (x.before.kernel.record (.call x.thread x.call)).ret x.call (.fail .einval) := by
    rw [Kernel.step] at hk
    split at hk
    · rw [← Option.some.inj hk, Kernel.enter.eq_def, call]
      rcases h with h | h
      · rw [h]
        cases x.abstime <;> rfl
      · rw [h]
        cases x.sem <;> rfl
    · contradiction
  obtain ⟨hpc, hlog, -⟩ := Kernel.ret_last (x.before.kernel.record (.call x.thread x.call)) x.call
    (.fail .einval)
  rw [← hafter] at hpc hlog
  have hown : x.own = [] := hx.goesOn.over ((congrFun hhead _).trans hnone) hpc
  have hlast : x.last = x.after := by rw [last, hown]; rfl
  have hret : x.Returns (.fail .einval) := by
    rw [Returns, hlast]
    exact ⟨hpc, (congrFun hhead _).trans hnone, hlog⟩
  have hsem : x.after.kernel.sem = x.before.kernel.sem := by rw [hafter]; rfl
  refine hret.right_iff.mpr ⟨fun s hs ha _ => ?_, iff_of_false (by decide) ?_,
    fun _ => ⟨.inr rfl, ?_⟩⟩
  · rcases h with h | h
    · rw [h] at hs
      contradiction
    · rw [h] at ha
      contradiction
  · rw [taken, steps, hown]
    cases x.sem with
    | none => exact zero_ne_one
    | some s => simp [hsem]
  · refine ⟨?_, .inl ?_⟩ <;> rw [steps, hown] <;> simp only [List.forall_mem_singleton]
    · exact hsem
    · rw [hafter]
      rfl

theorem Happens.entered (hx : x.Happens) (hs : x.sem = some s) (ha : x.abstime = some abstime) :
    x.after = x.before.enter s abstime ∧ x.after.kernel.pc x.thread = .user := by
  obtain ⟨env, henter⟩ := hx.enter
  rw [call, hs, ha] at henter
  rcases step_cases henter with ⟨b, hb, hk, hhead, -⟩ | ⟨s, abstime, _, hc, hpc, -, heq⟩ |
    ⟨_, _, hc, -⟩
  · obtain rfl := HeadAction.kernel.inj hb
    rw [step] at henter
    split at henter
    · rename_i hcond
      rw [← Option.some.inj henter]
      exact ⟨rfl, hcond.1⟩
    · contradiction
  · obtain ⟨hs', ha'⟩ := Call.semTimedwait.inj (Action.call.inj (HeadAction.kernel.inj hc)).1
    obtain rfl := Option.some.inj hs'
    obtain rfl := Option.some.inj ha'
    exact ⟨heq, heq ▸ hpc⟩
  · cases hc

theorem Happens.entered_head (hx : x.Happens) (hs : x.sem = some s) (ha : x.abstime = some abstime) :
    x.after.head x.thread =
      some ⟨if 0 < (x.before.kernel.sem s).value then .load else .check, s, abstime⟩ := by
  rw [(hx.entered hs ha).1]
  exact setHead_self ..

theorem Happens.right_none (hx : x.Happens) (hs : x.sem = some s) (ha : x.abstime = some abstime)
    (hv : x.before.kernel.IntValue s) (hle : (x.before.kernel.sem s).value ≤ 0) : x.Right ↔
      abstime.Invalid ∨ ∀ e ∈ x.own, e.1.kernel.pc x.thread = .semTimedwait s abstime →
        0 < (e.1.kernel.sem s).value := by
  obtain ⟨hafter, hpc⟩ := hx.entered hs ha
  have hhead : x.after.head x.thread = some ⟨.check, s, abstime⟩ := by
    rw [hx.entered_head hs ha, if_neg (Int.not_lt.mpr hle)]
  have hsem : x.after.kernel.sem = x.before.kernel.sem := by rw [hafter]; rfl
  have hlists : x.after.kernel.lists = x.before.kernel.lists := by rw [hafter]; rfl
  have hva : x.after.kernel.IntValue s := hv.of_eq (congrFun hsem s)
  have hnone (s' : Nat) (hs' : x.sem = some s') : (x.before.kernel.sem s').value ≤ 0 := by
    obtain rfl := Option.some.inj (hs.symm.trans hs')
    exact hle
  obtain ⟨y, z, rest, hown, hyhead, hypc, hzsem, ⟨hi, rfl, hret, hzlists⟩ | ⟨hi, hzpc, hrest⟩⟩ :=
    hx.goesOn.checks hhead hpc hva hx.past
  · have hreturns : x.Returns (.fail .einval) := hret.returns hs ha (by rw [last, hown]; rfl)
    refine iff_of_true (hreturns.right_iff.mpr ⟨fun s' hs' _ hpos => ?_,
      iff_of_false (by decide) ?_, fun _ => ⟨.inr rfl, ?_, .inl ?_⟩⟩) (.inl hi)
    · exact absurd (hnone s' hs') (Int.not_le.mpr hpos)
    · simp [taken, hs, steps, hown, hsem, hzsem]
    · simp [steps, hown, hsem, hzsem]
    · simp [steps, hown, hlists, hzlists]
  · rcases hrest with rfl | ⟨y', z', rfl, hy'head, hy'pc, hret, hvalue⟩
    · refine iff_of_true (right_of_asleep ?_ hnone) (.inr ?_)
      · rw [last, hown, List.getLast?_singleton, Option.map_some, Option.getD_some, hzpc]
        simp
      · rw [hown]
        simp [hypc]
    · have hreturns : x.Returns .ok := hret.returns hs ha (by rw [last, hown]; rfl)
      have htaken : x.taken = 1 ↔ 0 < (y'.kernel.sem s).value := by
        rw [taken, hs, steps, hown]
        simp only [List.map_cons, List.map_nil, List.sum_cons, List.sum_nil, hsem, hzsem, hvalue]
        split <;> omega
      have hcond : (∀ e ∈ x.own, e.1.kernel.pc x.thread = .semTimedwait s abstime →
          0 < (e.1.kernel.sem s).value) ↔ 0 < (y'.kernel.sem s).value := by
        rw [hown]
        simp [hypc, hy'pc]
      rw [hreturns.right_iff, htaken, hcond]
      constructor
      · rintro ⟨-, hok, -⟩
        exact .inr (hok.mp rfl)
      · intro h
        have hpos := h.resolve_left hi
        exact ⟨fun s' hs' _ hpos' => absurd (hnone s' hs') (Int.not_le.mpr hpos'),
          iff_of_true rfl hpos, fun hne => absurd rfl hne⟩

theorem Happens.right_some (hx : x.Happens) (hs : x.sem = some s) (ha : x.abstime = some abstime)
    (hv : x.before.kernel.IntValue s) (hpos : 0 < (x.before.kernel.sem s).value) : x.Right ↔
      (∀ e ∈ x.own, ∀ value, e.1.head x.thread = some ⟨.store value, s, abstime⟩ →
        (e.1.kernel.sem s).value = value ∧ value ≠ -2147483648) ∧
      ∀ e ∈ x.own, e.1.head x.thread = some ⟨.retest, s, abstime⟩ →
        0 < (e.1.kernel.sem s).value := by
  obtain ⟨hafter, hpc⟩ := hx.entered hs ha
  have hhead : x.after.head x.thread = some ⟨.load, s, abstime⟩ := by
    rw [hx.entered_head hs ha, if_pos hpos]
  have hsem : x.after.kernel.sem = x.before.kernel.sem := by rw [hafter]; rfl
  have hva : x.after.kernel.IntValue s := hv.of_eq (congrFun hsem s)
  obtain ⟨y₁, z₁, y₂, z₂, y₃, env, rest, hown, ⟨hhead₁, hv₁, hpcz₁, hsemz₁⟩,
    ⟨hhead₂, hv₂, hpcz₂, hvalue₂⟩, hhead₃, hpc₃, hcur₃, hvz₃, hgo, hpast⟩ :=
    hx.goesOn.decrements hhead hpc hva hx.past
  by_cases hleft : 0 < (y₃.kernel.sem s).value
  · have hz₃ : y₃.advance env ⟨.retest, s, abstime⟩ = y₃.setHead
        (y₃.kernel.ret (.semTimedwait (some s) (some abstime)) .ok) none := if_pos hleft
    have hret : Returning x.thread s abstime .ok (y₃.advance env ⟨.retest, s, abstime⟩) := by
      rw [hz₃, ← hcur₃]
      exact returning_ret y₃ y₃.kernel rfl .ok
    obtain rfl := hgo.over hret.head hret.pc
    have hreturns : x.Returns .ok := hret.returns hs ha (by rw [last, hown]; rfl)
    have hslept : ¬x.Slept := by
      rw [Slept, hown]
      simp only [List.mem_cons, List.not_mem_nil, or_false, exists_eq_or_imp, exists_eq_left,
        hpcz₁, hpcz₂, hret.pc, ne_eq, not_true_eq_false, or_self, not_false_eq_true]
    have hsemz₃ : (y₃.advance env ⟨.retest, s, abstime⟩).kernel.sem = y₃.kernel.sem := by
      rw [hz₃]
      rfl
    have htaken : x.taken = (y₂.kernel.sem s).value - int32 ((y₁.kernel.sem s).value - 1) := by
      rw [taken, hs, steps, hown]
      simp only [List.map_cons, List.map_nil, List.sum_cons, List.sum_nil, hsem, hsemz₁, hvalue₂,
        hsemz₃]
      omega
    have hcond : ((∀ e ∈ x.own, ∀ value, e.1.head x.thread = some ⟨.store value, s, abstime⟩ →
        (e.1.kernel.sem s).value = value ∧ value ≠ -2147483648) ∧
        ∀ e ∈ x.own, e.1.head x.thread = some ⟨.retest, s, abstime⟩ →
          0 < (e.1.kernel.sem s).value) ↔ (y₂.kernel.sem s).value = (y₁.kernel.sem s).value ∧
            (y₁.kernel.sem s).value ≠ -2147483648 := by
      rw [hown]
      simp [hhead₁, hhead₂, hhead₃, hleft]
    rw [hreturns.right_iff, htaken, Kernel.int32_pred_taken hv₁ hv₂, hcond]
    exact ⟨fun h => h.2.1.mp rfl, fun h => ⟨fun _ _ _ _ => ⟨hslept, rfl⟩, iff_of_true rfl h,
      fun hne => absurd rfl hne⟩⟩
  · -- it sleeps, or refuses the time
    have hz₃ : y₃.advance env ⟨.retest, s, abstime⟩ =
        y₃.setHead y₃.kernel (some ⟨.check, s, abstime⟩) := if_neg hleft
    have hheadz₃ : (y₃.advance env ⟨.retest, s, abstime⟩).head x.thread =
        some ⟨.check, s, abstime⟩ := by
      rw [hz₃, ← hcur₃]
      exact setHead_self ..
    have hpcz₃ : (y₃.advance env ⟨.retest, s, abstime⟩).kernel.pc x.thread = .user := by
      rw [hz₃]
      exact hpc₃
    refine iff_of_false (fun hright => ?_) fun h => hleft ?_
    · obtain ⟨hslept, hok⟩ := hright.atOnce s hs (ha ▸ rfl) hpos
      obtain ⟨y, z, rest, rfl, -, -, -, ⟨-, rfl, hret, -⟩ | ⟨-, hzpc, -⟩⟩ :=
        hgo.checks hheadz₃ hpcz₃ hvz₃ hpast
      · have hfails : x.Returns (.fail .einval) := hret.returns hs ha (by rw [last, hown]; rfl)
        exact absurd (hok.unique hfails) (by decide)
      · refine hslept ⟨(y, z), ?_, ?_⟩
        · rw [hown]
          exact List.mem_append_right [_, _, _] List.mem_cons_self
        · rw [hzpc]
          simp
    · refine h.2 (y₃, y₃.advance env ⟨.retest, s, abstime⟩) ?_ hhead₃
      rw [hown]
      exact List.mem_append_right [_, _] List.mem_cons_self

/-- A `sem_timedwait` in a run does what it should if and only if the condition holds. -/
theorem semTimedwait_iff {c : Config T} {tr : List (Heads T × HeadAction T)} (x : Timedwait T)
    (hr : Run Heads.step (Heads.boot c) tr x.before) (hx : x.Happens) : x.Right ↔ x.Admits := by
  rw [Admits]
  cases hs : x.sem with
  | none => exact iff_of_true (hx.right_null (.inl hs)) trivial
  | some s =>
    cases ha : x.abstime with
    | none => exact iff_of_true (hx.right_null (.inr ha)) trivial
    | some abstime =>
      have hv : x.before.kernel.IntValue s := intValue_run hr s
      by_cases hpos : 0 < (x.before.kernel.sem s).value
      · rw [hx.right_some hs ha hv hpos]
        exact ⟨fun h => .inl ⟨hpos, h⟩, fun h => (h.resolve_right fun h => by omega).2⟩
      · rw [hx.right_none hs ha hv (Int.not_lt.mp hpos)]
        exact ⟨fun h => .inr ⟨Int.not_lt.mp hpos, h⟩,
          fun h => (h.resolve_left fun h => hpos h.1).2⟩

end

end Timedwait

namespace Heads

variable {T : Type} [DecidableEq T] [Fintype T] {x y : Heads T} {k : Kernel T} {s : Nat}
  {env : Env T} {abstime : Timespec}

theorem enter_step (s : Nat) (abstime : Timespec) (env : Env T) (hpc : x.kernel.pc x.cur = .user)
    (hidle : x.cur ≠ x.kernel.sched.idleThread) (hnone : x.head x.cur = none) :
    x.step (.kernel (.call (.semTimedwait (some s) (some abstime)) env)) =
      some (x.enter s abstime) := by
  rw [step, if_pos ⟨hpc, hidle, by rw [hnone]; rfl⟩]

theorem head_step {h : Head} (hh : x.head x.cur = some h) :
    x.step (.head env) = some (x.advance env h) := by
  rw [step, hh]
  rfl

omit [Fintype T] in
theorem setHead_setHead (hk : k.cur = x.cur) (k' : Kernel T) (h h' : Option Head) :
    (x.setHead k h).setHead k' h' = x.setHead k' h' := by
  have hcur : (x.setHead k h).cur = x.cur := hk
  rw [setHead, hcur]
  exact congrArg (Heads.mk k') (Function.update_idem ..)

omit [Fintype T] in
theorem setHead_none (hnone : x.head x.cur = none) (k : Kernel T) :
    x.setHead k none = ⟨k, x.head⟩ := by
  rw [setHead, ← hnone, Function.update_eq_self]

/-- The current thread's steps lead from `x` to `y` with nothing between them. -/
def Alone (x y : Heads T) : Prop := ∃ tr, Run step x tr y ∧ ∀ e ∈ tr, e.1.cur = x.cur

theorem Alone.access {h : Head} (hx : Alone x (x.setHead k (some h))) (env : Env T)
    (hk : k.cur = x.cur) (hy : (x.setHead k (some h)).advance env h = y) : Alone x y := by
  obtain ⟨tr, hr, hcur⟩ := hx
  have hhead : (x.setHead k (some h)).head (x.setHead k (some h)).cur = some h := by
    have hself : (x.setHead k (some h)).cur = x.cur := hk
    rw [hself]
    exact setHead_self ..
  exact ⟨_, hr.next (hy ▸ head_step hhead), List.forall_mem_cons.mpr ⟨hk, hcur⟩⟩

theorem Alone.check (hx : Alone x (x.setHead k (some ⟨.check, s, abstime⟩))) (hk : k.cur = x.cur)
    (hnone : x.head x.cur = none) (env : Env T) : Alone x
      ⟨if abstime.Invalid then k.ret (.semTimedwait (some s) (some abstime)) (.fail .einval)
        else (k.insertPthreadList .sem s k.cur).sleepFor env (.semTimedwait s abstime),
        x.head⟩ := by
  refine hx.access env hk ?_
  change (if abstime.Invalid then _ else _) = _
  split <;> exact (setHead_setHead hk ..).trans (setHead_none hnone _)

theorem undisturbed (hk : x.kernel.step (.call (.semTimedwait (some s) (some abstime)) env) = some k)
    (hnone : x.head x.cur = none) : Alone x ⟨k, x.head⟩ := by
  rw [Kernel.step] at hk
  split at hk
  · rename_i hcond
    obtain rfl := Option.some.inj hk
    let k := x.kernel.record (.call x.cur (.semTimedwait (some s) (some abstime)))
    have henter : Alone x (x.setHead k
        (some ⟨if 0 < (k.sem s).value then .load else .check, s, abstime⟩)) :=
      ⟨_, Run.start.next (enter_step s abstime env hcond.1 hcond.2 hnone),
        List.forall_mem_cons.mpr ⟨rfl, fun _ he => absurd he List.not_mem_nil⟩⟩
    change Alone x ⟨k.semTimedwaitSys env (some s) (some abstime), x.head⟩
    by_cases hpos : 0 < (k.sem s).value
    · let k' := k.setSem s (int32 ((k.sem s).value - 1))
      rw [if_pos hpos] at henter
      have hload : Alone x (x.setHead k (some ⟨.store (k.sem s).value, s, abstime⟩)) :=
        henter.access env rfl (setHead_setHead (k := k) rfl ..)
      have hstore : Alone x (x.setHead k' (some ⟨.retest, s, abstime⟩)) :=
        hload.access env rfl (setHead_setHead (k := k) rfl ..)
      have hretest : Alone x (if 0 < (k'.sem s).value then
          ⟨k'.ret (.semTimedwait (some s) (some abstime)) .ok, x.head⟩
          else x.setHead k' (some ⟨.check, s, abstime⟩)) := by
        refine hstore.access env rfl ?_
        change (if 0 < (k'.sem s).value then _ else _) = _
        split
        · exact (setHead_setHead (k := k') rfl ..).trans (setHead_none hnone _)
        · exact setHead_setHead (k := k') rfl ..
      have htake : k.semTimedwaitTake s = k' := if_pos hpos
      simp only [Kernel.semTimedwaitSys, htake, hpos, true_and]
      by_cases hleft : 0 < (k'.sem s).value
      · rwa [if_pos hleft] at hretest ⊢
      · rw [if_neg hleft] at hretest ⊢
        exact hretest.check rfl hnone env
    · rw [if_neg hpos] at henter
      have htake : k.semTimedwaitTake s = k := if_neg hpos
      simp only [Kernel.semTimedwaitSys, htake, hpos, false_and, if_false]
      exact henter.check rfl hnone env
  · contradiction

end Heads

-- ---------------------------------------------------------------------------
-- Calls that sleep
-- ---------------------------------------------------------------------------

namespace Timedwait

variable {T : Type} [DecidableEq T] [Fintype T] {x : Heads T} {t : T}

instance (t : T) (e : Heads T × HeadAction T) : Decidable (Other t e) :=
  match e with
  | (_, .kernel (.interrupt env)) => .isTrue (.inr ⟨env, rfl⟩)
  | (x, .kernel (.call c env)) =>
    decidable_of_iff (x.cur ≠ t) ⟨.inl, fun h => h.resolve_right (by rintro ⟨_, he⟩; cases he)⟩
  | (x, .kernel (.resume env)) =>
    decidable_of_iff (x.cur ≠ t) ⟨.inl, fun h => h.resolve_right (by rintro ⟨_, he⟩; cases he)⟩
  | (x, .head env) =>
    decidable_of_iff (x.cur ≠ t) ⟨.inl, fun h => h.resolve_right (by rintro ⟨_, he⟩; cases he)⟩

/-- Runs a call on: for each of its own steps, what comes before it and the step. -/
def replay (t : T) (x : Heads T) :
    List (List (HeadAction T) × HeadAction T) → Option (List (Heads T × Heads T))
  | [] => some []
  | (between, a) :: acts => do
    let (tr, y) ← exec Heads.step x between
    if ((x.head t).isSome ∨ x.kernel.pc t ≠ .user) ∧ (∀ e ∈ tr, Other t e) ∧ ¬Other t (y, a) then
      let z ← y.step a
      return (y, z) :: (← replay t z acts)
    else none

theorem replay_goesOn {acts : List (List (HeadAction T) × HeadAction T)}
    {own : List (Heads T × Heads T)} (h : replay t x acts = some own) : GoesOn t x own := by
  induction acts generalizing x own with
  | nil =>
    obtain rfl := Option.some.inj h
    exact .stays
  | cons act acts ih =>
    obtain ⟨between, a⟩ := act
    simp only [replay, Option.bind_eq_bind, Option.bind_eq_some_iff] at h
    obtain ⟨⟨tr, y⟩, hr, h⟩ := h
    split at h
    · rename_i hcond
      obtain ⟨z, hz, rest, hrest, hown⟩ := by
        simpa only [Option.bind_eq_some_iff] using h
      obtain rfl := Option.some.inj hown
      exact .goes hcond.1 (exec_run hr) hcond.2.1 hcond.2.2 hz (ih hrest)
    · contradiction

theorem exec_timedwait (c : Config (Fin 3)) (s : Option Nat) (abstime : Option Timespec)
    (acts : List (HeadAction (Fin 3)))
    (own : List (List (HeadAction (Fin 3)) × HeadAction (Fin 3)))
    (p : Timedwait (Fin 3) → Bool)
    (h : ((exec Heads.step (Heads.boot c) acts).any fun r =>
      (r.2.step (.kernel (.call (.semTimedwait s abstime) {}))).any fun y =>
      (replay r.2.cur y own).any fun own =>
        ((Timedwait.last ⟨s, abstime, r.2, y, own⟩).head r.2.cur).isNone &&
          p ⟨s, abstime, r.2, y, own⟩) = true) :
    ∃ tr, ∃ x : Timedwait (Fin 3), Run Heads.step (Heads.boot c) tr x.before ∧ x.Happens ∧
      p x = true := by
  obtain ⟨r, hr, h⟩ := (Option.any_eq_true _ _).mp h
  obtain ⟨y, hy, h⟩ := (Option.any_eq_true _ _).mp h
  obtain ⟨own, hown, h⟩ := (Option.any_eq_true _ _).mp h
  obtain ⟨hpast, hp⟩ := Bool.and_eq_true_iff.mp h
  exact ⟨r.1, ⟨s, abstime, r.2, y, own⟩, exec_run hr,
    ⟨⟨{}, hy⟩, replay_goesOn hown, Option.isNone_iff_eq_none.mp hpast⟩, hp⟩

/-- What the examples look at: the result 0, the value at the call, the units taken, and the
values before the later steps. -/
def Shows (x : Timedwait (Fin 3)) (before taken : Int) (values : List Int) : Prop :=
  x.last.kernel.pc x.thread = .user ∧ x.last.head x.thread = none ∧
    x.last.kernel.log.head? = some (.ret x.thread x.call .ok) ∧
    x.sem = some 0 ∧ x.abstime = some ⟨5, 0⟩ ∧ (x.before.kernel.sem 0).value = before ∧
    x.taken = taken ∧ x.own.map (fun e => (e.1.kernel.sem 0).value) = values

instance (x : Timedwait (Fin 3)) (before taken : Int) (values : List Int) :
    Decidable (x.Shows before taken values) :=
  inferInstanceAs (Decidable (_ ∧ _))

end Timedwait

/-- Thread 1 on the other semaphore, asleep. -/
def sleepsOn1 : List (HeadAction (Fin 3)) :=
  [.kernel (.call (.semTimedwait (some 1) (some ⟨5, 0⟩)) {}), .head {}]

def wakesAndPosts : List (HeadAction (Fin 3)) :=
  [.kernel (.interrupt { expired := [.wakeup 1] }), .kernel (.resume {}),
    .kernel (.call (.semPost (some 0)) {})]

/-- Thread 2 sleeps; thread 1, ahead of it, wakes up, posts and sleeps again. -/
theorem semTimedwait_iff_posted : ∃ tr, ∃ x : Timedwait (Fin 3),
    Run Heads.step (Heads.boot twoThreads) tr x.before ∧ x.Happens ∧ x.own.length = 2 ∧
    x.Returns .ok ∧ x.Right := by
  obtain ⟨tr, x, hr, hx, hshows⟩ := Timedwait.exec_timedwait twoThreads (some 0) (some ⟨5, 0⟩)
    sleepsOn1
    [([], .head {}), (wakesAndPosts ++ .kernel (.resume {}) :: sleepsOn1, .kernel (.resume {}))]
    (fun x => decide (x.Shows 0 1 [0, 1] ∧ x.own.length = 2 ∧ ∀ e ∈ x.own,
      e.1.kernel.pc x.thread = .semTimedwait 0 ⟨5, 0⟩ → 0 < (e.1.kernel.sem 0).value))
    (by decide +kernel)
  obtain ⟨⟨hpc, hhead, hlog, hs, ha, hbefore, -⟩, hlength, hwoken⟩ := of_decide_eq_true hshows
  refine ⟨tr, x, hr, hx, hlength, ⟨hpc, hhead, hlog⟩,
    (Timedwait.semTimedwait_iff x hr hx).mpr ?_⟩
  rw [Timedwait.Admits, hs, ha]
  exact .inr ⟨hbefore.le, .inr hwoken⟩

/-- It returns 0 with no unit taken after its timer has expired; it takes the one unit that is
there and sleeps; it takes two where a post comes between the load and the store. -/
theorem semTimedwait_wrong :
    (∃ tr, ∃ x : Timedwait (Fin 3),
      Run Heads.step (Heads.boot twoThreads) tr x.before ∧ x.Happens ∧ x.Returns .ok ∧
      x.taken = 0 ∧ ¬x.Right) ∧
    (∃ tr, ∃ x : Timedwait (Fin 3),
      Run Heads.step (Heads.boot { twoThreads with sem := fun _ => 1 }) tr x.before ∧
      x.Happens ∧ x.Slept ∧ 0 < (x.before.kernel.sem 0).value ∧ ¬x.Right) ∧
    ∃ tr, ∃ x : Timedwait (Fin 3),
      Run Heads.step (Heads.boot { twoThreads with sem := fun s => if s = 0 then 2 else 0 }) tr
        x.before ∧
      x.Happens ∧ x.Returns .ok ∧ x.taken = 2 ∧ ¬x.Right := by
  have hmiscounts {x : Timedwait (Fin 3)} {taken : Int} (hret : x.Returns .ok)
      (htaken : x.taken = taken) (hne : taken ≠ 1) : ¬x.Right :=
    fun h => hne (htaken ▸ (h.ok .ok hret).mp rfl)
  refine ⟨?_, ?_, ?_⟩
  · obtain ⟨tr, x, hr, hx, hshows⟩ := Timedwait.exec_timedwait twoThreads (some 0) (some ⟨5, 0⟩) []
      [([], .head {}), ([.kernel (.interrupt { expired := [.wakeup 1] })], .kernel (.resume {}))]
      (fun x => decide (x.Shows 0 0 [0, 0])) (by decide +kernel)
    obtain ⟨hpc, hhead, hlog, -, -, -, htaken, -⟩ := of_decide_eq_true hshows
    have hret : x.Returns .ok := ⟨hpc, hhead, hlog⟩
    exact ⟨tr, x, hr, hx, hret, htaken, hmiscounts hret htaken (by decide)⟩
  · obtain ⟨tr, x, hr, hx, hshows⟩ := Timedwait.exec_timedwait
      { twoThreads with sem := fun _ => 1 } (some 0) (some ⟨5, 0⟩) []
      [([], .head {}), ([], .head {}), ([], .head {}), ([], .head {}),
        ([.kernel (.interrupt { expired := [.wakeup 1] })], .kernel (.resume {}))]
      (fun x => decide (x.Shows 1 1 [1, 1, 0, 0, 0] ∧ ∃ e ∈ x.own, e.2.kernel.pc x.thread ≠ .user))
      (by decide +kernel)
    obtain ⟨⟨-, -, -, hs, ha, hbefore, -⟩, hslept⟩ := of_decide_eq_true hshows
    have hpos : 0 < (x.before.kernel.sem 0).value := by rw [hbefore]; decide
    exact ⟨tr, x, hr, hx, hslept, hpos,
      fun h => (h.atOnce 0 hs (by rw [ha]; rfl) hpos).1 hslept⟩
  · obtain ⟨tr, x, hr, hx, hshows⟩ := Timedwait.exec_timedwait
      { twoThreads with sem := fun s => if s = 0 then 2 else 0 } (some 0) (some ⟨5, 0⟩) sleepsOn1
      [([], .head {}), (wakesAndPosts ++ sleepsOn1, .head {}), ([], .head {})]
      (fun x => decide (x.Shows 2 2 [2, 3, 1])) (by decide +kernel)
    obtain ⟨hpc, hhead, hlog, -, -, -, htaken, -⟩ := of_decide_eq_true hshows
    have hret : x.Returns .ok := ⟨hpc, hhead, hlog⟩
    exact ⟨tr, x, hr, hx, hret, htaken, hmiscounts hret htaken (by decide)⟩

end Xmertl.Partikle
