import Xmertl.Lib.Runs
import Xmertl.Partikle.Ktimer

/-!
# Periodic threads and the high-resolution clock

The user library's `rtl.c` over the kernel's `rtl.c` and `clock_gettime_sys`, with
`nanosleep_sys`. A thread is made periodic, and then works and waits in turn. A scheduling
point is where `update_hwtimer` and `scheduling` let every sleep go on that is over. Signals,
which end a sleep early, are left out.
-/

namespace Xmertl.Partikle

open Runs

/-- The pair that the kernel and the library make of a time. -/
def timespec (d : Int) : Timespec :=
  ⟨int32 (uint64 d / nsecsPerSec), int32 (uint64 d % nsecsPerSec)⟩

-- ---------------------------------------------------------------------------
-- The high-resolution clock
-- ---------------------------------------------------------------------------

/-- The clocks of the system, with the used and the starting time of the thread that asks. -/
structure Clocks where
  realtime : Int
  monotonic : Int
  usedTime : Int
  startingTime : Int

namespace Clocks

def gettimeNsec (x : Clocks) (clockId : Int) : Option Int :=
  if clockId = 0 then some x.realtime
  else if clockId = 1 then some x.monotonic
  else if clockId = 2 then some (int64 (x.usedTime + x.monotonic - x.startingTime))
  else none

/-- With a place for the answer, as the library calls it. -/
def clockGettimeSys (x : Clocks) (clockId : Int) : Except Errno Timespec :=
  match x.gettimeNsec clockId with
  | none => .error .einval
  | some d => .ok (timespec d)

/-- The product and the sum are `int`. -/
def clockGethrtime (x : Clocks) (clockId : Int) : Int :=
  match x.clockGettimeSys clockId with
  | .error _ => 0
  | .ok res => int32 (int32 (res.tvSec * 60000000) + res.tvNsec)

end Clocks

theorem int32_lt (x : Int) : int32 x < 2147483648 := by
  have h := Int.bmod_lt (x := x) (m := 4294967296) (by decide)
  rw [int32]
  omega

theorem timespec_eq {d : Int} (h₀ : 0 ≤ d) (hd : d / nsecsPerSec < 2147483648) :
    timespec d = ⟨d / nsecsPerSec, d % nsecsPerSec⟩ := by
  rw [nsecsPerSec] at hd
  have hu : uint64 d = d := Int.emod_eq_of_lt h₀ (by omega)
  rw [timespec, hu, nsecsPerSec, int32_eq, int32_eq] <;> omega

namespace Clocks

variable {x y : Clocks} {clockId n m : Int}

theorem clockGethrtime_eq (hn : x.gettimeNsec clockId = some n) (h₀ : 0 ≤ n)
    (hfits : n / nsecsPerSec < 2147483648) : x.clockGethrtime clockId =
      int32 (int32 (n / nsecsPerSec * 60000000) + n % nsecsPerSec) := by
  simp only [clockGethrtime, clockGettimeSys, hn, timespec_eq h₀ hfits]

theorem clockGethrtime_first_second (hn : x.gettimeNsec clockId = some n) (h₀ : 0 ≤ n)
    (h : n < nsecsPerSec) : x.clockGethrtime clockId = n := by
  rw [nsecsPerSec] at h
  rw [clockGethrtime_eq hn h₀ (by rw [nsecsPerSec]; omega), nsecsPerSec, Int.ediv_eq_zero_of_lt h₀ h,
    Int.emod_eq_of_lt h₀ h, Int.zero_mul, int32_eq (x := 0) (by decide) (by decide), Int.zero_add,
    int32_eq] <;> omega

/-- The reading comes back in the first second of the clock only, and in its order there. -/
theorem clockGethrtime_iff (hn : x.gettimeNsec clockId = some n) (h₀ : 0 ≤ n)
    (hfits : n / nsecsPerSec < 2147483648) :
    (x.clockGethrtime clockId = n ↔ n < nsecsPerSec) ∧
      (n < nsecsPerSec → ∀ y m, gettimeNsec y clockId = some m → 0 ≤ m → m ≤ n →
        y.clockGethrtime clockId ≤ x.clockGethrtime clockId) := by
  refine ⟨⟨fun h => ?_, clockGethrtime_first_second hn h₀⟩, fun hlt y m hm hm₀ hle => ?_⟩
  · by_contra hge
    rw [clockGethrtime_eq hn h₀ hfits] at h
    rw [nsecsPerSec] at h hge
    -- From the third second on the reading is no `int`.
    by_cases hbig : n < 3000000000
    · rw [int32_eq (x := n / 1000000000 * 60000000) (by omega) (by omega), int32_eq (by omega)
        (by omega)] at h
      omega
    · have hint := int32_lt (int32 (n / 1000000000 * 60000000) + n % 1000000000)
      omega
  · rw [clockGethrtime_first_second hn h₀ hlt,
      clockGethrtime_first_second hm hm₀ (hle.trans_lt hlt)]
    exact hle

/-- A system whose realtime clock reads `n`. -/
def reads (n : Int) : Clocks := { realtime := n, monotonic := 0, usedTime := 0, startingTime := 0 }

theorem clockGethrtime_half_second :
    ((reads 500000000).clockGethrtime 0 = 500000000 ↔ (500000000 : Int) < nsecsPerSec) ∧
      ((500000000 : Int) < nsecsPerSec → ∀ y m, gettimeNsec y 0 = some m → 0 ≤ m →
        m ≤ 500000000 → y.clockGethrtime 0 ≤ (reads 500000000).clockGethrtime 0) :=
  clockGethrtime_iff rfl (by decide) (by decide)

/-- Between 1.5 s and 2 s the library's clock goes back. -/
theorem clockGethrtime_goes_back : (reads 1500000000).clockGethrtime 0 = 560000000 ∧
    (reads 2000000000).clockGethrtime 0 = 120000000 := by
  decide

end Clocks

-- ---------------------------------------------------------------------------
-- Periodic threads
-- ---------------------------------------------------------------------------

/-- For a thread with this period, which exists. -/
def pthreadSetperiodNpSys (period : Int) (value : Timespec) : Int × Int :=
  if value.tvSec < 0 ∨ value.tvNsec < 0 then (period, -1)
  else (int64 (value.tvSec * nsecsPerSec + value.tvNsec), 0)

def pthreadMakePeriodicNp (period _startTime newPeriod : Int) : Int × Int :=
  pthreadSetperiodNpSys period (timespec newPeriod)

/-- The time that `nanosleep_sys` sleeps for. -/
def Timespec.treq (req : Timespec) : Int := int64 (req.tvSec * nsecsPerSec + req.tvNsec)

/-- What `nanosleep_sys` returns, at this reading of the clock. -/
def nanosleepRet (d ctime : Int) : Int := if d > ctime then -1 else 0

/-- A periodic thread: `period` is that of its `sched_param`, `sleep` the value of its sleep
timer while that is armed. `startTime` and `given` are what it was made periodic with, `called`
is when it armed the timer last, `points` are the scheduling points so far, most recent first,
and `returns` those at which `pthread_wait_np` returned, in order. -/
structure Periodic where
  period : Int
  now : Int
  sleep : Option Int := none
  ret : Int := 0
  startTime : Int
  given : Int
  called : Int := now
  points : List Int := []
  returns : List Int := []

inductive PeriodicStep
  /-- `pthread_wait_np`, up to the arming of the timer at this reading of the clock. -/
  | wait (clock : Int)
  | point (clock : Int)

namespace Periodic

def wait (x : Periodic) (clock : Int) : Periodic :=
  { x with now := clock, called := clock, sleep := some ((timespec x.period).treq + clock) }

def point (x : Periodic) (clock : Int) : Periodic :=
  let x := { x with now := clock, points := clock :: x.points }
  match x.sleep with
  | none => x
  | some timerValue =>
    if timerValue ≤ clock then
      { x with
        sleep := none
        ret := nanosleepRet (timespec x.period).treq clock
        returns := x.returns ++ [clock] }
    else x

/-- The clock does not go back, and a thread that sleeps calls nothing. -/
def step (x : Periodic) : PeriodicStep → Option Periodic
  | .wait clock => if clock < x.now ∨ x.sleep.isSome then none else some (x.wait clock)
  | .point clock => if clock < x.now then none else some (x.point clock)

/-- When the wait that the thread is in, or comes to next, is to return. -/
def release (x : Periodic) : Int := x.startTime + (x.returns.length + 1) * x.given

/-- The work before a wait ends before the release. -/
def InTime (x : Periodic) : PeriodicStep → Prop
  | .wait clock => clock < x.release
  | .point _ => True

instance (x : Periodic) : DecidablePred x.InTime
  | .wait _ => inferInstanceAs (Decidable (_ < _))
  | .point _ => .isTrue trivial

/-- The first of the points that is not before `a`. -/
structure IsFirst (points : List Int) (a r : Int) : Prop where
  mem : r ∈ points
  le : a ≤ r
  first : ∀ p ∈ points, a ≤ p → r ≤ p

/-- Every return was at the first scheduling point not before its release, and no such point
has passed while the thread waits. -/
structure OnTime (x : Periodic) : Prop where
  returned : ∀ (k : Nat) r, x.returns[k]? = some r →
    IsFirst x.points (x.startTime + (k + 1) * x.given) r
  waiting : x.sleep.isSome → ∀ p ∈ x.points, p < x.release

/-- The condition on a step: no scheduling point lies between the release and the end of a
period counted from the call. -/
def Meets (x : Periodic) : PeriodicStep → Prop
  | .wait _ => True
  | .point clock => x.sleep.isSome → (x.release ≤ clock ↔ x.called + x.period ≤ clock)

/-- A period as `pthread_setperiod_np_sys` stores it. -/
def Storable (period : Int) : Prop := 0 ≤ period ∧ period / nsecsPerSec < 2147483648

/-- What every step keeps: a sleep is for the period, from the call on. -/
structure Inv (x : Periodic) : Prop where
  storable : Storable x.period
  past : ∀ p ∈ x.points, p ≤ x.now
  sleep : ∀ v, x.sleep = some v → v = x.period + x.called

variable {x y : Periodic} {a : PeriodicStep} {c d v old start new : Int}

theorem treq_eq (h : Storable d) : (timespec d).treq = d := by
  obtain ⟨h₀, hd⟩ := h
  rw [timespec_eq h₀ hd, Timespec.treq]
  dsimp only
  rw [Int.ediv_mul_add_emod, int64]
  rw [nsecsPerSec] at hd
  exact Int.bmod_eq_of_le (by omega) (by omega)

theorem setperiod_storable {value : Timespec} (h : (pthreadSetperiodNpSys d value).2 = 0)
    (hsec : value.tvSec < 2147483648) (hnsec : value.tvNsec < nsecsPerSec) :
    Storable (pthreadSetperiodNpSys d value).1 := by
  rw [pthreadSetperiodNpSys] at h ⊢
  split at h
  · contradiction
  · rename_i hnot
    rw [if_neg hnot]
    rw [nsecsPerSec] at hnsec
    dsimp only
    rw [int64, nsecsPerSec, Int.bmod_eq_of_le (by omega) (by omega)]
    exact ⟨by omega, by rw [nsecsPerSec]; omega⟩

theorem timespec_bounds (d : Int) :
    (timespec d).tvSec < 2147483648 ∧ (timespec d).tvNsec < nsecsPerSec := by
  have hlt : uint64 d % nsecsPerSec < nsecsPerSec := Int.emod_lt_of_pos _ (by decide)
  have hge : 0 ≤ uint64 d % nsecsPerSec := Int.emod_nonneg _ (by decide)
  refine ⟨int32_lt _, ?_⟩
  rw [timespec]
  dsimp only
  rw [nsecsPerSec] at hlt hge ⊢
  rw [int32_eq (by omega) (by omega)]
  exact hlt

theorem makePeriodic_storable (h : (pthreadMakePeriodicNp old start new).2 = 0) :
    Storable (pthreadMakePeriodicNp old start new).1 :=
  setperiod_storable h (timespec_bounds _).1 (timespec_bounds _).2

theorem makePeriodic_eq (h : Storable new) (old start : Int) :
    pthreadMakePeriodicNp old start new = (new, 0) := by
  rw [pthreadMakePeriodicNp, pthreadSetperiodNpSys, if_neg, ← Timespec.treq, treq_eq h]
  rw [timespec_eq h.1 h.2, not_or]
  have hsec := Int.ediv_nonneg (b := nsecsPerSec) h.1 (by decide)
  have hnsec := Int.emod_nonneg new (b := nsecsPerSec) (by decide)
  exact ⟨Int.not_lt.mpr hsec, Int.not_lt.mpr hnsec⟩

-- ---------------------------------------------------------------------------
-- Steps
-- ---------------------------------------------------------------------------

theorem wait_some (hs : x.step (.wait c) = some y) : x.now ≤ c ∧ x.sleep = none ∧ x.wait c = y := by
  rw [step, Option.ite_none_left_eq_some, not_or, Int.not_lt, Option.not_isSome_iff_eq_none] at hs
  exact ⟨hs.1.1, hs.1.2, Option.some.inj hs.2⟩

theorem point_some (hs : x.step (.point c) = some y) : x.now ≤ c ∧ x.point c = y := by
  rw [step, Option.ite_none_left_eq_some, Int.not_lt] at hs
  exact ⟨hs.1, Option.some.inj hs.2⟩

theorem point_awake (h : x.sleep = none) :
    x.point c = { x with now := c, points := c :: x.points } := by
  rw [point]
  simp only [h]

theorem point_asleep (h : x.sleep = some v) (hlt : ¬v ≤ c) :
    x.point c = { x with now := c, points := c :: x.points } := by
  rw [point]
  simp only [h, if_neg hlt]

theorem point_returns (h : x.sleep = some v) (hle : v ≤ c) :
    x.point c =
      { x with
        now := c
        points := c :: x.points
        sleep := none
        ret := nanosleepRet (timespec x.period).treq c
        returns := x.returns ++ [c] } := by
  rw [point]
  simp only [h, if_pos hle]

theorem past_cons (hx : x.Inv) (h : x.now ≤ c) : ∀ p ∈ c :: x.points, p ≤ c :=
  List.forall_mem_cons.mpr ⟨Int.le_refl c, fun p hp => (hx.past p hp).trans h⟩

theorem Inv.step (hx : x.Inv) (hs : x.step a = some y) : y.Inv := by
  cases a with
  | wait c =>
    obtain ⟨hle, -, rfl⟩ := wait_some hs
    refine ⟨hx.storable, fun p hp => (hx.past p hp).trans hle, fun v hv => ?_⟩
    rw [← Option.some.inj hv, treq_eq hx.storable]
    rfl
  | point c =>
    obtain ⟨hle, rfl⟩ := point_some hs
    cases hsleep : x.sleep with
    | none =>
      rw [point_awake hsleep]
      exact ⟨hx.storable, past_cons hx hle, hx.sleep⟩
    | some v =>
      by_cases hv : v ≤ c
      · rw [point_returns hsleep hv]
        exact ⟨hx.storable, past_cons hx hle, nofun⟩
      · rw [point_asleep hsleep hv]
        exact ⟨hx.storable, past_cons hx hle, hx.sleep⟩

theorem getElem?_concat_cases {l : List Int} {k : Nat} (h : (l ++ [c])[k]? = some r) :
    l[k]? = some r ∨ k = l.length ∧ r = c := by
  rcases Nat.lt_trichotomy k l.length with hlt | rfl | hgt
  · rw [List.getElem?_append_left hlt] at h
    exact .inl h
  · rw [List.getElem?_concat_length] at h
    exact .inr ⟨rfl, (Option.some.inj h).symm⟩
  · rw [List.getElem?_eq_none (by simpa using hgt)] at h
    contradiction

theorem IsFirst.cons {points : List Int} (h : IsFirst points d r) (hle : r ≤ c) :
    IsFirst (c :: points) d r :=
  ⟨List.mem_cons_of_mem _ h.mem, h.le,
    List.forall_mem_cons.mpr ⟨fun _ => hle, h.first⟩⟩

theorem OnTime.returned_cons (h : x.OnTime) (hx : x.Inv) (hle : x.now ≤ c) (k : Nat) (r : Int)
    (hk : x.returns[k]? = some r) :
    IsFirst (c :: x.points) (x.startTime + (k + 1) * x.given) r :=
  (h.returned k r hk).cons ((hx.past r (h.returned k r hk).mem).trans hle)

theorem OnTime.step_iff (hx : x.Inv) (h : x.OnTime) (hw : x.InTime a) (hs : x.step a = some y) :
    y.OnTime ↔ x.Meets a := by
  cases a with
  | wait c =>
    obtain ⟨hle, -, rfl⟩ := wait_some hs
    refine ⟨fun _ => trivial, fun _ => ⟨h.returned, fun _ p hp => ?_⟩⟩
    exact ((hx.past p hp).trans hle).trans_lt hw
  | point c =>
    obtain ⟨hle, rfl⟩ := point_some hs
    cases hsleep : x.sleep with
    | none =>
      rw [point_awake hsleep, Meets, hsleep]
      exact ⟨fun _ => nofun, fun _ => ⟨h.returned_cons hx hle, nofun⟩⟩
    | some v =>
      have hend : v = x.called + x.period := (hx.sleep v hsleep).trans (Int.add_comm ..)
      have hasleep : x.sleep.isSome := Option.isSome_of_eq_some hsleep
      rw [Meets, ← hend, hasleep, forall_prop_of_true rfl]
      by_cases hv : v ≤ c
      · rw [point_returns hsleep hv, iff_true_right hv]
        constructor
        · intro hy
          have hlast := hy.returned x.returns.length c (by simp)
          exact hlast.le
        · intro hrel
          refine ⟨fun k r hk => ?_, nofun⟩
          rcases getElem?_concat_cases hk with hold | ⟨rfl, rfl⟩
          · exact h.returned_cons hx hle k r hold
          · exact ⟨List.mem_cons_self, hrel, List.forall_mem_cons.mpr ⟨fun _ => Int.le_refl _,
              fun p hp hge => absurd (h.waiting hasleep p hp) (Int.not_lt.mpr hge)⟩⟩
      · rw [point_asleep hsleep hv, iff_false_right hv, Int.not_le]
        constructor
        · intro hy
          exact hy.waiting hasleep c List.mem_cons_self
        · intro hlt
          refine ⟨h.returned_cons hx hle, fun _ => ?_⟩
          exact List.forall_mem_cons.mpr ⟨hlt, h.waiting hasleep⟩

theorem step_period (hs : x.step a = some y) : y.period = x.period := by
  cases a with
  | wait c =>
    obtain ⟨-, -, rfl⟩ := wait_some hs
    rfl
  | point c =>
    obtain ⟨-, rfl⟩ := point_some hs
    rw [point]
    split
    · rfl
    · split <;> rfl

-- ---------------------------------------------------------------------------
-- Runs
-- ---------------------------------------------------------------------------

/-- A thread as it has been made periodic, with the period that was stored. -/
def begin (now period startTime given : Int) : Periodic := { period, now, startTime, given }

theorem begin_inv (h : Storable d) (now startTime given : Int) :
    (begin now d startTime given).Inv :=
  ⟨h, nofun, nofun⟩

theorem begin_onTime (now period startTime given : Int) :
    (begin now period startTime given).OnTime :=
  ⟨nofun, nofun⟩

/-- Of a thread whose work is always done before the next release, every wait returns at the
first scheduling point from its release on if and only if no scheduling point comes between the
release and the end of a period from the call. -/
theorem releases_iff {tr : List (Periodic × PeriodicStep)}
    (hmake : (pthreadMakePeriodicNp old start new).2 = 0)
    (hr : Run step (begin t₀ (pthreadMakePeriodicNp old start new).1 start new) tr x)
    (hwork : ∀ e ∈ tr, e.1.InTime e.2) :
    ((∀ y, Visited tr x y → y.OnTime) ↔ ∀ e ∈ tr, e.1.Meets e.2) ∧
      (Storable new → ∀ y, Visited tr x y → y.period = new) := by
  have hstart := begin_inv (makePeriodic_storable hmake) t₀ start new
  have hinv (y : Periodic) (hy : Visited tr x y) : y.Inv :=
    hr.invariant_visited (C := fun _ _ => True) hstart (fun _ _ _ hx _ hs => hx.step hs)
      (fun _ _ => trivial) hy
  refine ⟨⟨fun hall e he => ?_, fun hmeets y hy => ?_⟩, fun hnew y hy => ?_⟩
  · obtain ⟨y, hs, hv⟩ := hr.post_visited he
    exact ((hall e.1 (.pre he)).step_iff (hinv e.1 (.pre he)) (hwork e he) hs).mp (hall y hv)
  · have hboth : y.Inv ∧ y.OnTime :=
      hr.invariant_visited (I := fun y => y.Inv ∧ y.OnTime)
        (C := fun x a => x.InTime a ∧ x.Meets a) ⟨hstart, begin_onTime ..⟩
        (fun _ _ _ hx hc hs => ⟨hx.1.step hs, (hx.2.step_iff hx.1 hc.1 hs).mpr hc.2⟩)
        (fun e he => ⟨hwork e he, hmeets e he⟩) hy
    exact hboth.2
  · have hstored := congrArg Prod.fst (makePeriodic_eq hnew old start)
    exact hr.invariant_visited (C := fun _ _ => True) (I := fun y => y.period = new) hstored
      (fun _ _ _ hx _ hs => (step_period hs).trans hx) (fun _ _ => trivial) hy

/-- Two waits, each called at its release before. -/
theorem releases_iff_punctual : ∃ tr x,
    Run step (begin 0 (pthreadMakePeriodicNp 0 0 100).1 0 100) tr x ∧
    x.returns = [100, 200] ∧ (∀ e ∈ tr, e.1.InTime e.2) ∧
    ((∀ y, Visited tr x y → y.OnTime) ↔ ∀ e ∈ tr, e.1.Meets e.2) ∧
      (Storable 100 → ∀ y, Visited tr x y → y.period = 100) := by
  have h : ((exec step (begin 0 (pthreadMakePeriodicNp 0 0 100).1 0 100)
      [.wait 0, .point 50, .point 100, .wait 100, .point 200]).any fun r =>
      decide (r.2.returns = [100, 200] ∧ ∀ e ∈ r.1, e.1.InTime e.2)) = true := by
    decide
  obtain ⟨tr, x, hr, hx⟩ := exec_any h
  obtain ⟨hreturns, hwork⟩ := of_decide_eq_true hx
  have hmake : (pthreadMakePeriodicNp 0 0 100).2 = 0 := by decide
  exact ⟨tr, x, hr, hreturns, hwork, releases_iff hmake hr hwork⟩

/-- With 30 ns of work before each wait, the second return is 60 ns late. -/
theorem releases_drift : ∃ tr x,
    Run step (begin 0 (pthreadMakePeriodicNp 0 0 100).1 0 100) tr x ∧
    (∀ e ∈ tr, e.1.InTime e.2) ∧ x.returns = [130, 260] ∧ 200 ∈ x.points ∧ ¬x.OnTime := by
  have h : ((exec step (begin 0 (pthreadMakePeriodicNp 0 0 100).1 0 100)
      [.wait 30, .point 100, .point 130, .wait 160, .point 200, .point 260]).any fun r =>
      decide ((∀ e ∈ r.1, e.1.InTime e.2) ∧ r.2.returns = [130, 260] ∧ 200 ∈ r.2.points ∧
        r.2.startTime = 0 ∧ r.2.given = 100)) = true := by
    decide
  obtain ⟨tr, x, hr, hx⟩ := exec_any h
  obtain ⟨hwork, hreturns, hpoint, hstart, hgiven⟩ := of_decide_eq_true hx
  refine ⟨tr, x, hr, hwork, hreturns, hpoint, fun hon => ?_⟩
  have hfirst := hon.returned 1 260 (by rw [hreturns]; rfl)
  have hle := hfirst.first 200 hpoint (by rw [hstart, hgiven]; decide)
  exact absurd hle (by decide)

end Periodic

end Xmertl.Partikle
