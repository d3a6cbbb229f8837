import Xmertl.Partikle.TimerCalls

/-!
# The old setting of a timer

`timer_settime_sys` writes a timer's setting through `ovalue`, `timer_gettime_sys` through
`value`. Both make a `timespec` of 64-bit times: the seconds are the time as an unsigned
number divided by NSECS_PER_SEC, cut to 32 bits.
-/

namespace Xmertl.Partikle

open Runs

/-- The nanoseconds after which the seconds of a `timespec` are the same again. -/
def timespecPeriod : Int := 4294967296000000000

/-- The times below this have their `timespec`. -/
def timespecEnd : Int := 2147483648000000000

def Timespec.Normalised (t : Timespec) : Prop := 0 ≤ t.tvNsec ∧ t.tvNsec < nsecsPerSec

def zeroTimes : Itimerspec := ⟨⟨0, 0⟩, ⟨0, 0⟩⟩

def TimerAnswer.written (a : TimerAnswer) (old : Itimerspec) : Itimerspec := a.spec.getD old

variable {T : Type}

namespace Ktimer

def ctime (k : Ktimer T) (now : Readings T) : Int := now k.readClock k.owner

/-- The time that is left, at clock reading `ctime`. -/
def remaining (k : Ktimer T) (ctime : Int) : Int :=
  if k.armed then max 0 (k.timerValue - ctime) else 0

def interval (k : Ktimer T) : Int := if k.armed then k.timerInterval else 0

/-- The times are a `duration_t`. -/
structure Fits (k : Ktimer T) (ctime : Int) : Prop where
  value_ge : -9223372036854775808 ≤ k.timerValue
  value_lt : k.timerValue < 9223372036854775808
  interval_ge : -9223372036854775808 ≤ k.timerInterval
  interval_lt : k.timerInterval < 9223372036854775808
  ctime_nonneg : 0 ≤ ctime
  ctime_lt : ctime < 9223372036854775808

end Ktimer

/-- What `ovalue` should hold after the call: what `timer_gettime_sys` would have said, and
that the right thing. -/
structure ReportsOld (x : TimerTable T) (timerid : Int) (now : Readings T) (after : Itimerspec) :
    Prop where
  gettime : x.timerGettimeSys timerid true now = some { ret := 0, spec := some after }
  remaining : after.itValue.nsecs =
    (x.timerArray timerid).remaining ((x.timerArray timerid).ctime now)
  interval : after.itInterval.nsecs = (x.timerArray timerid).interval
  value_normalised : after.itValue.Normalised
  interval_normalised : after.itInterval.Normalised

/-- When the two calls agree on timer `k`, `ctime` being its clock's reading and `old` what
the caller's place holds: an armed timer's clock reads 0, or a multiple of 2 ^ 32 seconds,
and the times fit; of a timer that is overdue, the two times happen to be such multiples
themselves; for a timer that is not armed the place holds zeros already. -/
def AgreesOld (k : Ktimer T) (ctime : Int) (old : Itimerspec) : Prop :=
  if k.armed then
    0 ≤ k.timerInterval ∧ k.timerInterval < timespecEnd ∧
      if ctime ≤ k.timerValue then
        k.timerValue - ctime < timespecEnd ∧ timespecPeriod ∣ ctime
      else timespecPeriod ∣ uint64 k.timerValue ∧ timespecPeriod ∣ uint64 (k.timerValue - ctime)
  else old = zeroTimes

-- ---------------------------------------------------------------------------
-- The pair of a time
-- ---------------------------------------------------------------------------

section
variable {d e : Int}

theorem int32_cases (x : Int) :
    ∃ t, int32 x = x + 4294967296 * t ∧ -2147483648 ≤ int32 x ∧ int32 x < 2147483648 := by
  have hle := Int.le_bmod (x := x) (m := 4294967296) (by decide)
  have hmod : (int32 x - x) % 4294967296 = 0 := Int.emod_eq_emod_iff_emod_sub_eq_zero.mp
    Int.bmod_emod
  obtain ⟨t, ht⟩ := Int.dvd_of_emod_eq_zero hmod
  refine ⟨t, by omega, ?_, int32_lt x⟩
  rw [int32]
  omega

theorem uint64_range (d : Int) : 0 ≤ uint64 d ∧ uint64 d < 18446744073709551616 := by
  unfold uint64
  omega

theorem timespec_nsec (d : Int) : (timespec d).tvNsec = uint64 d % 1000000000 := by
  have hrange := uint64_range d
  rw [← int32_eq (x := uint64 d % 1000000000) (by omega) (by omega)]
  rfl

theorem timespec_normalised (d : Int) : (timespec d).Normalised := by
  rw [Timespec.Normalised, timespec_nsec, nsecsPerSec]
  omega

theorem nsecs_timespec (d : Int) :
    ∃ t, (timespec d).nsecs = uint64 d + timespecPeriod * t ∧
      -timespecEnd ≤ (timespec d).nsecs ∧ (timespec d).nsecs < timespecEnd := by
  obtain ⟨t, ht, hge, hlt⟩ := int32_cases (uint64 d / 1000000000)
  have hsec : (timespec d).tvSec = int32 (uint64 d / 1000000000) := rfl
  refine ⟨t, ?_, ?_⟩
  · rw [Timespec.nsecs, timespec_nsec, hsec, ht, nsecsPerSec, timespecPeriod]
    omega
  · rw [Timespec.nsecs, timespec_nsec, hsec, nsecsPerSec, timespecEnd]
    omega

theorem timespec_ext {s t : Timespec} (hs : s.Normalised) (ht : t.Normalised)
    (h : s.nsecs = t.nsecs) : s = t := by
  obtain ⟨sec, nsec⟩ := s
  obtain ⟨sec', nsec'⟩ := t
  simp only [Timespec.Normalised, Timespec.nsecs, nsecsPerSec] at hs ht h
  rw [Timespec.mk.injEq]
  omega

theorem timespec_eq_iff (d e : Int) :
    timespec d = timespec e ↔ timespecPeriod ∣ uint64 d - uint64 e := by
  obtain ⟨t, ht, hge, hlt⟩ := nsecs_timespec d
  obtain ⟨u, hu, hge', hlt'⟩ := nsecs_timespec e
  rw [timespecEnd] at hge hlt hge' hlt'
  constructor
  · intro h
    rw [h, hu] at ht
    rw [timespecPeriod] at ht ⊢
    exact ⟨u - t, by omega⟩
  · rintro ⟨v, hv⟩
    refine timespec_ext (timespec_normalised d) (timespec_normalised e) ?_
    rw [timespecPeriod] at ht hu hv
    omega

theorem uint64_cases (hd : -18446744073709551616 ≤ d) (h : d < 18446744073709551616) :
    0 ≤ d ∧ uint64 d = d ∨ d < 0 ∧ uint64 d = d + 18446744073709551616 := by
  unfold uint64
  omega

theorem nsecs_timespec_iff (hd : -18446744073709551616 ≤ d) (h : d < 18446744073709551616) :
    (timespec d).nsecs = d ↔ 0 ≤ d ∧ d < timespecEnd := by
  obtain ⟨t, ht, hge, hlt⟩ := nsecs_timespec d
  rw [timespecEnd] at hge hlt ⊢
  rw [timespecPeriod] at ht
  rcases uint64_cases hd h with ⟨hpos, hu⟩ | ⟨hneg, hu⟩
  · rw [hu] at ht
    omega
  · rw [hu] at ht
    omega

theorem nsecs_timespec_zero : (timespec d).nsecs = 0 ↔ timespecPeriod ∣ uint64 d := by
  obtain ⟨t, ht, hge, hlt⟩ := nsecs_timespec d
  rw [timespecEnd] at hge hlt
  rw [timespecPeriod] at ht ⊢
  constructor
  · intro h
    exact ⟨-t, by omega⟩
  · rintro ⟨u, hu⟩
    omega

theorem timespec_eq_past_iff (he : 0 ≤ e) (hde : e ≤ d) (h : d < 18446744073709551616) :
    timespec d = timespec e ↔ timespecPeriod ∣ d - e := by
  rw [timespec_eq_iff, uint64, uint64, Int.emod_eq_of_lt (he.trans hde) h,
    Int.emod_eq_of_lt he (hde.trans_lt h)]

end

-- ---------------------------------------------------------------------------
-- The two calls
-- ---------------------------------------------------------------------------

section
variable {x y : TimerTable T} {id : Int} {now : Readings T} {old : Itimerspec} {k : Ktimer T}
  {c : Int}

namespace Ktimer

def times (k : Ktimer T) (ctime : Int) : Itimerspec :=
  if k.armed then ⟨timespec k.timerInterval, timespec (k.timerValue - ctime)⟩ else zeroTimes

theorem remaining_future (h : k.armed) (hle : c ≤ k.timerValue) :
    k.remaining c = k.timerValue - c := by
  rw [remaining, if_pos h]
  omega

theorem remaining_overdue (h : k.armed) (hlt : k.timerValue < c) : k.remaining c = 0 := by
  rw [remaining, if_pos h]
  omega

end Ktimer

namespace TimerTable

theorem checkTimer_used (hin : InTable id) (hu : (x.timerArray id).inUse) :
    x.checkTimer id = some true := by
  rw [checkTimer, if_neg (Int.not_le.mpr hin.2), deref_of_inTable hin]
  exact congrArg some hu

theorem timerGettimeSys_eq (hin : InTable id) (hu : (x.timerArray id).inUse) :
    x.timerGettimeSys id true now =
      some { ret := 0, spec := some ((x.timerArray id).times ((x.timerArray id).ctime now)) } := by
  rw [timerGettimeSys, checkTimer_used hin hu, deref_of_inTable hin, Ktimer.times]
  simp only [Option.bind_eq_bind, Option.bind_some, if_true]
  cases (x.timerArray id).armed with
  | true => rfl
  | false => rfl

theorem timerSettime_answer [DecidableEq T] {abstime ovalue : Bool} {value : Option Itimerspec}
    {dev : Hwtimer} {later : Nat → Readings T} {rounds : Nat} {a : TimerAnswer}
    (hin : InTable id) (hu : (x.timerArray id).inUse)
    (h : x.timerSettime id abstime value ovalue dev now later rounds = some (y, a)) :
    a = { ret := 0, spec := oldTimes (x.timerArray id) ovalue } := by
  obtain ⟨z, -, h⟩ := Option.bind_eq_some_iff.mp h
  rw [checkTimer_used hin hu, deref_of_inTable hin] at h
  simp only [Option.bind_eq_bind, Option.bind_some, if_true] at h
  split at h
  · obtain ⟨w, -, h⟩ := Option.bind_eq_some_iff.mp h
    exact (Prod.mk.inj (Option.some.inj h)).2.symm
  · exact (Prod.mk.inj (Option.some.inj h)).2.symm

end TimerTable

-- ---------------------------------------------------------------------------
-- When they agree
-- ---------------------------------------------------------------------------

theorem zeroTimes_normalised : Timespec.Normalised ⟨0, 0⟩ := ⟨le_refl 0, by decide⟩

theorem reportsOld_iff_times {after : Itimerspec} (hin : InTable id)
    (hu : (x.timerArray id).inUse) :
    ReportsOld x id now after ↔
      (x.timerArray id).times ((x.timerArray id).ctime now) = after ∧
      after.itValue.nsecs = (x.timerArray id).remaining ((x.timerArray id).ctime now) ∧
      after.itInterval.nsecs = (x.timerArray id).interval := by
  constructor
  · intro h
    have hget := h.gettime
    rw [TimerTable.timerGettimeSys_eq hin hu] at hget
    have hspec := congrArg TimerAnswer.spec (Option.some.inj hget)
    exact ⟨Option.some.inj hspec, h.remaining, h.interval⟩
  · rintro ⟨rfl, hremaining, hinterval⟩
    refine ⟨TimerTable.timerGettimeSys_eq hin hu, hremaining, hinterval, ?_, ?_⟩
    · rw [Ktimer.times]
      split
      · exact timespec_normalised _
      · exact zeroTimes_normalised
    · rw [Ktimer.times]
      split
      · exact timespec_normalised _
      · exact zeroTimes_normalised

theorem value_agrees_iff (hf : k.Fits c) (h : k.armed) :
    timespec (k.timerValue - c) = timespec k.timerValue ∧
        (timespec k.timerValue).nsecs = k.remaining c ↔
      if c ≤ k.timerValue then k.timerValue - c < timespecEnd ∧ timespecPeriod ∣ c
      else timespecPeriod ∣ uint64 k.timerValue ∧ timespecPeriod ∣ uint64 (k.timerValue - c) := by
  have hvalue := hf.value_lt
  have hc := hf.ctime_nonneg
  by_cases hle : c ≤ k.timerValue
  · rw [if_pos hle, Ktimer.remaining_future h hle, eq_comm,
      timespec_eq_past_iff (by omega) (by omega) (by omega), Int.sub_sub_self]
    constructor
    · rintro ⟨hdvd, hleft⟩
      have heq := (timespec_eq_past_iff (d := k.timerValue) (e := k.timerValue - c) (by omega)
        (by omega) (by omega)).mpr (by rwa [Int.sub_sub_self])
      rw [heq] at hleft
      exact ⟨((nsecs_timespec_iff (by omega) (by omega)).mp hleft).2, hdvd⟩
    · rintro ⟨hend, hdvd⟩
      refine ⟨hdvd, ?_⟩
      rw [(timespec_eq_past_iff (d := k.timerValue) (e := k.timerValue - c) (by omega)
        (by omega) (by omega)).mpr (by rwa [Int.sub_sub_self])]
      exact (nsecs_timespec_iff (by omega) (by omega)).mpr ⟨by omega, hend⟩
  · rw [if_neg hle, Ktimer.remaining_overdue h (Int.not_le.mp hle), nsecs_timespec_zero]
    constructor
    · rintro ⟨heq, hdvd⟩
      refine ⟨hdvd, ?_⟩
      rwa [← nsecs_timespec_zero, heq, nsecs_timespec_zero]
    · rintro ⟨hdvd, hleft⟩
      refine ⟨timespec_ext (timespec_normalised _) (timespec_normalised _) ?_, hdvd⟩
      rw [nsecs_timespec_zero.mpr hleft, nsecs_timespec_zero.mpr hdvd]

theorem reportsOld_iff (hin : InTable id) (hu : (x.timerArray id).inUse)
    (hf : (x.timerArray id).Fits ((x.timerArray id).ctime now)) :
    ReportsOld x id now ((TimerTable.oldTimes (x.timerArray id) true).getD old) ↔
      AgreesOld (x.timerArray id) ((x.timerArray id).ctime now) old := by
  rw [reportsOld_iff_times hin hu, AgreesOld, TimerTable.oldTimes, Bool.and_true]
  by_cases h : (x.timerArray id).armed
  · have hge := hf.interval_ge
    have hlt := hf.interval_lt
    rw [if_pos h, if_pos h, Option.getD_some, Ktimer.times, if_pos h, Ktimer.interval, if_pos h,
      Itimerspec.mk.injEq, nsecs_timespec_iff (by omega) (by omega), ← value_agrees_iff hf h]
    tauto
  · rw [if_neg h, if_neg h, Option.getD_none, Ktimer.times, if_neg h]
    constructor
    · rintro ⟨hzero, -⟩
      exact hzero.symm
    · rintro rfl
      refine ⟨rfl, ?_, ?_⟩
      · rw [Ktimer.remaining, if_neg h]
        rfl
      · rw [Ktimer.interval, if_neg h]
        rfl

/-- Where the heap of timers is kept the call succeeds. Whenever it does, the caller's place holds
what `timer_gettime_sys` would have said if and only if the two agree on that timer. -/
theorem timerSettime_reports [DecidableEq T] (x : TimerTable T) (id : Int) (hin : InTable id)
    (hu : (x.timerArray id).inUse) (now : Readings T)
    (hf : (x.timerArray id).Fits ((x.timerArray id).ctime now)) (old : Itimerspec)
    (abstime : Bool) (value : Option Itimerspec) (dev : Hwtimer) (later : Nat → Readings T)
    (rounds : Nat) :
    (x.Agrees → ∃ y a, x.timerSettime id abstime value true dev now later rounds = some (y, a)) ∧
      ∀ y a, x.timerSettime id abstime value true dev now later rounds = some (y, a) →
        (ReportsOld x id now (a.written old) ↔
          AgreesOld (x.timerArray id) ((x.timerArray id).ctime now) old) := by
  refine ⟨fun hx => ?_, fun y a h => ?_⟩
  · obtain ⟨y, a, h, -⟩ :=
      TimerTable.settime_validates hx hin.1 abstime value true dev now later rounds
    exact ⟨y, a, h⟩
  · rw [TimerTable.timerSettime_answer hin hu h, TimerAnswer.written]
    exact reportsOld_iff hin hu hf

end

def secondsOn (n : Int) : Readings Unit := fun _ _ => n * nsecsPerSec

/-- Timer 0 was armed for 5 seconds when its clock read `n` seconds, timer 1 never. -/
def HasTwoTimers (x : TimerTable Unit) (n : Int) : Prop :=
  ((x.timerArray 0).inUse ∧ (x.timerArray 0).armed ∧
    (x.timerArray 0).timerValue = (n + 5) * nsecsPerSec ∧ (x.timerArray 0).timerInterval = 0) ∧
  (x.timerArray 1).inUse ∧ ¬(x.timerArray 1).armed

instance (x : TimerTable Unit) (n : Int) : Decidable (HasTwoTimers x n) :=
  inferInstanceAs (Decidable (_ ∧ _))

def twoTimersCalls (n : Int) : List (TimerCall Unit) :=
  [.create () .monotonic none, .create () .monotonic none,
    .settime 0 false (some ⟨⟨0, 0⟩, ⟨5, 0⟩⟩) (secondsOn n)]

theorem exec_two_timers {n : Int}
    (h : ((exec TimerTable.step oneSleeper.initTime (twoTimersCalls n)).any fun r =>
      decide ((∀ e ∈ r.1, e.1.Keeps e.2) ∧ HasTwoTimers r.2 n)) = true) :
    ∃ tr x, Run TimerTable.step oneSleeper.initTime tr x ∧ x.Agrees ∧ HasTwoTimers x n := by
  obtain ⟨tr, x, hr, hx⟩ := exec_any h
  obtain ⟨hkeeps, htimers⟩ := of_decide_eq_true hx
  exact ⟨tr, x, hr, .of_run hr hkeeps, htimers⟩

theorem timerSettime_reports_first : ∃ tr x y a,
    Run TimerTable.step oneSleeper.initTime tr x ∧ (x.timerArray 0).armed ∧
    x.timerSettime 0 false none true testTimer (secondsOn 0) (fun _ => secondsOn 1) 0 =
      some (y, a) ∧
    ReportsOld x 0 (secondsOn 0) (a.written zeroTimes) := by
  obtain ⟨tr, x, hr, hx, ⟨hu, harmed, hvalue, hinterval⟩, -⟩ :=
    exec_two_timers (n := 0) (by decide +kernel)
  have hin : InTable 0 := ⟨le_refl 0, by decide⟩
  have hctime : (x.timerArray 0).ctime (secondsOn 0) = 0 := rfl
  have hf : (x.timerArray 0).Fits ((x.timerArray 0).ctime (secondsOn 0)) := by
    rw [nsecsPerSec] at hvalue
    constructor <;> omega
  obtain ⟨hruns, hreports⟩ := timerSettime_reports x 0 hin hu (secondsOn 0) hf zeroTimes false none
    testTimer (fun _ => secondsOn 1) 0
  obtain ⟨y, a, h⟩ := hruns hx
  refine ⟨tr, x, y, a, hr, harmed, h, (hreports y a h).mpr ?_⟩
  rw [AgreesOld, if_pos harmed, hinterval, hctime, hvalue]
  decide

/-- At 12 seconds timer 0 has 3 seconds left, and the caller gets 15. For timer 1 its place
is not written. -/
theorem timerSettime_reports_absolute : ∃ tr x,
    Run TimerTable.step oneSleeper.initTime tr x ∧
    (∃ y a, x.timerSettime 0 false none true testTimer (secondsOn 12) (fun _ => secondsOn 13) 0 =
        some (y, a) ∧
      a.written zeroTimes = ⟨⟨0, 0⟩, ⟨15, 0⟩⟩ ∧ (x.timerGettimeSys 0 true (secondsOn 12)) =
        some { ret := 0, spec := some ⟨⟨0, 0⟩, ⟨3, 0⟩⟩ } ∧
      ¬ReportsOld x 0 (secondsOn 12) (a.written zeroTimes)) ∧
    ∃ y a, x.timerSettime 1 false none true testTimer (secondsOn 12) (fun _ => secondsOn 13) 0 =
        some (y, a) ∧
      a.written ⟨⟨0, 0⟩, ⟨7, 0⟩⟩ = ⟨⟨0, 0⟩, ⟨7, 0⟩⟩ ∧
      ¬ReportsOld x 1 (secondsOn 12) (a.written ⟨⟨0, 0⟩, ⟨7, 0⟩⟩) := by
  obtain ⟨tr, x, hr, hx, ⟨hu, harmed, hvalue, hinterval⟩, hu', hidle⟩ :=
    exec_two_timers (n := 10) (by decide +kernel)
  have hin : InTable 0 := ⟨le_refl 0, by decide⟩
  have hin' : InTable 1 := ⟨by decide, by decide⟩
  obtain ⟨y, a, h, -⟩ := TimerTable.settime_validates hx hin.1 false none true testTimer
    (secondsOn 12) (fun _ => secondsOn 13) 0
  obtain ⟨z, b, h', -⟩ := TimerTable.settime_validates hx hin'.1 false none true testTimer
    (secondsOn 12) (fun _ => secondsOn 13) 0
  have htimes : timespec 0 = ⟨0, 0⟩ ∧ timespec ((10 + 5) * nsecsPerSec) = ⟨15, 0⟩ ∧
      timespec ((10 + 5) * nsecsPerSec - 12000000000) = ⟨3, 0⟩ := by
    decide
  obtain ⟨hzero, hfifteen, hthree⟩ := htimes
  have hwritten : a.written zeroTimes = ⟨⟨0, 0⟩, ⟨15, 0⟩⟩ := by
    rw [TimerTable.timerSettime_answer hin hu h, TimerTable.oldTimes, harmed, hvalue, hinterval,
      hzero, hfifteen]
    rfl
  have hleft : x.timerGettimeSys 0 true (secondsOn 12) =
      some { ret := 0, spec := some ⟨⟨0, 0⟩, ⟨3, 0⟩⟩ } := by
    have hctime : (x.timerArray 0).ctime (secondsOn 12) = 12000000000 := rfl
    rw [TimerTable.timerGettimeSys_eq hin hu, Ktimer.times, if_pos harmed, hctime, hvalue, hinterval,
      hzero, hthree]
  have hkept : b.written ⟨⟨0, 0⟩, ⟨7, 0⟩⟩ = ⟨⟨0, 0⟩, ⟨7, 0⟩⟩ := by
    rw [TimerTable.timerSettime_answer hin' hu' h', TimerTable.oldTimes, (Bool.not_eq_true _).mp hidle]
    rfl
  refine ⟨tr, x, hr, ⟨y, a, h, hwritten, hleft, fun hreports => ?_⟩, z, b, h', hkept,
    fun hreports => ?_⟩
  · have hspec := congrArg TimerAnswer.spec
      (Option.some.inj (hleft.symm.trans hreports.gettime))
    rw [hwritten, Option.some.injEq, Itimerspec.mk.injEq] at hspec
    exact absurd hspec.2 (by decide)
  · have hzero := hreports.remaining
    rw [hkept, Ktimer.remaining, if_neg hidle] at hzero
    exact absurd hzero (by decide)

end Xmertl.Partikle
