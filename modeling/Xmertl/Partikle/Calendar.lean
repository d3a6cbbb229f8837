import Mathlib.Data.Int.Order.Basic
import Mathlib.Data.List.Basic

/-!
# The calendar

`mktime` and `localtime_r` of `time.c`, for the times that a `time_t` holds. The divisions are
those of C, which round towards zero. A result is `none` where a table of the months is read
outside its bounds.
-/

namespace Xmertl.Partikle

structure Tm where
  tmSec : Int
  tmMin : Int
  tmHour : Int
  tmMday : Int
  tmMon : Int
  tmYear : Int
  tmWday : Int
  tmYday : Int
  tmIsdst : Int
  deriving DecidableEq

namespace Calendar

def secspermin : Int := 60

def secsperhour : Int := 3600

def secsperday : Int := 86400

def dayspernyear : Int := 365

def daysperweek : Int := 7

def tmYearBase : Int := 1900

def epochYear : Int := 1970

def epochWday : Int := 4

def epochLeap : Int := 1968

def baseToEpochYear : Int := epochYear - tmYearBase

def isleap (y : Int) : Bool := y.tmod 4 = 0 && (y.tmod 100 ≠ 0 || y.tmod 400 = 0)

def leapYearsFromEpoch (y : Int) : Int := (y - epochLeap - 1).tdiv 4

def daysToMonth : List Int := [0, 31, 59, 90, 120, 151, 181, 212, 243, 273, 304, 334, 365]

def daysToMonthLeap : List Int := [0, 31, 60, 91, 121, 152, 182, 213, 244, 274, 305, 335, 366]

def months (leap : Bool) : List Int := if leap then daysToMonthLeap else daysToMonth

def month (table : List Int) (m : Int) : Option Int := if m < 0 then none else table[m.toNat]?

def mktime (t : Tm) : Option Int := do
  let days := 365 * (t.tmYear - baseToEpochYear)
  let days := days + leapYearsFromEpoch (t.tmYear + tmYearBase)
  let days := days + (← month (months (isleap (t.tmYear + tmYearBase))) t.tmMon)
  let days := days + (t.tmMday - 1)
  return days * secsperday + t.tmHour * secsperhour + t.tmMin * secspermin + t.tmSec

/-- The year, counted from the epoch, and the day of the year. -/
def yearDay (days : Int) : Int × Int :=
  let year := days.tdiv dayspernyear
  let year := (days - leapYearsFromEpoch (year + epochYear)).tdiv dayspernyear
  (year, (days - leapYearsFromEpoch (year + epochYear)).tmod dayspernyear)

/-- The loop over the months stops at the first that begins after the day. -/
def localtimeR (t : Int) : Option Tm := do
  let days := t.tdiv secsperday
  let (year, yday) := yearDay days
  let tmYear := year + baseToEpochYear
  let table := months (isleap (tmYear + tmYearBase))
  let m : Int := (← table.findIdx? fun start => yday < start)
  let start ← month table (m - 1)
  return {
    tmSec := t.tmod secspermin
    tmMin := (t.tmod secsperhour).tdiv secspermin
    tmHour := (t.tmod secsperday).tdiv secsperhour
    tmMday := yday - start + 1
    tmMon := m - 1
    tmYear
    tmWday := (days + epochWday).tmod daysperweek
    tmYday := yday
    tmIsdst := 0 }

-- ---------------------------------------------------------------------------
-- Fields in their ranges
-- ---------------------------------------------------------------------------

def monthLengths (leap : Bool) : List Int :=
  [31, if leap then 29 else 28, 31, 30, 31, 30, 31, 31, 30, 31, 30, 31]

structure InRange (t : Tm) : Prop where
  sec : 0 ≤ t.tmSec ∧ t.tmSec ≤ 59
  min : 0 ≤ t.tmMin ∧ t.tmMin ≤ 59
  hour : 0 ≤ t.tmHour ∧ t.tmHour ≤ 23
  mon : 0 ≤ t.tmMon ∧ t.tmMon ≤ 11
  mday : ∃ n, (monthLengths (isleap (t.tmYear + tmYearBase)))[t.tmMon.toNat]? = some n ∧
    1 ≤ t.tmMday ∧ t.tmMday ≤ n
  wday : 0 ≤ t.tmWday ∧ t.tmWday ≤ 6
  yday : 0 ≤ t.tmYday ∧ t.tmYday ≤ 365

def RoundTrip (t : Int) : Prop := ∃ tm, localtimeR t = some tm ∧ mktime tm = some t ∧ InRange tm

/-- 31 December of a leap year: its number in the four years that it ends the third of. -/
def leapYearEnd : Int := 1095

section
variable {d t y : Int} {leap : Bool} {m : Nat}

theorem leapYearsFromEpoch_eq (h : 0 ≤ y) : leapYearsFromEpoch (y + epochYear) = (y + 1) / 4 := by
  rw [leapYearsFromEpoch, epochYear, epochLeap, Int.tdiv_eq_ediv_of_nonneg (by omega)]
  omega

theorem yearDay_eq (h : 0 ≤ d) : yearDay d =
    ((d - (d / 365 + 1) / 4) / 365,
      (d - ((d - (d / 365 + 1) / 4) / 365 + 1) / 4) % 365) := by
  have h₁ : 0 ≤ d / 365 := by omega
  have h₂ : 0 ≤ d - (d / 365 + 1) / 4 := by omega
  have h₃ : 0 ≤ (d - (d / 365 + 1) / 4) / 365 := by omega
  have h₄ : 0 ≤ d - ((d - (d / 365 + 1) / 4) / 365 + 1) / 4 := by omega
  simp only [yearDay, dayspernyear, Int.tdiv_eq_ediv_of_nonneg h, leapYearsFromEpoch_eq h₁,
    Int.tdiv_eq_ediv_of_nonneg h₂, leapYearsFromEpoch_eq h₃, Int.tmod_eq_emod_of_nonneg h₄]

/-- Year `c` of four years that begin after a leap year's successor: its first day is day
`365 * c` of them, and the one after the leap year begins a day later. -/
theorem year_eq {q c r : Int} (hq₀ : 0 ≤ q) (hq : q ≤ 17) (hc₀ : 0 ≤ c) (hc : c ≤ 3)
    (hr₀ : 365 * c + c / 3 ≤ r) (hr : r < 365 * c + c / 3 + 365 + (if c = 2 then 1 else 0)) :
    (1461 * q + r - ((1461 * q + r) / 365 + 1) / 4) / 365 = 4 * q + c := by
  have hfirst : (1461 * q + r) / 365 = 4 * q + c ∨ (1461 * q + r) / 365 = 4 * q + c + 1 := by
    split at hr <;> omega
  have hleap : (4 * q + c + 1) / 4 = q + c / 3 := by omega
  rcases hfirst with hfirst | hfirst
  · rw [hfirst, hleap]
    split at hr <;> omega
  · have hleap' : (4 * q + c + 1 + 1) / 4 = q + (c + 1) / 3 := by omega
    rw [hfirst, hleap']
    split at hr <;> omega

/-- In four years there is one leap day, and the last day of a leap year is taken for its first. -/
theorem yearDay_spec (h₀ : 0 ≤ d) (h : d ≤ 24855) : 0 ≤ (yearDay d).1 ∧ (yearDay d).1 ≤ 68 ∧
    0 ≤ (yearDay d).2 ∧ (yearDay d).2 < 365 ∧
    365 * (yearDay d).1 + ((yearDay d).1 + 1) / 4 + (yearDay d).2 =
      if d % 1461 = leapYearEnd then d - 365 else d := by
  obtain ⟨c, hc₀, hc, hr₀, hr⟩ : ∃ c, 0 ≤ c ∧ c ≤ 3 ∧ 365 * c + c / 3 ≤ d % 1461 ∧
      d % 1461 < 365 * c + c / 3 + 365 + (if c = 2 then 1 else 0) := by
    by_cases h₁ : d % 1461 < 1096
    · exact ⟨min (d % 1461 / 365) 2, by omega, by omega, by omega, by split <;> omega⟩
    · exact ⟨3, by omega, by omega, by omega, by simp only [Int.reduceEq, if_false]; omega⟩
  have hd : 1461 * (d / 1461) + d % 1461 = d := Int.mul_ediv_add_emod d 1461
  have hyear := year_eq (q := d / 1461) (by omega) (by omega) hc₀ hc hr₀ hr
  rw [hd] at hyear
  rw [yearDay_eq h₀, hyear, leapYearEnd]
  dsimp only
  split at hr <;> split <;> omega

theorem months_step : ∀ leap, ∀ i < 12, (months leap)[i + 1]? = do
    return (← (months leap)[i]?) + (← (monthLengths leap)[i]?) := by
  decide

theorem months_spec (leap : Bool) (h₀ : 0 ≤ d) (h : d < 365) : ∃ (m : Nat) (start n : Int),
    (months leap).findIdx? (fun start => d < start) = some m ∧ 1 ≤ m ∧ m ≤ 12 ∧
    (months leap)[m - 1]? = some start ∧ (monthLengths leap)[m - 1]? = some n ∧ start ≤ d ∧
    d < start + n := by
  cases hm : (months leap).findIdx? fun start => d < start with
  | none =>
    have hlast : (if leap then 366 else 365) ∈ months leap := by cases leap <;> decide
    have hle := List.findIdx?_eq_none_iff.mp hm _ hlast
    split at hle <;> simp at hle <;> omega
  | some m =>
    obtain ⟨hlt, hnext, hbefore⟩ := List.findIdx?_eq_some_iff_getElem.mp hm
    have hlen : (months leap).length = 13 := by cases leap <;> rfl
    have hzero : (months leap)[0]? = some 0 := by cases leap <;> rfl
    have hpos : m ≠ 0 := by
      rintro rfl
      rw [List.getElem?_eq_getElem hlt, Option.some.injEq] at hzero
      rw [hzero] at hnext
      simp at hnext
      omega
    obtain ⟨i, rfl⟩ := Nat.exists_eq_succ_of_ne_zero hpos
    have hi := hbefore i (Nat.lt_succ_self i)
    have hlens : (monthLengths leap).length = 12 := rfl
    have hstep := months_step leap i (by omega)
    rw [List.getElem?_eq_getElem hlt, List.getElem?_eq_getElem (by omega),
      List.getElem?_eq_getElem (by omega)] at hstep
    simp only [Option.pure_def, Option.bind_eq_bind, Option.bind_some, Option.some.injEq] at hstep
    simp only [decide_eq_true_eq, Nat.succ_eq_add_one] at hnext hi
    rw [hstep] at hnext
    exact ⟨i + 1, _, _, rfl, by omega, by omega, List.getElem?_eq_getElem (by omega),
      List.getElem?_eq_getElem (by omega), by simpa using hi, hnext⟩

theorem localtimeR_spec (h₀ : 0 ≤ t) (h : t < 0x80000000) : ∃ tm, localtimeR t = some tm ∧
    InRange tm ∧
    mktime tm = some (if t / 86400 % 1461 = leapYearEnd then t - 365 * 86400 else t) := by
  obtain ⟨hy₀, hy, hd₀, hd, hdays⟩ := yearDay_spec (d := t / 86400) (by omega) (by omega)
  generalize hyear : yearDay (t / 86400) = r at *
  obtain ⟨year, yday⟩ := r
  dsimp only at hy₀ hy hd₀ hd hdays
  have hcal : year + baseToEpochYear + tmYearBase = year + epochYear := by
    simp only [baseToEpochYear]
    omega
  obtain ⟨m, start, n, hm, hm₁, hm₁₂, hstart, hn, hle, hlt⟩ :=
    months_spec (isleap (year + epochYear)) hd₀ hd
  have hmon : month (months (isleap (year + epochYear))) ((m : Int) - 1) = some start := by
    have hidx : ((m : Int) - 1).toNat = m - 1 := by omega
    rw [month, if_neg (by omega), hidx, hstart]
  have hlocal : localtimeR t = some {
      tmSec := t % 60, tmMin := t % 3600 / 60, tmHour := t % 86400 / 3600,
      tmMday := yday - start + 1, tmMon := m - 1, tmYear := year + baseToEpochYear,
      tmWday := (t / 86400 + 4) % 7, tmYday := yday, tmIsdst := 0 } := by
    have h₁ : 0 ≤ t % 3600 := by omega
    have h₂ : 0 ≤ t % 86400 := by omega
    have h₃ : 0 ≤ t / 86400 + 4 := by omega
    simp only [localtimeR, secsperday, secsperhour, secspermin, daysperweek, epochWday,
      Int.tdiv_eq_ediv_of_nonneg h₀, hyear, hcal, hm, Int.tmod_eq_emod_of_nonneg h₀,
      Int.tdiv_eq_ediv_of_nonneg h₁, Int.tdiv_eq_ediv_of_nonneg h₂, Int.tmod_eq_emod_of_nonneg h₃,
      Option.bind_eq_bind, Option.bind_some, hmon, Option.pure_def]
  refine ⟨_, hlocal, ?_, ?_⟩
  · have hidx : ((m : Int) - 1).toNat = m - 1 := by omega
    refine ⟨?_, ?_, ?_, ?_, ⟨n, ?_, ?_, ?_⟩, ?_, ?_⟩ <;> dsimp only
    · omega
    · omega
    · omega
    · omega
    · rw [hcal, hidx, hn]
    · omega
    · omega
    · omega
    · omega
  · have hback : year + baseToEpochYear - baseToEpochYear = year := by omega
    simp only [mktime, hcal, hback, leapYearsFromEpoch_eq hy₀, hmon, secsperday, secsperhour,
      secspermin, Option.bind_eq_bind, Option.bind_some, Option.pure_def, Option.some.injEq]
    split at hdays <;> omega

/-- For every time of a `time_t`, the way to the calendar and back is right if and only if the
day is not the last of a leap year. -/
theorem roundTrip_iff (h₀ : 0 ≤ t) (h : t < 0x80000000) :
    RoundTrip t ↔ t / 86400 % 1461 ≠ leapYearEnd := by
  obtain ⟨tm, hlocal, hrange, hmk⟩ := localtimeR_spec h₀ h
  constructor
  · rintro ⟨tm', hlocal', hmk', -⟩ hend
    obtain rfl := Option.some.inj (hlocal.symm.trans hlocal')
    rw [if_pos hend] at hmk
    have hsame := Option.some.inj (hmk.symm.trans hmk')
    omega
  · intro hend
    rw [if_neg hend] at hmk
    exact ⟨tm, hlocal, hmk, hrange⟩

/-- 29 February 2000, at noon. -/
theorem roundTrip_leap_day : RoundTrip 951825600 :=
  (roundTrip_iff (by decide) (by decide)).mpr (by decide)

/-- 31 December 1972 becomes 1 January 1972. -/
theorem not_roundTrip_year_end : ¬RoundTrip 94608000 := by
  rintro ⟨tm, hlocal, hmk, -⟩
  have htm : localtimeR 94608000 = some ⟨0, 0, 0, 1, 0, 72, 0, 0, 0⟩ := by decide +kernel
  obtain rfl := Option.some.inj (htm.symm.trans hlocal)
  have hback : mktime ⟨0, 0, 0, 1, 0, 72, 0, 0, 0⟩ = some 63072000 := by decide +kernel
  exact absurd (Option.some.inj (hback.symm.trans hmk)) (by decide)

end

end Calendar

end Xmertl.Partikle
