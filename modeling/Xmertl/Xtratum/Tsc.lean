import Mathlib.Data.Rat.Cast.Order
import Mathlib.Tactic.Linarith
import Mathlib.Tactic.Ring
import Xmertl.Xtratum.Timer

/-!
# The time stamp counter

`hwtime2duration_tsc` and `duration2hwtime_tsc` of `tsc.c`. A result is `none` where an operation
overflows a `long long`. The divisions are those of C, which round towards zero.
-/

namespace Xmertl.Xtratum

/-- The values of a `long long`. -/
def LongLong (v : Int) : Prop := -0x8000000000000000 ≤ v ∧ v < 0x8000000000000000

instance : DecidablePred LongLong := fun _ => inferInstanceAs (Decidable (_ ∧ _))

def longLong (v : Int) : Option Int := if LongLong v then some v else none

namespace Tsc

/-- The whole units of `v` are converted apart from the rest: `den` of the one side are `num` of
the other. -/
def convert (num den v : Int) : Option Int := do
  let s ← longLong (v.tdiv den)
  let whole ← longLong (s * num)
  let rest ← longLong (v - (← longLong (s * den)))
  longLong (whole + (← longLong (rest * num)).tdiv den)

def hwtime2durationTsc (hwHz hwtime : Int) : Option Int := convert nsecsPerSec hwHz hwtime

def duration2hwtimeTsc (hwHz d : Int) : Option Int := convert hwHz nsecsPerSec d

/-- What the conversions do at the frequency `hwHz`. Counts before the start are rounded up. -/
structure Exact (hwHz : Int) : Prop where
  duration : ∀ t, 0 ≤ t → LongLong t → LongLong (t * nsecsPerSec / hwHz) →
    hwtime2durationTsc hwHz t = some (t * nsecsPerSec / hwHz)
  negative : ∀ t, t < 0 → LongLong t → LongLong (-(-t * nsecsPerSec / hwHz)) →
    hwtime2durationTsc hwHz t = some (-(-t * nsecsPerSec / hwHz))
  mono : ∀ t t' d d', t ≤ t' → hwtime2durationTsc hwHz t = some d →
    hwtime2durationTsc hwHz t' = some d' → d ≤ d'
  hwtime : ∀ d, 0 ≤ d → LongLong d → LongLong (d * hwHz / nsecsPerSec) →
    duration2hwtimeTsc hwHz d = some (d * hwHz / nsecsPerSec)
  back : ∀ d, 0 ≤ d → LongLong d → LongLong (d * hwHz / nsecsPerSec) →
    ∃ t d', duration2hwtimeTsc hwHz d = some t ∧ hwtime2durationTsc hwHz t = some d' ∧
      d' ≤ d ∧ (d : ℚ) - nsecsPerSec / hwHz - 1 < d'

section
variable {num den v w hz d t : Int}

theorem longLong_eq (h : LongLong v) : longLong v = some v := if_pos h

/-- `v` is no further from zero than `w`, on the same side. -/
def Between (w v : Int) : Prop := 0 ≤ v ∧ v ≤ w ∨ w ≤ v ∧ v ≤ 0

theorem Between.longLong (h : Between w v) (hw : LongLong w) : LongLong v := by
  unfold Between at h
  unfold LongLong at hw ⊢
  omega

theorem between_neg : Between (-w) (-v) ↔ Between w v := by
  unfold Between
  omega

/-- The whole units lie between zero and the value, and the rest is less than a unit. -/
theorem tdiv_bounds (hden : 0 < den) (hv : 0 ≤ v) :
    0 ≤ v.tdiv den ∧ v.tdiv den ≤ v.tdiv den * den ∧ v.tdiv den * den ≤ v ∧
      v - v.tdiv den * den < den := by
  have hq : 0 ≤ v.tdiv den := Int.tdiv_nonneg hv (Int.le_of_lt hden)
  have hle := Int.mul_tdiv_self_le (k := den) hv
  have hlt := Int.lt_mul_tdiv_self_add (x := v) hden
  rw [Int.mul_comm] at hle hlt
  exact ⟨hq, le_mul_of_one_le_right hq hden, hle, by omega⟩

theorem tdiv_split_of_nonneg (hden : 0 < den) (hnum : 0 ≤ num) (hv : 0 ≤ v) :
    (v * num).tdiv den = v.tdiv den * num + ((v - v.tdiv den * den) * num).tdiv den := by
  obtain ⟨-, -, hle, -⟩ := tdiv_bounds hden hv
  have hrest : 0 ≤ (v - v.tdiv den * den) * num := Int.mul_nonneg (by omega) hnum
  have hsum : v * num = (v - v.tdiv den * den) * num + v.tdiv den * num * den := by ring
  rw [Int.tdiv_eq_ediv_of_nonneg hrest, Int.add_comm,
    ← Int.add_mul_ediv_right _ _ (Int.ne_of_gt hden), ← hsum,
    Int.tdiv_eq_ediv_of_nonneg (Int.mul_nonneg hv hnum)]

/-- The whole units, their products, the rest and what it gives, each beside a value that bounds
it. -/
structure Parts (num den v : Int) : Prop where
  split : (v * num).tdiv den = v.tdiv den * num + ((v - v.tdiv den * den) * num).tdiv den
  units : Between v (v.tdiv den)
  whole : Between ((v * num).tdiv den) (v.tdiv den * num)
  back : Between v (v.tdiv den * den)
  rest : Between v (v - v.tdiv den * den)
  last : Between (num * den) ((v - v.tdiv den * den) * num) ∨
    Between (-(num * den)) ((v - v.tdiv den * den) * num)

theorem Parts.of_nonneg (hden : 0 < den) (hnum : 0 ≤ num) (hv : 0 ≤ v) : Parts num den v := by
  obtain ⟨hq, hqle, hle, hlt⟩ := tdiv_bounds hden hv
  have hsplit := tdiv_split_of_nonneg hden hnum hv
  have hrest : 0 ≤ (v - v.tdiv den * den) * num := Int.mul_nonneg (by omega) hnum
  have hrestDiv := Int.tdiv_nonneg hrest (Int.le_of_lt hden)
  refine ⟨hsplit, .inl ⟨hq, by omega⟩, .inl ⟨Int.mul_nonneg hq hnum, by omega⟩,
    .inl ⟨by omega, hle⟩, .inl ⟨by omega, by omega⟩, .inl (.inl ⟨hrest, ?_⟩)⟩
  rw [Int.mul_comm num]
  exact Int.mul_le_mul_of_nonneg_right (Int.le_of_lt hlt) hnum

theorem Parts.of_neg (h : Parts num den (-v)) : Parts num den v := by
  have hrest : -v - -(v.tdiv den * den) = -(v - v.tdiv den * den) := by omega
  obtain ⟨hsplit, hunits, hwhole, hback, hrem, hlast⟩ := h
  simp only [Int.neg_tdiv, Int.neg_mul, hrest, between_neg] at hsplit hunits hwhole hback hrem hlast
  refine ⟨by omega, hunits, hwhole, hback, hrem, ?_⟩
  rcases hlast with h | h
  · exact .inr (between_neg.mp (by rwa [Int.neg_neg]))
  · exact .inl h

theorem parts (hden : 0 < den) (hnum : 0 ≤ num) : Parts num den v := by
  rcases Int.le_total 0 v with hv | hv
  · exact .of_nonneg hden hnum hv
  · exact .of_neg (.of_nonneg hden hnum (by omega))

/-- Where the product of the two rates is in range, no intermediate result overflows before the
last does. -/
theorem convert_eq (hnum : 0 < num) (hden : 0 < den) (hprod : LongLong (num * den))
    (hv : LongLong v) (hr : LongLong ((v * num).tdiv den)) :
    convert num den v = some ((v * num).tdiv den) := by
  have hp : Parts num den v := parts hden (Int.le_of_lt hnum)
  have hlast : LongLong ((v - v.tdiv den * den) * num) := by
    rcases hp.last with h | h
    · exact h.longLong hprod
    · refine h.longLong ?_
      have hpos := Int.mul_pos hnum hden
      unfold LongLong at hprod ⊢
      omega
  simp only [convert, longLong_eq (hp.units.longLong hv), longLong_eq (hp.whole.longLong hr),
    longLong_eq (hp.back.longLong hv), longLong_eq (hp.rest.longLong hv), longLong_eq hlast,
    Option.bind_eq_bind, Option.bind_some]
  rw [← hp.split, longLong_eq hr]

theorem convert_of_nonneg (hnum : 0 < num) (hden : 0 < den) (hprod : LongLong (num * den))
    (h₀ : 0 ≤ v) (hv : LongLong v) (hr : LongLong (v * num / den)) :
    convert num den v = some (v * num / den) := by
  rw [← Int.tdiv_eq_ediv_of_nonneg (Int.mul_nonneg h₀ (Int.le_of_lt hnum))] at hr ⊢
  exact convert_eq hnum hden hprod hv hr

theorem eq_of_convert (hnum : 0 < num) (hden : 0 < den) (hr : convert num den v = some w) :
    w = (v * num).tdiv den := by
  have hp : Parts num den v := parts hden (Int.le_of_lt hnum)
  simp only [convert, Option.bind_eq_bind, Option.bind_eq_some_iff, longLong,
    Option.ite_none_right_eq_some, Option.some.injEq] at hr
  obtain ⟨_, ⟨-, rfl⟩, _, ⟨-, rfl⟩, _, ⟨-, rfl⟩, _, ⟨-, rfl⟩, _, ⟨-, rfl⟩, -, rfl⟩ := hr
  exact hp.split.symm

theorem convert_of_neg (hnum : 0 < num) (hden : 0 < den) (hprod : LongLong (num * den))
    (h₀ : v < 0) (hv : LongLong v) (hr : LongLong (-(-v * num / den))) :
    convert num den v = some (-(-v * num / den)) := by
  have hpos : 0 ≤ -v * num := Int.mul_nonneg (by omega) (Int.le_of_lt hnum)
  rw [← Int.tdiv_eq_ediv_of_nonneg hpos, Int.neg_mul, Int.neg_tdiv, Int.neg_neg] at hr ⊢
  exact convert_eq hnum hden hprod hv hr

theorem convert_mono (hnum : 0 < num) (hden : 0 < den) (hle : v ≤ w)
    (hd : convert num den v = some d) (ht : convert num den w = some t) : d ≤ t := by
  rw [eq_of_convert hnum hden hd, eq_of_convert hnum hden ht]
  exact Int.tdiv_le_tdiv hden (Int.mul_le_mul_of_nonneg_right hle (Int.le_of_lt hnum))

theorem back_bounds (hnum : 0 < num) (hden : 0 < den) :
    d * den / num * num / den ≤ d ∧ (d : ℚ) - num / den - 1 < (d * den / num * num / den : Int) := by
  have hle₁ := Int.ediv_mul_le (d * den) (Int.ne_of_gt hnum)
  have hlt₁ := Int.lt_ediv_add_one_mul_self (d * den) hnum
  have hlt₂ := Int.lt_ediv_add_one_mul_self (d * den / num * num) hden
  refine ⟨Int.ediv_le_of_le_mul hden hle₁, ?_⟩
  have hlt : d * den < (d * den / num * num / den) * den + den + num := by linarith
  have hden' : (0 : ℚ) < den := by exact_mod_cast hden
  have hlt' : (d : ℚ) * den < (d * den / num * num / den : Int) * den + den + num := by
    exact_mod_cast hlt
  refine lt_of_mul_lt_mul_right ?_ (le_of_lt hden')
  rw [sub_mul, sub_mul, div_mul_cancel₀ _ (ne_of_gt hden'), one_mul]
  linarith

theorem longLong_product (h₁ : 1 ≤ hz) (h : hz ≤ 9200000000) : LongLong (nsecsPerSec * hz) := by
  unfold LongLong nsecsPerSec
  omega

/-- For every frequency up to 9.2 GHz, the conversions are exact up to rounding, and nothing
overflows but a result. -/
theorem tsc_exact (h₁ : 1 ≤ hz) (h : hz ≤ 9200000000) : Exact hz := by
  have hn : 0 < nsecsPerSec := by decide
  have hprod := longLong_product h₁ h
  have hprod' : LongLong (hz * nsecsPerSec) := Int.mul_comm hz _ ▸ hprod
  refine ⟨fun t h₀ => convert_of_nonneg hn h₁ hprod h₀, fun t h₀ => convert_of_neg hn h₁ hprod h₀,
    fun t t' d d' => convert_mono hn h₁, fun d h₀ => convert_of_nonneg h₁ hn hprod' h₀,
    fun d h₀ hd hr => ?_⟩
  obtain ⟨hle, hlt⟩ := back_bounds (d := d) hn h₁
  have ht₀ : 0 ≤ d * hz / nsecsPerSec :=
    Int.ediv_nonneg (Int.mul_nonneg h₀ (by omega)) (Int.le_of_lt hn)
  have hd₀ : 0 ≤ d * hz / nsecsPerSec * nsecsPerSec / hz :=
    Int.ediv_nonneg (Int.mul_nonneg ht₀ (Int.le_of_lt hn)) (by omega)
  exact ⟨_, _, convert_of_nonneg h₁ hn hprod' h₀ hd hr,
    convert_of_nonneg hn h₁ hprod ht₀ hr (Between.longLong (.inl ⟨hd₀, hle⟩) hd), hle, hlt⟩

/-- A clock of 2 GHz converts a second and a third of a microsecond. -/
theorem two_gigahertz : (1 : Int) ≤ 2000000000 ∧ (2000000000 : Int) ≤ 9200000000 ∧
    Exact 2000000000 ∧ hwtime2durationTsc 2000000000 2000000667 = some 1000000333 :=
  ⟨by decide, by decide, tsc_exact (by decide) (by decide), by decide⟩

end

end Tsc

end Xmertl.Xtratum
