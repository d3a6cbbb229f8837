import Xmertl.Partikle.Rtl
import Xmertl.Partikle.TimerTable

/-!
# What the timer calls touch

The system calls of `time.c` that take a timer's number, with what they return and write for
their caller. Each of them compares the number with MAX_TIMERS only, and it is an `int`:
below 0 lies the memory before the table.
-/

namespace Xmertl.Partikle

open Runs

/-- What a call returns, and the times that it writes for its caller. -/
structure TimerAnswer where
  ret : Int
  spec : Option Itimerspec := none

/-- `clockid` by its number; `ovalue` and `value` say whether the caller passes a place. -/
inductive TimerSys (T : Type)
  | create (current : T) (clockid : Int) (signo : Option Int)
  | delete (timerid : Int)
  | settime (timerid : Int) (abstime : Bool) (value : Option Itimerspec) (ovalue : Bool)
      (dev : Hwtimer) (now : Readings T) (later : Nat → Readings T) (rounds : Nat)
  | gettime (timerid : Int) (value : Bool) (now : Readings T)
  | getoverrun (timerid : Int)

/-- CLOCK_REALTIME, CLOCK_MONOTONIC and CLOCK_THREAD_CPUTIME_ID. -/
def Clock.ofId (clockid : Int) : Option Clock :=
  if clockid = 0 then some .realtime
  else if clockid = 1 then some .monotonic
  else if clockid = 2 then some .threadCputime
  else none

def Itimerspec.armed (value : Itimerspec) : Bool :=
  decide (value.itValue.tvSec ≠ 0 ∨ value.itValue.tvNsec ≠ 0)

section
variable {T : Type}

namespace TimerTable

def checkTimer (x : TimerTable T) (timerid : Int) : Option Bool := do
  if timerid ≥ maxTimers then return false
  return (← x.deref timerid).inUse

def timerGetoverrunSys (x : TimerTable T) (timerid : Int) : Option TimerAnswer := do
  if ← x.checkTimer timerid then return { ret := 0 }
  return { ret := -1 }

def timerGettimeSys (x : TimerTable T) (timerid : Int) (value : Bool) (now : Readings T) :
    Option TimerAnswer := do
  if ← x.checkTimer timerid then
    let k ← x.deref timerid
    if !value then return { ret := 0 }
    if k.armed then
      let left := k.timerValue - now k.readClock k.owner
      return { ret := 0, spec := some ⟨timespec k.timerInterval, timespec left⟩ }
    return { ret := 0, spec := some ⟨⟨0, 0⟩, ⟨0, 0⟩⟩ }
  return { ret := -1 }

variable [DecidableEq T]

/-- `timer_create_sys`, which writes the timer's number besides. -/
def timerCreate (x : TimerTable T) (current : T) (clockid : Int) (signo : Option Int) :
    Option (TimerTable T × TimerAnswer) := do
  match Clock.ofId clockid with
  | none => return (x, { ret := -1 })
  | some clock =>
    let y ← x.timerCreateSys current clock signo
    if (x.allocKtimer clock current .kill).2 ≥ maxTimers then return (y, { ret := -1 })
    return (y, { ret := 0 })

def timerDelete (x : TimerTable T) (timerid : Int) : Option (TimerTable T × TimerAnswer) := do
  let y ← x.timerDeleteSys timerid
  if ← x.checkTimer timerid then return (y, { ret := 0 })
  return (y, { ret := -1 })

def oldTimes (k : Ktimer T) (ovalue : Bool) : Option Itimerspec :=
  if k.armed && ovalue then some ⟨timespec k.timerInterval, timespec k.timerValue⟩ else none

/-- `timer_settime_sys` with its call of `update_hwtimer`. -/
def timerSettime (x : TimerTable T) (timerid : Int) (abstime : Bool) (value : Option Itimerspec)
    (ovalue : Bool) (dev : Hwtimer) (now : Readings T) (later : Nat → Readings T) (rounds : Nat) :
    Option (TimerTable T × TimerAnswer) := do
  let y ← x.timerSettimeSys timerid abstime value now
  if ← x.checkTimer timerid then
    let k ← x.deref timerid
    let answer : TimerAnswer := { ret := 0, spec := oldTimes k ovalue }
    if value.any Itimerspec.armed then
      let (y, _, _) ← y.updateHwtimer dev rounds later
      return (y, answer)
    return (y, answer)
  return (y, { ret := -1 })

def sys (x : TimerTable T) : TimerSys T → Option (TimerTable T × TimerAnswer)
  | .create current clockid signo => x.timerCreate current clockid signo
  | .delete timerid => x.timerDelete timerid
  | .settime timerid abstime value ovalue dev now later rounds =>
    x.timerSettime timerid abstime value ovalue dev now later rounds
  | .gettime timerid value now => (x.timerGettimeSys timerid value now).map (x, ·)
  | .getoverrun timerid => (x.timerGetoverrunSys timerid).map (x, ·)

/-- From `x` to `y`, what has changed are timers of the table that are in use. -/
def Touches (x y : TimerTable T) : Prop :=
  ∀ id, y.timerArray id ≠ x.timerArray id → InTable id ∧ (x.timerArray id).inUse

/-- From `x` to `y` no other timer has changed, nor whose sleep timer is which. -/
structure ChangesOnly (x : TimerTable T) (id : Int) (y : TimerTable T) : Prop where
  others : ∀ j, j ≠ id → y.timerArray j = x.timerArray j
  sleepKtimer : y.sleepKtimer = x.sleepKtimer

def timerid : TimerSys T → Option Int
  | .create _ _ _ => none
  | .delete id | .settime id _ _ _ _ _ _ _ | .gettime id _ _ | .getoverrun id => some id

/-- A call with a number works on a timer of the table that is in use, and touches such timers
only, or fails with no change. -/
def ValidatesId (x : TimerTable T) (c : TimerSys T) (id : Int) : Prop :=
  ∃ y r, x.sys c = some (y, r) ∧ x.Touches y ∧
    (r.ret = 0 ∧ InTable id ∧ (x.timerArray id).inUse ∨ r.ret = -1 ∧ y = x)

/-- A call that creates a timer fails with no change where none is free. -/
def Validates (x : TimerTable T) (c : TimerSys T) : Prop :=
  match timerid c with
  | some id => x.ValidatesId c id
  | none => ¬x.HasFree → ∃ r, x.sys c = some (x, r) ∧ r.ret = -1

def Admits (x : TimerTable T) : TimerSys T → Prop
  | .create _ clockid _ => (Clock.ofId clockid).isSome → x.HasFree
  | .delete id | .settime id _ _ _ _ _ _ _ | .gettime id _ _ | .getoverrun id => 0 ≤ id

end TimerTable

variable {x y z : TimerTable T} {now : Readings T} {k : Ktimer T} {id : Int}

namespace TimerTable

-- ---------------------------------------------------------------------------
-- Touched timers
-- ---------------------------------------------------------------------------

theorem Touches.refl (x : TimerTable T) : x.Touches x := fun _ h => absurd rfl h

theorem Touches.trans (hxy : x.Touches y) (hyz : y.Touches z) : x.Touches z := by
  intro id hne
  by_cases hy : y.timerArray id = x.timerArray id
  · have hz : z.timerArray id ≠ y.timerArray id := hy ▸ hne
    exact hy ▸ hyz id hz
  · exact hxy id hy

theorem Touches.of_eq (h : y.timerArray = x.timerArray) : x.Touches y :=
  fun id hne => absurd (congrFun h id) hne

theorem deref_some (h : x.deref id = some k) : InTable id ∧ k = x.timerArray id := by
  rw [deref, Option.ite_none_right_eq_some] at h
  exact ⟨h.1, (Option.some.inj h.2).symm⟩

-- ---------------------------------------------------------------------------
-- The one timer that is changed
-- ---------------------------------------------------------------------------

theorem ChangesOnly.refl (x : TimerTable T) (id : Int) : x.ChangesOnly id x :=
  ⟨fun _ _ => rfl, rfl⟩

theorem ChangesOnly.trans (hxy : x.ChangesOnly id y) (hyz : y.ChangesOnly id z) :
    x.ChangesOnly id z :=
  ⟨fun j hj => (hyz.others j hj).trans (hxy.others j hj), hyz.sleepKtimer.trans hxy.sleepKtimer⟩

theorem ChangesOnly.touches (h : x.ChangesOnly id y) (hin : InTable id)
    (hu : (x.timerArray id).inUse) : x.Touches y := by
  intro j hne
  by_cases hj : j = id
  · exact hj ▸ ⟨hin, hu⟩
  · exact absurd (h.others j hj) hne

theorem ChangesOnly.set (x : TimerTable T) (id : Int) (k : Ktimer T) :
    x.ChangesOnly id (x.set id k) :=
  ⟨fun _ hj => Function.update_of_ne hj .., rfl⟩

theorem remove_only (j : Int) (h : x.remove id = some y) : x.ChangesOnly j y := by
  obtain ⟨r, -, hr⟩ := Option.bind_eq_some_iff.mp h
  rw [← Option.some.inj hr]
  exact ⟨fun _ _ => rfl, rfl⟩

theorem insert_only (j : Int) (h : x.insert id = some y) : x.ChangesOnly j y := by
  obtain ⟨r, -, hr⟩ := Option.bind_eq_some_iff.mp h
  rw [← Option.some.inj hr]
  exact ⟨fun _ _ => rfl, rfl⟩

theorem freeKtimer_only (h : x.freeKtimer id = some y) : InTable id ∧ x.ChangesOnly id y := by
  obtain ⟨z, hz, h⟩ := Option.bind_eq_some_iff.mp h
  obtain ⟨k, hk, h⟩ := Option.bind_eq_some_iff.mp h
  exact ⟨(deref_some hk).1, Option.some.inj h ▸ (remove_only id hz).trans (.set z id _)⟩

theorem disarmTimer_only (h : x.disarmTimer id = some y) : InTable id ∧ x.ChangesOnly id y := by
  obtain ⟨z, hz, h⟩ := Option.bind_eq_some_iff.mp h
  obtain ⟨k, hk, h⟩ := Option.bind_eq_some_iff.mp h
  exact ⟨(deref_some hk).1, Option.some.inj h ▸ (remove_only id hz).trans (.set z id _)⟩

theorem armTimer_only {value interval r : Int}
    (h : x.armTimer id value interval now = some (y, r)) : InTable id ∧ x.ChangesOnly id y := by
  obtain ⟨k, hk, h⟩ := Option.bind_eq_some_iff.mp h
  obtain ⟨hin, rfl⟩ := deref_some hk
  refine ⟨hin, ?_⟩
  split at h
  · obtain ⟨rfl, -⟩ := Prod.mk.inj (Option.some.inj h)
    exact .refl x id
  · obtain ⟨z, hz, h⟩ := Option.bind_eq_some_iff.mp h
    obtain ⟨rfl, -⟩ := Prod.mk.inj (Option.some.inj h)
    exact (ChangesOnly.set x id _).trans (insert_only id hz)

theorem settimeDisarmed_only {abstime : Bool} {value : Option Itimerspec}
    (h : x.settimeDisarmed id abstime value now = some y) : x.ChangesOnly id y := by
  obtain ⟨k, hk, h⟩ := Option.bind_eq_some_iff.mp h
  have hflags : x.ChangesOnly id (x.set id { k with abstime }) := .set x id _
  cases value with
  | none => exact Option.some.inj h ▸ hflags
  | some value =>
    dsimp only at h
    split at h
    · obtain ⟨⟨z, r⟩, harm, h⟩ := Option.bind_eq_some_iff.mp h
      exact Option.some.inj h ▸ hflags.trans (armTimer_only harm).2
    · exact Option.some.inj h ▸ hflags

theorem timerDeleteSys_cases (h : x.timerDeleteSys id = some y) :
    y = x ∨ (x.timerArray id).inUse ∧ x.freeKtimer id = some y := by
  rw [timerDeleteSys] at h
  split at h
  · exact .inl (Option.some.inj h).symm
  obtain ⟨k, hk, h⟩ := Option.bind_eq_some_iff.mp h
  obtain ⟨hin, rfl⟩ := deref_some hk
  split at h
  · exact .inl (Option.some.inj h).symm
  · rename_i hu
    rw [Bool.not_eq_true', Bool.not_eq_false] at hu
    exact .inr ⟨hu, h⟩

theorem timerSettimeSys_cases {abstime : Bool} {value : Option Itimerspec}
    (h : x.timerSettimeSys id abstime value now = some y) :
    y = x ∨ InTable id ∧ (x.timerArray id).inUse ∧ x.ChangesOnly id y := by
  rw [timerSettimeSys] at h
  split at h
  · exact .inl (Option.some.inj h).symm
  obtain ⟨k, hk, h⟩ := Option.bind_eq_some_iff.mp h
  obtain ⟨hin, rfl⟩ := deref_some hk
  split at h
  · exact .inl (Option.some.inj h).symm
  rename_i hu
  rw [Bool.not_eq_true', Bool.not_eq_false] at hu
  refine .inr ⟨hin, hu, ?_⟩
  split at h
  · obtain ⟨z, hz, h⟩ := Option.bind_eq_some_iff.mp h
    exact (disarmTimer_only hz).2.trans (settimeDisarmed_only h)
  · exact settimeDisarmed_only h

theorem timerDeleteSys_touches (h : x.timerDeleteSys id = some y) : x.Touches y := by
  rcases timerDeleteSys_cases h with rfl | ⟨hu, h⟩
  · exact .refl y
  · obtain ⟨hin, honly⟩ := freeKtimer_only h
    exact honly.touches hin hu

theorem timerSettimeSys_touches {abstime : Bool} {value : Option Itimerspec}
    (h : x.timerSettimeSys id abstime value now = some y) : x.Touches y := by
  rcases timerSettimeSys_cases h with rfl | ⟨hin, hu, honly⟩
  · exact .refl y
  · exact honly.touches hin hu

-- ---------------------------------------------------------------------------
-- The check
-- ---------------------------------------------------------------------------

theorem checkTimer_neg (h : id < 0) : x.checkTimer id = none := by
  rw [checkTimer, if_neg (by rw [ge_iff_le, maxTimers]; omega), deref, if_neg fun hin => ?_]
  · rfl
  · exact absurd hin.1 (Int.not_le.mpr h)

theorem checkTimer_cases (x : TimerTable T) (h : 0 ≤ id) :
    x.checkTimer id = some true ∧ InTable id ∧ (x.timerArray id).inUse ∨
    x.checkTimer id = some false ∧ (id ≥ maxTimers ∨ InTable id ∧ (x.timerArray id).inUse = false) := by
  rw [checkTimer]
  by_cases hge : id ≥ maxTimers
  · exact .inr ⟨if_pos hge, .inl hge⟩
  have hin : InTable id := ⟨h, Int.not_le.mp hge⟩
  rw [if_neg hge, deref_of_inTable hin]
  cases hu : (x.timerArray id).inUse with
  | true => exact .inl ⟨congrArg some hu, hin, rfl⟩
  | false => exact .inr ⟨congrArg some hu, .inr ⟨hin, rfl⟩⟩

theorem timerDeleteSys_refused (h : id ≥ maxTimers ∨ InTable id ∧ (x.timerArray id).inUse = false) :
    x.timerDeleteSys id = some x := by
  rw [timerDeleteSys]
  rcases h with hge | ⟨hin, hu⟩
  · exact if_pos hge
  · rw [if_neg (Int.not_le.mpr hin.2), deref_of_inTable hin, Option.bind_eq_bind, Option.bind_some,
      hu]
    rfl

theorem timerSettimeSys_refused (abstime : Bool) (value : Option Itimerspec) (now : Readings T)
    (h : id ≥ maxTimers ∨ InTable id ∧ (x.timerArray id).inUse = false) :
    x.timerSettimeSys id abstime value now = some x := by
  rw [timerSettimeSys]
  rcases h with hge | ⟨hin, hu⟩
  · exact if_pos hge
  · rw [if_neg (Int.not_le.mpr hin.2), deref_of_inTable hin, Option.bind_eq_bind, Option.bind_some,
      hu]
    rfl

-- ---------------------------------------------------------------------------
-- Timers that fire
-- ---------------------------------------------------------------------------

variable [DecidableEq T]

theorem expire_touches {ctime : Int} {h : Heap Int} (hx : x.Agrees)
    (hid : id ∈ armedIn x.timerArray) : x.Touches (x.expire ctime id h) :=
  ChangesOnly.touches ⟨fun j hj => by rw [expire_timerArray, Function.update_of_ne hj],
    by rw [expire, set, act_sleepKtimer]⟩ hid.1 (hx.inUse id hid)

theorem updateLoop_touches (later : Nat → Readings T) (rounds : Nat) (hx : x.Agrees) (n : Nat)
    (acted : List Int) :
    ∃ r, updateLoop later rounds n x acted = some r ∧ x.Touches r.1 := by
  induction rounds generalizing x n acted with
  | zero => exact ⟨_, rfl, .refl x⟩
  | succ rounds ih =>
    rcases updateLoop_round hx later n with ⟨-, hrun⟩ | ⟨id, hid, -, hstop, hgo⟩
    · exact ⟨_, hrun rounds acted, .refl x⟩
    · by_cases hdue : x.Due (later n) id
      · obtain ⟨h, hround, hy, -⟩ := hgo hdue
        obtain ⟨r, hr, htouches⟩ := ih hy (n + 1) (acted ++ [id])
        exact ⟨r, (hround rounds acted).trans hr, (expire_touches hx hid).trans htouches⟩
      · exact ⟨_, hstop hdue rounds acted, .refl x⟩

theorem updateHwtimer_touches (hx : x.Agrees) (dev : Hwtimer) (rounds : Nat)
    (later : Nat → Readings T) :
    ∃ r, x.updateHwtimer dev rounds later = some r ∧ x.Touches r.1 := by
  obtain ⟨⟨y, acted, left⟩, hrun, hy⟩ := updateLoop_touches later rounds hx 0 []
  refine ⟨(y.program dev left, acted, left), by rw [updateHwtimer, hrun]; rfl, ?_⟩
  exact hy.trans (.of_eq (by cases left <;> rfl))

-- ---------------------------------------------------------------------------
-- The calls
-- ---------------------------------------------------------------------------

theorem getoverrun_validates (x : TimerTable T) (h : 0 ≤ id) :
    x.ValidatesId (.getoverrun id) id := by
  rw [ValidatesId, sys, timerGetoverrunSys]
  rcases x.checkTimer_cases h with ⟨hcheck, hin, hu⟩ | ⟨hcheck, -⟩
  · exact ⟨x, { ret := 0 }, by rw [hcheck]; rfl, .refl x, .inl ⟨rfl, hin, hu⟩⟩
  · exact ⟨x, { ret := -1 }, by rw [hcheck]; rfl, .refl x, .inr ⟨rfl, rfl⟩⟩

theorem gettime_validates (x : TimerTable T) (h : 0 ≤ id) (value : Bool) (now : Readings T) :
    x.ValidatesId (.gettime id value now) id := by
  rw [ValidatesId, sys, timerGettimeSys]
  rcases x.checkTimer_cases h with ⟨hcheck, hin, hu⟩ | ⟨hcheck, -⟩
  · have hret : ∃ r, x.timerGettimeSys id value now = some r ∧ r.ret = 0 := by
      rw [timerGettimeSys, hcheck, deref_of_inTable hin]
      simp only [Option.bind_eq_bind, Option.bind_some, if_true]
      split
      · exact ⟨_, rfl, rfl⟩
      · split <;> exact ⟨_, rfl, rfl⟩
    obtain ⟨r, hr, hzero⟩ := hret
    rw [timerGettimeSys] at hr
    exact ⟨x, r, by rw [hr]; rfl, .refl x, .inl ⟨hzero, hin, hu⟩⟩
  · exact ⟨x, { ret := -1 }, by rw [hcheck]; rfl, .refl x, .inr ⟨rfl, rfl⟩⟩

theorem delete_validates (hx : x.Agrees) (h : 0 ≤ id) : x.ValidatesId (.delete id) id := by
  obtain ⟨y, hy, -⟩ := timerDeleteSys_spec hx h
  rw [ValidatesId, sys, timerDelete]
  rcases x.checkTimer_cases h with ⟨hcheck, hin, hu⟩ | ⟨hcheck, hnot⟩
  · exact ⟨y, { ret := 0 }, by rw [hy, hcheck]; rfl, timerDeleteSys_touches hy,
      .inl ⟨rfl, hin, hu⟩⟩
  · exact ⟨x, { ret := -1 }, by rw [timerDeleteSys_refused hnot, hcheck]; rfl, .refl x,
      .inr ⟨rfl, rfl⟩⟩

theorem settime_validates (hx : x.Agrees) (h : 0 ≤ id) (abstime : Bool)
    (value : Option Itimerspec) (ovalue : Bool) (dev : Hwtimer) (now : Readings T)
    (later : Nat → Readings T) (rounds : Nat) :
    x.ValidatesId (.settime id abstime value ovalue dev now later rounds) id := by
  obtain ⟨y, hy, hagrees⟩ := timerSettimeSys_spec hx h abstime value now
  have htouches := timerSettimeSys_touches hy
  rw [ValidatesId, sys, timerSettime]
  rcases x.checkTimer_cases h with ⟨hcheck, hin, hu⟩ | ⟨hcheck, hnot⟩
  · rw [hy, hcheck, deref_of_inTable hin]
    simp only [Option.bind_eq_bind, Option.bind_some, if_true]
    split
    · obtain ⟨r, hr, hlater⟩ := updateHwtimer_touches hagrees dev rounds later
      rw [hr]
      exact ⟨_, _, rfl, htouches.trans hlater, .inl ⟨rfl, hin, hu⟩⟩
    · exact ⟨_, _, rfl, htouches, .inl ⟨rfl, hin, hu⟩⟩
  · refine ⟨x, { ret := -1 }, ?_, .refl x, .inr ⟨rfl, rfl⟩⟩
    rw [timerSettimeSys_refused abstime value now hnot, hcheck]
    rfl

theorem sys_neg {c : TimerSys T} (hc : timerid c = some id) (h : id < 0) : x.sys c = none := by
  have hcheck : x.checkTimer id = none := checkTimer_neg h
  cases c with
  | create current clockid signo => contradiction
  | delete i =>
    obtain rfl := Option.some.inj hc
    rw [sys, timerDelete, hcheck]
    exact Option.bind_eq_none_iff.mpr fun _ _ => rfl
  | settime i abstime value ovalue dev now later rounds =>
    obtain rfl := Option.some.inj hc
    rw [sys, timerSettime, hcheck]
    exact Option.bind_eq_none_iff.mpr fun _ _ => rfl
  | gettime i value now =>
    obtain rfl := Option.some.inj hc
    rw [sys, timerGettimeSys, hcheck]
    rfl
  | getoverrun i =>
    obtain rfl := Option.some.inj hc
    rw [sys, timerGetoverrunSys, hcheck]
    rfl

theorem nonneg_of_sys {c : TimerSys T} (hc : timerid c = some id) (h : x.sys c = some r) :
    0 ≤ id := by
  by_contra hneg
  rw [sys_neg hc (Int.not_le.mp hneg)] at h
  contradiction

theorem create_validates_iff (x : TimerTable T) (current : T) (clockid : Int)
    (signo : Option Int) :
    x.Validates (.create current clockid signo) ↔ x.Admits (.create current clockid signo) := by
  rw [Validates, Admits]
  dsimp only [timerid]
  cases hclock : Clock.ofId clockid with
  | none =>
    refine iff_of_true (fun _ => ⟨{ ret := -1 }, ?_, rfl⟩) nofun
    rw [sys, timerCreate, hclock]
    rfl
  | some clock =>
    by_cases hfree : x.HasFree
    · exact iff_of_true (fun hnot => absurd hfree hnot) fun _ => hfree
    · refine iff_of_false (fun h => ?_) fun h => hfree (h rfl)
      obtain ⟨r, hr, -⟩ := h hfree
      rcases x.allocKtimer_cases clock current .kill with ⟨i, hin, hu, -⟩ | ⟨-, halloc⟩
      · exact hfree ⟨i, Int.ofNat_lt.mp hin.2, hu⟩
      · rw [sys, timerCreate, hclock] at hr
        dsimp only at hr
        rw [timerCreateSys, halloc] at hr
        dsimp only at hr
        have hneg : x.deref (-1) = none := if_neg fun hin => absurd hin.1 (by decide)
        rw [if_neg (by decide), hneg] at hr
        contradiction

theorem validates_iff (hx : x.Agrees) (c : TimerSys T) : x.Validates c ↔ x.Admits c := by
  cases c with
  | create current clockid signo => exact x.create_validates_iff current clockid signo
  | delete i =>
    exact ⟨fun ⟨_, _, hy, _⟩ => nonneg_of_sys rfl hy, delete_validates hx⟩
  | settime i abstime value ovalue dev now later rounds =>
    exact ⟨fun ⟨_, _, hy, _⟩ => nonneg_of_sys rfl hy,
      fun h => settime_validates hx h abstime value ovalue dev now later rounds⟩
  | gettime i value now =>
    exact ⟨fun ⟨_, _, hy, _⟩ => nonneg_of_sys rfl hy, fun h => x.gettime_validates h value now⟩
  | getoverrun i =>
    exact ⟨fun ⟨_, _, hy, _⟩ => nonneg_of_sys rfl hy, x.getoverrun_validates⟩

/-- In a run that has kept the heap, a call touches nothing but timers in use, or fails with no
change, if and only if its number is not negative, or the table has room for the timer created. -/
theorem timer_ids_iff {tr : List (TimerTable T × TimerCall T)} {x₀ : TimerTable T}
    (hr : Run step x₀.initTime tr x) (hc : ∀ e ∈ tr, e.1.Keeps e.2) (c : TimerSys T) :
    x.Validates c ↔ x.Admits c :=
  validates_iff (.of_run hr hc) c

end TimerTable

end

theorem timer_ids_one_timer : ∃ tr x, Run TimerTable.step oneSleeper.initTime tr x ∧
    (x.timerArray 1).inUse ∧ (x.Validates (.delete 1) ↔ x.Admits (.delete 1)) := by
  have h : ((exec TimerTable.step oneSleeper.initTime
      [.createThread (), .create () .realtime none]).any fun r =>
      decide ((∀ e ∈ r.1, e.1.Keeps e.2) ∧ (r.2.timerArray 1).inUse)) = true := by
    decide +kernel
  obtain ⟨tr, x, hr, hx⟩ := exec_any h
  obtain ⟨hkeeps, hused⟩ := of_decide_eq_true hx
  exact ⟨tr, x, hr, hused, TimerTable.timer_ids_iff hr hkeeps (.delete 1)⟩

/-- With every timer in use, one more is written to before the table, and so is the timer -1. -/
theorem timer_before_table : ∃ tr x, Run TimerTable.step oneSleeper.initTime tr x ∧
    (∀ e ∈ tr, e.1.Keeps e.2) ∧ ¬x.HasFree ∧ x.sys (.create () 0 none) = none ∧
    x.sys (.delete (-1)) = none := by
  have h : ((exec TimerTable.step oneSleeper.initTime
      (List.replicate 32 (.create () .realtime none))).any fun r =>
      decide ((∀ e ∈ r.1, e.1.Keeps e.2) ∧ ¬r.2.HasFree) &&
        (r.2.sys (.create () 0 none)).isNone && (r.2.sys (.delete (-1))).isNone) = true := by
    decide +kernel
  obtain ⟨tr, x, hr, hx⟩ := exec_any h
  obtain ⟨hx, hdelete⟩ := Bool.and_eq_true_iff.mp hx
  obtain ⟨hx, hcreate⟩ := Bool.and_eq_true_iff.mp hx
  obtain ⟨hkeeps, hfull⟩ := of_decide_eq_true hx
  exact ⟨tr, x, hr, hkeeps, hfull, Option.isNone_iff_eq_none.mp hcreate,
    Option.isNone_iff_eq_none.mp hdelete⟩

end Xmertl.Partikle
