import Mathlib.Data.Finset.Card
import Xmertl.Lib.Runs
import Xmertl.Xtratum.Domain
import Xmertl.Xtratum.Heap

/-!
# Domain timers

`timer.c`, `set_timer_sys` and `unload_domain_sys` of `syscalls.c`, and the
programming of the timer in `pit.c`. Clock readings are inputs of the steps. What
`set_timer_sys` writes to `rem` is left out.

`sethwtimer` enables the interrupts again before it calls `timer_handler`, so that
this call is a step of its own.
-/

namespace Xmertl.Xtratum

open Runs

def nsecsPerSec : Int := 1000000000
def pitHz : Int := 1193182
def pitAccurately : Int := 59659
def getMinIntervalPit : Int := 50000
def getMaxIntervalPit : Int := pitAccurately * nsecsPerSec / pitHz

def timerEvent : Event := 0

structure Xmtimespec where
  tvSec : Int
  tvNsec : Int

def Xmtimespec.nsecs (t : Xmtimespec) : Int := t.tvSec * nsecsPerSec + t.tvNsec

structure Xmitimerval where
  itInterval : Xmtimespec
  itValue : Xmtimespec

/-- `pitCounter` is what the PIT was last programmed with, in ticks of `pitHz`. -/
structure Timers (D : Type) where
  timerHeap : Heap D
  hwtime : D → Int
  period : D → Int
  pendingEvents : D → Bitmap
  pitCounter : Option Int

def Timers.zero (D : Type) : Timers D :=
  { timerHeap := { array := fun _ => none, nelem := 0 }
    hwtime := fun _ => 0
    period := fun _ => 0
    pendingEvents := fun _ => 0
    pitCounter := none }

inductive TimerAction (D : Type)
  | setTimer (current : D) (req : Option Xmitimerval) (ctime : Int)
  | unload (d : D)
  /-- `rounds` bounds the loop. -/
  | handler (ctime : Int) (rounds : Nat)

section
variable {D : Type} [DecidableEq D]

/-- The two writes of `pit_counter` carry its low 16 bits. -/
def setHwtimerPit (x : Timers D) (interval : Int) : Timers D :=
  { x with pitCounter := some ((interval * pitHz).tdiv nsecsPerSec % 65536) }

def timerRemoveDomain (x : Timers D) (d : D) : Option (Timers D) := do
  let (timerHeap, _) ← heapRemoveElement x.hwtime x.timerHeap d
  return { x with timerHeap }

/-- The loop of `timer_handler`, with the domains so far whose timers have expired,
and in the end `sel_domain`. -/
def expireLoop (ctime : Int) : Nat → Timers D → List D → Option (Timers D × List D × Option D)
  | 0, _, _ => none
  | rounds + 1, x, expired => do
    match ← heapMin x.timerHeap with
    | none => return (x, expired, none)
    | some sel =>
      if x.hwtime sel ≤ ctime + getMinIntervalPit then
        let (timerHeap, min) ← heapRemoveMin x.hwtime x.timerHeap
        let sel ← min
        let pending := (x.pendingEvents sel).setBit timerEvent
        let x : Timers D :=
          { x with timerHeap, pendingEvents := Function.update x.pendingEvents sel pending }
        if x.period sel ≠ 0 then
          let hwtime := Function.update x.hwtime sel (x.period sel + ctime)
          let (timerHeap, _) ← heapInsert hwtime x.timerHeap sel
          expireLoop ctime rounds { x with timerHeap, hwtime } (expired ++ [sel])
        else expireLoop ctime rounds x (expired ++ [sel])
      else return (x, expired, some sel)

/-- `timer_handler`, and the domains whose timers have expired. -/
def timerHandler (rounds : Nat) (x : Timers D) (ctime : Int) : Option (Timers D × List D) := do
  let (x, expired, sel) ← expireLoop ctime rounds x []
  match sel with
  | none => return (x, expired)
  | some d =>
    let rtime := x.hwtime d - ctime
    let interval := if rtime < getMaxIntervalPit then rtime else getMaxIntervalPit
    return (setHwtimerPit x interval, expired)

/-- `sethwtimer` up to its call of `timer_handler`. -/
def sethwtimer (x : Timers D) (current : D) (dtime dperiod ctime : Int) : Option (Timers D) := do
  let hwtime := Function.update x.hwtime current (dtime + ctime)
  let (timerHeap, c) ← heapInsert hwtime x.timerHeap current
  if c ≠ 0 then return { x with timerHeap, hwtime }
  return { x with timerHeap, hwtime, period := Function.update x.period current dperiod }

def setTimerSys (x : Timers D) (current : D) (req : Option Xmitimerval) (ctime : Int) :
    Option (Timers D) := do
  let x ← timerRemoveDomain x current
  match req with
  | none => return x
  | some req => sethwtimer x current req.itValue.nsecs req.itInterval.nsecs ctime

def Timers.step (x : Timers D) : TimerAction D → Option (Timers D)
  | .setTimer current req ctime => setTimerSys x current req ctime
  | .unload d => timerRemoveDomain x d
  | .handler ctime rounds => (timerHandler rounds x ctime).map Prod.fst

def Timers.init (x : Timers D) : Timers D := { x with timerHeap := heapInit x.timerHeap }

/-- The timer of `d` is to expire by what the clock reads. -/
def Timers.Due (x : Timers D) (ctime : Int) (d : D) : Prop :=
  x.hwtime d ≤ ctime + getMinIntervalPit

instance (x : Timers D) (ctime : Int) : DecidablePred (x.Due ctime) := fun _ =>
  inferInstanceAs (Decidable (_ ≤ _))

/-- The timer of `d` can be looked for, and put in, within the array. -/
def Timers.HasRoom (x : Timers D) (d : D) : Prop :=
  d ∉ x.timerHeap.elems → x.timerHeap.nelem + 1 < heapMaxNelem

instance (x : Timers D) (d : D) : Decidable (x.HasRoom d) := inferInstanceAs (Decidable (_ → _))

/-- The heap holds the timers of `s`. -/
structure Timers.Holds (x : Timers D) (s : Finset D) : Prop where
  bound : x.timerHeap.nelem < heapMaxNelem
  contains : x.timerHeap.Contains s

def Timers.IsOrdered (x : Timers D) : Prop := x.timerHeap.IsOrdered x.hwtime

-- ---------------------------------------------------------------------------
-- The heap's calls
-- ---------------------------------------------------------------------------

variable {x y : Timers D} {s : Finset D} {d : D} {ctime : Int}

omit [DecidableEq D] in
theorem Timers.init_holds (x : Timers D) : x.init.Holds ∅ where
  bound := by simp [init, heapInit, heapMaxNelem]
  contains := by
    have hempty := HeapOrder.Holds.empty (α := Option D) x.timerHeap.array
    simpa [init, heapInit, Heap.Contains] using hempty

omit [DecidableEq D] in
theorem Timers.Holds.mem_elems (hx : x.Holds s) : d ∈ x.timerHeap.elems ↔ d ∈ s := by
  rw [hx.contains.elems_eq]
  exact Finset.mem_coe

theorem timerRemoveDomain_spec (hx : x.Holds s) (hroom : x.HasRoom d) :
    ∃ h', timerRemoveDomain x d = some { x with timerHeap := h' } ∧
      Timers.Holds { x with timerHeap := h' } (s.erase d) ∧ h'.nelem + 1 < heapMaxNelem ∧
      (x.IsOrdered → x.timerHeap.MovesWell x.hwtime d → h'.IsOrdered x.hwtime) := by
  by_cases hd : d ∈ s
  · obtain ⟨h', hrun, hnelem, hs', ho⟩ :=
      heapRemoveElement_present x.hwtime hx.contains hd hx.bound
    have hpos : 0 < x.timerHeap.nelem := hx.contains.nonempty_iff.mpr ⟨d, hd⟩
    have hbound := hx.bound
    have hcontains : h'.Contains ↑(s.erase d) := by simpa using hs'
    exact ⟨h', by simp [timerRemoveDomain, hrun], ⟨by simp only; omega, hcontains⟩, by omega, ho⟩
  · have hn := hroom (by rwa [hx.mem_elems])
    have hrun := heapRemoveElement_absent x.hwtime hx.contains hd hn
    rw [Finset.erase_eq_of_notMem hd]
    exact ⟨x.timerHeap, by simp [timerRemoveDomain, hrun], hx, hn, fun ho _ => ho⟩

theorem sethwtimer_spec (hx : x.Holds s) (hd : d ∉ s) (hn : x.timerHeap.nelem + 1 < heapMaxNelem)
    (dtime dperiod ctime : Int) :
    ∃ h', sethwtimer x d dtime dperiod ctime = some
        { x with
          timerHeap := h', hwtime := Function.update x.hwtime d (dtime + ctime),
          period := Function.update x.period d dperiod } ∧
      h'.nelem < heapMaxNelem ∧ h'.Contains ↑(insert d s) ∧
      (x.IsOrdered → h'.IsOrdered (Function.update x.hwtime d (dtime + ctime))) := by
  obtain ⟨h', hrun, hnelem, hs', ho⟩ :=
    heapInsert_absent (Function.update x.hwtime d (dtime + ctime)) hx.contains hd hn
  refine ⟨h', by simp [sethwtimer, hrun], by omega, by simpa using hs', fun hord => ho ?_⟩
  refine hord.congr hx.contains fun d' hd' => ?_
  have hne : d' ≠ d := fun he => hd (he ▸ hd')
  rw [Function.update_of_ne hne]

theorem setTimerSys_spec (hx : x.Holds s) (hroom : x.HasRoom d) (req : Option Xmitimerval)
    (ctime : Int) :
    ∃ y, setTimerSys x d req ctime = some y ∧
      y.Holds (if req.isSome then insert d s else s.erase d) ∧
      (∀ d' ≠ d, y.period d' = x.period d') ∧
      (∀ r ∈ req, y.period d = r.itInterval.nsecs) ∧
      (x.IsOrdered → x.timerHeap.MovesWell x.hwtime d → y.IsOrdered) := by
  obtain ⟨h₁, hremove, hx₁, hn₁, ho₁⟩ := timerRemoveDomain_spec hx hroom
  cases req with
  | none =>
    refine ⟨{ x with timerHeap := h₁ }, ?_, hx₁, fun _ _ => rfl, by simp, ho₁⟩
    simp [setTimerSys, hremove]
  | some r =>
    obtain ⟨h', hset, hn, hs', ho⟩ := sethwtimer_spec hx₁ (Finset.notMem_erase d s) hn₁
      r.itValue.nsecs r.itInterval.nsecs ctime
    refine ⟨{ x with
      timerHeap := h'
      hwtime := Function.update x.hwtime d (r.itValue.nsecs + ctime)
      period := Function.update x.period d r.itInterval.nsecs }, ?_, ⟨hn, ?_⟩, fun d' hd' => ?_, ?_,
      fun hord hmoves => ho (ho₁ hord hmoves)⟩
    · simpa [setTimerSys, hremove] using hset
    · simpa using hs'
    · exact Function.update_of_ne hd' ..
    · rintro _ ⟨rfl⟩
      exact Function.update_self ..

-- ---------------------------------------------------------------------------
-- One round of the handler
-- ---------------------------------------------------------------------------

/-- What a round does when the timer of `d` is the first and due. -/
def Timers.expire (x : Timers D) (ctime : Int) (d : D) (h : Heap D) : Timers D :=
  { x with
    timerHeap := h
    hwtime := if x.period d = 0 then x.hwtime
      else Function.update x.hwtime d (x.period d + ctime)
    pendingEvents := Function.update x.pendingEvents d ((x.pendingEvents d).setBit timerEvent) }

theorem expireLoop_empty (hx : x.Holds ∅) (n : Nat) (e : List D) :
    expireLoop ctime (n + 1) x e = some (x, e, none) := by
  have hn : ¬0 < x.timerHeap.nelem := by simp [hx.contains.nonempty_iff]
  simp [expireLoop, heapMin, hn]

theorem expireLoop_round (hx : x.Holds s) (hs : s.Nonempty) (ctime : Int) :
    ∃ d ∈ s, (x.IsOrdered → ∀ t ∈ s, x.hwtime d ≤ x.hwtime t) ∧
      (¬x.Due ctime d → ∀ n e, expireLoop ctime (n + 1) x e = some (x, e, some d)) ∧
      (x.Due ctime d → ∃ h', (∀ n e, expireLoop ctime (n + 1) x e =
          expireLoop ctime n (x.expire ctime d h') (e ++ [d])) ∧
        (x.expire ctime d h').Holds (if x.period d = 0 then s.erase d else s) ∧
        (x.IsOrdered → (x.expire ctime d h').IsOrdered)) := by
  have hpos : 0 < x.timerHeap.nelem := hx.contains.nonempty_iff.mpr hs
  obtain ⟨h₁, d, hremove, hfirst, hd, hn₁, hs₁, ho₁⟩ :=
    heapRemoveMin_spec x.hwtime hx.contains hx.bound hpos
  have hmin : heapMin x.timerHeap = some (some d) := by
    simp [heapMin, hpos, Heap.get_of_lt _ (by decide : 1 < heapConf.size), hfirst]
  refine ⟨d, hd, fun ho t ht => ho.first hx.contains hfirst ht, fun hdue n e => ?_, fun hdue => ?_⟩
  · rw [Timers.Due] at hdue
    simp [expireLoop, hmin, hdue]
  rw [Timers.Due] at hdue
  have hs₁' : h₁.Contains ↑(s.erase d) := by simpa using hs₁
  by_cases hp : x.period d = 0
  · refine ⟨h₁, fun n e => ?_, ?_, fun ho => ?_⟩
    · simp [expireLoop, hmin, hdue, hremove, hp, Timers.expire]
    · rw [if_pos hp]
      exact ⟨by have := hx.bound; simp only [Timers.expire]; omega, hs₁'⟩
    · simpa [Timers.IsOrdered, Timers.expire, hp] using ho₁ ho
  · have hn : h₁.nelem + 1 < heapMaxNelem := by
      have := hx.bound
      omega
    have hd₁ : d ∉ (↑(s.erase d) : Set D) := by simp
    obtain ⟨h₂, hinsert, hn₂, hs₂, ho₂⟩ :=
      heapInsert_absent (Function.update x.hwtime d (x.period d + ctime)) hs₁' hd₁ hn
    refine ⟨h₂, fun n e => ?_, ?_, fun ho => ?_⟩
    · simp [expireLoop, hmin, hdue, hremove, hp, hinsert, Timers.expire]
    · rw [if_neg hp]
      refine ⟨by simp only [Timers.expire]; omega, ?_⟩
      simpa [Timers.expire, Set.insert_eq_of_mem (show d ∈ (↑s : Set D) from hd)] using hs₂
    · have hord := ho₂ ((ho₁ ho).congr hs₁ fun d' hd' => Function.update_of_ne hd'.2 ..)
      simpa [Timers.IsOrdered, Timers.expire, hp] using hord

end

end Xmertl.Xtratum
