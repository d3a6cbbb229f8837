import Mathlib.Algebra.BigOperators.Group.Finset.Basic
import Mathlib.Algebra.Order.BigOperators.Group.Finset
import Mathlib.Data.Fintype.BigOperators
import Xmertl.Lib.Runs

/-!
# pthread_once

The calls of `pthread_once_sys` on one control object, one step for each access to its
counter. The source has the counter atomic, so that nothing comes between the load and the
store of its increment.
-/

namespace Xmertl.Partikle

open Runs
open Finset (univ)

/-- Where a call is. `ran` says whether it has called its `init_routine`. -/
inductive OncePc
  | before
  | entered
  /-- In the increment, with the old value. -/
  | loaded (v : BitVec 32)
  /-- With `init`. -/
  | stored (init : BitVec 32)
  | inRoutine
  | returned (ran : Bool)
  /-- It has returned -1, with EINVAL. -/
  | failed
  deriving DecidableEq

inductive OnceAction (C : Type)
  | call (c : C)
  | load (c : C)
  | store (c : C)
  | test (c : C)
  | routineEnd (c : C)
  deriving DecidableEq

/-- `pthread_once_t` with the calls on it. -/
structure Once (C : Type) where
  init : BitVec 32
  pc : C → OncePc

namespace Once

variable {C : Type}

def onceInit : Once C := { init := 0, pc := fun _ => .before }

variable [DecidableEq C]

def goto (x : Once C) (c : C) (p : OncePc) : Once C := { x with pc := Function.update x.pc c p }

/-- `routine` says which calls have an `init_routine` that is not null. -/
def step (routine : C → Bool) (x : Once C) : OnceAction C → Option (Once C)
  | .call c =>
    match x.pc c with
    | .before => some (x.goto c (if routine c then .entered else .failed))
    | _ => none
  | .load c =>
    match x.pc c with
    | .entered => some (x.goto c (.loaded x.init))
    | _ => none
  | .store c =>
    match x.pc c with
    | .loaded v => some ({ x with init := v + 1 }.goto c (.stored (v + 1)))
    | _ => none
  | .test c =>
    match x.pc c with
    | .stored init => some (x.goto c (if init ≠ 0 then .returned false else .inRoutine))
    | _ => none
  | .routineEnd c =>
    match x.pc c with
    | .inRoutine => some (x.goto c (.returned true))
    | _ => none

end Once

namespace OncePc

def loading : OncePc → Bool
  | .loaded _ => true
  | .before | .entered | .stored _ | .inRoutine | .returned _ | .failed => false

def finished : OncePc → Bool
  | .returned _ | .failed => true
  | .before | .entered | .loaded _ | .stored _ | .inRoutine => false

/-- 1 from the store on. -/
def counted : OncePc → Nat
  | .stored _ | .inRoutine | .returned _ => 1
  | .before | .entered | .loaded _ | .failed => 0

/-- 1 for a call that has called its routine. -/
def ran : OncePc → Nat
  | .inRoutine | .returned true => 1
  | .before | .entered | .loaded _ | .stored _ | .returned false | .failed => 0

/-- 1 for a call that has, or will. -/
def runs : OncePc → Nat
  | .stored init => if init = 0 then 1 else 0
  | .inRoutine | .returned true => 1
  | .before | .entered | .loaded _ | .returned false | .failed => 0

/-- Whether the call is past its check of the pointers, and passed it. -/
def Fits (routine : Bool) : OncePc → Prop
  | .before => True
  | .failed => routine = false
  | .entered | .loaded _ | .stored _ | .inRoutine | .returned _ => routine = true

end OncePc

namespace Once

variable {C : Type} [DecidableEq C] [Fintype C]

/-- The increment is one step: a load waits for the others' stores. -/
def Atomic (x : Once C) (a : OnceAction C) : Prop :=
  ∀ c, a = .load c → ∀ d, (x.pc d).loading = false

instance (x : Once C) (a : OnceAction C) : Decidable (x.Atomic a) :=
  inferInstanceAs (Decidable (∀ _, _ → ∀ _, _))

def AllFinished (x : Once C) : Prop := ∀ c, (x.pc c).finished = true

instance (x : Once C) : Decidable x.AllFinished := inferInstanceAs (Decidable (∀ _, _))

/-- How often `init_routine` has been called. -/
def executed (x : Once C) : Nat := ∑ c, (x.pc c).ran

/-- How many calls with an `init_routine` there are. -/
def calls (routine : C → Bool) : Nat := (univ.filter fun c => routine c = true).card

theorem sum_update (g : OncePc → Nat) (pc : C → OncePc) (c : C) (p : OncePc) :
    ∑ d, g (Function.update pc c p d) + g (pc c) = ∑ d, g (pc d) + g p := by
  have hcomp : ∀ d, g (Function.update pc c p d) = Function.update (fun d => g (pc d)) c (g p) d := by
    intro d
    by_cases h : d = c
    · simp [h]
    · simp [h]
  rw [Finset.sum_congr rfl fun d _ => hcomp d, Finset.sum_update_of_mem (Finset.mem_univ c),
    ← Finset.add_sum_erase univ (fun d => g (pc d)) (Finset.mem_univ c), Finset.sdiff_singleton_eq_erase]
  omega

def counted (x : Once C) : Nat := ∑ c, (x.pc c).counted

def running (x : Once C) : Nat := ∑ c, (x.pc c).runs

/-- Between atomic increments the counter is the number of stores, and each time it came to
0 a routine runs. -/
structure Inv (routine : C → Bool) (x : Once C) : Prop where
  loaded : ∀ c v, x.pc c = .loaded v → v = x.init
  alone : ∀ c d v w, x.pc c = .loaded v → x.pc d = .loaded w → c = d
  init : x.init.toNat = x.counted % 2 ^ 32
  running : x.running = x.counted / 2 ^ 32
  fits : ∀ c, (x.pc c).Fits (routine c)

variable {routine : C → Bool} {x y : Once C} {c : C} {p : OncePc}

omit [DecidableEq C] in
theorem onceInit_inv (routine : C → Bool) : Inv routine onceInit where
  loaded _ _ h := by cases h
  alone _ _ _ _ h := by cases h
  init := by simp [counted, onceInit, OncePc.counted]
  running := by simp [running, counted, onceInit, OncePc.counted, OncePc.runs]
  fits _ := trivial

theorem goto_counted (x : Once C) (c : C) (p : OncePc) :
    (x.goto c p).counted + (x.pc c).counted = x.counted + p.counted := sum_update _ x.pc c p

theorem goto_running (x : Once C) (c : C) (p : OncePc) :
    (x.goto c p).running + (x.pc c).runs = x.running + p.runs := sum_update _ x.pc c p

omit [Fintype C] in
theorem goto_fits (h : ∀ c, (x.pc c).Fits (routine c)) (hp : p.Fits (routine c)) (d : C) :
    ((x.goto c p).pc d).Fits (routine d) := by
  by_cases hd : d = c
  · subst hd
    simpa [goto] using hp
  · simpa [goto, hd] using h d

omit [Fintype C] in
theorem goto_loaded {d : C} {v : BitVec 32} (hp : ∀ v, p ≠ .loaded v)
    (h : (x.goto c p).pc d = .loaded v) : d ≠ c ∧ x.pc d = .loaded v := by
  by_cases hd : d = c
  · subst hd
    exact absurd (by simpa [goto] using h) (hp v)
  · exact ⟨hd, by simpa [goto, hd] using h⟩

theorem Inv.goto (h : Inv routine x) (hp : ∀ v, p ≠ .loaded v)
    (hc : p.counted = (x.pc c).counted) (hr : p.runs = (x.pc c).runs)
    (hf : p.Fits (routine c)) : Inv routine (x.goto c p) where
  loaded d v hd := h.loaded d v (goto_loaded hp hd).2
  alone d e v w hd he := h.alone d e v w (goto_loaded hp hd).2 (goto_loaded hp he).2
  init := by
    have hcounted := goto_counted x c p
    rw [show (x.goto c p).counted = x.counted by omega]
    exact h.init
  running := by
    have hcounted := goto_counted x c p
    have hrunning := goto_running x c p
    rw [show (x.goto c p).counted = x.counted by omega,
      show (x.goto c p).running = x.running by omega]
    exact h.running
  fits := goto_fits h.fits hf

theorem Inv.load (h : Inv routine x) (hpc : x.pc c = .entered)
    (hfree : ∀ d, (x.pc d).loading = false) : Inv routine (x.goto c (.loaded x.init)) where
  loaded d v hd := by
    by_cases hdc : d = c
    · subst hdc
      have hv : OncePc.loaded x.init = .loaded v := by simpa [Once.goto] using hd
      exact (OncePc.loaded.inj hv).symm
    · have hold : x.pc d = .loaded v := by simpa [Once.goto, hdc] using hd
      have hnot := hfree d
      rw [hold] at hnot
      cases hnot
  alone d e v w hd he := by
    have hmine (d : C) (v : BitVec 32) (hd : (x.goto c (.loaded x.init)).pc d = .loaded v) :
        d = c := by
      by_contra hdc
      have hold : x.pc d = .loaded v := by simpa [Once.goto, hdc] using hd
      have hnot := hfree d
      rw [hold] at hnot
      cases hnot
    rw [hmine d v hd, hmine e w he]
  init := by
    have hcounted := goto_counted x c (.loaded x.init)
    simp only [hpc, OncePc.counted] at hcounted
    rw [show (x.goto c (.loaded x.init)).counted = x.counted by omega]
    exact h.init
  running := by
    have hcounted := goto_counted x c (.loaded x.init)
    have hrunning := goto_running x c (.loaded x.init)
    simp only [hpc, OncePc.counted, OncePc.runs] at hcounted hrunning
    rw [show (x.goto c (.loaded x.init)).counted = x.counted by omega,
      show (x.goto c (.loaded x.init)).running = x.running by omega]
    exact h.running
  fits := by
    have hf := h.fits c
    rw [hpc] at hf
    exact goto_fits h.fits hf

theorem Inv.store (h : Inv routine x) {v : BitVec 32} (hpc : x.pc c = .loaded v) :
    Inv routine ({ x with init := v + 1 }.goto c (.stored (v + 1))) := by
  obtain rfl := h.loaded c v hpc
  have hfree (d : C) (w : BitVec 32)
      (hd : ({ x with init := x.init + 1 }.goto c (.stored (x.init + 1))).pc d = .loaded w) :
      False := by
    obtain ⟨hne, hd⟩ := goto_loaded (p := .stored (x.init + 1)) (fun _ h => by cases h) hd
    exact hne (h.alone d c w x.init hd hpc)
  have hcounted := goto_counted { x with init := x.init + 1 } c (.stored (x.init + 1))
  have hrunning := goto_running { x with init := x.init + 1 } c (.stored (x.init + 1))
  simp only [hpc, OncePc.counted, OncePc.runs] at hcounted hrunning
  change _ = x.counted + 1 at hcounted
  change _ = x.running + _ at hrunning
  have hinit := h.init
  have hold := h.running
  have hlt := x.init.isLt
  have hnext : (x.init + 1).toNat = (x.init.toNat + 1) % 2 ^ 32 := by simp [BitVec.toNat_add]
  have hzero : x.init + 1 = 0 ↔ (x.init + 1).toNat = 0 := by
    rw [BitVec.toNat_eq]
    rfl
  refine
    { loaded := fun d w hd => (hfree d w hd).elim
      alone := fun d e v w hd _ => (hfree d v hd).elim
      init := ?_
      running := ?_
      fits := ?_ }
  · change (x.init + 1).toNat = _
    rw [hnext]
    omega
  · by_cases hz : x.init + 1 = 0
    · rw [if_pos hz] at hrunning
      rw [hzero, hnext] at hz
      omega
    · rw [if_neg hz] at hrunning
      rw [hzero, hnext] at hz
      omega
  · have hf := h.fits c
    rw [hpc] at hf
    exact goto_fits h.fits hf

/-- What a step does: it goes on without a look at the counter, or it loads or stores it. -/
inductive Moved (routine : C → Bool) (x : Once C) (a : OnceAction C) : Once C → Prop
  | goto {c : C} {p : OncePc} : (∀ v, p ≠ .loaded v) → p.counted = (x.pc c).counted →
      p.runs = (x.pc c).runs → p.Fits (routine c) → Moved routine x a (x.goto c p)
  | load {c : C} : a = .load c → x.pc c = .entered → Moved routine x a (x.goto c (.loaded x.init))
  | store {c : C} {v : BitVec 32} : x.pc c = .loaded v →
      Moved routine x a ({ x with init := v + 1 }.goto c (.stored (v + 1)))

omit [Fintype C] in
theorem step_moved (hf : ∀ c, (x.pc c).Fits (routine c)) {a : OnceAction C}
    (hs : x.step routine a = some y) : Moved routine x a y := by
  cases a with
  | call c =>
    simp only [step] at hs
    split at hs
    · rename_i hpc
      cases hs
      cases hr : routine c with
      | true => exact .goto (fun _ he => by cases he) (by rw [hpc]; rfl) (by rw [hpc]; rfl) hr
      | false => exact .goto (fun _ he => by cases he) (by rw [hpc]; rfl) (by rw [hpc]; rfl) hr
    · cases hs
  | load c =>
    simp only [step] at hs
    split at hs
    · rename_i hpc
      cases hs
      exact .load rfl hpc
    · cases hs
  | store c =>
    simp only [step] at hs
    split at hs
    · rename_i v hpc
      cases hs
      exact .store hpc
    · cases hs
  | test c =>
    simp only [step] at hs
    split at hs
    · rename_i init hpc
      have hfit := hf c
      rw [hpc] at hfit
      cases hs
      by_cases hz : init = 0
      · rw [if_neg (not_not.mpr hz)]
        have hruns : (OncePc.stored init).runs = 1 := if_pos hz
        exact .goto (fun _ he => by cases he) (by rw [hpc]; rfl) (by rw [hpc, hruns]; rfl) hfit
      · rw [if_pos hz]
        have hruns : (OncePc.stored init).runs = 0 := if_neg hz
        exact .goto (fun _ he => by cases he) (by rw [hpc]; rfl) (by rw [hpc, hruns]; rfl) hfit
    · cases hs
  | routineEnd c =>
    simp only [step] at hs
    split at hs
    · rename_i hpc
      have hfit := hf c
      rw [hpc] at hfit
      cases hs
      exact .goto (fun _ he => by cases he) (by rw [hpc]; rfl) (by rw [hpc]; rfl) hfit
    · cases hs

theorem step_inv (h : Inv routine x) {a : OnceAction C} (ha : x.Atomic a)
    (hs : x.step routine a = some y) : Inv routine y := by
  cases step_moved h.fits hs with
  | goto hp hc hr hf => exact h.goto hp hc hr hf
  | load he hpc => exact h.load hpc (ha _ he)
  | store hpc => exact h.store hpc

omit [DecidableEq C] in
theorem counted_finished (hf : ∀ c, (x.pc c).Fits (routine c)) (he : x.AllFinished) :
    x.counted = calls routine ∧ x.running = x.executed := by
  have heach (c : C) : (x.pc c).counted = (if routine c = true then 1 else 0) ∧
      (x.pc c).runs = (x.pc c).ran := by
    have hfit := hf c
    have hend := he c
    cases hpc : x.pc c with
    | returned ran =>
      rw [hpc] at hfit
      have hroutine : routine c = true := hfit
      rw [if_pos hroutine]
      cases ran <;> exact ⟨rfl, rfl⟩
    | failed =>
      rw [hpc] at hfit
      have hroutine : routine c = false := hfit
      rw [if_neg (by rw [hroutine]; decide)]
      exact ⟨rfl, rfl⟩
    | _ =>
      rw [hpc] at hend
      cases hend
  refine ⟨?_, Finset.sum_congr rfl fun c _ => (heach c).2⟩
  rw [counted, Finset.sum_congr rfl fun c _ => (heach c).1, calls, Finset.card_filter]

/-- Of the calls, however they interleave, the 2^32nd runs its routine, and each 2^32nd
after it. -/
theorem executed_eq {tr : List (Once C × OnceAction C)} (hr : Run (step routine) onceInit tr x)
    (ha : ∀ e ∈ tr, e.1.Atomic e.2) (he : x.AllFinished) :
    x.executed = calls routine / 2 ^ 32 := by
  have hinv : Inv routine x := hr.invariant (onceInit_inv routine)
    (fun _ _ _ h hc hs => step_inv h hc hs) ha
  obtain ⟨hcounted, hrunning⟩ := counted_finished hinv.fits he
  rw [← hrunning, ← hcounted]
  exact hinv.running

theorem executed_once_iff {tr : List (Once C × OnceAction C)}
    (hr : Run (step routine) onceInit tr x) (ha : ∀ e ∈ tr, e.1.Atomic e.2)
    (he : x.AllFinished) :
    x.executed = 1 ↔ 2 ^ 32 ≤ calls routine ∧ calls routine < 2 ^ 33 := by
  rw [executed_eq hr ha he]
  omega

-- ---------------------------------------------------------------------------
-- Any interleaving
-- ---------------------------------------------------------------------------

/-- Where loads and stores of different calls may mix, some are lost, and the counter is at
most the number of stores. -/
structure Below (routine : C → Bool) (x : Once C) : Prop where
  init : x.init.toNat ≤ x.counted
  loaded : ∀ c v, x.pc c = .loaded v → v.toNat ≤ x.counted
  running : x.running = 0
  fits : ∀ c, (x.pc c).Fits (routine c)

omit [DecidableEq C] in
theorem counted_le (hf : ∀ c, (x.pc c).Fits (routine c)) : x.counted ≤ calls routine := by
  rw [calls, Finset.card_filter]
  refine Finset.sum_le_sum fun c _ => ?_
  have hfit := hf c
  cases hpc : x.pc c with
  | before | entered | loaded | failed => exact Nat.zero_le _
  | stored | inRoutine | returned =>
    rw [hpc] at hfit
    have hroutine : routine c = true := hfit
    rw [if_pos hroutine]
    exact Nat.le_refl 1

theorem step_below (hn : calls routine < 2 ^ 32) (h : Below routine x) {a : OnceAction C}
    (hs : x.step routine a = some y) : Below routine y := by
  cases step_moved h.fits hs with
  | @goto c p hp hc hr hf =>
    have hcounted := goto_counted x c p
    have hrunning := goto_running x c p
    have hsame : (x.goto c p).counted = x.counted := by omega
    exact
      { init := hsame ▸ h.init
        loaded := fun d v hd => hsame ▸ h.loaded d v (goto_loaded hp hd).2
        running := by
          have hold := h.running
          omega
        fits := goto_fits h.fits hf }
  | @load c he hpc =>
    have hcounted := goto_counted x c (.loaded x.init)
    have hrunning := goto_running x c (.loaded x.init)
    simp only [hpc, OncePc.counted, OncePc.runs] at hcounted hrunning
    have hsame : (x.goto c (.loaded x.init)).counted = x.counted := by omega
    have hfit := h.fits c
    rw [hpc] at hfit
    refine
      { init := hsame ▸ h.init
        loaded := fun d v hd => hsame ▸ ?_
        running := ?_
        fits := goto_fits h.fits hfit }
    · by_cases hdc : d = c
      · subst hdc
        have hv : OncePc.loaded x.init = .loaded v := by simpa [Once.goto] using hd
        rw [← OncePc.loaded.inj hv]
        exact h.init
      · exact h.loaded d v (by simpa [Once.goto, hdc] using hd)
    · have hold := h.running
      omega
  | @store c v hpc =>
    have hfit := h.fits c
    rw [hpc] at hfit
    have hfits : ∀ d, (({ x with init := v + 1 }.goto c (.stored (v + 1))).pc d).Fits (routine d) :=
      goto_fits h.fits hfit
    have hle := counted_le hfits
    have hcounted := goto_counted { x with init := v + 1 } c (.stored (v + 1))
    have hrunning := goto_running { x with init := v + 1 } c (.stored (v + 1))
    simp only [hpc, OncePc.counted, OncePc.runs] at hcounted hrunning
    change _ = x.counted + 1 at hcounted
    change _ = x.running + _ at hrunning
    have hv := h.loaded c v hpc
    -- The store makes one more that have counted, and they are fewer than 2^32.
    have hnext : (v + 1).toNat = v.toNat + 1 := by
      rw [BitVec.toNat_add]
      exact Nat.mod_eq_of_lt (by simp; omega)
    have hpos : v + 1 ≠ 0 := fun hz => by
      rw [hz] at hnext
      simp at hnext
    refine
      { init := ?_
        loaded := fun d w hd => ?_
        running := ?_
        fits := hfits }
    · change (v + 1).toNat ≤ _
      omega
    · have hold := h.loaded d w (goto_loaded (p := .stored (v + 1)) (fun _ h => by cases h) hd).2
      omega
    · rw [if_neg hpos] at hrunning
      have hold := h.running
      omega

/-- Of fewer than 2^32 calls none runs its routine, with increments that mix or not. -/
theorem executed_none {tr : List (Once C × OnceAction C)}
    (hr : Run (step routine) onceInit tr x) (hn : calls routine < 2 ^ 32) (he : x.AllFinished) :
    x.executed = 0 := by
  have hboot : Below routine onceInit :=
    { init := Nat.zero_le _
      loaded := fun _ _ h => by cases h
      running := (onceInit_inv routine).running.trans (by simp [counted, onceInit, OncePc.counted])
      fits := fun _ => trivial }
  have hbelow : Below routine x := hr.invariant (C := fun _ _ => True) hboot
    (fun _ _ _ h _ hs => step_below hn h hs) fun _ _ => trivial
  rw [← (counted_finished hbelow.fits he).2]
  exact hbelow.running

/-- Two calls, of which the second starts between the steps of the first. -/
theorem executed_once_two : ∃ tr x, Run (step fun _ : Bool => true) onceInit tr x ∧
    x.AllFinished ∧ ¬x.executed = 1 := by
  have hrun : (exec (step fun _ : Bool => true) onceInit
      [.call true, .load true, .call false, .store true, .load false, .store false, .test false,
        .test true]).any (fun r =>
      decide (r.2.AllFinished ∧ ∀ e ∈ r.1, e.1.Atomic e.2)) = true := by decide +kernel
  obtain ⟨tr, x, hr, hp⟩ := exec_any hrun
  obtain ⟨he, ha⟩ := of_decide_eq_true hp
  have hiff := executed_once_iff hr ha he
  exact ⟨tr, x, hr, he, fun h => absurd (hiff.mp h).1 (by decide +kernel)⟩

/-- A single call of `pthread_once` runs nothing. -/
theorem once_never : ∃ tr x, Run (step fun _ : Unit => true) onceInit tr x ∧
    (∀ e ∈ tr, e.1.Atomic e.2) ∧ x.AllFinished ∧ x.executed = 0 := by
  have hrun : (exec (step fun _ : Unit => true) onceInit
      [.call (), .load (), .store (), .test ()]).any (fun r =>
      decide ((∀ e ∈ r.1, e.1.Atomic e.2) ∧ r.2.AllFinished ∧ r.2.executed = 0)) = true := by
    decide +kernel
  obtain ⟨tr, x, hr, hp⟩ := exec_any hrun
  exact ⟨tr, x, hr, of_decide_eq_true hp⟩

end Once

end Xmertl.Partikle
