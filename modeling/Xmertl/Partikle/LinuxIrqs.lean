import Mathlib.Data.BitVec
import Xmertl.Lib.Runs

/-!
# Virtual interrupts on Linux

`irqs-linux.c` and the flags of `processor.h`: a host signal adds its irq to a word and calls
`deliver_irqs`, which passes once over the numbers. A signal may come between any two accesses
to a word, and its handler runs to completion. Every update of a word is a load and a store.

What runs is on a stack, the last call first. The counter of nested interrupts and the context
of a handler are left out; of `scheduling` and `do_signals`, which a signal's handler calls
last, the saved flags and the code in between stay.
-/

namespace Xmertl.Partikle

open Runs

def irqNr : Nat := 16

def setbit (bitmap : BitVec 32) (bit : Nat) : BitVec 32 := bitmap ||| .twoPow 32 bit

def clearbit (bitmap : BitVec 32) (bit : Nat) : BitVec 32 := bitmap &&& ~~~.twoPow 32 bit

def isbitset (bitmap : BitVec 32) (bit : Nat) : Bool := bitmap.getLsbD bit

/-- Where a function goes on. The frames of a signal keep `bit_irqs` as it was when this came. -/
inductive LinuxFrame
  /-- `deliver_irqs`, at its first test. -/
  | check
  /-- In the loop: the two tests. -/
  | pending (irq : Nat)
  | masked (irq : Nat)
  /-- The update of the pending word, with what was loaded. -/
  | clear (irq : Nat)
  | cleared (irq : Nat) (v : BitVec 32)
  | save (irq : Nat)
  | off (irq : Nat) (flags : Bool)
  | enter (irq : Nat) (flags : Bool)
  /-- The code of a handler. -/
  | handling (irq : Nat) (flags : Bool)
  | restore (irq : Nat) (flags : Bool)
  /-- `linux_disable_irq`. -/
  | disable (irq : Nat)
  | disabled (irq : Nat) (v : BitVec 32)
  /-- `linux_enable_irq`. -/
  | enable (irq : Nat)
  | enabled (irq : Nat) (v : BitVec 32)
  /-- `hw_restore_flags`, at its test. -/
  | restored
  /-- `pending_irq` of `signal_handler_wr`. -/
  | arrived (sig : Nat) (bit : Bool)
  | added (sig : Nat) (bit : Bool) (v : BitVec 32)
  /-- After `deliver_irqs`: the flags are saved and cleared. -/
  | saving (bit : Bool)
  | saved (bit flags : Bool)
  /-- The code of the scheduler and of the handlers of a thread's signals. -/
  | signals (bit flags : Bool)
  /-- The flags are restored. -/
  | ended (bit flags : Bool)
  | tested (bit : Bool)
  | done (bit : Bool)
  deriving DecidableEq

/-- `became` counts how often an irq has become pending, `called` the calls of its handler. -/
structure LinuxIrqs where
  pendingIrqs : BitVec 32
  maskedIrqs : BitVec 32
  bitIrqs : Bool
  stack : List LinuxFrame
  became : Nat → Nat
  called : Nat → Nat

inductive LinuxAction
  | signal (sig : Nat)
  /-- The next access of the function on top. -/
  | run
  -- by code
  | cli
  | sti
  | restoreFlags (flags : Bool)
  | disableIrq (irq : Nat)
  | enableIrq (irq : Nat)
  | ret

/-- Code of a thread, of a handler or of a signal's end is on top. -/
def CodeOn : List LinuxFrame → Bool
  | [] | .handling _ _ :: _ | .signals _ _ :: _ => true
  | _ => false

namespace LinuxIrqs

def goto (x : LinuxIrqs) (stack : List LinuxFrame) : LinuxIrqs := { x with stack }

def run (x : LinuxIrqs) (rest : List LinuxFrame) : LinuxFrame → Option LinuxIrqs
  | .check => some (x.goto (if x.bitIrqs then .pending 0 :: rest else rest))
  | .pending irq =>
    some (x.goto
      (if irq ≥ irqNr then rest
      else if isbitset x.pendingIrqs irq then .masked irq :: rest
      else .pending (irq + 1) :: rest))
  | .masked irq =>
    some (x.goto
      (if isbitset x.maskedIrqs irq then .pending (irq + 1) :: rest else .clear irq :: rest))
  | .clear irq => some (x.goto (.cleared irq x.pendingIrqs :: rest))
  | .cleared irq v => some { x.goto (.save irq :: rest) with pendingIrqs := clearbit v irq }
  | .save irq => some (x.goto (.off irq x.bitIrqs :: rest))
  | .off irq flags => some { x.goto (.enter irq flags :: rest) with bitIrqs := false }
  | .enter irq flags =>
    some { x.goto (.handling irq flags :: rest) with
      called := Function.update x.called irq (x.called irq + 1) }
  | .restore irq flags => some { x.goto (.pending (irq + 1) :: rest) with bitIrqs := flags }
  | .disable irq => some (x.goto (.disabled irq x.maskedIrqs :: rest))
  | .disabled irq v => some { x.goto rest with maskedIrqs := setbit v irq }
  | .enable irq => some (x.goto (.enabled irq x.maskedIrqs :: rest))
  | .enabled irq v => some { x.goto (.check :: rest) with maskedIrqs := clearbit v irq }
  | .restored => some (x.goto (if x.bitIrqs then .check :: rest else rest))
  | .arrived sig bit => some (x.goto (.added sig bit x.pendingIrqs :: rest))
  | .added sig bit v =>
    some { x.goto (.check :: .saving bit :: rest) with
      pendingIrqs := setbit v sig
      became :=
        if isbitset x.pendingIrqs sig then x.became
        else Function.update x.became sig (x.became sig + 1) }
  | .saving bit => some (x.goto (.saved bit x.bitIrqs :: rest))
  | .saved bit flags => some { x.goto (.signals bit flags :: rest) with bitIrqs := false }
  | .ended bit flags => some { x.goto (.tested bit :: rest) with bitIrqs := flags }
  | .tested bit =>
    some (x.goto (if x.bitIrqs then .check :: .done bit :: rest else .done bit :: rest))
  | .done _ => some (x.goto rest)
  | .handling _ _ | .signals _ _ => none

def ret (x : LinuxIrqs) : Option LinuxIrqs :=
  match x.stack with
  | .handling irq flags :: rest => some (x.goto (.restore irq flags :: rest))
  | .signals bit flags :: rest => some (x.goto (.ended bit flags :: rest))
  | _ => none

def code (x : LinuxIrqs) (y : LinuxIrqs) : Option LinuxIrqs := if CodeOn x.stack then some y else none

/-- Only signals that are the number of an irq have this handler. -/
def step (x : LinuxIrqs) : LinuxAction → Option LinuxIrqs
  | .signal sig => if sig < irqNr then some (x.goto (.arrived sig x.bitIrqs :: x.stack)) else none
  | .run =>
    match x.stack with
    | [] => none
    | f :: rest => x.run rest f
  | .cli => x.code { x with bitIrqs := false }
  | .sti => x.code { x.goto (.check :: x.stack) with bitIrqs := true }
  | .restoreFlags flags => x.code { x.goto (.restored :: x.stack) with bitIrqs := flags }
  | .disableIrq irq => x.code (x.goto (.disable irq :: x.stack))
  | .enableIrq irq => x.code (x.goto (.enable irq :: x.stack))
  | .ret => x.ret

def start : LinuxIrqs where
  pendingIrqs := 0
  maskedIrqs := .allOnes 32
  bitIrqs := false
  stack := []
  became := fun _ => 0
  called := fun _ => 0

end LinuxIrqs

/-- Taken from the pending word for a call that has not come yet. -/
def LinuxFrame.holds (irq : Nat) : LinuxFrame → Bool
  | .save i | .off i _ | .enter i _ => i = irq
  | _ => false

namespace LinuxIrqs

-- ---------------------------------------------------------------------------
-- What must hold
-- ---------------------------------------------------------------------------

def inFlight (x : LinuxIrqs) (irq : Nat) : Nat := x.stack.countP (LinuxFrame.holds irq)

/-- Each time that an irq became pending it has been called for, is pending or is about to be
called. -/
def Served (x : LinuxIrqs) : Prop := ∀ irq < irqNr,
  x.became irq = x.called irq + (isbitset x.pendingIrqs irq).toNat + x.inFlight irq

def updates (x : LinuxIrqs) : LinuxAction → Option Nat
  | .run =>
    match x.stack with
    | .cleared irq _ :: _ => some irq
    | .added sig _ _ :: _ => some sig
    | _ => none
  | _ => none

/-- An update takes no other irq from the pending word. -/
def LosesNone (x : LinuxIrqs) (a : LinuxAction) : Prop :=
  ∀ irq y, x.updates a = some irq → x.step a = some y →
    ∀ i < irqNr, i ≠ irq → isbitset x.pendingIrqs i → isbitset y.pendingIrqs i

def EntersOff (x : LinuxIrqs) : LinuxAction → Prop
  | .run => ∀ irq flags rest, x.stack = .enter irq flags :: rest → x.bitIrqs = false
  | _ => True

def unmasked (x : LinuxIrqs) (irq : Nat) : Prop :=
  isbitset x.pendingIrqs irq = true ∧ isbitset x.maskedIrqs irq = false

/-- `deliver_irqs` returns from its loop with no unmasked irq pending, or with virtual
interrupts off. -/
def ReturnsClean (x : LinuxIrqs) : LinuxAction → Prop
  | .run => ∀ irq rest, x.stack = .pending irq :: rest → irqNr ≤ irq → x.bitIrqs = true →
    ∀ i < irqNr, ¬x.unmasked i
  | _ => True

-- ---------------------------------------------------------------------------
-- The condition
-- ---------------------------------------------------------------------------

/-- An update writes back the other irqs as they are, and clears an irq that is pending still. -/
def Writes (x : LinuxIrqs) : LinuxAction → Prop
  | .run =>
    match x.stack with
    | .cleared irq v :: _ => isbitset x.pendingIrqs irq ∧
      ∀ i < irqNr, i ≠ irq → isbitset v i = isbitset x.pendingIrqs i
    | .added sig _ v :: _ => ∀ i < irqNr, i ≠ sig → isbitset v i = isbitset x.pendingIrqs i
    | _ => True
  | _ => True

/-- When a handler has returned, no unmasked irq is pending up to its own number. -/
def Passes (x : LinuxIrqs) : LinuxAction → Prop
  | .run =>
    match x.stack with
    | .restore irq _ :: _ => ∀ i ≤ irq, ¬x.unmasked i
    | _ => True
  | _ => True

end LinuxIrqs

-- ---------------------------------------------------------------------------
-- The flags
-- ---------------------------------------------------------------------------

/-- What `bit_irqs` is when a function returns that goes on with `bit`. -/
def LinuxFrame.out (bit : Bool) : LinuxFrame → Bool
  | .check | .disable _ | .disabled _ _ | .enable _ | .enabled _ _ | .restored => bit
  | .pending _ | .masked _ | .clear _ | .cleared _ _ | .save _ | .off _ _ | .enter _ _
  | .handling _ _ | .restore _ _ => true
  | .arrived _ b | .added _ b _ | .saving b | .saved b _ | .signals b _ | .ended b _ | .tested b
  | .done b => b

/-- What a function relies on, where it goes on with `bit` over `rest`. -/
def LinuxFrame.Fits (bit : Bool) (rest : List LinuxFrame) : LinuxFrame → Prop
  | .check => True
  | .pending irq => bit = true ∧ irq ≤ irqNr
  | .masked irq | .clear irq | .cleared irq _ | .save irq => bit = true ∧ irq < irqNr
  | .off irq flags => bit = true ∧ flags = true ∧ irq < irqNr
  | .enter irq flags => bit = false ∧ flags = true ∧ irq < irqNr
  | .handling irq flags | .restore irq flags => flags = true ∧ irq < irqNr
  | .disable _ | .disabled _ _ | .enable _ | .enabled _ _ | .restored => CodeOn rest = true
  | .arrived sig b | .added sig b _ => bit = b ∧ sig < irqNr
  | .saving b | .tested b | .done b => bit = b
  | .saved b flags => bit = b ∧ flags = b
  | .signals b flags | .ended b flags => flags = b

def Nested (bit : Bool) : List LinuxFrame → Prop
  | [] => True
  | f :: rest => f.Fits bit rest ∧ Nested (f.out bit) rest

/-- The numbers below this are not pending and unmasked when the function goes on. -/
def LinuxFrame.passed : LinuxFrame → Nat
  | .pending irq | .masked irq | .clear irq | .cleared irq _ | .save irq | .off irq _ => irq
  | .done true => irqNr
  | _ => 0

def passedOn (stack : List LinuxFrame) : Nat := (stack.head?.map LinuxFrame.passed).getD 0

theorem passedOn_code {l : List LinuxFrame} (h : CodeOn l = true) : passedOn l = 0 := by
  cases l with
  | nil => rfl
  | cons f rest =>
    cases f with
    | handling irq flags => rfl
    | signals b flags => rfl
    | _ => contradiction

theorem passedOn_off {l : List LinuxFrame} (h : Nested false l) : passedOn l = 0 := by
  cases l with
  | nil => rfl
  | cons f rest =>
    cases f with
    | pending _ | masked _ | clear _ | cleared _ _ | save _ | off _ _ =>
      exact absurd h.1.1 Bool.false_ne_true
    | done b =>
      obtain rfl := h.1
      rfl
    | _ => rfl

namespace LinuxIrqs

variable {x y z : LinuxIrqs} {a : LinuxAction} {f : LinuxFrame} {rest : List LinuxFrame}

def Inv (x : LinuxIrqs) : Prop := Nested x.bitIrqs x.stack

theorem nested_code {bit : Bool} {l : List LinuxFrame} (hcode : CodeOn l = true)
    (h : Nested bit l) (b : Bool) : Nested b l := by
  cases l with
  | nil => trivial
  | cons f rest =>
    cases f with
    | handling irq flags => exact h
    | signals c flags => exact h
    | _ => contradiction

theorem run_inv (hx : Nested x.bitIrqs (f :: rest)) (h : x.run rest f = some y) : y.Inv := by
  obtain ⟨hfits, hrest⟩ := hx
  cases f with
  | handling irq flags => contradiction
  | signals b flags => contradiction
  | check =>
    obtain rfl := Option.some.inj h
    dsimp only [Inv, goto]
    split
    next hbit => exact ⟨⟨hbit, Nat.zero_le _⟩, hbit ▸ hrest⟩
    · exact hrest
  | pending irq =>
    obtain rfl := Option.some.inj h
    dsimp only [Inv, goto]
    split
    · exact hfits.1 ▸ hrest
    next hlt =>
      split
      · exact ⟨⟨hfits.1, Nat.lt_of_not_le hlt⟩, hrest⟩
      · exact ⟨⟨hfits.1, Nat.lt_of_not_le hlt⟩, hrest⟩
  | masked irq =>
    obtain rfl := Option.some.inj h
    dsimp only [Inv, goto]
    split
    · exact ⟨⟨hfits.1, hfits.2⟩, hrest⟩
    · exact ⟨hfits, hrest⟩
  | clear irq | cleared irq v =>
    obtain rfl := Option.some.inj h
    exact ⟨hfits, hrest⟩
  | save irq =>
    obtain rfl := Option.some.inj h
    exact ⟨⟨hfits.1, hfits⟩, hrest⟩
  | off irq flags =>
    obtain rfl := Option.some.inj h
    exact ⟨⟨rfl, hfits.2⟩, hrest⟩
  | enter irq flags =>
    obtain rfl := Option.some.inj h
    exact ⟨hfits.2, hrest⟩
  | restore irq flags =>
    obtain rfl := Option.some.inj h
    exact ⟨hfits, hrest⟩
  | disable irq | disabled irq v | enable irq | enabled irq v =>
    obtain rfl := Option.some.inj h
    first | exact hrest | exact ⟨trivial, hrest⟩ | exact ⟨hfits, hrest⟩
  | restored =>
    obtain rfl := Option.some.inj h
    dsimp only [Inv, goto]
    split
    · exact ⟨trivial, hrest⟩
    · exact hrest
  | arrived sig b =>
    obtain rfl := Option.some.inj h
    exact ⟨hfits, hrest⟩
  | added sig b v =>
    obtain rfl := Option.some.inj h
    exact ⟨trivial, hfits.1, hrest⟩
  | saving b =>
    obtain rfl := Option.some.inj h
    exact ⟨⟨hfits, hfits⟩, hrest⟩
  | saved b flags =>
    obtain rfl := Option.some.inj h
    exact ⟨hfits.2, hrest⟩
  | ended b flags =>
    obtain rfl := Option.some.inj h
    exact ⟨hfits, hrest⟩
  | tested b =>
    obtain rfl := Option.some.inj h
    dsimp only [Inv, goto]
    split
    · exact ⟨trivial, hfits, hrest⟩
    · exact ⟨hfits, hrest⟩
  | done b =>
    obtain rfl := Option.some.inj h
    dsimp only [Inv, goto]
    exact hfits.symm ▸ hrest

theorem code_some (h : x.code y = some z) : CodeOn x.stack = true ∧ z = y := by
  rw [code] at h
  split at h
  next hcode => exact ⟨hcode, (Option.some.inj h).symm⟩
  · contradiction

theorem step_inv (hx : x.Inv) (hs : x.step a = some y) : y.Inv := by
  cases a with
  | signal sig =>
    dsimp only [step] at hs
    split at hs
    next hlt =>
      obtain rfl := Option.some.inj hs
      exact ⟨⟨rfl, hlt⟩, hx⟩
    · contradiction
  | run =>
    dsimp only [step] at hs
    split at hs
    · contradiction
    next f rest hstack =>
      rw [Inv, hstack] at hx
      exact run_inv hx hs
  | cli =>
    obtain ⟨hcode, rfl⟩ := code_some hs
    exact nested_code hcode hx _
  | sti =>
    obtain ⟨hcode, rfl⟩ := code_some hs
    exact ⟨trivial, nested_code hcode hx _⟩
  | restoreFlags flags =>
    obtain ⟨hcode, rfl⟩ := code_some hs
    exact ⟨hcode, nested_code hcode hx _⟩
  | disableIrq irq | enableIrq irq =>
    obtain ⟨hcode, rfl⟩ := code_some hs
    exact ⟨hcode, hx⟩
  | ret =>
    dsimp only [step, ret] at hs
    split at hs
    next hstack =>
      obtain rfl := Option.some.inj hs
      rw [Inv, hstack] at hx
      exact hx
    next hstack =>
      obtain rfl := Option.some.inj hs
      rw [Inv, hstack] at hx
      exact hx
    · contradiction

theorem start_inv : start.Inv := trivial

theorem enters_off (hx : x.Inv) : x.EntersOff a := by
  cases a with
  | run =>
    intro irq flags rest hstack
    rw [Inv, hstack] at hx
    exact hx.1.1
  | _ => trivial

-- ---------------------------------------------------------------------------
-- The pending word
-- ---------------------------------------------------------------------------

theorem isbitset_setbit {v : BitVec 32} {bit i : Nat} (h : bit < irqNr) :
    isbitset (setbit v bit) i = (isbitset v i || decide (i = bit)) := by
  rw [irqNr] at h
  rw [isbitset, isbitset, setbit, BitVec.getLsbD_or, BitVec.getLsbD_twoPow,
    decide_eq_true (by omega), Bool.true_and]
  simp only [eq_comm]

theorem isbitset_clearbit {v : BitVec 32} {bit i : Nat} (hi : i < irqNr) :
    isbitset (clearbit v bit) i = (isbitset v i && !decide (i = bit)) := by
  have hw : i < 32 := Nat.lt_trans hi (by decide)
  rw [isbitset, isbitset, clearbit, BitVec.getLsbD_and, BitVec.getLsbD_not, BitVec.getLsbD_twoPow,
    decide_eq_true hw, Bool.true_and]
  by_cases hbit : i = bit
  · subst hbit
    simp [hw]
  · simp [hbit, Ne.symm hbit]

theorem toNat_inj {p q : Bool} : p.toNat = q.toNat ↔ p = q := by
  cases p <;> cases q <;> simp

theorem served_of_same (hx : x.Served) (hbecame : y.became = x.became)
    (hcalled : y.called = x.called) (hpending : y.pendingIrqs = x.pendingIrqs)
    (hflight : ∀ irq, y.inFlight irq = x.inFlight irq) : y.Served := by
  intro irq hlt
  rw [hbecame, hcalled, hpending, hflight]
  exact hx irq hlt

theorem inFlight_eq (hstack : x.stack = f :: rest) (i : Nat) :
    x.inFlight i = rest.countP (LinuxFrame.holds i) + if f.holds i then 1 else 0 := by
  rw [inFlight, hstack, List.countP_cons]

theorem cleared_served_iff {irq : Nat} {v : BitVec 32} (hlt : irq < irqNr) (hx : x.Served)
    (hstack : x.stack = .cleared irq v :: rest) :
    Served { x.goto (.save irq :: rest) with pendingIrqs := clearbit v irq } ↔
      isbitset x.pendingIrqs irq ∧
        ∀ i < irqNr, i ≠ irq → isbitset v i = isbitset x.pendingIrqs i := by
  have hbefore (i : Nat) : x.inFlight i = rest.countP (LinuxFrame.holds i) := inFlight_eq hstack i
  have hafter (i : Nat) : inFlight { x.goto (.save irq :: rest) with
      pendingIrqs := clearbit v irq } i =
        rest.countP (LinuxFrame.holds i) + if irq = i then 1 else 0 := by
    rw [inFlight_eq rfl]
    simp [LinuxFrame.holds]
  have hown : Served { x.goto (.save irq :: rest) with pendingIrqs := clearbit v irq } ↔
      ∀ i < irqNr, (isbitset x.pendingIrqs i).toNat =
        (isbitset v i && !decide (i = irq)).toNat + if irq = i then 1 else 0 := by
    refine forall₂_congr fun i hi => ?_
    have hserved := hx i hi
    rw [hbefore] at hserved
    rw [hafter, isbitset_clearbit hi]
    dsimp only [goto]
    omega
  rw [hown]
  constructor
  · intro h
    refine ⟨?_, fun i hi hne => ?_⟩
    · have hirq := h irq hlt
      simpa using hirq
    · have hi := h i hi
      rw [if_neg (Ne.symm hne), decide_eq_false hne, Bool.not_false, Bool.and_true] at hi
      exact (toNat_inj.mp hi).symm
  · rintro ⟨hpend, hothers⟩ i hi
    by_cases hne : i = irq
    · subst hne
      simp [hpend]
    · rw [if_neg (Ne.symm hne), decide_eq_false hne, Bool.not_false, Bool.and_true,
        hothers i hi hne, Nat.add_zero]

theorem added_served_iff {sig : Nat} {b : Bool} {v : BitVec 32} (hlt : sig < irqNr)
    (hx : x.Served) (hstack : x.stack = .added sig b v :: rest)
    (h : x.run rest (.added sig b v) = some y) :
    y.Served ↔ ∀ i < irqNr, i ≠ sig → isbitset v i = isbitset x.pendingIrqs i := by
  have hbefore (i : Nat) : x.inFlight i = rest.countP (LinuxFrame.holds i) := inFlight_eq hstack i
  obtain rfl := Option.some.inj h
  refine forall₂_congr fun i hi => ?_
  have hserved := hx i hi
  have hafter : inFlight { x.goto (.check :: .saving b :: rest) with
      pendingIrqs := setbit v sig
      became := if isbitset x.pendingIrqs sig then x.became
        else Function.update x.became sig (x.became sig + 1) } i =
        rest.countP (LinuxFrame.holds i) := rfl
  rw [hbefore] at hserved
  rw [hafter, isbitset_setbit hlt]
  dsimp only [goto]
  by_cases hne : i = sig
  · subst hne
    refine iff_of_true ?_ fun h => absurd rfl h
    rw [decide_eq_true rfl, Bool.or_true, Bool.toNat_true]
    by_cases hpend : isbitset x.pendingIrqs i = true
    · rw [if_pos hpend, hserved, hpend, Bool.toNat_true]
    · rw [if_neg hpend, Function.update_self, hserved, Bool.eq_false_iff.mpr hpend,
        Bool.toNat_false]
      omega
  · have hbecame : (if isbitset x.pendingIrqs sig then x.became
        else Function.update x.became sig (x.became sig + 1)) i = x.became i := by
      split
      · rfl
      · exact Function.update_of_ne hne ..
    rw [hbecame, decide_eq_false hne, Bool.or_false, forall_prop_of_true hne, ← toNat_inj]
    omega

theorem enter_served {irq : Nat} {flags : Bool} (hx : x.Served)
    (hstack : x.stack = .enter irq flags :: rest) :
    Served { x.goto (.handling irq flags :: rest) with
      called := Function.update x.called irq (x.called irq + 1) } := by
  intro i hi
  have hserved := hx i hi
  rw [inFlight_eq hstack] at hserved
  rw [inFlight_eq rfl]
  dsimp only [goto]
  by_cases hne : i = irq
  · subst hne
    rw [Function.update_self]
    simp only [LinuxFrame.holds, decide_true, if_pos] at hserved ⊢
    simp only [Bool.false_eq_true, if_false]
    omega
  · rw [Function.update_of_ne hne]
    simp only [LinuxFrame.holds, decide_eq_true_iff, if_neg (Ne.symm hne)] at hserved ⊢
    simp only [Bool.false_eq_true, if_false]
    omega

theorem run_served_iff (hx : x.Served) (hinv : x.Inv) (hstack : x.stack = f :: rest)
    (h : x.run rest f = some y) : y.Served ↔ x.Writes .run := by
  have hbefore := inFlight_eq hstack
  rw [Inv, hstack] at hinv
  rw [Writes.eq_def, hstack]
  cases f with
  | handling irq flags => contradiction
  | signals b flags => contradiction
  | cleared irq v =>
    obtain rfl := Option.some.inj h
    exact cleared_served_iff hinv.1.2 hx hstack
  | added sig b v => exact added_served_iff hinv.1.2 hx hstack h
  | enter irq flags =>
    obtain rfl := Option.some.inj h
    exact iff_true_intro (enter_served hx hstack)
  | check | pending irq | masked irq | restored | tested b =>
    obtain rfl := Option.some.inj h
    have hnone (i : Nat) : x.inFlight i = rest.countP (LinuxFrame.holds i) := hbefore i
    refine iff_true_intro (served_of_same hx rfl rfl rfl fun i => ?_)
    rw [hnone, inFlight, goto]
    dsimp only
    repeat' split
    all_goals rfl
  | save irq | off irq flags =>
    obtain rfl := Option.some.inj h
    refine iff_true_intro (served_of_same hx rfl rfl rfl fun i => ?_)
    rw [hbefore, inFlight_eq rfl]
    rfl
  | _ =>
    obtain rfl := Option.some.inj h
    exact iff_true_intro (served_of_same hx rfl rfl rfl fun i => (hbefore i).symm)

theorem step_served_iff (hinv : x.Inv) (hx : x.Served) (hs : x.step a = some y) :
    y.Served ↔ x.Writes a := by
  cases a with
  | run =>
    dsimp only [step] at hs
    split at hs
    · contradiction
    next f rest hstack => exact run_served_iff hx hinv hstack hs
  | signal sig =>
    dsimp only [step] at hs
    split at hs
    · obtain rfl := Option.some.inj hs
      exact iff_true_intro (served_of_same hx rfl rfl rfl fun _ => rfl)
    · contradiction
  | cli | sti | restoreFlags _ | disableIrq _ | enableIrq _ =>
    obtain ⟨-, rfl⟩ := code_some hs
    exact iff_true_intro (served_of_same hx rfl rfl rfl fun _ => rfl)
  | ret =>
    refine iff_true_intro ?_
    dsimp only [step, ret] at hs
    split at hs
    next hstack =>
      obtain rfl := Option.some.inj hs
      exact served_of_same hx rfl rfl rfl fun i => (inFlight_eq hstack i).symm
    next hstack =>
      obtain rfl := Option.some.inj hs
      exact served_of_same hx rfl rfl rfl fun i => (inFlight_eq hstack i).symm
    · contradiction

theorem loses_none (hinv : x.Inv) (hw : x.Writes a) : x.LosesNone a := by
  intro irq y hupdates hs i hi hne hpend
  cases a with
  | run =>
    rw [updates] at hupdates
    rw [Writes.eq_def] at hw
    dsimp only [step] at hs
    split at hupdates
    next irq' v rest hstack =>
      obtain rfl := Option.some.inj hupdates
      rw [hstack] at hs hw
      obtain rfl := Option.some.inj hs
      dsimp only at hw ⊢
      rw [isbitset_clearbit hi, hw.2 i hi hne, hpend, decide_eq_false hne]
      rfl
    next sig b v rest hstack =>
      obtain rfl := Option.some.inj hupdates
      rw [Inv, hstack] at hinv
      rw [hstack] at hs hw
      obtain rfl := Option.some.inj hs
      dsimp only at hw ⊢
      rw [isbitset_setbit hinv.1.2, hw i hi hne, hpend, Bool.true_or]
    · contradiction
  | _ => contradiction

theorem start_served : start.Served := by
  intro irq hlt
  rw [start, inFlight]
  simp [isbitset]

-- ---------------------------------------------------------------------------
-- The loop
-- ---------------------------------------------------------------------------

def Swept (x : LinuxIrqs) : Prop := ∀ i < irqNr, i < passedOn x.stack → ¬x.unmasked i

theorem swept_of_clean (hinv : y.Inv) (h : y.bitIrqs = true → ∀ i < irqNr, ¬y.unmasked i) :
    y.Swept := by
  intro i hi hlt
  cases hbit : y.bitIrqs with
  | false =>
    rw [Inv, hbit] at hinv
    rw [passedOn_off hinv] at hlt
    exact absurd hlt (Nat.not_lt_zero i)
  | true => exact h hbit i hi

theorem swept_of_zero (h : passedOn y.stack = 0) : y.Swept := by
  intro i _ hlt
  rw [h] at hlt
  exact absurd hlt (Nat.not_lt_zero i)

theorem run_swept (hinv : x.Inv) (hx : x.Swept) (hw : x.Writes .run) (hp : x.Passes .run)
    (hstack : x.stack = f :: rest) (h : x.run rest f = some y) (hy : y.Inv) : y.Swept := by
  rw [Swept, hstack] at hx
  rw [Inv, hstack] at hinv
  obtain ⟨hfits, hrest⟩ := hinv
  cases f with
  | handling irq flags => contradiction
  | signals b flags => contradiction
  | check =>
    obtain rfl := Option.some.inj h
    by_cases hbit : x.bitIrqs = true
    · exact swept_of_zero (by rw [goto, if_pos hbit]; rfl)
    · exact swept_of_clean hy fun h => absurd h hbit
  | pending irq =>
    obtain rfl := Option.some.inj h
    by_cases hge : irq ≥ irqNr
    · exact swept_of_clean hy fun _ i hi => hx i hi (Nat.lt_of_lt_of_le hi hge)
    · by_cases hpend : isbitset x.pendingIrqs irq = true
      · rw [Swept, goto, if_neg hge, if_pos hpend]
        exact hx
      · rw [Swept, goto, if_neg hge, if_neg hpend]
        intro i hi hlt
        rcases Nat.lt_succ_iff_lt_or_eq.mp hlt with hlt | rfl
        · exact hx i hi hlt
        · exact fun hu => hpend hu.1
  | masked irq =>
    obtain rfl := Option.some.inj h
    by_cases hmask : isbitset x.maskedIrqs irq = true
    · rw [Swept, goto, if_pos hmask]
      intro i hi hlt
      rcases Nat.lt_succ_iff_lt_or_eq.mp hlt with hlt | rfl
      · exact hx i hi hlt
      · exact fun hu => absurd (hmask.symm.trans hu.2) (by decide)
    · rw [Swept, goto, if_neg hmask]
      exact hx
  | clear irq | save irq =>
    obtain rfl := Option.some.inj h
    exact hx
  | cleared irq v =>
    obtain rfl := Option.some.inj h
    rw [Writes.eq_def, hstack] at hw
    intro i hi hlt hu
    have hne : i ≠ irq := Nat.ne_of_lt hlt
    have hset := hu.1
    dsimp only at hset
    rw [isbitset_clearbit hi, hw.2 i hi hne, Bool.and_eq_true] at hset
    exact hx i hi hlt ⟨hset.1, hu.2⟩
  | restore irq flags =>
    obtain rfl := Option.some.inj h
    rw [Passes.eq_def, hstack] at hp
    exact fun i _ hlt => hp i (Nat.le_of_lt_succ hlt)
  | disabled irq v =>
    obtain rfl := Option.some.inj h
    exact swept_of_zero (passedOn_code hfits)
  | restored =>
    obtain rfl := Option.some.inj h
    refine swept_of_zero ?_
    rw [goto]
    dsimp only
    split
    · rfl
    · exact passedOn_code hfits
  | tested b =>
    obtain rfl := Option.some.inj h
    by_cases hbit : x.bitIrqs = true
    · exact swept_of_zero (by rw [goto, if_pos hbit]; rfl)
    · exact swept_of_clean hy fun h => absurd h hbit
  | done b =>
    obtain rfl := Option.some.inj h
    refine swept_of_clean hy fun hbit => ?_
    obtain rfl : true = b := hbit.symm.trans hfits
    exact fun i hi => hx i hi hi
  | off _ _ | enter _ _ | disable _ | enable _ | enabled _ _ | arrived _ _ | added _ _ _ | saving _
  | saved _ _ | ended _ _ =>
    obtain rfl := Option.some.inj h
    exact swept_of_zero rfl

theorem step_swept (hinv : x.Inv) (hx : x.Swept) (hw : x.Writes a) (hp : x.Passes a)
    (hs : x.step a = some y) : y.Swept := by
  have hy := step_inv hinv hs
  cases a with
  | run =>
    dsimp only [step] at hs
    split at hs
    · contradiction
    next f rest hstack => exact run_swept hinv hx hw hp hstack hs hy
  | signal sig =>
    dsimp only [step] at hs
    split at hs
    · obtain rfl := Option.some.inj hs
      exact swept_of_zero rfl
    · contradiction
  | cli =>
    obtain ⟨hcode, rfl⟩ := code_some hs
    exact swept_of_zero (passedOn_code hcode)
  | sti | restoreFlags _ | disableIrq _ | enableIrq _ =>
    obtain ⟨-, rfl⟩ := code_some hs
    exact swept_of_zero rfl
  | ret =>
    dsimp only [step, ret] at hs
    split at hs
    · obtain rfl := Option.some.inj hs
      exact swept_of_zero rfl
    · obtain rfl := Option.some.inj hs
      exact swept_of_zero rfl
    · contradiction

theorem returns_clean (hx : x.Swept) : x.ReturnsClean a := by
  cases a with
  | run =>
    intro irq rest hstack hge _ i hi
    rw [Swept, hstack] at hx
    exact hx i hi (Nat.lt_of_lt_of_le hi hge)
  | _ => trivial

-- ---------------------------------------------------------------------------
-- Runs
-- ---------------------------------------------------------------------------

/-- Handlers are entered with virtual interrupts off. Every irq that becomes pending has one
call and no update loses one, if and only if every update writes the other irqs back as they
are and clears one that is pending still; and where besides no handler returns with an
unmasked irq pending up to its own number, `deliver_irqs` leaves none pending. -/
theorem virtual_irqs {tr : List (LinuxIrqs × LinuxAction)} (hr : Run step start tr x) :
    (∀ e ∈ tr, e.1.EntersOff e.2) ∧
    (((∀ y, Visited tr x y → y.Served) ∧ ∀ e ∈ tr, e.1.LosesNone e.2) ↔
      ∀ e ∈ tr, e.1.Writes e.2) ∧
    ((∀ e ∈ tr, e.1.Writes e.2 ∧ e.1.Passes e.2) → ∀ e ∈ tr, e.1.ReturnsClean e.2) := by
  have hinv {y : LinuxIrqs} (hy : Visited tr x y) : y.Inv :=
    hr.invariant_visited (C := fun _ _ => True) start_inv
      (fun _ _ _ h _ hs => step_inv h hs) (fun _ _ => trivial) hy
  have hserved : (∀ y, Visited tr x y → y.Served) ↔ ∀ e ∈ tr, e.1.Writes e.2 :=
    hr.visited_iff start_inv (fun _ _ _ h hs => step_inv h hs) start_served
      fun _ _ _ h hx hs => step_served_iff h hx hs
  refine ⟨fun e he => enters_off (hinv (.pre he)), ?_, fun h e he => ?_⟩
  · refine ⟨fun h => hserved.mp h.1, fun h => ⟨hserved.mpr h, fun e he => ?_⟩⟩
    exact loses_none (hinv (.pre he)) (h e he)
  · have hswept : e.1.Inv ∧ e.1.Swept :=
      hr.invariant_visited (I := fun y => y.Inv ∧ y.Swept)
        (C := fun x a => x.Writes a ∧ x.Passes a) ⟨start_inv, swept_of_zero rfl⟩
        (fun _ _ _ hx hc hs => ⟨step_inv hx.1 hs, step_swept hx.1 hx.2 hc.1 hc.2 hs⟩) h (.pre he)
    exact returns_clean hswept.2

def timerSignal : List LinuxAction :=
  [.enableIrq 14, .run, .run, .run, .sti] ++ List.replicate 18 .run ++ [.signal 14]

theorem virtual_irqs_timer : ∃ tr x, Run step start tr x ∧ x.became 14 = 1 ∧ x.called 14 = 1 ∧
    x.stack.head? = some (.handling 14 true) ∧
    (∀ e ∈ tr, e.1.EntersOff e.2) ∧
    (((∀ y, Visited tr x y → y.Served) ∧ ∀ e ∈ tr, e.1.LosesNone e.2) ↔
      ∀ e ∈ tr, e.1.Writes e.2) ∧
    ((∀ e ∈ tr, e.1.Writes e.2 ∧ e.1.Passes e.2) → ∀ e ∈ tr, e.1.ReturnsClean e.2) := by
  have h : ((exec step start (timerSignal ++ List.replicate 24 .run)).any fun r =>
      decide (r.2.became 14 = 1 ∧ r.2.called 14 = 1 ∧
        r.2.stack.head? = some (.handling 14 true))) = true := by
    decide +kernel
  obtain ⟨tr, x, hr, hx⟩ := exec_any h
  obtain ⟨hbecame, hcalled, hstack⟩ := of_decide_eq_true hx
  exact ⟨tr, x, hr, hbecame, hcalled, hstack, virtual_irqs hr⟩

/-- The timer's signal comes again in its own handler: the loop has passed its number, and
returns with the irq pending. Or it comes between the test of the irq and its clearing, while
this is pending still: the handler is called twice. -/
theorem timer_signals_twice :
    (∃ tr x, Run step start tr x ∧ ¬∀ e ∈ tr, e.1.ReturnsClean e.2) ∧
    ∃ tr x, Run step start tr x ∧ x.became 14 = 1 ∧ x.called 14 = 2 := by
  constructor
  · have h : ((exec step start (timerSignal ++ List.replicate 24 .run ++ [.signal 14, .run, .run,
        .run, .run, .run, .ret, .run, .run, .run, .ret, .run, .run])).any fun r =>
        decide ((r.2.step .run).isSome = true ∧ r.2.stack = [.pending 16, .saving true] ∧
          r.2.bitIrqs = true ∧ isbitset r.2.pendingIrqs 14 = true ∧
          isbitset r.2.maskedIrqs 14 = false)) = true := by
      decide +kernel
    obtain ⟨tr, x, hr, hx⟩ := exec_any h
    obtain ⟨hstep, hstack, hbit, hpend, hmask⟩ := of_decide_eq_true hx
    obtain ⟨y, hs⟩ := Option.isSome_iff_exists.mp hstep
    refine ⟨_, y, hr.next hs, fun h => ?_⟩
    have hclean := h (x, .run) List.mem_cons_self 16 _ hstack (Nat.le_refl _) hbit
    exact hclean 14 (by decide) ⟨hpend, hmask⟩
  · have h : ((exec step start (timerSignal ++ List.replicate 19 .run ++ [.signal 14] ++
        List.replicate 24 .run ++ [.ret] ++ List.replicate 5 .run ++ [.ret] ++
        List.replicate 26 .run)).any fun r =>
        decide (r.2.became 14 = 1 ∧ r.2.called 14 = 2)) = true := by
      decide +kernel
    obtain ⟨tr, x, hr, hx⟩ := exec_any h
    obtain ⟨hbecame, hcalled⟩ := of_decide_eq_true hx
    exact ⟨tr, x, hr, hbecame, hcalled⟩

end LinuxIrqs

end Xmertl.Partikle
