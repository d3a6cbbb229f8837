import Mathlib.Data.Finset.Basic
import Xmertl.Lib.Runs
import Xmertl.Xtratum.Heap

/-!
# Runs of the timer heap

Sequences of `HEAP_insert`, `HEAP_remove_min` and `HEAP_remove_element`, between
which the callers give timers new expiry times.

`HEAP_remove_element` moves the last timer to the place it frees and from there
only down. A last timer that is before the father of that place then stands
below it. The array has no place for a hundredth timer, as its place 0 is not in
use, but `HEAP_insert` takes one, and a timer that is not in a heap of 99 is
looked for behind the array.
-/

namespace Xmertl.Xtratum

open Runs HeapOrder

/-- `members` are the timers put in and not yet taken out. -/
structure TimerHeap (D : Type) where
  heap : Heap D
  hwtime : D → Int
  members : Finset D

inductive HeapCall (D : Type)
  | insert (k : D)
  | removeMin
  | removeElement (k : D)
  | setHwtime (k : D) (hwtime : Int)

inductive HeapResult (D : Type)
  | code (c : Int)
  | timer (t : Option D)
  | done

section
variable {D : Type} [DecidableEq D]

def TimerHeap.init (h : Heap D) (hwtime : D → Int) : TimerHeap D :=
  { heap := heapInit h, hwtime, members := ∅ }

/-- A call, `none` when it leaves the array. -/
def TimerHeap.call (x : TimerHeap D) : HeapCall D → Option (TimerHeap D × HeapResult D)
  | .insert k => do
    let (heap, c) ← heapInsert x.hwtime x.heap k
    let members := if c = 0 then insert k x.members else x.members
    return ({ x with heap, members }, .code c)
  | .removeMin => do
    let (heap, min) ← heapRemoveMin x.hwtime x.heap
    let members := min.elim x.members x.members.erase
    return ({ x with heap, members }, .timer min)
  | .removeElement k => do
    let (heap, c) ← heapRemoveElement x.hwtime x.heap k
    return ({ x with heap, members := x.members.erase k }, .code c)
  | .setHwtime k t => some ({ x with hwtime := Function.update x.hwtime k t }, .done)

def TimerHeap.step (x : TimerHeap D) (c : HeapCall D) : Option (TimerHeap D) :=
  (x.call c).map Prod.fst

def TimerHeap.Allows (x : TimerHeap D) : HeapCall D → Prop
  | .setHwtime k _ => k ∉ x.members
  | _ => True

/-- `k` can be looked for, and put in, within the array. -/
def TimerHeap.HasRoom (x : TimerHeap D) (k : D) : Prop :=
  k ∉ x.members → x.heap.nelem + 1 < heapMaxNelem

def TimerHeap.Manages (x : TimerHeap D) : HeapCall D → Prop
  | .insert k => x.HasRoom k ∧ (k ∈ x.members → x.heap.MovesWell x.hwtime k)
  | .removeElement k => x.HasRoom k ∧ (k ∈ x.members → x.heap.MovesWell x.hwtime k)
  | _ => True

structure TimerHeap.Ok (x : TimerHeap D) : Prop where
  bound : x.heap.nelem < heapMaxNelem
  holds : x.heap.Contains x.members
  ordered : x.heap.IsOrdered x.hwtime

def TimerHeap.Right (x : TimerHeap D) : HeapCall D → HeapResult D → Prop
  | .insert _, r => r = .code 0
  | .removeMin, r => ∃ min, r = .timer min ∧ (min = none ↔ x.members = ∅) ∧
      ∀ m ∈ min, m ∈ x.members ∧ ∀ t ∈ x.members, x.hwtime m ≤ x.hwtime t
  | .removeElement k, r => r = .code (if k ∈ x.members then 0 else -1)
  | .setHwtime _ _, r => r = .done

-- ---------------------------------------------------------------------------
-- One call
-- ---------------------------------------------------------------------------

variable {x y : TimerHeap D} {k : D}

instance : DecidablePred x.Allows
  | .setHwtime k _ => inferInstanceAs (Decidable (k ∉ x.members))
  | .insert _ | .removeMin | .removeElement _ => .isTrue trivial

instance : DecidablePred x.Manages
  | .insert _ | .removeElement _ => inferInstanceAs (Decidable ((_ → _ < _) ∧ (_ → _)))
  | .removeMin | .setHwtime _ _ => .isTrue trivial

omit [DecidableEq D] in
theorem TimerHeap.init_ok (h : Heap D) (hwtime : D → Int) : (TimerHeap.init h hwtime).Ok where
  bound := by simp [init, heapInit, heapMaxNelem]
  holds := by
    have hempty := Holds.empty (α := Option D) h.array
    simpa [init, heapInit, Heap.Contains] using hempty
  ordered := fun i hi hin => by
    simp only [init, heapInit] at hin
    omega

omit [DecidableEq D] in
theorem TimerHeap.Ok.empty_iff (hx : x.Ok) : x.heap.nelem = 0 ↔ x.members = ∅ := by
  rw [← Finset.not_nonempty_iff_eq_empty, ← Finset.coe_nonempty, ← hx.holds.nonempty_iff]
  omega

theorem TimerHeap.Ok.removeElement (hx : x.Ok) (hc : x.Manages (.removeElement k)) :
    ∃ y, x.call (.removeElement k) = some (y, .code (if k ∈ x.members then 0 else -1)) ∧
      y.Ok := by
  obtain ⟨hroom, hmoves⟩ := hc
  by_cases hk : k ∈ x.members
  · obtain ⟨h', hrun, hnelem, hs', ho⟩ := heapRemoveElement_present x.hwtime hx.holds hk hx.bound
    refine ⟨⟨h', x.hwtime, x.members.erase k⟩, by simp [call, hrun, hk], ?_, ?_, ?_⟩
    · exact lt_of_le_of_lt (hnelem.trans_le (Nat.sub_le _ _)) hx.bound
    · simpa using hs'
    · exact ho hx.ordered (hmoves hk)
  · have hrun := heapRemoveElement_absent x.hwtime hx.holds hk (hroom hk)
    exact ⟨x, by simp [call, hrun, hk], hx⟩

theorem TimerHeap.Ok.insert (hx : x.Ok) (hc : x.Manages (.insert k)) :
    ∃ y, x.call (.insert k) = some (y, .code 0) ∧ y.Ok := by
  obtain ⟨hroom, hmoves⟩ := hc
  by_cases hk : k ∈ x.members
  · obtain ⟨h₁, h', -, hrun, -, hnelem, hs', ho⟩ :=
      heapInsert_present x.hwtime hx.holds hk hx.bound
    refine ⟨⟨h', x.hwtime, Insert.insert k x.members⟩, by simp [call, hrun], ?_, ?_, ?_⟩
    · exact hnelem.trans_lt hx.bound
    · rwa [Finset.insert_eq_of_mem hk]
    · exact ho hx.ordered (hmoves hk)
  · obtain ⟨h', hrun, hnelem, hs', ho⟩ := heapInsert_absent x.hwtime hx.holds hk (hroom hk)
    refine ⟨⟨h', x.hwtime, Insert.insert k x.members⟩, by simp [call, hrun], ?_, ?_, ?_⟩
    · exact hnelem.trans_lt (hroom hk)
    · simpa using hs'
    · exact ho hx.ordered

theorem TimerHeap.Ok.removeMin (hx : x.Ok) :
    ∃ y min, x.call .removeMin = some (y, .timer min) ∧ y.Ok ∧ (min = none ↔ x.members = ∅) ∧
      ∀ m ∈ min, m ∈ x.members ∧ ∀ t ∈ x.members, x.hwtime m ≤ x.hwtime t := by
  by_cases hn : x.heap.nelem = 0
  · refine ⟨x, none, ?_, hx, by simp [hx.empty_iff.mp hn], by simp⟩
    simp [call, heapRemoveMin_empty hn]
  · obtain ⟨h', m, hrun, hfirst, hm, hnelem, hs', ho⟩ :=
      heapRemoveMin_spec x.hwtime hx.holds hx.bound (Nat.pos_of_ne_zero hn)
    refine ⟨⟨h', x.hwtime, x.members.erase m⟩, some m, by simp [call, hrun], ⟨?_, ?_, ?_⟩, ?_, ?_⟩
    · exact lt_of_le_of_lt (hnelem.trans_le (Nat.sub_le _ _)) hx.bound
    · simpa using hs'
    · exact ho hx.ordered
    · simpa using Finset.ne_empty_of_mem hm
    · rintro _ ⟨rfl⟩
      exact ⟨hm, fun t ht => hx.ordered.first hx.holds hfirst ht⟩

theorem TimerHeap.Ok.setHwtime (hx : x.Ok) (hk : k ∉ x.members) (t : Int) :
    TimerHeap.Ok { x with hwtime := Function.update x.hwtime k t } where
  bound := hx.bound
  holds := hx.holds
  ordered := hx.ordered.congr hx.holds fun d hd => by
    have hdk : d ≠ k := fun he => hk (he ▸ hd)
    simp [hdk]

theorem TimerHeap.Ok.call (hx : x.Ok) {c : HeapCall D} (ha : x.Allows c) (hc : x.Manages c) :
    ∃ y r, x.call c = some (y, r) ∧ y.Ok ∧ x.Right c r := by
  cases c with
  | insert k =>
    obtain ⟨y, hrun, hy⟩ := hx.insert hc
    exact ⟨y, _, hrun, hy, rfl⟩
  | removeMin =>
    obtain ⟨y, min, hrun, hy, hmin⟩ := hx.removeMin
    exact ⟨y, _, hrun, hy, min, rfl, hmin⟩
  | removeElement k =>
    obtain ⟨y, hrun, hy⟩ := hx.removeElement hc
    exact ⟨y, _, hrun, hy, rfl⟩
  | setHwtime k t => exact ⟨_, _, rfl, hx.setHwtime ha t, rfl⟩

theorem TimerHeap.Ok.reinsert (hx : x.Ok) (hk : k ∈ x.members) :
    x.call (.insert k) = (x.call (.removeElement k)).bind fun r => r.1.call (.insert k) := by
  obtain ⟨h₁, h', hremove, hrun, hrun₁, -⟩ := heapInsert_present x.hwtime hx.holds hk hx.bound
  simp [TimerHeap.call, hremove, hrun, hrun₁, Finset.insert_erase hk, Finset.insert_eq_of_mem hk]

theorem TimerHeap.Ok.full (hx : x.Ok) (hk : k ∉ x.members)
    (hn : x.heap.nelem + 1 = heapMaxNelem) :
    x.call (.insert k) = none ∧ x.call (.removeElement k) = none := by
  have hinsert := heapInsert_full x.hwtime hx.holds hk hn
  have hremove := heapRemoveElement_full x.hwtime hx.holds hk hn
  simp [TimerHeap.call, hinsert, hremove]

-- ---------------------------------------------------------------------------
-- Runs
-- ---------------------------------------------------------------------------

theorem TimerHeap.Ok.step (hx : x.Ok) {c : HeapCall D} (ha : x.Allows c) (hc : x.Manages c)
    (h : x.step c = some y) : y.Ok := by
  obtain ⟨y', r, hcall, hy, -⟩ := hx.call ha hc
  simp only [TimerHeap.step, hcall, Option.map_some, Option.some.injEq] at h
  exact h ▸ hy

/-- While removals find a last timer that fits and there is room, the array is a
heap of the timers put in, and every call stays inside it and gives what it should. -/
theorem timerHeap_ordered {h : Heap D} {hwtime : D → Int} {tr : List (TimerHeap D × HeapCall D)}
    (hr : Run TimerHeap.step (TimerHeap.init h hwtime) tr x) (hx : Visited tr x y)
    (hc : ∀ e ∈ tr, e.1.Allows e.2 ∧ e.1.Manages e.2) :
    y.Ok ∧
    (∀ c, y.Allows c → y.Manages c → ∃ z r, y.call c = some (z, r) ∧ y.Right c r) ∧
    ∀ k ∈ y.members,
      y.call (.insert k) = (y.call (.removeElement k)).bind fun r => r.1.call (.insert k) := by
  have hy : y.Ok := hr.invariant_visited (TimerHeap.init_ok h hwtime)
    (C := fun s a => s.Allows a ∧ s.Manages a)
    (fun s a s' hs ha hstep => hs.step ha.1 ha.2 hstep) hc hx
  refine ⟨hy, fun c ha hc => ?_, fun k hk => hy.reinsert hk⟩
  obtain ⟨z, r, hcall, -, hright⟩ := hy.call ha hc
  exact ⟨z, r, hcall, hright⟩

end

theorem timerHeap_ordered_run :
    ∃ tr x, Run TimerHeap.step (TimerHeap.init ⟨fun _ => none, 0⟩ Int.ofNat) tr x ∧
      tr.length = 6 ∧ x.members = {4, 6} ∧ x.Ok := by
  let calls : List (HeapCall Nat) :=
    [.insert 5, .insert 4, .insert 3, .removeMin, .insert 6, .removeElement 5]
  have hrun : (exec TimerHeap.step (TimerHeap.init ⟨fun _ => none, 0⟩ Int.ofNat) calls).any
      fun r => decide ((∀ e ∈ r.1, e.1.Allows e.2 ∧ e.1.Manages e.2) ∧ r.1.length = 6 ∧
        r.2.members = {4, 6}) := by
    decide +kernel
  obtain ⟨tr, x, hr, hx⟩ := exec_any hrun
  simp only [decide_eq_true_eq] at hx
  exact ⟨tr, x, hr, hx.2.1, hx.2.2, (timerHeap_ordered hr .self hx.1).1⟩

/-- Of the timers 1, 10, 2, 11, 12 and 3 in this order, 11 is taken out: 3 comes
to stand below 10. -/
theorem timerHeap_disordered :
    ∃ tr x, Run TimerHeap.step (TimerHeap.init ⟨fun _ => none, 0⟩ Int.ofNat) tr x ∧
      (∀ e ∈ tr, e.1.Allows e.2) ∧ ¬x.heap.IsOrdered x.hwtime := by
  let calls : List (HeapCall Nat) :=
    [.insert 1, .insert 10, .insert 2, .insert 11, .insert 12, .insert 3, .removeElement 11]
  have hrun : (exec TimerHeap.step (TimerHeap.init ⟨fun _ => none, 0⟩ Int.ofNat) calls).any
      fun r => decide ((∀ e ∈ r.1, e.1.Allows e.2) ∧ r.2.heap.nelem = 5 ∧
        keyOf r.2.hwtime (r.2.heap.array 2) = 10 ∧ keyOf r.2.hwtime (r.2.heap.array 4) = 3) := by
    decide +kernel
  obtain ⟨tr, x, hr, hx⟩ := exec_any hrun
  simp only [decide_eq_true_eq] at hx
  obtain ⟨hallows, hnelem, hfather, hchild⟩ := hx
  refine ⟨tr, x, hr, hallows, fun ho => ?_⟩
  have hle := ho 4 (by decide) (by omega)
  simp only [Function.comp_apply, Nat.reduceDiv, hfather, hchild] at hle
  omega

end Xmertl.Xtratum
