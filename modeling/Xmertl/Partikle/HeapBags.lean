import Mathlib.Tactic.IntervalCases
import Xmertl.Common.HeapBags
import Xmertl.Partikle.Heap

/-!
# The laws of PaRTiKle's timer heap

What each operation does to a min-heap and to the multiset of its timers.
`HEAP_remove_element` puts the last timer into the hole and moves it down only.
-/

namespace Xmertl.Partikle

open Xmertl.Heap

section
variable {D : Type} [DecidableEq D] (timerValue : D → Int)

structure MinHeap (h : Heap D) : Prop where
  inside : h.nelem < heapMaxNelem
  full : h.Full
  ordered : h.IsOrdered timerValue

def Inserts (h : Heap D) (k : D) : Prop :=
  ∃ h', heapInsert timerValue h k = some (h', 0) ∧ MinHeap timerValue h' ∧
    h'.bag = some k ::ₘ h.bag

/-- HEAP_remove_min returns NULL from an empty heap, else a least timer. -/
def RemovesMin (h : Heap D) : Prop :=
  if h.nelem = 0 then heapRemoveMin timerValue h = some (h, none)
  else ∃ h' m, heapRemoveMin timerValue h = some (h', some m) ∧ MinHeap timerValue h' ∧
    h.bag = some m ::ₘ h'.bag ∧ ∀ d, some d ∈ h.bag → timerValue m ≤ timerValue d

def RemovesElement (h : Heap D) (k : D) : Prop :=
  ∃ h', heapRemoveElement timerValue h k = some (h', 0) ∧ MinHeap timerValue h' ∧
    h.bag = some k ::ₘ h'.bag

/-- At the first place of `k` the last timer is not before the father. -/
def FirstFits (h : Heap D) (k : D) : Prop :=
  ∀ i ≤ h.nelem, 1 ≤ i → h.array i = some k → (∀ j < i, 1 ≤ j → h.array j ≠ some k) →
    h.Fits timerValue i

end

section
variable {D : Type} {timerValue : D → Int} {h : Heap D} {k : D}

variable (timerValue) in
theorem inserts_iff (hm : MinHeap timerValue h) (k : D) :
    Inserts timerValue h k ↔ h.nelem < maxTimers := by
  constructor
  · rintro ⟨h', -, hm', hbag⟩
    have hcard := congrArg Multiset.card hbag
    rw [Multiset.card_cons, bag_card, bag_card] at hcard
    have hinside : h'.nelem < maxTimers + 1 := hm'.inside
    omega
  · intro hroom
    have hsize : h.nelem + 1 < heapConf.size := Nat.succ_lt_succ hroom
    obtain ⟨h', hrun, hnelem, hbag, ho⟩ := insertLoop_bag timerValue hm.full hsize k
    have hfits : ¬h.nelem + 1 > heapMaxNelem := not_lt.mpr (le_of_lt hsize)
    refine ⟨h', ?_, ⟨?_, hm.full.of_cons hbag, ho hm.ordered⟩, hbag⟩
    · simp only [heapInsert, if_neg hfits, hrun, Option.bind_eq_bind, Option.bind_some,
        Option.pure_def]
    · rw [hnelem]
      exact hsize

variable (timerValue) in
theorem heapInsert_overruns (hm : MinHeap timerValue h) (hn : h.nelem = maxTimers) (k : D) :
    heapInsert timerValue h k = none := by
  have hadmit : ¬h.nelem + 1 > heapMaxNelem := by
    rw [hn]
    exact lt_irrefl _
  have hfather : father h.grow.nelem ≤ h.nelem ∧ 1 ≤ father h.grow.nelem := by
    rw [father, Heap.grow_nelem, hn]
    decide
  have hlast (p : Option D) : h.grow.set h.grow.nelem p = none := by
    rw [Heap.set, if_neg]
    rw [Heap.grow_nelem, hn]
    exact lt_irrefl _
  obtain ⟨d, hd⟩ := hm.full _ hfather.2 hfather.1
  have hget : h.grow.get (father h.grow.nelem) = some (some d) := by
    rw [Heap.get_of_lt _ (lt_of_le_of_lt hfather.1 hm.inside), Heap.grow_array, hd]
  have hrun : insertLoop timerValue k (h.grow.nelem + 1) h.grow h.grow.nelem = none := by
    simp only [insertLoop, hget, hlast, isMin_some, Option.bind_eq_bind, Option.bind_some,
      Option.bind_none]
    split
    · split <;> rfl
    · rfl
  simp only [heapInsert, if_neg hadmit, hrun, Option.bind_eq_bind, Option.bind_none]

variable (timerValue) in
theorem removesMin (hm : MinHeap timerValue h) : RemovesMin timerValue h := by
  unfold RemovesMin
  by_cases hzero : h.nelem = 0
  · rw [if_pos hzero]
    simp [heapRemoveMin, hzero]
  rw [if_neg hzero]
  have hpos : h.nelem > 0 := Nat.pos_of_ne_zero hzero
  obtain ⟨m, hm1⟩ := hm.full 1 (le_refl 1) hpos
  obtain ⟨h', hrun, hnelem, hbag, ho⟩ :=
    moveLast_bag timerValue hm.full hm.inside (le_refl 1) hpos hm1
  have hinside : h'.nelem < heapMaxNelem := by
    have := hm.inside
    omega
  have hord : h'.IsOrdered timerValue := ho hm.ordered fun h2 _ => by omega
  refine ⟨h', m, ?_, ⟨hinside, hm.full.of_rest hbag, hord⟩, hbag, fun d hd => ?_⟩
  · have hsize : 1 < heapConf.size := Nat.succ_lt_succ (Nat.succ_pos 31)
    simp only [heapRemoveMin, if_pos hpos, Heap.get_of_lt h hsize, hm1, hrun, Option.bind_eq_bind,
      Option.bind_some, Option.pure_def]
  · obtain ⟨i, hi, hin, harray⟩ := mem_bag.mp hd
    have hle := HeapOrder.Ordered.root hm.ordered i hi hin
    rwa [Function.comp_apply, Function.comp_apply, hm1, harray] at hle

variable [DecidableEq D]

theorem search_first (hm : MinHeap timerValue h) (hk : some k ∈ h.bag) :
    ∃ i, searchFrom h k h.nelem 1 = some i ∧ 1 ≤ i ∧ i ≤ h.nelem ∧ h.array i = some k ∧
      ∀ j < i, 1 ≤ j → h.array j ≠ some k := by
  have hinside : 1 + h.nelem ≤ heapConf.size := by
    rw [Nat.add_comm]
    exact hm.inside
  obtain ⟨i, hrun, hi, hin, hfound, hbefore⟩ := searchFrom_spec (k := k) h.nelem 1 hinside
  obtain ⟨m, hm1, hmn, hmk⟩ := mem_bag.mp hk
  have him : i ≤ m := by
    by_contra hlt
    exact hbefore m hm1 (by omega) hmk
  exact ⟨i, hrun, hi, him.trans hmn, hfound (by omega), fun j hj h1 => hbefore j h1 hj⟩

variable (timerValue) in
theorem removesElement_iff (hm : MinHeap timerValue h) (hk : some k ∈ h.bag) :
    RemovesElement timerValue h k ↔ FirstFits timerValue h k := by
  obtain ⟨i, hsearch, hi, hin, hik, hfirst⟩ := search_first hm hk
  obtain ⟨h', hrun, hnelem, hbag, ho⟩ := takeOut_bag timerValue hm.full hm.inside hi hin hik
  have hremove : heapRemoveElement timerValue h k = some (h', 0) := by
    simp only [heapRemoveElement, hsearch, Option.bind_eq_bind, Option.bind_some, if_pos hin, hrun,
      Option.pure_def]
  constructor
  · rintro ⟨h'', hremove', hm', -⟩ j hjn hj hjk hjfirst
    obtain rfl : h'' = h' := by simpa [hremove] using hremove'.symm
    obtain rfl : j = i := by
      rcases Nat.lt_trichotomy j i with hlt | heq | hgt
      · exact absurd hjk (hfirst j hlt hj)
      · exact heq
      · exact absurd hik (hjfirst i hgt hi)
    by_contra hfit
    exact takeOut_unfit timerValue hm.full hm.ordered hm.inside hi hin hfit hrun hm'.ordered
  · intro hfits
    have hinside : h'.nelem < heapMaxNelem := by
      have := hm.inside
      omega
    have hord : h'.IsOrdered timerValue := ho hm.ordered (hfits i hin hi hik hfirst)
    exact ⟨h', hremove, ⟨hinside, hm.full.of_rest hbag, hord⟩, hbag⟩

/-- `HEAP_remove_min` keeps its law on every min-heap, `HEAP_insert` where the array
has room, and `HEAP_remove_element` where the last timer fits under the hole's
father. -/
theorem heap_laws (timerValue : D → Int) (h : Heap D) (hm : MinHeap timerValue h) :
    (∀ k, Inserts timerValue h k ↔ h.nelem < maxTimers) ∧ RemovesMin timerValue h ∧
      ∀ k, some k ∈ h.bag → (RemovesElement timerValue h k ↔ FirstFits timerValue h k) :=
  ⟨inserts_iff timerValue hm, removesMin timerValue hm, fun _ => removesElement_iff timerValue hm⟩

end

-- ---------------------------------------------------------------------------
-- A last timer that is before its new father
-- ---------------------------------------------------------------------------

def heapOf (timers : List Int) : Heap Int where
  array i := if i = 0 then none else timers[i - 1]?
  nelem := timers.length

def shallow : Heap Int := heapOf [1, 4, 2]

/-- The last timer, 4, is below 2. -/
def lopsided : Heap Int := heapOf [1, 10, 2, 11, 12, 3, 4]

theorem shallow_minHeap : MinHeap id shallow where
  inside := by decide
  full i hi hin := by
    have hlen : i ≤ 3 := hin
    interval_cases i <;> exact ⟨_, rfl⟩
  ordered i hi hin := by
    have hlen : i ≤ 3 := hin
    interval_cases i <;> decide

theorem lopsided_minHeap : MinHeap id lopsided where
  inside := by decide
  full i hi hin := by
    have hlen : i ≤ 7 := hin
    interval_cases i <;> exact ⟨_, rfl⟩
  ordered i hi hin := by
    have hlen : i ≤ 7 := hin
    interval_cases i <;> decide

theorem heap_laws_shallow : Inserts id shallow 3 ∧ RemovesMin id shallow ∧
    RemovesElement id shallow 4 := by
  obtain ⟨hinsert, hmin, hremove⟩ := heap_laws id shallow shallow_minHeap
  refine ⟨(hinsert 3).mpr (by decide), hmin, (hremove 4 ?_).mpr fun i hin hi _ _ => ?_⟩
  · exact mem_bag.mpr ⟨2, by decide, by decide, rfl⟩
  · have hlen : i ≤ 3 := hin
    interval_cases i <;> decide

/-- With 11 removed, 4 stands below 10. -/
theorem heap_broken : MinHeap id lopsided ∧ some 11 ∈ lopsided.bag ∧
    (∃ h', heapRemoveElement id lopsided 11 = some (h', 0) ∧ h'.array 2 = some 10 ∧
      h'.array 4 = some 4 ∧ ¬h'.IsOrdered id) ∧ ¬RemovesElement id lopsided 11 := by
  have hrun : ∃ h', heapRemoveElement id lopsided 11 = some (h', 0) ∧ h'.array 2 = some 10 ∧
      h'.array 4 = some 4 ∧ h'.nelem = 6 := ⟨_, rfl, rfl, rfl, rfl⟩
  obtain ⟨h', hremove, hfather, hplace, hnelem⟩ := hrun
  have hbroken : ¬h'.IsOrdered id := by
    intro ho
    have hle := ho 4 (by decide) (by omega)
    simp [hfather, hplace] at hle
  refine ⟨lopsided_minHeap, mem_bag.mpr ⟨4, by decide, by decide, rfl⟩,
    ⟨h', hremove, hfather, hplace, hbroken⟩, ?_⟩
  rintro ⟨h'', hremove', hm, -⟩
  rw [hremove, Option.some.injEq, Prod.mk.injEq] at hremove'
  exact hbroken (hremove'.1 ▸ hm.ordered)

end Xmertl.Partikle
