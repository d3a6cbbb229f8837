import Xmertl.Common.Heap

/-!
# The timer heap of PaRTiKle

The functions of `heap.c` in which it differs from XtratuM's.
-/

namespace Xmertl.Partikle

open HeapOrder

def maxTimers : Nat := 32

def heapMaxNelem : Nat := maxTimers + 1

def heapConf : HeapConf where
  size := heapMaxNelem
  looksRight := fun nelem child => child + 1 ≤ nelem
  looks := fun h => decide_eq_true h

theorem heapConf_size : heapConf.size = heapMaxNelem := rfl

abbrev Heap (D : Type) := Xmertl.Heap heapConf D

section
variable {D : Type} [DecidableEq D] (timerValue : D → Int)

def heapInsert (h : Heap D) (k : D) : Option (Heap D × Int) := do
  if h.nelem + 1 > heapMaxNelem then return (h, -1)
  let h := h.grow
  return (← insertLoop timerValue k (h.nelem + 1) h h.nelem, 0)

def heapRemoveElement (h : Heap D) (k : D) : Option (Heap D × Int) := do
  let i ← searchFrom h k h.nelem 1
  if i ≤ h.nelem then return (← takeOut timerValue h i, 0)
  else return (h, -1)

end

section
variable {D : Type} {timerValue : D → Int} {h : Heap D} {s : Set D} {k : D}

variable (timerValue) in
theorem heapInsert_spec (hs : h.Contains s) (hk : k ∉ s) (hn : h.nelem + 1 < heapMaxNelem) :
    ∃ h', heapInsert timerValue h k = some (h', 0) ∧ h'.nelem = h.nelem + 1 ∧
      h'.Contains (insert k s) ∧ (h.IsOrdered timerValue → h'.IsOrdered timerValue) := by
  obtain ⟨h', hrun, hspec⟩ := insertLoop_last timerValue hs hk hn
  refine ⟨h', ?_, hspec⟩
  simp only [heapInsert, if_neg (by omega : ¬h.nelem + 1 > heapMaxNelem), hrun,
    Option.bind_eq_bind, Option.bind_some, Option.pure_def]

variable [DecidableEq D]

variable (timerValue) in
theorem heapRemoveElement_absent (hs : h.Contains s) (hk : k ∉ s) (hn : h.nelem < heapMaxNelem) :
    heapRemoveElement timerValue h k = some (h, -1) := by
  have hrun := search_absent hs hk hn
  have hlast : ¬h.nelem + 1 ≤ h.nelem := by omega
  simp only [heapRemoveElement, hrun, Option.bind_eq_bind, Option.bind_some, if_neg hlast,
    Option.pure_def]

variable (timerValue) in
theorem heapRemoveElement_present (hs : h.Contains s) (hk : k ∈ s) (hn : h.nelem < heapMaxNelem) :
    ∃ h', heapRemoveElement timerValue h k = some (h', 0) ∧ h'.nelem = h.nelem - 1 ∧
      h'.Contains (s \ {k}) := by
  obtain ⟨j, hrun, hj, hjn, hjk⟩ := search_present hs hk hn
  obtain ⟨h', htake, hnelem, hs', -⟩ := takeOut_spec timerValue hs hn hj hjn hjk
  refine ⟨h', ?_, hnelem, hs'⟩
  simp only [heapRemoveElement, hrun, Option.bind_eq_bind, Option.bind_some, if_pos hjn, htake,
    Option.pure_def]

end

end Xmertl.Partikle
