import Xmertl.Common.Heap

/-!
# The timer heap of XtratuM

The functions of `heap.c` in which it differs from PaRTiKle's: `HEAP_insert` takes
a timer out before it puts it in, `HEAP_remove_element` and `heapify` look at the
place after the last.
-/

namespace Xmertl.Xtratum

open HeapOrder

def heapMaxNelem : Nat := 100

def heapConf : HeapConf where
  size := heapMaxNelem
  looksRight := fun _ _ => true
  looks := fun _ => rfl

theorem heapConf_size : heapConf.size = heapMaxNelem := rfl

abbrev Heap (D : Type) := Xmertl.Heap heapConf D

section
variable {D : Type} [DecidableEq D] (hwtime : D → Int)

def heapRemoveElement (h : Heap D) (k : D) : Option (Heap D × Int) := do
  let i ← searchFrom h k h.nelem 1
  if (← h.get i) ≠ some k then return (h, -1)
  if i ≤ h.nelem then return (← takeOut hwtime h i, 0)
  else return (h, -1)

def heapInsert (h : Heap D) (k : D) : Option (Heap D × Int) := do
  if h.nelem + 1 > heapMaxNelem then return (h, -1)
  let (h, _) ← heapRemoveElement hwtime h k
  let h := h.grow
  return (← insertLoop hwtime k (h.nelem + 1) h h.nelem, 0)

end

section
variable {D : Type} [DecidableEq D] {hwtime : D → Int} {h : Heap D} {s : Set D} {k : D}

variable (hwtime) in
theorem heapRemoveElement_absent (hs : h.Contains s) (hk : k ∉ s)
    (hn : h.nelem + 1 < heapMaxNelem) : heapRemoveElement hwtime h k = some (h, -1) := by
  have hsize := heapConf_size
  have hrun := search_absent hs hk (by omega)
  have hlast : ¬h.nelem + 1 ≤ h.nelem := by omega
  simp only [heapRemoveElement, hrun, Option.bind_eq_bind, Option.bind_some,
    Heap.get_of_lt h (by omega : h.nelem + 1 < heapConf.size), if_neg hlast]
  split <;> rfl

variable (hwtime) in
theorem heapRemoveElement_present (hs : h.Contains s) (hk : k ∈ s) (hn : h.nelem < heapMaxNelem) :
    ∃ h', heapRemoveElement hwtime h k = some (h', 0) ∧ h'.nelem = h.nelem - 1 ∧
      h'.Contains (s \ {k}) ∧
      (h.IsOrdered hwtime → h.MovesWell hwtime k → h'.IsOrdered hwtime) := by
  have hsize := heapConf_size
  obtain ⟨j, hrun, hj, hjn, hjk⟩ := search_present hs hk (by omega)
  obtain ⟨h', htake, hspec⟩ := takeOut_spec hwtime hs (by omega) hj hjn hjk
  refine ⟨h', ?_, hspec⟩
  simp only [heapRemoveElement, hrun, Option.bind_eq_bind, Option.bind_some,
    Heap.get_of_lt h (by omega : j < heapConf.size), hjk, ne_eq, not_true, if_false, if_pos hjn,
    htake, Option.pure_def]

theorem heapInsert_eq {h₁ h' : Heap D} {r : Int} (hn : h.nelem + 1 ≤ heapMaxNelem)
    (hremove : heapRemoveElement hwtime h k = some (h₁, r))
    (hinsert : insertLoop hwtime k (h₁.grow.nelem + 1) h₁.grow h₁.grow.nelem = some h') :
    heapInsert hwtime h k = some (h', 0) := by
  simp only [heapInsert, if_neg (not_lt.mpr hn), hremove, hinsert, Option.bind_eq_bind,
    Option.bind_some, Option.pure_def]

variable (hwtime) in
theorem heapInsert_absent (hs : h.Contains s) (hk : k ∉ s) (hn : h.nelem + 1 < heapMaxNelem) :
    ∃ h', heapInsert hwtime h k = some (h', 0) ∧ h'.nelem = h.nelem + 1 ∧
      h'.Contains (insert k s) ∧ (h.IsOrdered hwtime → h'.IsOrdered hwtime) := by
  have hsize := heapConf_size
  obtain ⟨h', hrun, hnelem, hs', ho⟩ := insertLoop_last hwtime hs hk hn
  exact ⟨h', heapInsert_eq (by omega) (heapRemoveElement_absent hwtime hs hk hn) hrun, hnelem, hs',
    ho⟩

variable (hwtime) in
theorem heapInsert_present (hs : h.Contains s) (hk : k ∈ s) (hn : h.nelem < heapMaxNelem) :
    ∃ h₁ h', heapRemoveElement hwtime h k = some (h₁, 0) ∧ heapInsert hwtime h k = some (h', 0) ∧
      heapInsert hwtime h₁ k = some (h', 0) ∧ h'.nelem = h.nelem ∧ h'.Contains s ∧
      (h.IsOrdered hwtime → h.MovesWell hwtime k → h'.IsOrdered hwtime) := by
  have hsize := heapConf_size
  obtain ⟨h₁, hremove, hnelem₁, hs₁, ho₁⟩ := heapRemoveElement_present hwtime hs hk hn
  have hpos : 0 < h.nelem := by
    obtain ⟨i, hi, hin, -⟩ := hs.place hk
    omega
  have hk₁ : k ∉ s \ {k} := fun hk => hk.2 rfl
  have hn₁ : h₁.nelem + 1 < heapMaxNelem := by omega
  obtain ⟨h', hrun, hnelem, hs', ho⟩ := insertLoop_last hwtime hs₁ hk₁ hn₁
  refine ⟨h₁, h', hremove, heapInsert_eq (by omega) hremove hrun, ?_, by omega, ?_,
    fun hord hfit => ho (ho₁ hord hfit)⟩
  · exact heapInsert_eq (by omega) (heapRemoveElement_absent hwtime hs₁ hk₁ hn₁) hrun
  · rwa [Set.insert_sdiff_singleton, Set.insert_eq_of_mem hk] at hs'

variable (hwtime) in
/-- With 99 domains in the heap, one more is looked for and written behind the array. -/
theorem heapRemoveElement_full (hs : h.Contains s) (hk : k ∉ s) (hn : h.nelem + 1 = heapMaxNelem) :
    heapRemoveElement hwtime h k = none := by
  have hsize := heapConf_size
  have hrun := search_absent hs hk (by omega)
  simp [heapRemoveElement, hrun, Heap.get, hn, hsize]

variable (hwtime) in
theorem heapInsert_full (hs : h.Contains s) (hk : k ∉ s) (hn : h.nelem + 1 = heapMaxNelem) :
    heapInsert hwtime h k = none := by
  have hsize := heapConf_size
  simp [heapInsert, hn, heapRemoveElement_full hwtime hs hk hn]

end

end Xmertl.Xtratum
