import Xmertl.Lib.HeapOrder

/-!
# Timer heaps

What the `heap.c` of XtratuM and that of PaRTiKle share. The element type `T` is
a pointer, an `Option` with `none` for NULL, and `key` gives each timer's expiry
time. A function's result is `none` when it reads or writes outside `array` or
looks behind a NULL pointer, and when a loop gets more rounds than it may take.
-/

namespace Xmertl

open HeapOrder

/-- The places of `array`, and whether `heapify` looks at the right child. -/
structure HeapConf where
  size : Nat
  looksRight : (nelem child : Nat) → Bool
  looks : ∀ {nelem child}, child + 1 ≤ nelem → looksRight nelem child = true

structure Heap (c : HeapConf) (D : Type) where
  array : Nat → Option D
  nelem : Nat

section
variable {c : HeapConf} {D : Type} (key : D → Int)

def Heap.get (h : Heap c D) (i : Nat) : Option (Option D) :=
  if i < c.size then some (h.array i) else none

def Heap.put (h : Heap c D) (i : Nat) (p : Option D) : Heap c D :=
  { h with array := Function.update h.array i p }

def Heap.set (h : Heap c D) (i : Nat) (p : Option D) : Option (Heap c D) :=
  if i < c.size then some (h.put i p) else none

/-- `++nelem`. -/
def Heap.grow (h : Heap c D) : Heap c D := { h with nelem := h.nelem + 1 }

def isMin (n1 n2 : Option D) : Option Bool := do
  let d1 ← n1
  let d2 ← n2
  return key d1 < key d2

def heapInit (h : Heap c D) : Heap c D := { h with nelem := 0 }

def heapMin (h : Heap c D) : Option (Option D) := if h.nelem > 0 then h.get 1 else some none

/-- The child that a round of `heapify` looks at. -/
def leastChild (h : Heap c D) (child : Nat) : Option Nat := do
  if c.looksRight h.nelem child then
    if ← isMin key (← h.get (child + 1)) (← h.get child) then return child + 1
  return child

def heapifyLoop (tempvalue : Option D) : Nat → Heap c D → Nat → Nat → Option (Heap c D)
  | 0, _, _, _ => none
  | fuel + 1, h, top, child =>
    if child ≤ h.nelem then do
      let child ← leastChild key h child
      if ← isMin key tempvalue (← h.get child) then return h
      let h ← h.set top (← h.get child)
      let h ← h.set child tempvalue
      heapifyLoop tempvalue fuel h child (2 * child)
    else some h

def heapify (h : Heap c D) (top : Nat) : Option (Heap c D) := do
  let tempvalue ← h.get top
  heapifyLoop key tempvalue (h.nelem + 1) h top (2 * top)

/-- `array[i] = array[nelem--]; heapify(heap, i)`. -/
def moveLast (h : Heap c D) (i : Nat) : Option (Heap c D) := do
  let h' ← h.set i (← h.get h.nelem)
  heapify key { h' with nelem := h.nelem - 1 } i

def heapRemoveMin (h : Heap c D) : Option (Heap c D × Option D) := do
  if h.nelem > 0 then
    let min ← h.get 1
    return (← moveLast key h 1, min)
  else return (h, none)

/-- The search of `HEAP_remove_element`, with `n` places to go. -/
def searchFrom [DecidableEq D] (h : Heap c D) (k : D) : Nat → Nat → Option Nat
  | 0, i => some i
  | n + 1, i => do
    if (← h.get i) = some k then return i
    searchFrom h k n (i + 1)

def takeOut (h : Heap c D) (i : Nat) : Option (Heap c D) :=
  if h.nelem > 1 then moveLast key h i else { h with nelem := 0 }.set i none

def father (i : Nat) : Nat := i / 2

/-- The loop of `HEAP_insert`, and its last write. -/
def insertLoop (k : D) : Nat → Heap c D → Nat → Option (Heap c D)
  | 0, _, _ => none
  | fuel + 1, h, i => do
    if i > 1 then
      if ← isMin key k (← h.get (father i)) then
        let h ← h.set i (← h.get (father i))
        return ← insertLoop k fuel h (father i)
    h.set i k

def keyOf (p : Option D) : Int := (p.map key).getD 0

def Heap.IsOrdered (h : Heap c D) : Prop := Ordered (keyOf key ∘ h.array) h.nelem

def Heap.elems (h : Heap c D) : Set D := { d | ∃ i, 1 ≤ i ∧ i ≤ h.nelem ∧ h.array i = some d }

/-- The places in use hold the timers of `s`, each once. -/
def Heap.Contains (h : Heap c D) (s : Set D) : Prop := Holds h.array h.nelem (some '' s)

/-- Where the last element takes place `i`, it is not before the father there. -/
def Heap.Fits (h : Heap c D) (i : Nat) : Prop :=
  2 ≤ i → i < h.nelem → keyOf key (h.array (i / 2)) ≤ keyOf key (h.array h.nelem)

/-- The timer that takes the place of `k` is not before the father of that place. -/
def Heap.MovesWell (h : Heap c D) (k : D) : Prop :=
  ∀ i < h.nelem, h.array i = some k → h.Fits key i

instance (h : Heap c D) (i : Nat) : Decidable (h.Fits key i) :=
  inferInstanceAs (Decidable (_ → _ → _ ≤ _))

instance [DecidableEq D] (h : Heap c D) (k : D) : Decidable (h.MovesWell key k) :=
  Nat.decidableBallLT ..

instance [DecidableEq D] (h : Heap c D) (d : D) : Decidable (d ∈ h.elems) :=
  decidable_of_iff (∃ i < h.nelem + 1, 1 ≤ i ∧ h.array i = some d)
    ⟨fun ⟨i, hin, hi, hd⟩ => ⟨i, hi, Nat.lt_succ_iff.mp hin, hd⟩,
      fun ⟨i, hi, hin, hd⟩ => ⟨i, Nat.lt_succ_iff.mpr hin, hi, hd⟩⟩

end

-- ---------------------------------------------------------------------------
-- Reads and writes in bounds
-- ---------------------------------------------------------------------------

section
variable {c : HeapConf} {D : Type} {key : D → Int} {h : Heap c D} {s : Set D} {i top : Nat}
  {k t : D} {h' : Heap c D}

theorem Heap.get_of_lt (h : Heap c D) (hi : i < c.size) : h.get i = some (h.array i) := by
  simp [Heap.get, hi]

theorem Heap.set_of_lt (h : Heap c D) (p : Option D) (hi : i < c.size) :
    h.set i p = some (h.put i p) := by
  simp [Heap.set, hi]

@[simp] theorem Heap.put_nelem (h : Heap c D) (i : Nat) (p : Option D) :
    (h.put i p).nelem = h.nelem := rfl

@[simp] theorem Heap.put_same (h : Heap c D) (i : Nat) (p : Option D) :
    (h.put i p).array i = p := Function.update_self ..

theorem Heap.put_other (h : Heap c D) (p : Option D) {j : Nat} (hj : j ≠ i) :
    (h.put i p).array j = h.array j := Function.update_of_ne hj ..

@[simp] theorem Heap.grow_nelem (h : Heap c D) : h.grow.nelem = h.nelem + 1 := rfl

@[simp] theorem Heap.grow_array (h : Heap c D) : h.grow.array = h.array := rfl

@[simp] theorem isMin_some (d1 d2 : D) :
    isMin key (some d1) (some d2) = some (decide (key d1 < key d2)) := rfl

@[simp] theorem keyOf_some (d : D) : keyOf key (some d) = key d := rfl

theorem Heap.Contains.timer (hs : h.Contains s) (hi : 1 ≤ i) (hn : i ≤ h.nelem) :
    ∃ d ∈ s, h.array i = some d := by
  obtain ⟨d, hd, he⟩ := Holds.mem hs hi hn
  exact ⟨d, hd, he.symm⟩

theorem Heap.Contains.elems_eq (hs : h.Contains s) : h.elems = s := by
  ext d
  constructor
  · rintro ⟨i, hi, hin, harray⟩
    obtain ⟨d', hd', he⟩ := hs.timer hi hin
    obtain rfl : d = d' := Option.some.inj (harray.symm.trans he)
    exact hd'
  · intro hd
    exact Holds.place hs (Set.mem_image_of_mem _ hd)

theorem Heap.Contains.place (hs : h.Contains s) (hk : k ∈ s) :
    ∃ i, 1 ≤ i ∧ i ≤ h.nelem ∧ h.array i = some k :=
  Holds.place hs (Set.mem_image_of_mem _ hk)

theorem Heap.Contains.nelem_eq (hs : h.Contains s) : h.nelem = s.ncard := by
  rw [Holds.card hs, Set.ncard_image_of_injective s (Option.some_injective D)]

theorem Heap.IsOrdered.congr {key' : D → Int} (ho : h.IsOrdered key) (hs : h.Contains s)
    (hk : ∀ d ∈ s, key' d = key d) : h.IsOrdered key' := by
  have hkey : ∀ j, 1 ≤ j → j ≤ h.nelem →
      (keyOf key' ∘ h.array) j = (keyOf key ∘ h.array) j := by
    intro j hj hjn
    obtain ⟨d, hd, harray⟩ := hs.timer hj hjn
    simp [harray, hk d hd]
  intro i hi hin
  rw [hkey i (by omega) hin, hkey (i / 2) (by omega) (by omega)]
  exact ho i hi hin

theorem Heap.Contains.nonempty_iff (hs : h.Contains s) : 0 < h.nelem ↔ s.Nonempty := by
  constructor
  · intro hpos
    obtain ⟨d, hd, -⟩ := hs.timer (le_refl 1) hpos
    exact ⟨d, hd⟩
  · rintro ⟨d, hd⟩
    obtain ⟨i, hi, hin, -⟩ := hs.place hd
    omega

-- ---------------------------------------------------------------------------
-- Sifting down
-- ---------------------------------------------------------------------------

def Heap.swap (h : Heap c D) (i j : Nat) : Heap c D := { h with array := h.array ∘ Equiv.swap i j }

@[simp] theorem Heap.swap_nelem (h : Heap c D) (i j : Nat) : (h.swap i j).nelem = h.nelem := rfl

@[simp] theorem Heap.swap_array (h : Heap c D) (i j : Nat) :
    (h.swap i j).array = h.array ∘ Equiv.swap i j := rfl

theorem Heap.Contains.swap (hs : h.Contains s) (hi : 1 ≤ i) (hin : i ≤ h.nelem) (hj : 1 ≤ j)
    (hjn : j ≤ h.nelem) : (h.swap i j).Contains s :=
  Holds.swap hs ⟨hi, hin⟩ ⟨hj, hjn⟩

theorem Heap.swap_same (h : Heap c D) {i j : Nat} (he : h.array i = h.array j) :
    h.swap i j = h := by
  have hcomp : h.array ∘ Equiv.swap i j = h.array := by
    rw [Equiv.comp_swap_eq_update, he, Function.update_eq_self, ← he, Function.update_eq_self]
  simp [Heap.swap, hcomp]

theorem Heap.swap_eq (h : Heap c D) (i j : Nat) :
    h.swap i j = (h.put i (h.array j)).put j (h.array i) := by
  rw [Heap.swap, Heap.put, Heap.put, Equiv.swap_comm, Equiv.comp_swap_eq_update]

variable (key) in
/-- The place after the last still holds the value on its way down, so that a round
may look there. -/
theorem leastChild_spec (hn : h.nelem + 1 < c.size) (htop : 1 ≤ top) (hchild : 2 * top ≤ h.nelem)
    (hs : h.Contains s) (hlast : h.array (h.nelem + 1) = some t) :
    ∃ child d, leastChild key h (2 * top) = some child ∧
      (child = 2 * top ∨ child = 2 * top + 1) ∧ h.array child = some d ∧
      ∀ i, 2 ≤ i → i ≤ h.nelem → i / 2 = top → key d ≤ keyOf key (h.array i) := by
  obtain ⟨l, -, hl⟩ := hs.timer (by omega) hchild
  obtain ⟨r, hr⟩ : ∃ r, h.array (2 * top + 1) = some r := by
    by_cases hright : 2 * top + 1 ≤ h.nelem
    · obtain ⟨r, -, hr⟩ := hs.timer (by omega) hright
      exact ⟨r, hr⟩
    · have heq : 2 * top + 1 = h.nelem + 1 := by omega
      exact ⟨t, heq ▸ hlast⟩
  have hl' := Heap.get_of_lt h (by omega : 2 * top < c.size)
  have hr' := Heap.get_of_lt h (by omega : 2 * top + 1 < c.size)
  cases hlooks : c.looksRight h.nelem (2 * top) with
  | false =>
    refine ⟨2 * top, l, by simp [leastChild, hlooks], .inl rfl, hl, fun i hi hin hit => ?_⟩
    have hlast : ¬2 * top + 1 ≤ h.nelem := fun hle => by simp [c.looks hle] at hlooks
    obtain rfl : i = 2 * top := by omega
    rw [hl, keyOf_some]
  | true =>
    by_cases hrl : key r < key l
    · refine ⟨2 * top + 1, r, by simp [leastChild, hlooks, hl', hr', hl, hr, hrl], .inr rfl, hr,
        fun i hi hin hit => ?_⟩
      obtain rfl | rfl : i = 2 * top ∨ i = 2 * top + 1 := by omega
      · rw [hl, keyOf_some]
        exact le_of_lt hrl
      · rw [hr, keyOf_some]
    · refine ⟨2 * top, l, by simp [leastChild, hlooks, hl', hr', hl, hr, hrl], .inl rfl, hl,
        fun i hi hin hit => ?_⟩
      obtain rfl | rfl : i = 2 * top ∨ i = 2 * top + 1 := by omega
      · rw [hl, keyOf_some]
      · rw [hr, keyOf_some]
        exact not_lt.mp hrl

variable (key) in
theorem heapifyLoop_round (fuel : Nat) (hn : h.nelem + 1 < c.size) (htop : 1 ≤ top)
    (hchild : 2 * top ≤ h.nelem) (hs : h.Contains s) (ht : h.array top = some t)
    (hlast : h.array (h.nelem + 1) = some t) :
    ∃ child d, (child = 2 * top ∨ child = 2 * top + 1) ∧ h.array child = some d ∧
      (∀ i, 2 ≤ i → i ≤ h.nelem → i / 2 = top → key d ≤ keyOf key (h.array i)) ∧
      heapifyLoop key (some t) (fuel + 1) h top (2 * top) =
        if key t < key d then some h
        else heapifyLoop key (some t) fuel (h.swap top child) child (2 * child) := by
  obtain ⟨child, d, hleast, hplace, hd, hmin⟩ := leastChild_spec key hn htop hchild hs hlast
  refine ⟨child, d, hplace, hd, hmin, ?_⟩
  have hbound : child < c.size := by omega
  simp only [heapifyLoop, if_pos hchild, hleast, Heap.get_of_lt h hbound, hd, isMin_some,
    Option.bind_eq_bind, Option.bind_some, decide_eq_true_eq, Option.pure_def]
  rw [Heap.set_of_lt _ _ (by omega), Option.bind_some, Heap.set_of_lt _ _ hbound,
    Option.bind_some, Heap.swap_eq, hd, ht]

variable (key) in
theorem heapifyLoop_spec (fuel : Nat) (h : Heap c D) (top : Nat) (hn : h.nelem + 1 < c.size)
    (htop : 1 ≤ top) (hin : top ≤ h.nelem + 1) (hfuel : h.nelem + 1 < fuel + top)
    (hs : h.Contains s) (ht : h.array top = some t) (hlast : h.array (h.nelem + 1) = some t) :
    ∃ h', heapifyLoop key (some t) fuel h top (2 * top) = some h' ∧ h'.nelem = h.nelem ∧
      h'.Contains s ∧
      (Sinking (keyOf key ∘ h.array) h.nelem top → h'.IsOrdered key) := by
  induction fuel generalizing h top with
  | zero => omega
  | succ fuel ih =>
    by_cases hchild : 2 * top ≤ h.nelem
    case neg =>
      refine ⟨h, by rw [heapifyLoop, if_neg hchild], rfl, hs, fun ho => ?_⟩
      exact ho.done fun i hi hin hit => by omega
    obtain ⟨c, d, hc, hd, hleast, hround⟩ :=
      heapifyLoop_round key fuel hn htop hchild hs ht hlast
    rw [hround]
    by_cases hlt : key t < key d
    · rw [if_pos hlt]
      refine ⟨h, rfl, rfl, hs, fun ho => ho.done fun i hi hin hit => ?_⟩
      rw [Function.comp_apply, ht, keyOf_some]
      exact (le_of_lt hlt).trans (hleast i hi hin hit)
    rw [if_neg hlt]
    by_cases hcn : c ≤ h.nelem
    · have hs' : (h.swap top c).Contains s := hs.swap htop (by omega) (by omega) hcn
      have hlast' : (h.swap top c).array (h.nelem + 1) = some t := by
        rw [Heap.swap_array, comp_swap_other _ (by omega) (by omega), hlast]
      have ht' : (h.swap top c).array c = some t := by
        rw [Heap.swap_array, comp_swap_right, ht]
      obtain ⟨h', hrun, hnelem, hs', ho'⟩ := ih (h.swap top c) c hn (by omega)
        (by rw [Heap.swap_nelem]; omega) (by rw [Heap.swap_nelem]; omega) hs' ht' hlast'
      refine ⟨h', hrun, hnelem, hs', fun ho => ho' ?_⟩
      have hdt : key d ≤ key t := not_lt.mp hlt
      exact ho.swap (by omega) hcn (by omega) (by simpa [hd] using hleast)
        (by simpa [hd, ht] using hdt)
    · -- the value on its way down is exchanged with itself
      have hct : c = h.nelem + 1 := by omega
      obtain rfl : d = t := by simpa [hct, hlast] using hd.symm
      rw [Heap.swap_same h (ht.trans hd.symm)]
      obtain ⟨h', hrun, hnelem, hs', ho'⟩ := ih h c hn (by omega) (by omega) (by omega) hs hd hlast
      refine ⟨h', hrun, hnelem, hs', fun ho => ho' ?_⟩
      have hordered : Ordered (keyOf key ∘ h.array) h.nelem :=
        ho.done fun i hi hin hit => by simpa [ht] using hleast i hi hin hit
      exact hordered.sinking (by omega)

/-- The heap that `heapify` is called on when the last timer `t` has taken place `i`. -/
def Heap.fill (h : Heap c D) (i : Nat) (t : D) : Heap c D :=
  { h.put i (some t) with nelem := h.nelem - 1 }

theorem Heap.fill_last (hi : 1 ≤ i) (hin : i ≤ h.nelem) (ht : h.array h.nelem = some t) :
    (h.fill i t).array ((h.fill i t).nelem + 1) = some t := by
  have hpos : (h.fill i t).nelem + 1 = h.nelem := by
    change h.nelem - 1 + 1 = h.nelem
    omega
  rw [hpos]
  by_cases he : h.nelem = i
  · rw [he]
    exact Function.update_self ..
  · exact (Function.update_of_ne he ..).trans ht

theorem Heap.Contains.fill (hs : h.Contains s) (hi : 1 ≤ i) (hin : i ≤ h.nelem)
    (hk : h.array i = some k) (ht : h.array h.nelem = some t) :
    (h.fill i t).Contains (s \ {k}) := by
  have hremoved := Holds.removeAt hs hi hin
  rw [ht, hk] at hremoved
  rwa [← Set.image_singleton, ← Set.image_sdiff (Option.some_injective D)] at hremoved

variable (key) in
theorem moveLast_eq (hn : h.nelem < c.size) (hin : i ≤ h.nelem) (ht : h.array h.nelem = some t) :
    moveLast key h i =
      heapifyLoop key (some t) ((h.fill i t).nelem + 1) (h.fill i t) i (2 * i) := by
  simp only [moveLast, heapify, Option.bind_eq_bind, Heap.get_of_lt h hn, Option.bind_some,
    Heap.set_of_lt h _ (lt_of_le_of_lt hin hn), Heap.get_of_lt _ (lt_of_le_of_lt hin hn), ht,
    Heap.put_same]
  rfl

variable (key) in
theorem moveLast_spec (hs : h.Contains s) (hn : h.nelem < c.size) (hi : 1 ≤ i)
    (hin : i ≤ h.nelem) (hk : h.array i = some k) :
    ∃ h', moveLast key h i = some h' ∧ h'.nelem = h.nelem - 1 ∧ h'.Contains (s \ {k}) ∧
      (h.IsOrdered key → h.Fits key i → h'.IsOrdered key) := by
  obtain ⟨t, -, ht⟩ := hs.timer (hi.trans hin) (le_refl _)
  have hnelem₁ : (h.fill i t).nelem = h.nelem - 1 := rfl
  obtain ⟨h', hrun, hnelem, hs', ho'⟩ := heapifyLoop_spec key ((h.fill i t).nelem + 1) (h.fill i t)
    i (by omega) hi (by omega) (by omega) (hs.fill hi hin hk ht) (Function.update_self ..)
    (Heap.fill_last hi hin ht)
  refine ⟨h', (moveLast_eq key hn hin ht).trans hrun, hnelem, hs', fun ho hfit => ho' ?_⟩
  have hsink := Ordered.removeAt ho hfit
  rwa [Function.comp_apply, ht, ← Function.comp_update] at hsink

variable (key) in
theorem moveLast_unfit (hs : h.Contains s) (ho : h.IsOrdered key) (hn : h.nelem < c.size)
    (hi : 1 ≤ i) (hin : i ≤ h.nelem) (hfit : ¬h.Fits key i) (hrun : moveLast key h i = some h') :
    ¬h'.IsOrdered key := by
  obtain ⟨h2, hlt, hbefore⟩ : 2 ≤ i ∧ i < h.nelem ∧
      keyOf key (h.array h.nelem) < keyOf key (h.array (i / 2)) := by
    simpa [Heap.Fits] using hfit
  obtain ⟨t, -, ht⟩ := hs.timer (hi.trans hin) (le_refl _)
  obtain ⟨k, -, hk⟩ := hs.timer hi hin
  have hfather : i / 2 ≠ i := by omega
  have hti : (h.fill i t).array i = some t := Function.update_self ..
  have hstays : h' = h.fill i t := by
    rw [moveLast_eq key hn hin ht] at hrun
    obtain ⟨fuel, hfuel⟩ : ∃ fuel, (h.fill i t).nelem = fuel + 1 := ⟨h.nelem - 2, by
      change h.nelem - 1 = h.nelem - 2 + 1
      omega⟩
    by_cases hchild : 2 * i ≤ (h.fill i t).nelem
    case neg =>
      rw [heapifyLoop, if_neg hchild] at hrun
      exact (Option.some.inj hrun).symm
    have hnelem : (h.fill i t).nelem = h.nelem - 1 := rfl
    obtain ⟨child, d, hplace, hd, -, hround⟩ := heapifyLoop_round key (fuel + 1) (by omega) hi hchild
      (hs.fill hi hin hk ht) hti (Heap.fill_last hi hin ht)
    rw [hfuel, hround] at hrun
    by_cases hcn : child ≤ (h.fill i t).nelem
    · have hold : (h.fill i t).array child = h.array child := Function.update_of_ne (by omega) ..
      have hdt : key t < key d := by
        have hi' := ho i h2 hin
        have hc' := ho child (by omega) (by omega)
        rw [show child / 2 = i by omega] at hc'
        simp only [Function.comp_apply, ← hold, hd, ht, keyOf_some] at hi' hc' hbefore
        omega
      rw [if_pos hdt] at hrun
      exact (Option.some.inj hrun).symm
    · have hlast : child = (h.fill i t).nelem + 1 := by omega
      obtain rfl : d = t := by
        rw [hlast, Heap.fill_last hi hin ht, Option.some.injEq] at hd
        exact hd.symm
      rw [if_neg (lt_irrefl _), Heap.swap_same _ (hti.trans hd.symm), heapifyLoop,
        if_neg (by omega)] at hrun
      exact (Option.some.inj hrun).symm
  intro ho'
  have hle := ho' i h2 (by rw [hstays]; change i ≤ h.nelem - 1; omega)
  have hfill : (h.fill i t).array (i / 2) = h.array (i / 2) := Function.update_of_ne hfather ..
  rw [hstays, Function.comp_apply, Function.comp_apply, hti, hfill, ← ht] at hle
  omega

-- ---------------------------------------------------------------------------
-- Taking timers out
-- ---------------------------------------------------------------------------

theorem heapRemoveMin_empty (hn : h.nelem = 0) : heapRemoveMin key h = some (h, none) := by
  simp [heapRemoveMin, hn]

variable (key) in
theorem heapRemoveMin_spec (hs : h.Contains s) (hn : h.nelem < c.size) (hpos : 0 < h.nelem) :
    ∃ h' m, heapRemoveMin key h = some (h', some m) ∧ h.array 1 = some m ∧ m ∈ s ∧
      h'.nelem = h.nelem - 1 ∧ h'.Contains (s \ {m}) ∧
      (h.IsOrdered key → h'.IsOrdered key) := by
  obtain ⟨m, hm, harray⟩ := hs.timer (le_refl 1) hpos
  obtain ⟨h', hrun, hnelem, hs', ho⟩ := moveLast_spec key hs hn (le_refl 1) hpos harray
  refine ⟨h', m, ?_, harray, hm, hnelem, hs', fun h => ho h fun h2 => by omega⟩
  simp [heapRemoveMin, hpos, Heap.get_of_lt h (by omega : 1 < c.size), harray, hrun]

theorem Heap.IsOrdered.first (ho : h.IsOrdered key) (hs : h.Contains s)
    (hm : h.array 1 = some k) (ht : t ∈ s) : key k ≤ key t := by
  obtain ⟨i, hi, hin, harray⟩ := hs.place ht
  have hle := Ordered.root ho i hi hin
  rwa [Function.comp_apply, Function.comp_apply, hm, harray] at hle

end

section
variable {c : HeapConf} {D : Type} [DecidableEq D] {key : D → Int} {h : Heap c D} {s : Set D}
  {i : Nat} {k : D}

theorem searchFrom_spec (n i : Nat) (hi : i + n ≤ c.size) :
    ∃ j, searchFrom h k n i = some j ∧ i ≤ j ∧ j ≤ i + n ∧ (j < i + n → h.array j = some k) ∧
      ∀ m, i ≤ m → m < j → h.array m ≠ some k := by
  induction n generalizing i with
  | zero => exact ⟨i, rfl, le_refl i, le_refl i, by omega, by omega⟩
  | succ n ih =>
    by_cases hk : h.array i = some k
    · refine ⟨i, ?_, le_refl i, by omega, fun _ => hk, by omega⟩
      simp [searchFrom, Heap.get_of_lt h (by omega : i < c.size), hk]
    · obtain ⟨j, hrun, hij, hjn, hfound, hbefore⟩ := ih (i + 1) (by omega)
      refine ⟨j, ?_, by omega, by omega, fun hj => hfound (by omega), fun m hm hmj => ?_⟩
      · simpa [searchFrom, Heap.get_of_lt h (by omega : i < c.size), hk] using hrun
      · rcases Nat.eq_or_lt_of_le hm with rfl | hlt
        · exact hk
        · exact hbefore m hlt hmj

theorem search_present (hs : h.Contains s) (hk : k ∈ s) (hn : h.nelem < c.size) :
    ∃ j, searchFrom h k h.nelem 1 = some j ∧ 1 ≤ j ∧ j ≤ h.nelem ∧ h.array j = some k := by
  obtain ⟨j, hrun, hj, hjn, hfound, hbefore⟩ :=
    searchFrom_spec (h := h) (k := k) h.nelem 1 (by omega)
  obtain ⟨i, hi, hin, hik⟩ := hs.place hk
  have hji : j ≤ i := by
    by_contra hlt
    exact hbefore i hi (by omega) hik
  exact ⟨j, hrun, hj, hji.trans hin, hfound (by omega)⟩

theorem search_absent (hs : h.Contains s) (hk : k ∉ s) (hn : h.nelem < c.size) :
    searchFrom h k h.nelem 1 = some (h.nelem + 1) := by
  obtain ⟨j, hrun, hj, hjn, hfound, -⟩ := searchFrom_spec (h := h) (k := k) h.nelem 1 (by omega)
  have hend : ¬j ≤ h.nelem := by
    intro hle
    obtain ⟨d, hd, he⟩ := hs.timer hj hle
    have hdk : some d = some k := he ▸ hfound (by omega)
    exact hk (Option.some.inj hdk ▸ hd)
  obtain rfl : j = h.nelem + 1 := by omega
  exact hrun

omit [DecidableEq D] in
variable (key) in
theorem takeOut_spec (hs : h.Contains s) (hn : h.nelem < c.size) (hi : 1 ≤ i) (hin : i ≤ h.nelem)
    (hk : h.array i = some k) :
    ∃ h', takeOut key h i = some h' ∧ h'.nelem = h.nelem - 1 ∧ h'.Contains (s \ {k}) ∧
      (h.IsOrdered key → h.MovesWell key k → h'.IsOrdered key) := by
  by_cases hone : h.nelem > 1
  · obtain ⟨h', hmove, hnelem, hs', ho⟩ := moveLast_spec key hs hn hi hin hk
    refine ⟨h', by rw [takeOut, if_pos hone, hmove], hnelem, hs', fun hord hfit => ho hord ?_⟩
    exact fun h2 hlt => hfit i hlt hk h2 hlt
  · have hset : s \ {k} = ∅ := by
      rw [Set.sdiff_eq_empty]
      intro d hd
      obtain ⟨m, hm, hmn, hmd⟩ := hs.place hd
      obtain rfl : m = i := by omega
      rw [hk, Option.some.injEq] at hmd
      exact hmd.symm
    refine ⟨Heap.put { h with nelem := 0 } i none, ?_, ?_, ?_, fun _ _ i hi hin => ?_⟩
    · rw [takeOut, if_neg hone, Heap.set_of_lt _ _ (by omega)]
    · change 0 = h.nelem - 1
      omega
    · rw [hset, Heap.Contains, Set.image_empty]
      exact Holds.empty _
    · change i ≤ 0 at hin
      omega

-- ---------------------------------------------------------------------------
-- Putting timers in
-- ---------------------------------------------------------------------------

omit [DecidableEq D] in
variable (key) in
theorem insertLoop_spec (fuel : Nat) (h : Heap c D) (i : Nat) (hn : h.nelem < c.size)
    (hi : 1 ≤ i) (hin : i ≤ h.nelem) (hfuel : i ≤ fuel) (hs : (h.put i (some k)).Contains s) :
    ∃ h', insertLoop key k fuel h i = some h' ∧ h'.nelem = h.nelem ∧ h'.Contains s ∧
      (Rising (keyOf key ∘ (h.put i (some k)).array) h.nelem i → h'.IsOrdered key) := by
  induction fuel generalizing h i with
  | zero => omega
  | succ fuel ih =>
    have hlast : h.set i (some k) = some (h.put i (some k)) := h.set_of_lt _ (by omega)
    rw [insertLoop]
    by_cases hone : i > 1
    case neg =>
      rw [if_neg hone]
      exact ⟨_, hlast, rfl, hs, fun ho => ho.done fun h2 => by omega⟩
    have hne : father i ≠ i := by
      rw [father]
      omega
    have hfather : 1 ≤ father i ∧ father i ≤ h.nelem := by
      rw [father]
      omega
    obtain ⟨d, -, hd⟩ := hs.timer hfather.1 hfather.2
    rw [h.put_other _ hne] at hd
    rw [if_pos hone]
    simp only [Heap.get_of_lt h (by omega : father i < c.size), hd, isMin_some,
      Option.bind_eq_bind, Option.bind_some, decide_eq_true_eq]
    by_cases hlt : key k < key d
    · rw [if_pos hlt, Heap.set_of_lt _ _ (by omega)]
      -- writing `k` at the father now is exchanging it with the father
      have hswap : (h.put i (some d)).put (father i) (some k) =
          (h.put i (some k)).swap i (father i) := by
        rw [Heap.swap_eq, Heap.put_same, h.put_other _ hne, hd]
        simp [Heap.put, Function.update_idem]
      have hs' : ((h.put i (some d)).put (father i) (some k)).Contains s := by
        rw [hswap]
        exact hs.swap hi hin hfather.1 hfather.2
      obtain ⟨h', hrun, hnelem, hs', ho'⟩ := ih (h.put i (some d)) (father i) hn hfather.1
        hfather.2 (by rw [father]; omega) hs'
      refine ⟨h', by simpa using hrun, hnelem, hs', fun ho => ho' ?_⟩
      rw [hswap]
      refine ho.swap hone hin ?_
      change keyOf key _ ≤ keyOf key ((h.put i (some k)).array (father i))
      rw [Heap.put_same, h.put_other _ hne, hd]
      exact le_of_lt hlt
    · rw [if_neg hlt]
      refine ⟨_, hlast, rfl, hs, fun ho => ho.done fun _ => ?_⟩
      change keyOf key ((h.put i (some k)).array (father i)) ≤ keyOf key _
      rw [Heap.put_same, h.put_other _ hne, hd]
      exact not_lt.mp hlt

omit [DecidableEq D] in
variable (key) in
theorem insertLoop_last (hs : h.Contains s) (hk : k ∉ s) (hn : h.nelem + 1 < c.size) :
    ∃ h', insertLoop key k (h.grow.nelem + 1) h.grow h.grow.nelem = some h' ∧
      h'.nelem = h.nelem + 1 ∧ h'.Contains (insert k s) ∧
      (h.IsOrdered key → h'.IsOrdered key) := by
  have hpushed : (h.grow.put h.grow.nelem (some k)).Contains (insert k s) := by
    rw [Heap.Contains, Set.image_insert_eq]
    exact Holds.push hs (by simpa using hk)
  obtain ⟨h', hrun, hnelem, hs', ho'⟩ := insertLoop_spec key (h.grow.nelem + 1) h.grow
    h.grow.nelem hn (by simp) (le_refl _) (by omega) hpushed
  refine ⟨h', hrun, hnelem, hs', fun ho => ho' ?_⟩
  rw [Heap.put, Function.comp_update]
  exact Ordered.push ho _

end

end Xmertl
