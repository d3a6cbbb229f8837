import Mathlib.Data.Finset.Image
import Xmertl.Common.Heap

/-!
# Heaps with the same timer in several places

The operations look at the keys of timers only, so they do the same to a heap
whose timers carry their places as tags. The tags make the timers distinct, and
what `Contains` says of the tagged heap becomes a law of the multiset of the
places in use.
-/

namespace Xmertl

open HeapOrder

namespace Heap

variable {c : HeapConf} {D E : Type}

def bag (h : Heap c D) : Multiset (Option D) := (Finset.Icc 1 h.nelem).val.map h.array

def Full (h : Heap c D) : Prop := ∀ i, 1 ≤ i → i ≤ h.nelem → ∃ d, h.array i = some d

def map (f : D → E) (h : Heap c D) : Heap c E where
  array i := (h.array i).map f
  nelem := h.nelem

def tag (h : Heap c D) : Heap c (Nat × D) where
  array i := (h.array i).map (i, ·)
  nelem := h.nelem

def tags (h : Heap c D) : Set (Nat × D) :=
  { x | 1 ≤ x.1 ∧ x.1 ≤ h.nelem ∧ h.array x.1 = some x.2 }

section
variable {h : Heap c D} {i : Nat} {k d : D}

@[simp] theorem bag_card (h : Heap c D) : Multiset.card h.bag = h.nelem := by simp [bag]

theorem mem_bag : some d ∈ h.bag ↔ ∃ i, 1 ≤ i ∧ i ≤ h.nelem ∧ h.array i = some d := by
  simp [bag, and_assoc]

theorem full_iff : h.Full ↔ ∀ p ∈ h.bag, ∃ d, p = some d := by
  simp only [Full, bag, Multiset.mem_map, Finset.mem_val, Finset.mem_Icc]
  constructor
  · rintro hf p ⟨i, ⟨hi, hin⟩, rfl⟩
    exact hf i hi hin
  · intro hp i hi hin
    exact hp _ ⟨i, ⟨hi, hin⟩, rfl⟩

theorem Full.of_cons {h' : Heap c D} (hf : h.Full) (hb : h'.bag = some k ::ₘ h.bag) : h'.Full := by
  rw [full_iff] at hf ⊢
  intro p hp
  rw [hb, Multiset.mem_cons] at hp
  rcases hp with rfl | hold
  · exact ⟨k, rfl⟩
  · exact hf p hold

theorem Full.of_rest {h' : Heap c D} (hf : h.Full) (hb : h.bag = some k ::ₘ h'.bag) : h'.Full := by
  rw [full_iff] at hf ⊢
  intro p hp
  exact hf p (hb ▸ Multiset.mem_cons_of_mem hp)

-- ---------------------------------------------------------------------------
-- Renaming timers
-- ---------------------------------------------------------------------------

@[simp] theorem map_nelem (f : D → E) (h : Heap c D) : (h.map f).nelem = h.nelem := rfl

@[simp] theorem map_array (f : D → E) (h : Heap c D) (i : Nat) :
    (h.map f).array i = (h.array i).map f := rfl

theorem map_bag (f : D → E) (h : Heap c D) : (h.map f).bag = h.bag.map (Option.map f) :=
  (Multiset.map_map (Option.map f) h.array _).symm

theorem map_grow (f : D → E) (h : Heap c D) : (h.map f).grow = h.grow.map f := rfl

theorem map_get (f : D → E) (h : Heap c D) (i : Nat) :
    (h.map f).get i = (h.get i).map (Option.map f) := by
  unfold get
  split <;> rfl

theorem map_put (f : D → E) (h : Heap c D) (i : Nat) (p : Option D) :
    (h.map f).put i (p.map f) = (h.put i p).map f := by
  have harray : Function.update (h.map f).array i (p.map f) =
      fun j => (Function.update h.array i p j).map f := by
    funext j
    by_cases hj : j = i
    · subst hj
      simp
    · simp [hj]
  simp [put, map, ← harray]

theorem map_set (f : D → E) (h : Heap c D) (i : Nat) (p : Option D) :
    (h.map f).set i (p.map f) = (h.set i p).map (map f) := by
  unfold set
  split
  · simp [map_put]
  · rfl

variable (key : E → Int)

theorem map_isMin (f : D → E) (n1 n2 : Option D) :
    isMin key (n1.map f) (n2.map f) = isMin (key ∘ f) n1 n2 := by
  cases n1 <;> cases n2 <;> rfl

theorem map_leastChild (f : D → E) (h : Heap c D) (child : Nat) :
    leastChild key (h.map f) child = leastChild (key ∘ f) h child := by
  simp only [leastChild, map_nelem, map_get]
  cases h.get (child + 1) <;> cases h.get child <;> simp [map_isMin]

theorem map_heapifyLoop (f : D → E) (t : Option D) (fuel : Nat) (h : Heap c D) (top child : Nat) :
    heapifyLoop key (t.map f) fuel (h.map f) top child =
      (heapifyLoop (key ∘ f) t fuel h top child).map (map f) := by
  induction fuel generalizing h top child with
  | zero => rfl
  | succ fuel ih =>
    simp only [heapifyLoop, map_nelem, map_leastChild]
    split
    · cases leastChild (key ∘ f) h child with
      | none => rfl
      | some least =>
        simp only [map_get, Option.bind_eq_bind, Option.bind_some]
        cases h.get least with
        | none => rfl
        | some p =>
          simp only [Option.map_some, Option.bind_some, map_isMin, map_set]
          cases isMin (key ∘ f) t p with
          | none => rfl
          | some before =>
            cases before with
            | true => rfl
            | false =>
              cases h.set top p with
              | none => rfl
              | some h₁ =>
                simp only [Option.map_some, Option.bind_some, map_set]
                cases h₁.set least t with
                | none => rfl
                | some h₂ => exact ih h₂ least (2 * least)
    · rfl

theorem map_moveLast (f : D → E) (h : Heap c D) (i : Nat) :
    moveLast key (h.map f) i = (moveLast (key ∘ f) h i).map (map f) := by
  simp only [moveLast, map_nelem, map_get]
  cases h.get h.nelem with
  | none => rfl
  | some p =>
    simp only [Option.map_some, Option.bind_eq_bind, Option.bind_some, map_set]
    cases h.set i p with
    | none => rfl
    | some h₁ =>
      have hless : ({ h₁.map f with nelem := h.nelem - 1 } : Heap c E) =
          map f { h₁ with nelem := h.nelem - 1 } := rfl
      simp only [Option.map_some, Option.bind_some, hless, heapify, map_get]
      cases Heap.get { h₁ with nelem := h.nelem - 1 } i with
      | none => rfl
      | some t => exact map_heapifyLoop key f t _ _ _ _

theorem map_takeOut (f : D → E) (h : Heap c D) (i : Nat) :
    takeOut key (h.map f) i = (takeOut (key ∘ f) h i).map (map f) := by
  simp only [takeOut, map_nelem, map_moveLast]
  split
  · rfl
  · exact map_set f { h with nelem := 0 } i none

theorem map_insertLoop (f : D → E) (k : D) (fuel : Nat) (h : Heap c D) (i : Nat) :
    insertLoop key (f k) fuel (h.map f) i = (insertLoop (key ∘ f) k fuel h i).map (map f) := by
  induction fuel generalizing h i with
  | zero => rfl
  | succ fuel ih =>
    have hlast : (h.map f).set i (some (f k)) = (h.set i (some k)).map (map f) :=
      map_set f h i (some k)
    simp only [insertLoop, map_get, hlast]
    split
    · cases h.get (father i) with
      | none => rfl
      | some p =>
        have hmin : isMin key (some (f k)) (p.map f) = isMin (key ∘ f) (some k) p :=
          map_isMin key f (some k) p
        simp only [Option.map_some, Option.bind_eq_bind, Option.bind_some, hmin, map_set]
        cases isMin (key ∘ f) (some k) p with
        | none => rfl
        | some before =>
          cases before with
          | false => simp
          | true =>
            cases h.set i p with
            | none => rfl
            | some h₁ => simpa using ih h₁ (father i)
    · simp

-- ---------------------------------------------------------------------------
-- Tagged heaps
-- ---------------------------------------------------------------------------

variable {key' : D → Int}

@[simp] theorem tag_nelem (h : Heap c D) : h.tag.nelem = h.nelem := rfl

theorem tag_array (hd : h.array i = some d) : h.tag.array i = some (i, d) := by
  simp [tag, hd]

theorem map_tag (h : Heap c D) : h.tag.map Prod.snd = h := by
  have harray : (fun i => (h.tag.array i).map Prod.snd) = h.array := by
    funext i
    cases hi : h.array i <;> simp [tag, hi]
  simp [map, harray]

theorem Full.tag (hf : h.Full) : h.tag.Contains h.tags := by
  refine ⟨fun i hi => ?_, fun i hi j hj hij => ?_, ?_⟩
  · obtain ⟨d, hd⟩ := hf i hi.1 hi.2
    exact ⟨(i, d), ⟨hi.1, hi.2, hd⟩, (tag_array hd).symm⟩
  · obtain ⟨d, hd⟩ := hf i hi.1 hi.2
    obtain ⟨d', hd'⟩ := hf j hj.1 hj.2
    rw [tag_array hd, tag_array hd', Option.some.injEq, Prod.mk.injEq] at hij
    exact hij.1
  · rintro _ ⟨x, ⟨hx, hxn, hd⟩, rfl⟩
    exact ⟨x.1, ⟨hx, hxn⟩, tag_array hd⟩

@[simp] theorem keyOf_map (f : D → E) (p : Option D) : keyOf key (p.map f) = keyOf (key ∘ f) p := by
  simp [keyOf]

theorem map_ordered {f : D → E} : (h.map f).IsOrdered key ↔ h.IsOrdered (key ∘ f) := by
  simp [IsOrdered, Ordered]

theorem tag_ordered : h.tag.IsOrdered (key' ∘ Prod.snd) ↔ h.IsOrdered key' := by
  rw [← map_ordered, map_tag]

theorem tag_fits : h.tag.Fits (key' ∘ Prod.snd) i ↔ h.Fits key' i := by
  have hkey (j : Nat) : keyOf (key' ∘ Prod.snd) (h.tag.array j) = keyOf key' (h.array j) := by
    rw [← keyOf_map, ← map_array, map_tag]
  simp [Fits, hkey]

theorem Contains.bag_cons {h' : Heap c D} {s : Set D} (hs : h.Contains s)
    (hs' : h'.Contains (s \ {k})) (hk : k ∈ s) : h.bag = some k ::ₘ h'.bag := by
  classical
  have hbag {g : Heap c D} {t : Set D} (ht : g.Contains t) :
      g.bag = ((Finset.Icc 1 g.nelem).image g.array).val := by
    refine (Finset.image_val_of_injOn ?_).symm
    simpa using ht.injOn
  have himage {g : Heap c D} {t : Set D} (ht : g.Contains t) (p : Option D) :
      p ∈ (Finset.Icc 1 g.nelem).image g.array ↔ p ∈ some '' t := by
    rw [← Finset.mem_coe, Finset.coe_image, Finset.coe_Icc, ht.image_eq]
  have hnot : some k ∉ (Finset.Icc 1 h'.nelem).image h'.array := by
    rw [himage hs']
    simp
  have hset : (Finset.Icc 1 h.nelem).image h.array =
      Finset.cons (some k) ((Finset.Icc 1 h'.nelem).image h'.array) hnot := by
    ext p
    rw [Finset.mem_cons, himage hs, himage hs']
    constructor
    · rintro ⟨d, hd, rfl⟩
      by_cases hdk : d = k
      · exact .inl (congrArg some hdk)
      · exact .inr ⟨d, ⟨hd, hdk⟩, rfl⟩
    · rintro (rfl | ⟨d, hd, rfl⟩)
      · exact ⟨k, hk, rfl⟩
      · exact ⟨d, hd.1, rfl⟩
  rw [hbag hs, hbag hs', hset, Finset.cons_val]

-- ---------------------------------------------------------------------------
-- The operations
-- ---------------------------------------------------------------------------

theorem tagged_bag {g g' : Heap c (Nat × D)} {x : Nat × D} {s : Set (Nat × D)}
    (hs : g.Contains s) (hs' : g'.Contains (s \ {x})) (hx : x ∈ s) :
    (g.map Prod.snd).bag = some x.2 ::ₘ (g'.map Prod.snd).bag := by
  have hcons := congrArg (Multiset.map (Option.map Prod.snd)) (hs.bag_cons hs' hx)
  rwa [← map_bag, Multiset.map_cons, ← map_bag] at hcons

theorem Full.bag_sdiff {g : Heap c (Nat × D)} (hf : h.Full) (hi : 1 ≤ i) (hin : i ≤ h.nelem)
    (hk : h.array i = some k) (hs : g.Contains (h.tags \ {(i, k)})) :
    h.bag = some k ::ₘ (g.map Prod.snd).bag := by
  have hcons := tagged_bag hf.tag hs ⟨hi, hin, hk⟩
  rwa [map_tag] at hcons

variable (key') in
theorem moveLast_bag (hf : h.Full) (hn : h.nelem < c.size) (hi : 1 ≤ i) (hin : i ≤ h.nelem)
    (hk : h.array i = some k) : ∃ h', moveLast key' h i = some h' ∧ h'.nelem = h.nelem - 1 ∧
      h.bag = some k ::ₘ h'.bag ∧ (h.IsOrdered key' → h.Fits key' i → h'.IsOrdered key') := by
  obtain ⟨g, hrun, hnelem, hs, ho⟩ :=
    moveLast_spec (key' ∘ Prod.snd) hf.tag hn hi hin (tag_array hk)
  refine ⟨g.map Prod.snd, ?_, hnelem, hf.bag_sdiff hi hin hk hs, fun hord hfit => ?_⟩
  · have hmap := map_moveLast key' Prod.snd h.tag i
    rwa [map_tag, hrun] at hmap
  · exact (map_ordered key').mpr (ho (tag_ordered.mpr hord) (tag_fits.mpr hfit))

variable (key') in
theorem takeOut_bag (hf : h.Full) (hn : h.nelem < c.size) (hi : 1 ≤ i) (hin : i ≤ h.nelem)
    (hk : h.array i = some k) : ∃ h', takeOut key' h i = some h' ∧ h'.nelem = h.nelem - 1 ∧
      h.bag = some k ::ₘ h'.bag ∧ (h.IsOrdered key' → h.Fits key' i → h'.IsOrdered key') := by
  obtain ⟨g, hrun, hnelem, hs, ho⟩ :=
    takeOut_spec (key' ∘ Prod.snd) hf.tag hn hi hin (tag_array hk)
  refine ⟨g.map Prod.snd, ?_, hnelem, hf.bag_sdiff hi hin hk hs, fun hord hfit => ?_⟩
  · have hmap := map_takeOut key' Prod.snd h.tag i
    rwa [map_tag, hrun] at hmap
  · refine (map_ordered key').mpr (ho (tag_ordered.mpr hord) fun j hj hjk => tag_fits.mpr ?_)
    -- the tag says at which place the timer is
    obtain ⟨d, hd⟩ : ∃ d, h.array j = some d := by
      cases hd : h.array j with
      | none => simp [tag, hd] at hjk
      | some d => exact ⟨d, rfl⟩
    rw [tag_array hd, Option.some.injEq, Prod.mk.injEq] at hjk
    exact hjk.1 ▸ hfit

variable (key') in
theorem takeOut_unfit {h' : Heap c D} (hf : h.Full) (ho : h.IsOrdered key') (hn : h.nelem < c.size)
    (hi : 1 ≤ i) (hin : i ≤ h.nelem) (hfit : ¬h.Fits key' i) (hrun : takeOut key' h i = some h') :
    ¬h'.IsOrdered key' := by
  have htwo : h.nelem > 1 := by
    by_contra hone
    exact hfit fun h2 hlt => by omega
  rw [takeOut, if_pos htwo, ← map_tag h, map_moveLast, Option.map_eq_some_iff] at hrun
  obtain ⟨g, hg, rfl⟩ := hrun
  rw [map_ordered]
  exact moveLast_unfit _ hf.tag (tag_ordered.mpr ho) hn hi hin (mt tag_fits.mp hfit) hg

variable (key') in
theorem insertLoop_bag (hf : h.Full) (hn : h.nelem + 1 < c.size) (k : D) :
    ∃ h', insertLoop key' k (h.grow.nelem + 1) h.grow h.grow.nelem = some h' ∧
      h'.nelem = h.nelem + 1 ∧ h'.bag = some k ::ₘ h.bag ∧
      (h.IsOrdered key' → h'.IsOrdered key') := by
  have hnew : (0, k) ∉ h.tags := fun ht => absurd ht.1 (Nat.not_succ_le_zero 0)
  obtain ⟨g, hrun, hnelem, hs, ho⟩ := insertLoop_last (key' ∘ Prod.snd) hf.tag hnew hn
  have hold : h.tag.Contains (insert (0, k) h.tags \ {(0, k)}) := by
    rw [Set.insert_sdiff_self_of_notMem hnew]
    exact hf.tag
  have hcons := tagged_bag hs hold (Set.mem_insert _ _)
  rw [map_tag] at hcons
  refine ⟨g.map Prod.snd, ?_, hnelem, hcons, fun hord => ?_⟩
  · have hmap := map_insertLoop key' Prod.snd (0, k) (h.grow.nelem + 1) h.tag.grow h.grow.nelem
    rw [← map_grow, map_tag] at hmap
    rw [hmap, show insertLoop (key' ∘ Prod.snd) (0, k) (h.grow.nelem + 1) h.tag.grow h.grow.nelem =
      some g from hrun, Option.map_some]
  · exact (map_ordered key').mpr (ho (tag_ordered.mpr hord))

end

end Heap

end Xmertl
