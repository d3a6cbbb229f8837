import Mathlib.Data.List.Sort

/-!
# Insertion behind equal keys

A list in the order of its elements' keys, where a new element goes behind those of its
own key: `List.orderedInsert` by the strict order of the keys. `Stable` compares such a list
with the order in which its elements came.
-/

namespace StableInsert

variable {α : Type*}

def insert (key : α → Nat) (x : α) (l : List α) : List α :=
  l.orderedInsert (fun a b => key a < key b) x

/-- `l` has the elements of `came` in the order of their keys, and those of one key in the
order of `came`. -/
structure Stable (key : α → Nat) (came l : List α) : Prop where
  perm : l.Perm came
  sorted : l.Pairwise fun a b => key a ≤ key b
  equals : ∀ k, l.filter (key · = k) = came.filter (key · = k)

section
variable {key : α → Nat} {x y : α} {l u v came : List α}

theorem insert_before (hu : ∀ z ∈ u, key z ≤ key x) (hy : key x < key y) :
    insert key x (u ++ y :: v) = u ++ x :: y :: v := by
  induction u with
  | nil => simp [insert, hy]
  | cons z u ih =>
    have hz : ¬key x < key z := Nat.not_lt.mpr (hu z List.mem_cons_self)
    have hrest := ih fun w hw => hu w (List.mem_cons_of_mem _ hw)
    rw [insert] at hrest ⊢
    simp [hz, hrest]

theorem insert_last (hl : ∀ z ∈ l, key z ≤ key x) : insert key x l = l ++ [x] := by
  induction l with
  | nil => rfl
  | cons z l ih =>
    have hz : ¬key x < key z := Nat.not_lt.mpr (hl z List.mem_cons_self)
    have hrest := ih fun w hw => hl w (List.mem_cons_of_mem _ hw)
    rw [insert] at hrest ⊢
    simp [hz, hrest]

theorem mem_insert : y ∈ insert key x l ↔ y = x ∨ y ∈ l := List.mem_orderedInsert _

theorem insert_perm : (insert key x l).Perm (x :: l) := List.perm_orderedInsert _ x l

theorem insert_sorted (hs : l.Pairwise fun a b => key a ≤ key b) :
    (insert key x l).Pairwise fun a b => key a ≤ key b := by
  induction l with
  | nil => simp [insert]
  | cons z l ih =>
    obtain ⟨hz, hl⟩ := List.pairwise_cons.mp hs
    rw [insert, List.orderedInsert_cons]
    split
    · rename_i hxz
      refine List.pairwise_cons.mpr ⟨fun w hw => ?_, hs⟩
      rcases List.mem_cons.mp hw with rfl | hw
      · exact Nat.le_of_lt hxz
      · exact Nat.le_trans (Nat.le_of_lt hxz) (hz w hw)
    · rename_i hxz
      refine List.pairwise_cons.mpr ⟨fun w hw => ?_, ih hl⟩
      rcases mem_insert.mp hw with rfl | hw
      · exact Nat.not_lt.mp hxz
      · exact hz w hw

theorem insert_filter (hs : l.Pairwise fun a b => key a ≤ key b) (k : Nat) :
    (insert key x l).filter (key · = k) =
      l.filter (key · = k) ++ if key x = k then [x] else [] := by
  induction l with
  | nil => by_cases hk : key x = k <;> simp [insert, hk]
  | cons z l ih =>
    obtain ⟨hz, hl⟩ := List.pairwise_cons.mp hs
    rw [insert, List.orderedInsert_cons]
    split
    · rename_i hxz
      by_cases hk : key x = k
      · -- nobody behind has the new one's key
        have hnone : (z :: l).filter (key · = k) = [] := by
          refine List.filter_eq_nil_iff.mpr fun w hw => ?_
          have hle : key z ≤ key w := by
            rcases List.mem_cons.mp hw with rfl | hw
            · exact Nat.le_refl _
            · exact hz w hw
          simp only [decide_eq_true_eq]
          omega
        rw [List.filter_cons_of_pos (by simpa using hk), hnone]
        simp [hk]
      · rw [List.filter_cons_of_neg (by simpa using hk)]
        simp [hk]
    · have hrest := ih hl
      rw [insert] at hrest
      by_cases hk : key z = k <;> simp [hk, hrest]

theorem insert_getLast (h : key x < key y) : (insert key x (u ++ [y])).getLast? = some y := by
  induction u with
  | nil => simp [insert, h]
  | cons z u ih =>
    by_cases hz : key x < key z
    · simp [insert, hz, List.getLast?_cons]
    · rw [insert, List.cons_append, List.orderedInsert_cons, if_neg hz, List.getLast?_cons]
      rw [insert] at ih
      rw [ih]
      rfl

theorem Stable.congr {key' : α → Nat} (h : Stable key came l)
    (hk : ∀ z ∈ came, key' z = key z) : Stable key' came l where
  perm := h.perm
  sorted := h.sorted.imp_of_mem fun ha hb hab => by
    rw [hk _ (h.perm.mem_iff.mp ha), hk _ (h.perm.mem_iff.mp hb)]
    exact hab
  equals k := by
    have hsame : ∀ m : List α, (∀ z ∈ m, z ∈ came) →
        m.filter (key' · = k) = m.filter (key · = k) := fun m hm =>
      List.filter_congr fun z hz => by rw [hk z (hm z hz)]
    rw [hsame l fun z hz => h.perm.mem_iff.mp hz, hsame came fun _ hz => hz]
    exact h.equals k

theorem Stable.insert (h : Stable key came l) :
    Stable key (came ++ [x]) (insert key x l) where
  perm := insert_perm.trans ((h.perm.cons x).trans (List.perm_append_singleton x came).symm)
  sorted := insert_sorted h.sorted
  equals k := by
    rw [insert_filter h.sorted, h.equals, List.filter_append]
    by_cases hk : key x = k <;> simp [hk]

theorem Stable.erase [DecidableEq α] (h : Stable key came l) (hn : came.Nodup) (x : α) :
    Stable key (came.erase x) (l.erase x) where
  perm := h.perm.erase x
  sorted := h.sorted.sublist List.erase_sublist
  equals k := by
    rw [(h.perm.nodup_iff.mpr hn).erase_eq_filter, hn.erase_eq_filter, List.filter_filter,
      List.filter_filter]
    have hswap := congrArg (List.filter (· != x)) (h.equals k)
    rw [List.filter_filter, List.filter_filter] at hswap
    simpa only [Bool.and_comm] using hswap

end

end StableInsert
