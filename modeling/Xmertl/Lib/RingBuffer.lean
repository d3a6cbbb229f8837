import Mathlib.Data.Int.ModEq
import Mathlib.Data.List.Basic

/-!
# Ring buffers

A ring of `s` places holds position `p` at place `p % s`. Positions only grow, and
a queue is what stands at the positions from a bottom on. Where it goes over the
end of the ring, it is read and written in two blocks.
-/

namespace RingBuffer

/-- The elements at `n` places from `off` on. -/
def block (a : Int → α) (off : Int) (n : Nat) : List α :=
  (List.range n).map fun (i : Nat) => a (off + i)

/-- The elements at the `n` positions from `lo` on. -/
def contents (a : Int → α) (s lo : Int) (n : Nat) : List α := block (fun p => a (p % s)) lo n

/-- `n` elements of `src` written from place `off` on. -/
def store (a : Int → α) (off : Int) (src : Int → α) (n : Int) : Int → α :=
  fun j => if off ≤ j ∧ j < off + n then src (j - off) else a j

section
variable {a b src : Int → α} {s lo top x y i k n : Int} {l m : Nat}

@[simp] theorem block_length (a : Int → α) (off : Int) (m : Nat) : (block a off m).length = m := by
  simp [block]

@[simp] theorem block_zero (a : Int → α) (off : Int) : block a off 0 = [] := rfl

theorem block_add (a : Int → α) (off : Int) (l m : Nat) :
    block a off (l + m) = block a off l ++ block a (off + l) m := by
  simp [block, List.range_add, Function.comp_def, Int.add_assoc]

theorem block_take (a : Int → α) (off : Int) (h : l ≤ m) :
    (block a off m).take l = block a off l := by
  obtain ⟨k, rfl⟩ := Nat.exists_eq_add_of_le h
  rw [block_add]
  exact List.take_left' (block_length ..)

theorem block_drop (a : Int → α) (off : Int) (h : l ≤ m) :
    (block a off m).drop l = block a (off + l) (m - l) := by
  obtain ⟨k, rfl⟩ := Nat.exists_eq_add_of_le h
  rw [block_add, Nat.add_sub_cancel_left]
  exact List.drop_left' (block_length ..)

theorem block_congr (h : ∀ i : Nat, i < m → a (x + i) = b (y + i)) : block a x m = block b y m :=
  List.map_congr_left fun i hi => h i (List.mem_range.mp hi)

theorem store_in (hle : x ≤ i) (hlt : i < x + n) : store a x src n i = src (i - x) :=
  if_pos ⟨hle, hlt⟩

theorem store_out (h : i < x ∨ x + n ≤ i) : store a x src n i = a i :=
  if_neg fun ⟨hle, hlt⟩ => by omega

-- ---------------------------------------------------------------------------
-- Places
-- ---------------------------------------------------------------------------

theorem place_ne (hlt : x < y) (hs : y - x < s) : x % s ≠ y % s := by
  intro heq
  have hdvd : s ∣ y - x := Int.ModEq.dvd heq
  have hle := Int.le_of_dvd (by omega) hdvd
  omega

theorem place_add (hs : 0 < s) (hi : 0 ≤ i) (h : lo % s + i < s) : (lo + i) % s = lo % s + i := by
  have hlo := Int.emod_nonneg lo (Int.ne_of_gt hs)
  rw [← Int.emod_add_emod, Int.emod_eq_of_lt (by omega) h]

theorem place_wrap (hs : 0 < s) (hi : i ≤ s) (h : s ≤ lo % s + i) :
    (lo + i) % s = lo % s + i - s := by
  have hlo := Int.emod_lt_of_pos lo hs
  rw [← Int.emod_add_emod, ← Int.sub_emod_right, Int.emod_eq_of_lt (by omega) (by omega)]

theorem place_of_lt (hs : 0 < s) (hp : p = lo % s) (hi : 0 ≤ i) (h : p + i < s) :
    p + i = (lo + i) % s := by
  rw [place_add hs hi (hp ▸ h), hp]

theorem place_of_le (hs : 0 < s) (hp : p = lo % s) (hi : i ≤ s) (h : s ≤ p + i) :
    p + i - s = (lo + i) % s := by
  rw [place_wrap hs hi (hp ▸ h), hp]

-- ---------------------------------------------------------------------------
-- Reading
-- ---------------------------------------------------------------------------

theorem contents_place (a : Int → α) (s lo : Int) (m : Nat) :
    contents a s (lo % s) m = contents a s lo m :=
  block_congr fun i _ => by rw [Int.emod_add_emod]

theorem contents_straight (hs : 0 < s) (h : lo % s + m ≤ s) :
    contents a s lo m = block a (lo % s) m := by
  refine block_congr fun i hi => ?_
  rw [place_add hs (by omega) (by omega)]

theorem contents_wrapped (hs : 0 < s) (hl : (l : Int) = s - lo % s) (hlm : l ≤ m) (hm : m ≤ s) :
    contents a s lo m = block a (lo % s) l ++ block a 0 (m - l) := by
  obtain ⟨r, rfl⟩ := Nat.exists_eq_add_of_le hlm
  rw [contents, block_add, Nat.add_sub_cancel_left]
  congr 1
  · exact contents_straight hs (by omega)
  · refine block_congr fun i hi => ?_
    rw [Int.add_assoc, place_wrap hs (by omega) (by omega)]
    congr 1
    omega

-- ---------------------------------------------------------------------------
-- Writing
-- ---------------------------------------------------------------------------

/-- `b` has `n` elements of `src` from position `top` on, and is `a` at the `s - n`
positions before. -/
structure Wrote (a b : Int → α) (s top : Int) (src : Int → α) (n : Int) : Prop where
  new : ∀ i, 0 ≤ i → i < n → b ((top + i) % s) = src i
  old : ∀ p, p < top → top + n - p ≤ s → b (p % s) = a (p % s)

theorem Wrote.none (a src : Int → α) (s top : Int) : Wrote a a s top src 0 where
  new _ hi hin := absurd hin (not_lt.mpr hi)
  old _ _ _ := rfl

theorem wrote_straight (hs : 0 < s) (h : top % s + n ≤ s) :
    Wrote a (store a (top % s) src n) s top src n where
  new i hi hin := by
    rw [place_add hs hi (by omega), store_in (by omega) (by omega)]
    congr 1
    omega
  old p hp hpn := by
    refine store_out ?_
    by_contra hin
    have hlt := Int.emod_lt_of_pos p hs
    have hplace : (top + (p % s - top % s)) % s = top % s + (p % s - top % s) :=
      place_add hs (by omega) (by omega)
    have hne := place_ne (x := p) (y := top + (p % s - top % s)) (s := s) (by omega) (by omega)
    omega

theorem wrote_wrapped (hs : 0 < s) (hk : k = s - top % s) (hkn : k ≤ n) (hn : n ≤ s) :
    Wrote a (store (store a (top % s) src k) 0 (fun i => src (k + i)) (n - k)) s top src n where
  new i hi hin := by
    have htop := Int.emod_nonneg top (Int.ne_of_gt hs)
    by_cases hik : i < k
    · rw [place_add hs hi (by omega), store_out (by omega), store_in (by omega) (by omega)]
      congr 1
      omega
    · rw [place_wrap hs (by omega) (by omega), store_in (by omega) (by omega)]
      congr 1
      omega
  old p hp hpn := by
    have hpos := Int.emod_nonneg p (Int.ne_of_gt hs)
    have hlt := Int.emod_lt_of_pos p hs
    have htop := Int.emod_lt_of_pos top hs
    rw [store_out, store_out]
    · by_contra hin
      have hplace : (top + (p % s - top % s)) % s = top % s + (p % s - top % s) :=
        place_add hs (by omega) (by omega)
      have hne := place_ne (x := p) (y := top + (p % s - top % s)) (s := s) (by omega) (by omega)
      omega
    · by_contra hin
      have hplace : (top + (p % s + k)) % s = top % s + (p % s + k) - s :=
        place_wrap hs (by omega) (by omega)
      have hne := place_ne (x := p) (y := top + (p % s + k)) (s := s) (by omega) (by omega)
      omega

theorem Wrote.contents {top : Int} (h : Wrote a b s top src n) (htop : lo + l = top)
    (hm : (m : Int) = n) (hs : l + m ≤ s) :
    contents b s lo (l + m) = contents a s lo l ++ block src 0 m := by
  rw [RingBuffer.contents, block_add]
  congr 1
  · exact block_congr fun i hi => h.old _ (by omega) (by omega)
  · refine block_congr fun i hi => ?_
    rw [htop, Int.zero_add]
    exact h.new i (by omega) (by omega)

-- ---------------------------------------------------------------------------
-- The last elements of a list
-- ---------------------------------------------------------------------------

theorem block_getElem? (a : Int → α) (off : Int) (h : l < m) :
    (block a off m)[l]? = some (a (off + l)) := by
  rw [block, List.getElem?_map, List.getElem?_range h]
  rfl

theorem contents_getElem? (a : Int → α) (s lo : Int) (h : l < m) :
    (contents a s lo m)[l]? = some (a ((lo + l) % s)) :=
  block_getElem? _ lo h

theorem update_eq_store (a : Int → α) (off : Int) (r : α) :
    Function.update a off r = store a off (fun _ => r) 1 := by
  funext j
  by_cases h : j = off
  · rw [h, Function.update_self, store_in (by omega) (by omega)]
  · rw [Function.update_of_ne h, store_out (by omega)]

theorem contents_snoc (hs : 0 < s) (htop : lo + l = x) (hl : (l : Int) < s) (r : α) :
    contents (Function.update a (x % s) r) s lo (l + 1) = contents a s lo l ++ [r] := by
  have hx := Int.emod_lt_of_pos x hs
  have hwrote : Wrote a (store a (x % s) (fun _ => r) 1) s x (fun _ => r) 1 :=
    wrote_straight hs (by omega)
  rw [update_eq_store]
  exact hwrote.contents htop rfl (by omega)

/-- The ring of `s` places holds the last elements of `w`, as many as fit. -/
def Last (a : Int → α) (s : Nat) (w : List α) : Prop :=
  contents a s (w.length - s : Nat) (min s w.length) = w.drop (w.length - s)

theorem last_nil (a : Int → α) (s : Nat) : Last a s [] := by simp [Last, contents]

theorem Last.snoc {s : Nat} {w : List α} (h : Last a s w) (hs : 0 < s) (r : α) :
    Last (Function.update a (w.length % s) r) s (w ++ [r]) := by
  unfold Last at h ⊢
  rw [List.length_append, List.length_singleton]
  rcases Nat.lt_or_ge w.length s with hlt | hge
  · rw [Nat.min_eq_right (by omega), Nat.sub_eq_zero_of_le (by omega), List.drop_zero] at h ⊢
    rw [contents_snoc (by omega) (by omega) (by omega), h]
  · obtain ⟨s, rfl⟩ := Nat.exists_eq_add_of_le' hs
    rw [Nat.min_eq_left hge] at h
    have htail := congrArg (List.drop 1) h
    rw [contents, block_drop _ _ (by omega), List.drop_drop] at htail
    rw [Nat.min_eq_left (by omega), contents_snoc (by omega) (by omega) (by omega),
      List.drop_append_of_le_length (by omega)]
    congr 1
    have hlo : w.length - (s + 1) + 1 = w.length + 1 - (s + 1) := by omega
    rw [← hlo, ← htail]
    rfl

end

end RingBuffer
