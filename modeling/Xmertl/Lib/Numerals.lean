import Mathlib.Data.Nat.Digits.Defs

/-!
# Numerals

Digits with the most significant first, as they are read and written, and the counts that
are made of them in a word that wraps and remembers that it did.
-/

namespace Numerals

/-- The number that digits denote in base `b`. -/
def value (b : Nat) (ds : List Nat) : Nat := Nat.ofDigits b ds.reverse

section
variable {b d n : Nat} {ds es : List Nat}

@[simp] theorem value_nil : value b [] = 0 := rfl

@[simp] theorem value_concat : value b (ds ++ [d]) = value b ds * b + d := by
  rw [value, List.reverse_append, List.reverse_singleton, List.singleton_append,
    Nat.ofDigits_cons, value, Nat.mul_comm, Nat.add_comm]

@[simp] theorem value_singleton : value b [d] = d := by
  rw [← List.nil_append [d], value_concat, value_nil, Nat.zero_mul, Nat.zero_add]

@[simp] theorem value_zero_cons : value b (0 :: ds) = value b ds :=
  Nat.ofDigits_reverse_zero_cons ds

theorem value_replicate_append (k : Nat) : value b (List.replicate k 0 ++ ds) = value b ds := by
  induction k with
  | zero => rfl
  | succ k ih => rw [List.replicate_succ, List.cons_append, value_zero_cons, ih]

theorem value_digits (b n : Nat) : value b (Nat.digits b n).reverse = n := by
  rw [value, List.reverse_reverse, Nat.ofDigits_digits]

theorem value_le_append (hb : 1 ≤ b) : value b ds ≤ value b (ds ++ es) := by
  induction es generalizing ds with
  | nil => rw [List.append_nil]
  | cons e es ih =>
    have hnext : value b ds ≤ value b (ds ++ [e]) := by
      rw [value_concat]
      exact Nat.le_add_right_of_le (Nat.le_mul_of_pos_right _ hb)
    rw [← List.singleton_append, ← List.append_assoc]
    exact hnext.trans ih

end

-- ---------------------------------------------------------------------------
-- A count that wraps
-- ---------------------------------------------------------------------------

/-- `v` and the flag stand for `n` in a word of `M` values: `n` itself, where it fits. -/
structure Counts (M n v : Nat) (overflow : Bool) : Prop where
  fits : overflow = false → v = n ∧ n < M
  wraps : overflow = true → M ≤ n

section
variable {M n v b d : Nat} {overflow : Bool}

theorem Counts.zero (hM : 0 < M) : Counts M 0 0 false :=
  ⟨fun _ => ⟨rfl, hM⟩, (fun h => by cases h)⟩

theorem Counts.step (h : Counts M n v overflow) (hb : 1 ≤ b) :
    Counts M (n * b + d) ((v * b + d) % M) (overflow || decide (M ≤ v * b + d)) := by
  cases overflow with
  | true =>
    have hle : n ≤ n * b := Nat.le_mul_of_pos_right n hb
    exact ⟨(fun hflag => by cases hflag), fun _ => (h.wraps rfl).trans (Nat.le_add_right_of_le hle)⟩
  | false =>
    obtain ⟨rfl, -⟩ := h.fits rfl
    rw [Bool.false_or]
    refine ⟨fun hflag => ?_, fun hflag => of_decide_eq_true hflag⟩
    have hlt := Nat.lt_of_not_le (of_decide_eq_false hflag)
    exact ⟨Nat.mod_eq_of_lt hlt, hlt⟩

theorem Counts.exact (h : Counts M n v overflow) (hn : n < M) : v = n := by
  cases overflow with
  | true => exact absurd (h.wraps rfl) (Nat.not_le_of_lt hn)
  | false => exact (h.fits rfl).1

theorem Counts.saturate (h : Counts M n v overflow) {α : Type} (x y : α) :
    (if overflow then x else y) = if M ≤ n then x else y := by
  cases overflow with
  | true => rw [if_pos rfl, if_pos (h.wraps rfl)]
  | false =>
    have hlt := (h.fits rfl).2
    rw [if_neg (by decide), if_neg (by omega)]

end

-- ---------------------------------------------------------------------------
-- The longest match
-- ---------------------------------------------------------------------------

/-- Of the texts that `s` starts with and that `P` accepts, `text` is the longest. -/
structure LongestPrefix {α : Type} (P : List α → Prop) (s text : List α) : Prop where
  accepted : P text
  start : text <+: s
  longest : ∀ t, P t → t <+: s → t.length ≤ text.length

section
variable {α : Type} {P : List α → Prop} {s : List α} {p : α → Bool} {a : α}

/-- What all members have in common holds no further than the first that has it not. -/
theorem prefix_takeWhile {t : List α} (hall : ∀ a ∈ t, p a = true) (ht : t <+: s) :
    t <+: s.takeWhile p := by
  obtain ⟨rest, rfl⟩ := ht
  rw [List.takeWhile_append_of_pos hall]
  exact List.prefix_append ..

theorem LongestPrefix.takeWhile (hne : s.takeWhile p ≠ []) :
    LongestPrefix (fun t => t ≠ [] ∧ ∀ a ∈ t, p a = true) s (s.takeWhile p) where
  accepted := ⟨hne, List.all_eq_true.mp List.all_takeWhile⟩
  start := List.takeWhile_prefix p
  longest _ ht hs := (prefix_takeWhile ht.2 hs).length_le

theorem LongestPrefix.whole (h : P s) : LongestPrefix P s s :=
  ⟨h, List.prefix_rfl, fun _ _ hs => hs.length_le⟩

theorem LongestPrefix.unique {t u : List α} (ht : LongestPrefix P s t)
    (hu : LongestPrefix P s u) : t = u :=
  (List.prefix_of_prefix_length_le ht.start hu.start (hu.longest t ht.accepted ht.start)).eq_of_length
    (Nat.le_antisymm (hu.longest t ht.accepted ht.start) (ht.longest u hu.accepted hu.start))

theorem LongestPrefix.append {t : List α} (pre : List α) (h : LongestPrefix P s t) :
    LongestPrefix (fun u => ∃ v, u = pre ++ v ∧ P v) (pre ++ s) (pre ++ t) where
  accepted := ⟨t, rfl, h.accepted⟩
  start := (List.prefix_append_right_inj pre).mpr h.start
  longest := by
    rintro u ⟨v, rfl, hv⟩ hu
    have hlen := h.longest v hv ((List.prefix_append_right_inj pre).mp hu)
    rw [List.length_append, List.length_append]
    omega

end

end Numerals
