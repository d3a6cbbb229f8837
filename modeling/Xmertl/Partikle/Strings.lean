import Xmertl.Partikle.UserString

/-!
# Moves and searches

`memmove` and `strstr` of the C library, which the kernel has too: a move within one memory,
whichever way its two parts overlap, and the search for a string in another.
-/

namespace Xmertl.Partikle.UserString

open Strncpy

/-- `*a++ = *b++`, from byte `i` on. -/
def copyUp (dst src : Addr) : Nat → Nat → Mem → Mem
  | 0, _, m => m
  | k + 1, i, m => copyUp dst src k (i + 1) (m.put (nth dst i) (m.byte (nth src i)))

/-- `*a-- = *b--`, from the last byte of so many on. -/
def copyDown (dst src : Addr) : Nat → Mem → Mem
  | 0, m => m
  | k + 1, m => copyDown dst src k (m.put (nth dst k) (m.byte (nth src k)))

def memmove (m : Mem) (dst src : Addr) (count : BitVec 32) : Addr × Mem :=
  (dst,
    if src ≠ dst then
      if src > dst then copyUp dst src count.toNat 0 m else copyDown dst src count.toNat m
    else m)

/-- The first difference of two bytes, which are signed. -/
def memcmp (byte : Addr → UInt8) (dst src : Addr) : Nat → Int
  | 0 => 0
  | count + 1 =>
    let r := (byte dst).toInt8.toInt - (byte src).toInt8.toInt
    if r ≠ 0 then r else memcmp byte (dst + 1) (src + 1) count

/-- The loop of `strstr` over `i` places. -/
def strstrLoop (byte : Addr → UInt8) (needle : Addr) (nl : Nat) : Nat → Addr → Addr
  | 0, _ => 0
  | i + 1, haystack =>
    if byte haystack = byte needle ∧ memcmp byte haystack needle nl = 0 then haystack
    else strstrLoop byte needle nl i (haystack + 1)

/-- 0 where the needle is not found. -/
def strstr (byte : Addr → UInt8) (haystack needle : Addr) : Option Addr := do
  let nl ← strlen byte needle
  let hl ← strlen byte haystack
  if nl = 0 then return haystack
  else if nl > hl then return 0
  else return strstrLoop byte needle nl.toNat (hl - nl + 1).toNat haystack

variable {byte : Addr → UInt8} {m m₀ : Mem} {dst src p q : Addr} {xs ys hay needle : List UInt8}
  {i k n lo hi : Nat}

-- ---------------------------------------------------------------------------
-- Moves
-- ---------------------------------------------------------------------------

/-- Bytes `lo` to `hi` of the destination have been copied, and nothing else is changed. -/
structure Moved (m₀ m : Mem) (dst src : Addr) (lo hi : Nat) : Prop where
  inside : ∀ i, lo ≤ i → i < hi → m.byte (nth dst i) = m₀.byte (nth src i)
  outside : ∀ a, (∀ i, lo ≤ i → i < hi → a ≠ nth dst i) → m.byte a = m₀.byte a

theorem nth_toNat (h : p.toNat + i < 2 ^ 32) : (nth p i).toNat = p.toNat + i := by
  rw [nth, BitVec.toNat_add, BitVec.toNat_ofNat]
  omega

theorem Moved.put (h : Moved m₀ m dst src lo hi) (hn : n < 2 ^ 32) (hhi : hi ≤ 2 ^ 32)
    (hsrc : ∀ i, lo ≤ i → i < hi → nth src n ≠ nth dst i) (hend : n = hi ∧ lo ≤ hi ∨ n + 1 = lo) :
    Moved m₀ (m.put (nth dst n) (m.byte (nth src n))) dst src (min lo n) (max hi (n + 1)) := by
  constructor
  · intro i hlo hlt
    by_cases hi : i = n
    · rw [hi, put_self, h.outside _ hsrc]
    · rw [put_nth_of_ne (by omega) hn hi]
      exact h.inside i (by omega) (by omega)
  · intro a ha
    have hne : a ≠ nth dst n := ha n (by omega) (by omega)
    rw [put_of_ne hne]
    exact h.outside a fun i hlo hlt => ha i (by omega) (by omega)

theorem copyUp_moved (hlt : dst < src) (hsrc : src.toNat + n ≤ 2 ^ 32) (hk : i + k = n)
    (h : Moved m₀ m dst src 0 i) : Moved m₀ (copyUp dst src k i m) dst src 0 n := by
  have hlt : dst.toNat < src.toNat := hlt
  induction k generalizing i m with
  | zero => rwa [← hk]
  | succ k ih =>
    refine ih (by omega) ?_
    have hput := h.put (n := i) (by omega) (by omega) (fun j _ hj he => ?_)
      (.inl ⟨rfl, Nat.zero_le i⟩)
    · rwa [Nat.zero_min, Nat.max_eq_right (Nat.le_succ i)] at hput
    · have hnum := congrArg BitVec.toNat he
      rw [nth_toNat (by omega), nth_toNat (by omega)] at hnum
      omega

theorem copyDown_moved (hlt : src < dst) (hdst : dst.toNat + n ≤ 2 ^ 32) (hk : k ≤ n)
    (h : Moved m₀ m dst src k n) : Moved m₀ (copyDown dst src k m) dst src 0 n := by
  have hlt : src.toNat < dst.toNat := hlt
  induction k generalizing m with
  | zero => exact h
  | succ k ih =>
    refine ih (by omega) ?_
    have hput := h.put (n := k) (by omega) (by omega) (fun j hj _ he => ?_) (.inr rfl)
    · rwa [Nat.min_eq_right (Nat.le_succ k), Nat.max_eq_left hk] at hput
    · have hnum := congrArg BitVec.toNat he
      rw [nth_toNat (by omega), nth_toNat (by omega)] at hnum
      omega

/-- However the two parts overlap, the bytes that were at the source are at the destination,
and nothing else is changed. -/
theorem memmove_moved {count : BitVec 32} (hsrc : src.toNat + count.toNat ≤ 2 ^ 32)
    (hdst : dst.toNat + count.toNat ≤ 2 ^ 32) : (memmove m dst src count).1 = dst ∧
      Moved m (memmove m dst src count).2 dst src 0 count.toNat := by
  refine ⟨rfl, ?_⟩
  rw [memmove]
  dsimp only
  split
  · rename_i hne
    have hnone (k : Nat) : Moved m m dst src k k :=
      ⟨fun i hlo hlt => absurd hlt (Nat.not_lt.mpr hlo), fun a _ => rfl⟩
    split
    · rename_i hlt
      exact copyUp_moved hlt hsrc (Nat.zero_add _) (hnone 0)
    · rename_i hle
      have hne : src.toNat ≠ dst.toNat := fun h => hne (BitVec.eq_of_toNat_eq h)
      have hle : ¬dst.toNat < src.toNat := hle
      have hlt : src.toNat < dst.toNat := by omega
      exact copyDown_moved hlt hdst (Nat.le_refl _) (hnone _)
  · rename_i heq
    rw [not_not.mp heq]
    exact ⟨fun i _ _ => rfl, fun a _ => rfl⟩

/-- A part of three bytes is moved by one, upwards. -/
theorem memmove_moved_up : ∃ m : Mem, m.byte 0x100 ≠ m.byte 0x101 ∧
    (memmove m 0x101 0x100 3).2.byte 0x101 = m.byte 0x100 ∧
      (memmove m 0x101 0x100 3).2.byte 0x103 = m.byte 0x102 := by
  let m : Mem := ⟨fun a => UInt8.ofNat a.toNat, []⟩
  have h : _ ∧ Moved m (memmove m 0x101 0x100 3).2 0x101 0x100 0 (3 : BitVec 32).toNat :=
    memmove_moved (by decide) (by decide)
  have h := h.2
  exact ⟨m, by decide, h.inside 0 (Nat.zero_le _) (by decide),
    h.inside 2 (Nat.zero_le _) (by decide)⟩

-- ---------------------------------------------------------------------------
-- Searches
-- ---------------------------------------------------------------------------

theorem toInt8_inj {x y : UInt8} : x.toInt8 = y.toInt8 ↔ x = y :=
  ⟨fun h => by simpa using congrArg Int8.toUInt8 h, fun h => by rw [h]⟩

theorem memcmp_succ : memcmp byte p q (n + 1) = 0 ↔
    byte p = byte q ∧ memcmp byte (p + 1) (q + 1) n = 0 := by
  have hsame : (byte p).toInt8.toInt - (byte q).toInt8.toInt = 0 ↔ byte p = byte q := by
    rw [Int.sub_eq_zero, Int8.toInt_inj, toInt8_inj]
  rw [memcmp]
  split
  · rename_i hne
    exact iff_of_false hne fun h => hne (hsame.mpr h.1)
  · rename_i heq
    rw [and_iff_right (hsame.mp (not_not.mp heq))]

theorem memcmp_eq_zero (hp : Text byte p hay) (hq : Text byte q needle) :
    memcmp byte p q needle.length = 0 ↔ needle <+: hay := by
  induction needle generalizing p q hay with
  | nil => simp [memcmp]
  | cons c needle ih =>
    cases hq with
    | cons hq hc htail =>
      rw [List.length_cons, memcmp_succ, hq]
      cases hp with
      | nul h => simp [h, Ne.symm hc]
      | cons h _ hptail => rw [h, ih hptail htail, List.cons_prefix_cons, eq_comm]

theorem strstr_round (hp : Text byte p hay) (hq : Text byte q needle) (hne : needle ≠ []) :
    (byte p = byte q ∧ memcmp byte p q needle.length = 0) ↔ needle <+: hay := by
  rw [memcmp_eq_zero hp hq, and_iff_right_iff_imp]
  intro h
  obtain ⟨c, needle, rfl⟩ := List.exists_cons_of_ne_nil hne
  obtain ⟨ys, rfl⟩ := h
  rw [hp.head, hq.head]
  rfl

theorem strstrLoop_first (hp : Text byte p hay) (hq : Text byte q needle) (hne : needle ≠ [])
    (hi : i + needle.length = hay.length + 1) :
    (strstrLoop byte q needle.length i p = 0 ∧ ∀ j, ¬needle <+: hay.drop j) ∨
      ∃ j, strstrLoop byte q needle.length i p = nth p j ∧ needle <+: hay.drop j ∧
        ∀ k < j, ¬needle <+: hay.drop k := by
  induction i generalizing p hay with
  | zero =>
    refine .inl ⟨rfl, fun j h => ?_⟩
    have hlen := h.length_le
    rw [List.length_drop] at hlen
    omega
  | succ i ih =>
    rw [strstrLoop]
    by_cases h : needle <+: hay
    · rw [if_pos ((strstr_round hp hq hne).mpr h)]
      exact .inr ⟨0, nth_zero.symm, h, fun k hk => absurd hk (Nat.not_lt_zero k)⟩
    · rw [if_neg (mt (strstr_round hp hq hne).mp h)]
      cases hp with
      | nul =>
        rw [List.length_nil] at hi
        exact absurd (List.eq_nil_of_length_eq_zero (by omega)) hne
      | @cons _ c hay _ _ htail =>
        rw [List.length_cons] at hi
        rcases ih htail (by omega) with ⟨hzero, hnone⟩ | ⟨j, hj, hfound, hfirst⟩
        · refine .inl ⟨hzero, fun j => ?_⟩
          cases j with
          | zero => exact h
          | succ j => exact hnone j
        · refine .inr ⟨j + 1, by rw [hj, nth_succ], hfound, fun k hk => ?_⟩
          cases k with
          | zero => exact h
          | succ k => exact hfirst k (Nat.lt_of_succ_lt_succ hk)

/-- The search gives the first place of the needle, and NULL where it has none. -/
theorem strstr_first (hp : Text byte p hay) (hq : Text byte q needle) (hp0 : p ≠ 0) (hq0 : q ≠ 0)
    (hl : p.toNat + hay.length < 2 ^ 32) (hn : needle.length < 2 ^ 32) :
    ∃ r, strstr byte p q = some r ∧ (r = 0 ∧ ¬needle <:+: hay ∨
      r ≠ 0 ∧ ∃ i, r = nth p i ∧ needle <+: hay.drop i ∧ ∀ j < i, ¬needle <+: hay.drop j) := by
  have hnl : (BitVec.ofNat 32 needle.length).toNat = needle.length := by
    rw [BitVec.toNat_ofNat]
    omega
  have hhl : (BitVec.ofNat 32 hay.length).toNat = hay.length := by
    rw [BitVec.toNat_ofNat]
    omega
  rw [strstr, strlen_eq hq hq0 hn, strlen_eq hp hp0 (by omega), Option.bind_eq_bind,
    Option.bind_some, Option.bind_some]
  by_cases hne : needle = []
  · subst hne
    exact ⟨p, rfl, .inr ⟨hp0, 0, nth_zero.symm, List.nil_prefix, fun j hj => absurd hj
      (Nat.not_lt_zero j)⟩⟩
  have hpos : 0 < needle.length := List.length_pos_iff.mpr hne
  have hnl0 : BitVec.ofNat 32 needle.length ≠ 0 := fun h => by
    rw [h] at hnl
    exact absurd hnl (Nat.ne_of_lt hpos)
  rw [if_neg hnl0]
  split
  · rename_i hgt
    have hgt : (BitVec.ofNat 32 hay.length).toNat < (BitVec.ofNat 32 needle.length).toNat := hgt
    refine ⟨0, rfl, .inl ⟨rfl, fun h => ?_⟩⟩
    have hle := h.length_le
    omega
  · rename_i hle
    have hle : ¬(BitVec.ofNat 32 hay.length).toNat < (BitVec.ofNat 32 needle.length).toNat := hle
    have hi : (BitVec.ofNat 32 hay.length - BitVec.ofNat 32 needle.length + 1).toNat +
        needle.length = hay.length + 1 := by
      have hone : (1 : BitVec 32).toNat = 1 := rfl
      rw [BitVec.toNat_add, BitVec.toNat_sub, hnl, hhl, hone]
      omega
    have hloop := strstrLoop_first hp hq hne hi
    refine ⟨_, rfl, ?_⟩
    rw [hnl]
    rcases hloop with ⟨hzero, hnone⟩ | ⟨i, hi, hfound, hfirst⟩
    · refine .inl ⟨hzero, ?_⟩
      rintro ⟨xs, ys, rfl⟩
      exact hnone xs.length (by simp)
    · refine .inr ⟨?_, i, hi, hfound, hfirst⟩
      have hlen := hfound.length_le
      rw [List.length_drop] at hlen
      rw [hi]
      exact nth_ne_zero hp0 (by omega)

/-- The end of ",ab c" is found in it. -/
theorem strstr_first_end : ∃ r, strstr sample.byte 0x100 0x103 = some r ∧ r ≠ 0 ∧
    ∃ i, r = nth 0x100 i ∧
      ([0x20, 0x63] : List UInt8) <+: [0x2C, 0x61, 0x62, 0x20, 0x63].drop i := by
  have hp : Text sample.byte 0x100 [0x2C, 0x61, 0x62, 0x20, 0x63] :=
    .of_bytes (by decide +kernel) (by decide +kernel) (by decide +kernel)
  have hq : Text sample.byte 0x103 [0x20, 0x63] :=
    .of_bytes (by decide +kernel) (by decide +kernel) (by decide +kernel)
  have hthere : [0x20, 0x63] <:+: ([0x2C, 0x61, 0x62, 0x20, 0x63] : List UInt8) := by decide
  obtain ⟨r, hr, ⟨-, hnone⟩ | ⟨hne, i, hi, hfound, -⟩⟩ :=
    strstr_first hp hq (by decide) (by decide) (by decide) (by decide)
  · exact absurd hthere hnone
  · exact ⟨r, hr, hne, i, hi, hfound⟩

end Xmertl.Partikle.UserString
