import Mathlib.Algebra.Group.Nat.Defs
import Mathlib.Logic.Function.Basic

/-!
# strncpy of the user library

`memset` and `strncpy` of `ulibc/libc/string.c`, on a memory that they share with the
strings, so that source and destination may overlap in any way.
-/

namespace Xmertl.Partikle.Strncpy

abbrev Addr := BitVec 32

/-- The bytes, and the addresses that have been written. -/
structure Mem where
  byte : Addr → UInt8
  written : List Addr

def nth (p : Addr) (i : Nat) : Addr := p + BitVec.ofNat 32 i

def Mem.put (m : Mem) (a : Addr) (c : UInt8) : Mem :=
  ⟨Function.update m.byte a c, a :: m.written⟩

/-- The rounds of `*a++ = s`. -/
def Mem.fill (m : Mem) (a : Addr) (s : UInt8) : Nat → Mem
  | 0 => m
  | n + 1 => (m.put a s).fill (a + 1) s n

/-- `while (--count)` with a `count` that may have become 0. -/
def memset (m : Mem) (dst : Addr) (s : UInt8) (count : BitVec 32) : Mem :=
  let count := count + 1
  m.fill dst s (count - 1).toNat

/-- The copying loop, which has `n - j` rounds left. -/
def copyLoop (dest src : Addr) : Nat → Nat → Mem → Nat × Mem
  | 0, j, m => (j, m)
  | k + 1, j, m =>
    let c := m.byte (nth src j)
    if c ≠ 0 then copyLoop dest src k (j + 1) (m.put (nth dest j) c) else (j, m)

def strncpy (m : Mem) (dest src : Addr) (n : BitVec 32) : Addr × Mem :=
  let m := memset m dest 0 n
  let (j, m) := copyLoop dest src n.toNat 0 m
  (dest, if j ≥ n.toNat then m.put (dest + (n - 1)) 0 else m)

-- ---------------------------------------------------------------------------
-- What it is to do
-- ---------------------------------------------------------------------------

/-- There is a string of `l` bytes at `src`. -/
def IsString (byte : Addr → UInt8) (src : Addr) (l : Nat) : Prop :=
  (∀ i < l, byte (nth src i) ≠ 0) ∧ byte (nth src l) = 0

def Copied (byte byte' : Addr → UInt8) (dest src : Addr) (n l : Nat) : Prop :=
  (∀ i < n, i < l → byte' (nth dest i) = byte (nth src i)) ∧
    ∀ i < n, l ≤ i → byte' (nth dest i) = 0

/-- The bytes of the destination, and no others, have been written. -/
def Wrote (written : List Addr) (dest : Addr) (n : Nat) : Prop :=
  ∀ a, a ∈ written ↔ ∃ i < n, a = nth dest i

/-- Where byte `i` of the string lies in the destination, it is read after a byte that is
the same has been put there, and its NUL before one has or with the last round. -/
def Undisturbed (byte : Addr → UInt8) (dest src : Addr) (n l i : Nat) : Prop :=
  ∀ k < n, nth src i = nth dest k →
    (i < l → k < i ∧ byte (nth src k) = byte (nth src i)) ∧ (i = l → l ≤ k ∨ l + 1 = n)

instance (byte : Addr → UInt8) (dest src : Addr) (n l i : Nat) :
    Decidable (Undisturbed byte dest src n l i) :=
  inferInstanceAs (Decidable (∀ k < n, nth src i = nth dest k →
    (i < l → k < i ∧ byte (nth src k) = byte (nth src i)) ∧ (i = l → l ≤ k ∨ l + 1 = n)))

section
variable {byte : Addr → UInt8} {m : Mem} {a p dest src : Addr} {i j k l n : Nat} {c s : UInt8}

theorem nth_inj (hi : i < 2 ^ 32) (hk : k < 2 ^ 32) : nth p i = nth p k ↔ i = k := by
  rw [nth, nth, BitVec.add_right_inj]
  refine ⟨fun h => ?_, fun h => by rw [h]⟩
  have hn := congrArg BitVec.toNat h
  rwa [BitVec.toNat_ofNat, BitVec.toNat_ofNat, Nat.mod_eq_of_lt hi, Nat.mod_eq_of_lt hk] at hn

theorem nth_succ : nth (p + 1) i = nth p (i + 1) := by
  rw [nth, nth, BitVec.ofNat_add, BitVec.add_assoc, BitVec.add_comm 1]
  rfl

theorem nth_zero : nth p 0 = p := BitVec.add_zero p

theorem put_self : (m.put a c).byte a = c := Function.update_self ..

theorem put_of_ne {b : Addr} (h : b ≠ a) : (m.put a c).byte b = m.byte b :=
  Function.update_of_ne h ..

theorem put_nth_of_ne (hi : i < 2 ^ 32) (hj : j < 2 ^ 32) (h : i ≠ j) :
    (m.put (nth p j) c).byte (nth p i) = m.byte (nth p i) :=
  put_of_ne (mt (nth_inj hi hj).mp h)

theorem exists_nth_succ : (∃ i < n + 1, a = nth p i) ↔ a = p ∨ ∃ i < n, a = nth (p + 1) i := by
  simp only [nth_succ]
  constructor
  · rintro ⟨i, hi, rfl⟩
    cases i with
    | zero => exact .inl nth_zero
    | succ i => exact .inr ⟨i, Nat.lt_of_succ_lt_succ hi, rfl⟩
  · rintro (rfl | ⟨i, hi, rfl⟩)
    · exact ⟨0, Nat.succ_pos n, nth_zero.symm⟩
    · exact ⟨i + 1, Nat.succ_lt_succ hi, rfl⟩

theorem fill_written : a ∈ (m.fill p s n).written ↔ a ∈ m.written ∨ ∃ i < n, a = nth p i := by
  induction n generalizing m p with
  | zero => simp [Mem.fill]
  | succ n ih =>
    rw [Mem.fill, ih, exists_nth_succ, Mem.put, List.mem_cons, or_left_comm, or_assoc]

theorem fill_outside (h : ∀ i < n, a ≠ nth p i) : (m.fill p s n).byte a = m.byte a := by
  induction n generalizing m p with
  | zero => rfl
  | succ n ih =>
    have hp : a ≠ p := fun he => h 0 (Nat.succ_pos n) (he.trans nth_zero.symm)
    rw [Mem.fill, ih fun i hi => by
      rw [nth_succ]
      exact h (i + 1) (Nat.succ_lt_succ hi)]
    exact put_of_ne hp

theorem fill_inside (hn : n < 2 ^ 32) (hi : i < n) : (m.fill p s n).byte (nth p i) = s := by
  induction n generalizing m p i with
  | zero => exact absurd hi (Nat.not_lt_zero i)
  | succ n ih =>
    cases i with
    | zero =>
      rw [Mem.fill, fill_outside fun i hi => ?_, nth_zero]
      · exact Function.update_self ..
      · rw [nth_succ, ne_eq, nth_inj (by omega) (by omega)]
        exact (Nat.succ_ne_zero i).symm
    | succ i =>
      rw [Mem.fill, ← nth_succ]
      exact ih (Nat.lt_of_succ_lt hn) (Nat.lt_of_succ_lt_succ hi)

/-- What the loop and the write behind it make of a memory, with `k` rounds left. -/
def finish (dest src : Addr) (n : Nat) (k j : Nat) (m : Mem) : Mem :=
  let (j, m) := copyLoop dest src k j m
  if j ≥ n then m.put (nth dest (n - 1)) 0 else m

theorem finish_zero (h : j = n) : finish dest src n 0 j m = m.put (nth dest (n - 1)) 0 :=
  if_pos (Nat.le_of_eq h.symm)

theorem finish_stop (h : j < n) (hc : m.byte (nth src j) = 0) :
    finish dest src n (k + 1) j m = m := by
  simp [finish, copyLoop, hc, Nat.not_le.mpr h]

theorem finish_step (hc : m.byte (nth src j) ≠ 0) :
    finish dest src n (k + 1) j m =
      finish dest src n k (j + 1) (m.put (nth dest j) (m.byte (nth src j))) := by
  rw [finish, copyLoop, if_pos hc]
  rfl

theorem finish_keeps (hn : n < 2 ^ 32) (hk : j + k = n) (hi : i < j) (hlast : i + 1 ≠ n) :
    (finish dest src n k j m).byte (nth dest i) = m.byte (nth dest i) := by
  induction k generalizing j m with
  | zero =>
    rw [finish_zero (j := j) hk]
    exact put_nth_of_ne (by omega) (by omega) (by omega)
  | succ k ih =>
    by_cases hc : m.byte (nth src j) = 0
    · rw [finish_stop (by omega) hc]
    · rw [finish_step hc, ih (by omega) (by omega)]
      exact put_nth_of_ne (by omega) (by omega) (by omega)

theorem finish_last (hk : k = 0) (hj : j = n) :
    (finish dest src n k j m).byte (nth dest (n - 1)) = 0 := by
  subst hk
  rw [finish_zero hj]
  exact put_self

theorem finish_written (hn : 0 < n) (hk : j + k = n)
    (h : ∀ a, a ∈ m.written ↔ ∃ i < n, a = nth dest i) :
    Wrote (finish dest src n k j m).written dest n := by
  have hput : ∀ {m : Mem} {i : Nat} {c : UInt8}, (∀ a, a ∈ m.written ↔ ∃ i < n, a = nth dest i) →
      i < n → ∀ a, a ∈ (m.put (nth dest i) c).written ↔ ∃ i < n, a = nth dest i := by
    intro m i c hm hi a
    rw [Mem.put, List.mem_cons, hm]
    refine or_iff_right_of_imp ?_
    rintro rfl
    exact ⟨i, hi, rfl⟩
  induction k generalizing j m with
  | zero =>
    rw [finish_zero (j := j) hk]
    exact hput h (by omega)
  | succ k ih =>
    by_cases hc : m.byte (nth src j) = 0
    · rw [finish_stop (by omega) hc]
      exact h
    · rw [finish_step hc]
      exact ih (by omega) (hput h (by omega))

-- ---------------------------------------------------------------------------
-- The loop
-- ---------------------------------------------------------------------------

/-- The memory after `j` rounds that have read what was in the string. -/
structure Rounds (byte : Addr → UInt8) (dest src : Addr) (n j : Nat) (m : Mem) : Prop where
  done : ∀ i < j, m.byte (nth dest i) = byte (nth src i)
  ahead : ∀ i < n, j ≤ i → m.byte (nth dest i) = 0
  others : ∀ a, (∀ i < n, a ≠ nth dest i) → m.byte a = byte a

theorem Rounds.next (h : Rounds byte dest src n j m) (hn : n < 2 ^ 32) (hj : j < n) :
    Rounds byte dest src n (j + 1) (m.put (nth dest j) (byte (nth src j))) where
  done i hi := by
    by_cases hij : i = j
    · subst hij
      exact put_self
    · rw [put_nth_of_ne (by omega) (by omega) hij]
      exact h.done i (by omega)
  ahead i hi hji := by
    rw [put_nth_of_ne (by omega) (by omega) (by omega)]
    exact h.ahead i hi (by omega)
  others a ha := by
    rw [put_of_ne (ha j hj)]
    exact h.others a ha

theorem Rounds.read (h : Rounds byte dest src n j m) :
    (∃ k < n, nth src j = nth dest k ∧ m.byte (nth src j) = if k < j then byte (nth src k) else 0) ∨
      (∀ k < n, nth src j ≠ nth dest k) ∧ m.byte (nth src j) = byte (nth src j) := by
  by_cases hin : ∃ k < n, nth src j = nth dest k
  · obtain ⟨k, hk, he⟩ := hin
    refine .inl ⟨k, hk, he, ?_⟩
    rw [he]
    split
    · exact h.done k ‹_›
    · exact h.ahead k hk (by omega)
  · have hout : ∀ k < n, nth src j ≠ nth dest k := fun k hk he => hin ⟨k, hk, he⟩
    exact .inr ⟨hout, h.others _ hout⟩

/-- Inside the string, the round reads what was there exactly when nothing disturbs it. -/
theorem Rounds.read_iff (h : Rounds byte dest src n j m) (hs : IsString byte src l) (hj : j < l)
    (hn : n < 2 ^ 32) :
    m.byte (nth src j) = byte (nth src j) ↔ Undisturbed byte dest src n l j := by
  have hne := hs.1 j hj
  rcases h.read with ⟨k, hk, he, hread⟩ | ⟨hout, hread⟩
  · rw [hread]
    constructor
    · intro hbyte k' hk' he'
      have hkk : k' = k := (nth_inj (by omega) (by omega)).mp (he'.symm.trans he)
      rw [hkk]
      split at hbyte
      · exact ⟨fun _ => ⟨‹_›, hbyte⟩, fun hl => absurd hl (Nat.ne_of_lt hj)⟩
      · exact absurd hbyte.symm hne
    · intro hund
      obtain ⟨hlt, hbyte⟩ := (hund k hk he).1 hj
      rw [if_pos hlt, hbyte]
  · exact iff_of_true hread fun k hk he => absurd he (hout k hk)

theorem Rounds.nul_iff (h : Rounds byte dest src n l m) (hs : IsString byte src l)
    (hn : n < 2 ^ 32) :
    m.byte (nth src l) = 0 ∨ l + 1 = n ↔ Undisturbed byte dest src n l l := by
  rcases h.read with ⟨k, hk, he, hread⟩ | ⟨hout, hread⟩
  · rw [hread]
    constructor
    · intro hstop k' hk' he'
      have hkk : k' = k := (nth_inj (by omega) (by omega)).mp (he'.symm.trans he)
      rw [hkk]
      refine ⟨fun hl => absurd hl (Nat.lt_irrefl l), fun _ => hstop.imp_left fun hz => ?_⟩
      split at hz
      · exact absurd hz (hs.1 k ‹_›)
      · exact Nat.le_of_not_lt ‹_›
    · intro hund
      exact ((hund k hk he).2 rfl).imp_left fun hle => if_neg (Nat.not_lt.mpr hle)
  · rw [hread]
    exact iff_of_true (.inl hs.2) fun k hk he => absurd he (hout k hk)

theorem finish_copied (hr : Rounds byte dest src n j m) (hs : IsString byte src l) (hn : n < 2 ^ 32)
    (hpos : 0 < n) (hk : j + k = n) (hjl : j ≤ l) :
    Copied byte (finish dest src n k j m).byte dest src n l ↔
      l < n ∧ ∀ i, j ≤ i → i ≤ l → Undisturbed byte dest src n l i := by
  induction k generalizing j m with
  | zero =>
    -- the last byte of the string that there is room for is overwritten
    refine iff_of_false (fun hc => ?_) fun hc => by omega
    have hlast : (finish dest src n 0 j m).byte (nth dest (n - 1)) = 0 :=
      finish_last rfl (Nat.add_zero j ▸ hk)
    rw [hc.1 (n - 1) (by omega) (by omega)] at hlast
    exact hs.1 (n - 1) (by omega) hlast
  | succ k ih =>
    rcases Nat.lt_or_eq_of_le hjl with hlt | rfl
    · have hread := hr.read_iff hs hlt hn
      by_cases heq : m.byte (nth src j) = byte (nth src j)
      · have hne : m.byte (nth src j) ≠ 0 := by
          rw [heq]
          exact hs.1 j hlt
        rw [finish_step hne, heq, ih (hr.next hn (by omega)) (by omega) hlt]
        refine and_congr_right fun _ => ⟨fun h i hji hil => ?_, fun h i hji => h i (by omega)⟩
        rcases Nat.lt_or_eq_of_le hji with hlt' | rfl
        · exact h i hlt' hil
        · exact hread.mp heq
      · refine iff_of_false (fun hc => ?_) fun h => heq (hread.mpr (h.2 j (Nat.le_refl j) hjl))
        have hcopied := hc.1 j (by omega) hlt
        by_cases hz : m.byte (nth src j) = 0
        · rw [finish_stop (by omega) hz, hr.ahead j (by omega) (Nat.le_refl j)] at hcopied
          exact hs.1 j hlt hcopied.symm
        · rw [finish_step hz] at hcopied
          by_cases hend : j + 1 = n
          · have hlast : (finish dest src n k (j + 1)
                (m.put (nth dest j) (m.byte (nth src j)))).byte (nth dest (n - 1)) = 0 :=
              finish_last (by omega) hend
            have hj : n - 1 = j := by omega
            rw [hj, hcopied] at hlast
            exact hs.1 j hlt hlast
          · rw [finish_keeps hn (by omega) (Nat.lt_succ_self j) hend, put_self] at hcopied
            exact heq hcopied
    · have hnul := hr.nul_iff hs hn
      have hund : (∀ i, j ≤ i → i ≤ j → Undisturbed byte dest src n j i) ↔
          Undisturbed byte dest src n j j :=
        ⟨fun h => h j (Nat.le_refl j) (Nat.le_refl j), fun h i h₁ h₂ => Nat.le_antisymm h₁ h₂ ▸ h⟩
      rw [hund, ← hnul, and_iff_right (by omega)]
      by_cases hz : m.byte (nth src j) = 0
      · rw [finish_stop (by omega) hz]
        exact iff_of_true ⟨fun i _ hi => hr.done i hi, hr.ahead⟩ (.inl hz)
      · rw [finish_step hz, or_iff_right hz]
        constructor
        · intro hc
          by_contra hend
          have hkept : (finish dest src n k (j + 1)
              (m.put (nth dest j) (m.byte (nth src j)))).byte (nth dest j) = _ :=
            finish_keeps hn (by omega) (Nat.lt_succ_self j) hend
          rw [hc.2 j (by omega) (Nat.le_refl j), put_self] at hkept
          exact hz hkept.symm
        · intro hend
          obtain rfl : k = 0 := by omega
          have hj : n - 1 = j := by omega
          rw [finish_zero hend, hj]
          refine ⟨fun i hi hil => ?_, fun i hi hil => ?_⟩
          · rw [put_nth_of_ne (by omega) (by omega) (by omega),
              put_nth_of_ne (by omega) (by omega) (by omega)]
            exact hr.done i hil
          · obtain rfl : i = j := by omega
            exact put_self

-- ---------------------------------------------------------------------------
-- The function
-- ---------------------------------------------------------------------------

theorem count_eq (n : BitVec 32) : n + 1 - 1 = n := BitVec.add_sub_cancel n 1

theorem rounds_zero (hn : n < 2 ^ 32) :
    Rounds byte dest src n 0 (Mem.fill ⟨byte, []⟩ dest 0 n) where
  done := nofun
  ahead _ hi _ := fill_inside hn hi
  others _ ha := fill_outside ha

theorem strncpy_eq {n : BitVec 32} (hn : 0 < n.toNat) :
    strncpy m dest src n = (dest, finish dest src n.toNat n.toNat 0 (m.fill dest 0 n.toNat)) := by
  have hlast : dest + (n - 1) = nth dest (n.toNat - 1) := by
    rw [nth]
    congr 1
    refine BitVec.eq_of_toNat_eq ?_
    have hlt := n.isLt
    rw [BitVec.toNat_ofNat, Nat.mod_eq_of_lt (by omega)]
    exact BitVec.toNat_sub_of_le (BitVec.le_def.mpr (Nat.succ_le_of_lt hn))
  rw [strncpy, memset, count_eq, hlast]
  rfl

/-- The destination gets the string and zeros, and nothing else is written, exactly when the
string is shorter than it and copying does not disturb it. -/
theorem strncpy_iff (hs : IsString byte src l) (n : BitVec 32) :
    Copied byte (strncpy ⟨byte, []⟩ dest src n).2.byte dest src n.toNat l ∧
        Wrote (strncpy ⟨byte, []⟩ dest src n).2.written dest n.toNat ↔
      l < n.toNat ∧ ∀ i ≤ l, Undisturbed byte dest src n.toNat l i := by
  by_cases hn : 0 < n.toNat
  · rw [strncpy_eq hn, finish_copied (rounds_zero n.isLt) hs n.isLt hn (Nat.zero_add _) (Nat.zero_le l)]
    refine (and_iff_left ?_).trans (by simp)
    refine finish_written hn (Nat.zero_add _) fun a => ?_
    rw [fill_written]
    simp
  · -- `dest[-1]` is written
    obtain rfl : n = 0 := BitVec.eq_of_toNat_eq (Nat.eq_zero_of_not_pos hn)
    refine iff_of_false (fun h => ?_) fun h => absurd h.1 (Nat.not_lt_zero l)
    obtain ⟨i, hi, -⟩ := (h.2 (dest + (0 - 1))).mp (by simp [strncpy, copyLoop, Mem.put])
    exact Nat.not_lt_zero i hi

end

/-- "fnord" at 0x1000. -/
def fnord (a : Addr) : UInt8 := [102, 110, 111, 114, 100].getD (a - 0x1000#32).toNat 0

theorem fnord_isString : IsString fnord 0x1000#32 5 := ⟨by decide, by decide⟩

theorem strncpy_fnord : Copied fnord (strncpy ⟨fnord, []⟩ 0x2000#32 0x1000#32 6#32).2.byte 0x2000#32
    0x1000#32 6 5 ∧ Wrote (strncpy ⟨fnord, []⟩ 0x2000#32 0x1000#32 6#32).2.written 0x2000#32 6 :=
  (strncpy_iff fnord_isString 6#32).mpr ⟨by decide, by decide +kernel⟩

/-- The last of five bytes is 0 and not a 'd'. -/
theorem last_byte_lost : IsString fnord 0x1000#32 5 ∧
    ¬Copied fnord (strncpy ⟨fnord, []⟩ 0x2000#32 0x1000#32 5#32).2.byte 0x2000#32 0x1000#32 5 5 := by
  refine ⟨fnord_isString, fun h => ?_⟩
  exact absurd (h.1 4 (by decide) (by decide)) (by decide +kernel)

end Xmertl.Partikle.Strncpy
