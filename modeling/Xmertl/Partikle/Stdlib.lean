import Mathlib.Data.List.DropRight
import Xmertl.Lib.Numerals

/-!
# Numbers from text

`strtoul` and `strtol` of `ulibc/libc/stdlib.c` and of `core/libc/stdlib.c`, which are the
same. A pointer into a string is what the string holds from there on, its NUL left out;
where `endptr` points elsewhere than into the string it is `none`.
-/

namespace Xmertl.Partikle.Stdlib

open Numerals

abbrev Ptr := List UInt8

/-- `p[i]`, the NUL at the end among them. -/
def nth (p : Ptr) (i : Nat) : UInt8 := p.getD i 0

-- ---------------------------------------------------------------------------
-- ctype.h
-- ---------------------------------------------------------------------------

def isspace (ch : UInt8) : Bool := ch - 9 < 5 || ch = ' '.toUInt8

def isdigit (ch : UInt8) : Bool := ch - '0'.toUInt8 < 10

def isxdigit (ch : UInt8) : Bool := isdigit ch || (ch ||| 0x20) - 'a'.toUInt8 < 6

def isalnum (ch : UInt8) : Bool := (ch ||| 0x20) - 'a'.toUInt8 < 26 || isdigit ch

-- ---------------------------------------------------------------------------
-- strtoul
-- ---------------------------------------------------------------------------

def ULONG_MAX : BitVec 32 := 0xffffffff

/-- `while (isspace (*nptr)) ++nptr`. -/
def skipSpace (nptr : Ptr) : Ptr := nptr.dropWhile isspace

def sign (nptr : Ptr) : Bool × Ptr :=
  if nth nptr 0 = '-'.toUInt8 then (true, nptr.tail)
  else if nth nptr 0 = '+'.toUInt8 then (false, nptr.tail)
  else (false, nptr)

def skip0x (base : BitVec 32) (nptr : Ptr) : BitVec 32 × Ptr :=
  if (nth nptr 1 = 'x'.toUInt8 ∨ nth nptr 1 = 'X'.toUInt8) ∧ isxdigit (nth nptr 2) then
    (16, nptr.drop 2)
  else (base, nptr)

def radix (base : BitVec 32) (nptr : Ptr) : Option (BitVec 32 × Ptr) :=
  if base = 16 ∧ nth nptr 0 = '0'.toUInt8 then some (skip0x base nptr)
  else if base ≠ 0 then if base - 2 > 34 then none else some (base, nptr)
  else if nth nptr 0 = '0'.toUInt8 then some (skip0x 8 nptr)
  else some (10, nptr)

def digit (c : UInt8) : UInt8 :=
  if c ≥ 'a'.toUInt8 then c - 'a'.toUInt8 + 10
  else if c ≥ 'A'.toUInt8 then c - 'A'.toUInt8 + 10
  else if c ≤ '9'.toUInt8 then c - '0'.toUInt8
  else 0xff

/-- `v` with one digit more, the lowest byte apart from the others. -/
def accumulate (base v : BitVec 32) (c : UInt8) : BitVec 32 × Bool :=
  let x := (v &&& 0xff) * base + c.toBitVec.zeroExtend 32
  let w := (v >>> 8) * base + (x >>> 8)
  ((w <<< 8) + (x &&& 0xff), w > ULONG_MAX >>> 8)

def digits (base : BitVec 32) : BitVec 32 → Bool → Ptr → BitVec 32 × Bool × Ptr
  | v, overflow, [] => (v, overflow, [])
  | v, overflow, ch :: nptr =>
    let c := digit ch
    if (c.toNat : Int) ≥ base.toInt then (v, overflow, ch :: nptr)
    else
      let (v, wrapped) := accumulate base v c
      digits base v (overflow || wrapped) nptr

/-- The value, and `*endptr` after the call. -/
def strtoul (ptr : Ptr) (endptr : Option Ptr) (base : BitVec 32) : BitVec 32 × Option Ptr :=
  let (neg, orig) := sign (skipSpace ptr)
  match radix base orig with
  | none => (0, endptr)
  | some (base, nptr) =>
    let (v, overflow, nptr) := digits base 0 false nptr
    let (v, nptr) := if nptr = orig then (0, ptr) else (v, nptr)
    (if overflow then ULONG_MAX else if neg then -v else v, some nptr)

-- ---------------------------------------------------------------------------
-- strtol
-- ---------------------------------------------------------------------------

def ABS_LONG_MIN : BitVec 32 := 2147483648

def LONG_MAX : BitVec 32 := 2147483647

def LONG_MIN : BitVec 32 := -1 - LONG_MAX

def strtol (nptr : Ptr) (endptr : Option Ptr) (base : BitVec 32) : BitVec 32 × Option Ptr :=
  let orig := nptr
  let nptr := skipSpace nptr
  let neg := nth nptr 0 = '-'.toUInt8 ∧ isalnum (nth nptr 1)
  let nptr := if neg then nptr.tail else nptr
  let (v, endptr) := strtoul nptr endptr base
  let endptr := if endptr = some nptr then some orig else endptr
  if v ≥ ABS_LONG_MIN then
    (if v = ABS_LONG_MIN ∧ neg then v else if neg then LONG_MIN else LONG_MAX, endptr)
  else (if neg then -v else v, endptr)

-- ---------------------------------------------------------------------------
-- What they are to read
-- ---------------------------------------------------------------------------

def digitValue (c : UInt8) : Nat :=
  if '0'.toUInt8 ≤ c ∧ c ≤ '9'.toUInt8 then c.toNat - '0'.toNat
  else if 'a'.toUInt8 ≤ c ∧ c ≤ 'z'.toUInt8 then c.toNat - 'a'.toNat + 10
  else if 'A'.toUInt8 ≤ c ∧ c ≤ 'Z'.toUInt8 then c.toNat - 'A'.toNat + 10
  else 36

def Digits (b : Nat) (text : List UInt8) : Prop := text ≠ [] ∧ ∀ c ∈ text, digitValue c < b

def number (b : Nat) (text : List UInt8) : Nat := Numerals.value b (text.map digitValue)

def ex (x : UInt8) : Prop := x = 'x'.toUInt8 ∨ x = 'X'.toUInt8

/-- A number without its sign, in the base asked for; 0 asks for a constant of C. -/
inductive Numeral : Nat → List UInt8 → Nat → Prop
  | digits : 2 ≤ b → b ≤ 36 → Digits b text → Numeral b text (number b text)
  | hexadecimal : ex x → Digits 16 text → Numeral 16 ('0'.toUInt8 :: x :: text) (number 16 text)
  | decimal : Digits 10 text → nth text 0 ≠ '0'.toUInt8 → Numeral 0 text (number 10 text)
  | octal : Digits 8 text → nth text 0 = '0'.toUInt8 → Numeral 0 text (number 8 text)
  | prefixed : ex x → Digits 16 text → Numeral 0 ('0'.toUInt8 :: x :: text) (number 16 text)

inductive Subject (base : Nat) : List UInt8 → Bool → Nat → Prop
  | unsigned : Numeral base text n → Subject base text false n
  | plus : Numeral base text n → Subject base ('+'.toUInt8 :: text) false n
  | minus : Numeral base text n → Subject base ('-'.toUInt8 :: text) true n

def Readable (base : Nat) (text : List UInt8) : Prop := ∃ neg n, Subject base text neg n

-- ---------------------------------------------------------------------------
-- The digits
-- ---------------------------------------------------------------------------

variable {base v : BitVec 32} {c : UInt8}

theorem digitValue_digit (c : UInt8) :
    digitValue c = if (digit c).toNat < 36 then (digit c).toNat else 36 := by
  have hall : ∀ i : Fin 256, digitValue (UInt8.ofFin i) =
      if (digit (UInt8.ofFin i)).toNat < 36 then (digit (UInt8.ofFin i)).toNat else 36 := by
    decide +kernel
  exact hall c.toFin

theorem low_byte (x : BitVec 32) : (x &&& 0xff).toNat = x.toNat % 256 := by
  rw [BitVec.toNat_and]
  exact Nat.and_two_pow_sub_one_eq_mod x.toNat 8

theorem high_bytes (x : BitVec 32) : (x >>> 8).toNat = x.toNat / 256 := by
  rw [BitVec.toNat_ushiftRight]
  exact Nat.shiftRight_eq_div_pow x.toNat 8

theorem accumulate_spec (base v : BitVec 32) (c : UInt8) (hb : base.toNat ≤ 36) (hc : c.toNat < 36) :
    (accumulate base v c).1.toNat = (v.toNat * base.toNat + c.toNat) % 2 ^ 32 ∧
      (accumulate base v c).2 = decide (2 ^ 32 ≤ v.toNat * base.toNat + c.toNat) := by
  have hsplit : v.toNat * base.toNat =
      256 * (v.toNat / 256 * base.toNat) + v.toNat % 256 * base.toNat := by
    rw [← Nat.mul_assoc, ← Nat.add_mul, Nat.div_add_mod]
  have hlow : v.toNat % 256 * base.toNat ≤ 255 * 36 :=
    Nat.mul_le_mul (Nat.le_of_lt_succ (Nat.mod_lt _ (by decide))) hb
  have hhigh : v.toNat / 256 * base.toNat ≤ 16777215 * 36 :=
    Nat.mul_le_mul (by have hv := v.isLt; omega) hb
  have hx : ((v &&& 0xff) * base + c.toBitVec.zeroExtend 32).toNat =
      v.toNat % 256 * base.toNat + c.toNat := by
    rw [BitVec.toNat_add, BitVec.toNat_mul, low_byte, BitVec.zeroExtend,
      BitVec.toNat_setWidth, UInt8.toNat_toBitVec]
    omega
  have hw : ((v >>> 8) * base + (((v &&& 0xff) * base + c.toBitVec.zeroExtend 32) >>> 8)).toNat =
      v.toNat / 256 * base.toNat + (v.toNat % 256 * base.toNat + c.toNat) / 256 := by
    rw [BitVec.toNat_add, BitVec.toNat_mul, high_bytes, high_bytes, hx]
    omega
  unfold accumulate
  dsimp only
  constructor
  · rw [BitVec.toNat_add, BitVec.toNat_shiftLeft, hw, low_byte, hx, Nat.shiftLeft_eq]
    omega
  · refine decide_eq_decide.mpr ?_
    rw [gt_iff_lt, BitVec.lt_def, hw, high_bytes, hsplit]
    show (ULONG_MAX.toNat / 256 < _) ↔ _
    rw [show ULONG_MAX.toNat = 4294967295 from rfl]
    omega

def run (b : Nat) (s : List UInt8) : List UInt8 := s.takeWhile fun c => digitValue c < b

theorem digit_lt {b : Nat} (hb : b ≤ 36) (c : UInt8) :
    (digit c).toNat < b ↔ digitValue c < b := by
  rw [digitValue_digit c]
  split <;> omega

theorem toNat_digit {b : Nat} (hb : b ≤ 36) (h : digitValue c < b) :
    (digit c).toNat = digitValue c := by
  rw [digitValue_digit c] at h ⊢
  split at h
  · rw [if_pos ‹_›]
  · omega

theorem toNat_ofNat {b : Nat} (hb : b ≤ 36) : (BitVec.ofNat 32 b).toNat = b := by
  rw [BitVec.toNat_ofNat, Nat.mod_eq_of_lt (by omega)]

theorem toInt_ofNat {b : Nat} (hb : b ≤ 36) : (BitVec.ofNat 32 b).toInt = b := by
  have hnat := toNat_ofNat hb
  rw [BitVec.toInt_eq_toNat_of_lt (by omega), hnat]

theorem digits_spec {b : Nat} (hb : 1 ≤ b) (hb' : b ≤ 36) {ds : List Nat} {overflow : Bool}
    (s : Ptr) (h : Counts (2 ^ 32) (value b ds) v.toNat overflow) :
    ∃ v' overflow', digits (BitVec.ofNat 32 b) v overflow s =
        (v', overflow', s.drop (run b s).length) ∧
      Counts (2 ^ 32) (value b (ds ++ (run b s).map digitValue)) v'.toNat overflow' := by
  induction s generalizing v overflow ds with
  | nil => exact ⟨v, overflow, rfl, by rwa [run, List.takeWhile_nil, List.map_nil, List.append_nil]⟩
  | cons ch s ih =>
    rw [digits, toInt_ofNat hb']
    by_cases hch : digitValue ch < b
    · have hdigit := toNat_digit hb' hch
      have hrun : run b (ch :: s) = ch :: run b s := List.takeWhile_cons_of_pos (by simpa using hch)
      obtain ⟨hv, hwraps⟩ := accumulate_spec (BitVec.ofNat 32 b) v (digit ch)
        (by rw [toNat_ofNat hb']; exact hb') (by omega)
      have hstep := h.step (d := digitValue ch) hb
      rw [← value_concat, ← hdigit, ← toNat_ofNat hb', ← hv, ← hwraps, toNat_ofNat hb', hdigit]
        at hstep
      rw [if_neg (by omega), hrun, List.map_cons, List.append_cons]
      exact ih hstep
    · have hrun : run b (ch :: s) = [] := List.takeWhile_cons_of_neg (by simpa using hch)
      rw [if_pos (by have hge := mt (digit_lt hb' ch).mp hch; omega), hrun]
      exact ⟨v, overflow, rfl, by rwa [List.map_nil, List.append_nil]⟩

theorem digits_start {b : Nat} (hb : 1 ≤ b) (hb' : b ≤ 36) (s : Ptr) :
    ∃ v overflow, digits (BitVec.ofNat 32 b) 0 false s = (v, overflow, s.drop (run b s).length) ∧
      Counts (2 ^ 32) (number b (run b s)) v.toNat overflow := by
  have hzero : Counts (2 ^ 32) (value b []) (0 : BitVec 32).toNat false := Counts.zero (by decide)
  exact digits_spec hb hb' s hzero

-- ---------------------------------------------------------------------------
-- Numerals
-- ---------------------------------------------------------------------------

variable {t text : List UInt8} {b n : Nat} {neg : Bool}

theorem digits_iff : Digits b text ↔ text ≠ [] ∧ ∀ c ∈ text, decide (digitValue c < b) = true := by
  simp only [Digits, decide_eq_true_eq]

theorem Digits.run (h : run b t ≠ []) : Digits b (Stdlib.run b t) :=
  digits_iff.mpr ⟨h, List.all_eq_true.mp List.all_takeWhile⟩

theorem Digits.head (h : Digits b text) : digitValue (nth text 0) < b := by
  cases text with
  | nil => exact absurd rfl h.1
  | cons c text => exact h.2 c List.mem_cons_self

theorem Digits.le_run (h : Digits b text) (hs : text <+: t) :
    text.length ≤ (Stdlib.run b t).length :=
  (prefix_takeWhile (digits_iff.mp h).2 hs).length_le

theorem nth_zero_start (hs : text <+: t) (hne : text ≠ []) : nth text 0 = nth t 0 := by
  obtain ⟨rest, rfl⟩ := hs
  cases text with
  | nil => exact absurd rfl hne
  | cons c text => rfl

theorem digitValue_ex {x : UInt8} (h : ex x) : digitValue x = 33 := by
  rcases h with rfl | rfl <;> rfl

theorem byte_classes (c : UInt8) : (isxdigit c = true ↔ digitValue c < 16) ∧
    (isalnum c = true ↔ digitValue c < 36) ∧
      (digitValue c < 36 → isspace c = false ∧ c ≠ '-'.toUInt8 ∧ c ≠ '+'.toUInt8) := by
  have hall : ∀ i : Fin 256,
      (isxdigit (UInt8.ofFin i) = true ↔ digitValue (UInt8.ofFin i) < 16) ∧
      (isalnum (UInt8.ofFin i) = true ↔ digitValue (UInt8.ofFin i) < 36) ∧
        (digitValue (UInt8.ofFin i) < 36 → isspace (UInt8.ofFin i) = false ∧
          UInt8.ofFin i ≠ '-'.toUInt8 ∧ UInt8.ofFin i ≠ '+'.toUInt8) := by
    decide +kernel
  exact hall c.toFin

theorem run_ne_nil_iff : run b t ≠ [] ↔ t ≠ [] ∧ digitValue (nth t 0) < b := by
  cases t with
  | nil => simp [run]
  | cons c t =>
    by_cases hc : digitValue c < b
    · simp [run, nth, hc]
    · simp [run, nth, hc]

theorem eq_cons_of_nth {c : UInt8} (h : nth t 0 = c) (hc : c ≠ 0) : ∃ u, t = c :: u := by
  cases t with
  | nil => exact absurd h.symm hc
  | cons a u => exact ⟨u, congrArg (· :: u) h⟩

theorem hexForm_iff : nth t 0 = '0'.toUInt8 ∧ (ex (nth t 1)) ∧ isxdigit (nth t 2) = true ↔
    ∃ x u, t = '0'.toUInt8 :: x :: u ∧ ex x ∧ run 16 u ≠ [] := by
  constructor
  · rintro ⟨hzero, hx, hdigit⟩
    obtain ⟨u, rfl⟩ := eq_cons_of_nth hzero (by decide)
    cases u with
    | nil => rcases hx with hx | hx <;> exact absurd hx (by decide)
    | cons x u =>
      refine ⟨x, u, rfl, hx, run_ne_nil_iff.mpr ⟨?_, (byte_classes _).1.mp hdigit⟩⟩
      rintro rfl
      exact absurd hdigit (show ¬isxdigit 0 = true by decide)
  · rintro ⟨x, u, rfl, hx, hrun⟩
    exact ⟨rfl, hx, (byte_classes _).1.mpr (run_ne_nil_iff.mp hrun).2⟩

/-- The base, and what the digits follow, where there is no prefix for base 16. -/
def plainBase (base : Nat) (t : Ptr) : Nat :=
  if base ≠ 0 then base else if nth t 0 = '0'.toUInt8 then 8 else 10

/-- There is a prefix for base 16, and it is looked for. -/
def Prefixed (base : Nat) (t : Ptr) : Prop :=
  (base = 0 ∨ base = 16) ∧ nth t 0 = '0'.toUInt8 ∧ ex (nth t 1) ∧ isxdigit (nth t 2) = true

variable {base : Nat}

theorem skip0x_plain {k : BitVec 32} (h : ¬(ex (nth t 1) ∧ isxdigit (nth t 2) = true)) :
    skip0x k t = (k, t) := if_neg h

theorem radix_prefixed (h : Prefixed base t) : radix (BitVec.ofNat 32 base) t =
    some (BitVec.ofNat 32 16, t.drop 2) := by
  obtain ⟨hbase, hzero, hx, hdigit⟩ := h
  have hskip (k : BitVec 32) : skip0x k t = (BitVec.ofNat 32 16, t.drop 2) :=
    if_pos ⟨hx, hdigit⟩
  unfold radix
  rcases hbase with rfl | rfl
  · rw [if_neg (by simp), if_neg (by simp), if_pos hzero, hskip]
  · rw [if_pos ⟨rfl, hzero⟩, hskip]

theorem ofNat_inj {k : Nat} (hb : b ≤ 36) (hk : k ≤ 36)
    (h : BitVec.ofNat 32 b = BitVec.ofNat 32 k) : b = k := by
  rw [← toNat_ofNat hb, h, toNat_ofNat hk]

theorem ofNat_ne_zero (hlow : 2 ≤ b) (hhigh : b ≤ 36) : BitVec.ofNat 32 b ≠ 0 := fun h => by
  have heq : b = 0 := ofNat_inj hhigh (Nat.zero_le _) h
  omega

theorem base_le (hlow : 2 ≤ b) (hhigh : b ≤ 36) : ¬BitVec.ofNat 32 b - 2 > 34 := by
  rw [gt_iff_lt, BitVec.lt_def, BitVec.toNat_sub, toNat_ofNat hhigh]
  show ¬34 < (2 ^ 32 - 2 + b) % 2 ^ 32
  omega

theorem radix_plain (hbase : base = 0 ∨ 2 ≤ base ∧ base ≤ 36) (h : ¬Prefixed base t) :
    radix (BitVec.ofNat 32 base) t = some (BitVec.ofNat 32 (plainBase base t), t) := by
  have hskip (k : BitVec 32) (hask : base = 0 ∨ base = 16) (hzero : nth t 0 = '0'.toUInt8) :
      skip0x k t = (k, t) := skip0x_plain fun hx => h ⟨hask, hzero, hx⟩
  unfold radix plainBase
  by_cases hzero : nth t 0 = '0'.toUInt8
  · rcases hbase with rfl | ⟨hlow, hhigh⟩
    · rw [if_neg (by simp), if_neg (by simp), if_pos hzero, if_neg (by simp), if_pos hzero,
        hskip _ (.inl rfl) hzero]
      rfl
    · rw [if_pos (show base ≠ 0 by omega)]
      by_cases hsix : base = 16
      · rw [if_pos ⟨by rw [hsix]; rfl, hzero⟩, hskip _ (.inr hsix) hzero]
      · rw [if_neg fun heq => hsix (ofNat_inj hhigh (by decide) heq.1),
          if_pos (ofNat_ne_zero hlow hhigh),
          if_neg (base_le hlow hhigh)]
  · rw [if_neg fun heq => hzero heq.2]
    rcases hbase with rfl | ⟨hlow, hhigh⟩
    · rw [if_neg (by simp), if_neg hzero, if_neg (by simp), if_neg hzero]
      rfl
    · rw [if_pos (show base ≠ 0 by omega),
        if_pos (ofNat_ne_zero hlow hhigh),
        if_neg (base_le hlow hhigh)]

theorem plainBase_bounds (hbase : base = 0 ∨ 2 ≤ base ∧ base ≤ 36) :
    1 ≤ plainBase base t ∧ plainBase base t ≤ 36 := by
  unfold plainBase
  split
  · omega
  · split <;> decide

theorem numeral_plain (hbase : base = 0 ∨ 2 ≤ base ∧ base ≤ 36) (h : ¬Prefixed base t)
    (hs : text <+: t) : Numeral base text n ↔
      Digits (plainBase base t) text ∧ n = number (plainBase base t) text := by
  have hhex {x : UInt8} {v : List UInt8} (hbase : base = 0 ∨ base = 16) (hx : ex x)
      (hv : Digits 16 v) (hs : '0'.toUInt8 :: x :: v <+: t) : False := by
    obtain ⟨rest, rfl⟩ := hs
    refine h ⟨hbase, hexForm_iff.mpr ⟨x, v ++ rest, rfl, hx, run_ne_nil_iff.mpr ?_⟩⟩
    refine ⟨List.append_ne_nil_of_left_ne_nil hv.1 _, ?_⟩
    rw [← nth_zero_start (List.prefix_append v rest) hv.1]
    exact hv.head
  constructor
  · intro hn
    cases hn with
    | digits hlow hhigh hd =>
      rw [plainBase, if_pos (by omega)]
      exact ⟨hd, rfl⟩
    | hexadecimal hx hd => exact absurd hs (hhex (.inr rfl) hx hd)
    | decimal hd hzero =>
      rw [plainBase, if_neg (by simp), if_neg (by rwa [← nth_zero_start hs hd.1])]
      exact ⟨hd, rfl⟩
    | octal hd hzero =>
      rw [plainBase, if_neg (by simp), if_pos (by rwa [← nth_zero_start hs hd.1])]
      exact ⟨hd, rfl⟩
    | prefixed hx hd => exact absurd hs (hhex (.inl rfl) hx hd)
  · rintro ⟨hd, rfl⟩
    unfold plainBase at hd ⊢
    rcases hbase with rfl | ⟨hlow, hhigh⟩
    · rw [if_neg (by simp)] at hd ⊢
      split at hd
      · rename_i hzero
        rw [if_pos hzero]
        exact .octal hd (by rwa [nth_zero_start hs hd.1])
      · rename_i hzero
        rw [if_neg hzero]
        exact .decimal hd (by rwa [nth_zero_start hs hd.1])
    · rw [if_pos (by omega)] at hd ⊢
      exact .digits hlow hhigh hd

-- ---------------------------------------------------------------------------
-- The longest numeral
-- ---------------------------------------------------------------------------

theorem longest_plain (hbase : base = 0 ∨ 2 ≤ base ∧ base ≤ 36) (h : ¬Prefixed base t)
    (hrun : run (plainBase base t) t ≠ []) :
    LongestPrefix (fun text => ∃ n, Numeral base text n) t (run (plainBase base t) t) where
  accepted := ⟨_, (numeral_plain hbase h (List.takeWhile_prefix _)).mpr ⟨.run hrun, rfl⟩⟩
  start := List.takeWhile_prefix _
  longest := by
    rintro text ⟨n, hn⟩ hs
    exact ((numeral_plain hbase h hs).mp hn).1.le_run hs

theorem numeral_prefixed {x : UInt8} {u : List UInt8} (hx : ex x)
    (hs : text <+: '0'.toUInt8 :: x :: u) (hn : Numeral base text n) (hbase : base = 0 ∨ base = 16) :
    text.length ≤ 1 ∨ ∃ v, text = '0'.toUInt8 :: x :: v ∧ Digits 16 v ∧ n = number 16 v := by
  have hshort {b : Nat} (hb : b ≤ 16) (hd : Digits b text) : text.length ≤ 1 := by
    have hle := hd.le_run hs
    have hzero : digitValue x = 33 := digitValue_ex hx
    rw [run, List.takeWhile_cons] at hle
    split at hle
    · rw [List.takeWhile_cons_of_neg (by simp; omega)] at hle
      simpa using hle
    · exact hle.trans (Nat.zero_le 1)
  have hlong {y : UInt8} {v : List UInt8} (hs : '0'.toUInt8 :: y :: v <+: '0'.toUInt8 :: x :: u) :
      y = x := by
    obtain ⟨-, hs⟩ := List.cons_prefix_cons.mp hs
    exact (List.cons_prefix_cons.mp hs).1
  cases hn with
  | digits hlow hhigh hd => exact .inl (hshort (by omega) hd)
  | hexadecimal hy hd => exact .inr ⟨_, by rw [hlong hs], hd, rfl⟩
  | decimal hd _ => exact .inl (hshort (by decide) hd)
  | octal hd _ => exact .inl (hshort (by decide) hd)
  | prefixed hy hd => exact .inr ⟨_, by rw [hlong hs], hd, rfl⟩

theorem longest_prefixed {x : UInt8} {u : List UInt8} (hx : ex x) (hrun : run 16 u ≠ [])
    (hbase : base = 0 ∨ base = 16) :
    LongestPrefix (fun text => ∃ n, Numeral base text n) ('0'.toUInt8 :: x :: u)
      ('0'.toUInt8 :: x :: run 16 u) where
  accepted := by
    rcases hbase with rfl | rfl
    · exact ⟨_, .prefixed hx (.run hrun)⟩
    · exact ⟨_, .hexadecimal hx (.run hrun)⟩
  start := (List.prefix_append_right_inj ['0'.toUInt8, x]).mpr (List.takeWhile_prefix _)
  longest := by
    rintro text ⟨n, hn⟩ hs
    rcases numeral_prefixed hx hs hn hbase with hle | ⟨v, rfl, hv, -⟩
    · exact hle.trans (by simp)
    · have hle := hv.le_run ((List.prefix_append_right_inj ['0'.toUInt8, x]).mp hs)
      simpa using hle

inductive Found (base : Nat) (t : Ptr) (b : Nat) (u : Ptr) : Prop
  | none : run b u = [] → u = t → (∀ text n, text <+: t → ¬Numeral base text n) → Found base t b u
  | some (pre : List UInt8) : t = pre ++ u → run b u ≠ [] →
      LongestPrefix (fun text => ∃ n, Numeral base text n) t (pre ++ run b u) →
      (∀ n, Numeral base (pre ++ run b u) n → n = number b (run b u)) → Found base t b u

theorem radix_found (hbase : base = 0 ∨ 2 ≤ base ∧ base ≤ 36) (t : Ptr) :
    ∃ b u, radix (BitVec.ofNat 32 base) t = some (BitVec.ofNat 32 b, u) ∧ 1 ≤ b ∧ b ≤ 36 ∧
      Found base t b u := by
  by_cases h : Prefixed base t
  · obtain ⟨x, u, rfl, hx, hrun⟩ := hexForm_iff.mp h.2
    refine ⟨16, u, radix_prefixed h, by decide, by decide, ?_⟩
    refine .some ['0'.toUInt8, x] rfl hrun (longest_prefixed hx hrun h.1) fun n hn => ?_
    have hs := (longest_prefixed hx hrun h.1).start
    rcases numeral_prefixed hx hs hn h.1 with hle | ⟨v, hv, -, rfl⟩
    · simp at hle
    · rw [(List.cons.inj (List.cons.inj hv).2).2]
  · obtain ⟨hlow, hhigh⟩ := plainBase_bounds (t := t) hbase
    refine ⟨_, t, radix_plain hbase h, hlow, hhigh, ?_⟩
    by_cases hrun : run (plainBase base t) t = []
    · refine .none hrun rfl fun text n hs hn => ?_
      have hd := ((numeral_plain hbase h hs).mp hn).1
      have hle := hd.le_run hs
      rw [hrun] at hle
      exact hd.1 (List.eq_nil_of_length_eq_zero (Nat.le_zero.mp hle))
    · exact .some [] rfl hrun (longest_plain hbase h hrun) fun n hn =>
        ((numeral_plain hbase h (List.takeWhile_prefix _)).mp hn).2

theorem Numeral.head (h : Numeral base text n) : digitValue (nth text 0) < 36 := by
  cases h with
  | digits _ hhigh hd => exact hd.head.trans_le hhigh
  | decimal hd _ | octal hd _ => exact hd.head.trans_le (by decide)
  | hexadecimal | prefixed => exact (by decide : digitValue '0'.toUInt8 < 36)

theorem Numeral.ne_nil (h : Numeral base text n) : text ≠ [] := by
  rintro rfl
  exact absurd h.head (by decide)

theorem sign_spec (base : Nat) (s : Ptr) : ∃ pre, s = pre ++ (sign s).2 ∧
    ∀ text, text <+: s → ∀ neg n, Subject base text neg n ↔
      ∃ v, text = pre ++ v ∧ neg = (sign s).1 ∧ Numeral base v n := by
  have hhead {c : UInt8} {v text : List UInt8} (hc : 36 ≤ digitValue c) (hs : text <+: c :: v) {n : Nat} :
      ¬Numeral base text n := fun hn => by
    have hdigit := hn.head
    rw [nth_zero_start hs hn.ne_nil] at hdigit
    exact absurd hdigit (by show ¬digitValue c < 36; omega)
  unfold sign
  by_cases hminus : nth s 0 = '-'.toUInt8
  · obtain ⟨u, rfl⟩ := eq_cons_of_nth hminus (by decide)
    rw [if_pos hminus]
    refine ⟨['-'.toUInt8], rfl, fun text hs neg n => ⟨fun h => ?_, ?_⟩⟩
    · cases h with
      | unsigned hn => exact absurd hn (hhead (by decide) hs)
      | plus => exact absurd (List.cons_prefix_cons.mp hs).1 (by decide)
      | minus hn => exact ⟨_, rfl, rfl, hn⟩
    · rintro ⟨v, rfl, rfl, hn⟩
      exact .minus hn
  · rw [if_neg hminus]
    by_cases hplus : nth s 0 = '+'.toUInt8
    · obtain ⟨u, rfl⟩ := eq_cons_of_nth hplus (by decide)
      rw [if_pos hplus]
      refine ⟨['+'.toUInt8], rfl, fun text hs neg n => ⟨fun h => ?_, ?_⟩⟩
      · cases h with
        | unsigned hn => exact absurd hn (hhead (by decide) hs)
        | plus hn => exact ⟨_, rfl, rfl, hn⟩
        | minus => exact absurd (List.cons_prefix_cons.mp hs).1 (by decide)
      · rintro ⟨v, rfl, rfl, hn⟩
        exact .plus hn
    · rw [if_neg hplus]
      refine ⟨[], rfl, fun text hs neg n => ⟨fun h => ?_, ?_⟩⟩
      · cases h with
        | unsigned hn => exact ⟨_, rfl, rfl, hn⟩
        | plus => exact absurd (nth_zero_start hs (by simp)).symm hplus
        | minus => exact absurd (nth_zero_start hs (by simp)).symm hminus
      · rintro ⟨v, rfl, rfl, hn⟩
        exact .unsigned hn

-- ---------------------------------------------------------------------------
-- What they read
-- ---------------------------------------------------------------------------

theorem strtoul_eq {s u rest : Ptr} {base k v : BitVec 32} {overflow : Bool}
    (endptr : Option Ptr) (hradix : radix base (sign (skipSpace s)).2 = some (k, u))
    (hdigits : digits k 0 false u = (v, overflow, rest)) : strtoul s endptr base =
      if rest = (sign (skipSpace s)).2 then
        (if overflow then ULONG_MAX else if (sign (skipSpace s)).1 then -0 else 0, some s)
      else (if overflow then ULONG_MAX else if (sign (skipSpace s)).1 then -v else v, some rest) := by
  unfold strtoul
  dsimp only
  rw [hradix]
  dsimp only
  rw [hdigits]
  dsimp only
  by_cases hrest : rest = (sign (skipSpace s)).2
  · rw [if_pos hrest, if_pos hrest]
  · rw [if_neg hrest, if_neg hrest]

theorem strtoul_reads (hbase : base = 0 ∨ 2 ≤ base ∧ base ≤ 36) (s : Ptr) (endptr : Option Ptr)
    (htext : LongestPrefix (Readable base) (skipSpace s) text) (hn : Subject base text neg n) :
    strtoul s endptr (BitVec.ofNat 32 base) =
      (if 2 ^ 32 ≤ n then ULONG_MAX else if neg then -BitVec.ofNat 32 n else BitVec.ofNat 32 n,
        some ((skipSpace s).drop text.length)) := by
  obtain ⟨pre, hpre, hsign⟩ := sign_spec base (skipSpace s)
  obtain ⟨v, rfl, rfl, hv⟩ := (hsign text htext.start neg n).mp hn
  obtain ⟨b, u, hradix, hlow, hhigh, hfound⟩ := radix_found hbase (sign (skipSpace s)).2
  have hvs : v <+: (sign (skipSpace s)).2 := by
    have hstart := htext.start
    rw [hpre] at hstart
    exact (List.prefix_append_right_inj pre).mp hstart
  cases hfound with
  | none _ _ hnone => exact absurd hv (hnone v n hvs)
  | some lead hlead hrun hlongest hvalue =>
    have hsame : v = lead ++ run b u := by
      have hother : LongestPrefix (fun w => ∃ n, Numeral base w n) (sign (skipSpace s)).2 v := by
        refine ⟨⟨n, hv⟩, hvs, ?_⟩
        rintro w ⟨m, hm⟩ hw
        have hws : pre ++ w <+: skipSpace s := by
          rw [hpre]
          exact (List.prefix_append_right_inj pre).mpr hw
        have hle := htext.longest _ ⟨_, _, (hsign _ hws _ _).mpr ⟨w, rfl, rfl, hm⟩⟩ hws
        simpa using hle
      exact hother.unique hlongest
    obtain ⟨v', overflow, hdigits, hcounts⟩ :=
      digits_start hlow hhigh u
    rw [← hvalue n (hsame ▸ hv)] at hcounts
    have hmoved : u.drop (run b u).length ≠ (sign (skipSpace s)).2 := fun heq => by
      have hlen := congrArg List.length heq
      have hpos := List.length_pos_iff.mpr hrun
      have hle := (List.takeWhile_prefix (fun c => decide (digitValue c < b)) (l := u)).length_le
      rw [hlead, List.length_drop, List.length_append] at hlen
      rw [run] at hpos hlen
      omega
    rw [strtoul_eq endptr hradix hdigits, if_neg hmoved, hcounts.saturate, hsame]
    refine Prod.ext ?_ (congrArg some ?_)
    · dsimp only
      by_cases hover : 2 ^ 32 ≤ n
      · rw [if_pos hover, if_pos hover]
      · have hv' : v' = BitVec.ofNat 32 n := by
          rw [← hcounts.exact (by omega), BitVec.ofNat_toNat, BitVec.setWidth_eq]
        rw [if_neg hover, if_neg hover, hv']
    · conv_rhs => rw [hpre, hlead]
      rw [← List.append_assoc, ← List.append_assoc, List.length_append, List.drop_length_add_append]

theorem strtoul_none (hbase : base = 0 ∨ 2 ≤ base ∧ base ≤ 36) (s : Ptr) (endptr : Option Ptr)
    (h : ∀ text, text <+: skipSpace s → ¬Readable base text) :
    strtoul s endptr (BitVec.ofNat 32 base) = (0, some s) := by
  obtain ⟨pre, hpre, hsign⟩ := sign_spec base (skipSpace s)
  obtain ⟨b, u, hradix, hlow, hhigh, hfound⟩ := radix_found hbase (sign (skipSpace s)).2
  cases hfound with
  | some lead hlead hrun hlongest _ =>
    obtain ⟨n, hn⟩ := hlongest.accepted
    have hs : pre ++ (lead ++ run b u) <+: skipSpace s := by
      rw [hpre]
      exact (List.prefix_append_right_inj pre).mpr hlongest.start
    exact absurd ⟨_, n, (hsign _ hs _ _).mpr ⟨_, rfl, rfl, hn⟩⟩ (h _ hs)
  | none hrun hu _ =>
    obtain ⟨v', overflow, hdigits, hcounts⟩ :=
      digits_start hlow hhigh u
    rw [hrun] at hdigits hcounts
    rw [List.length_nil, List.drop_zero] at hdigits
    rw [strtoul_eq endptr hradix hdigits, if_pos hu, hcounts.saturate,
      if_neg (by simp [number])]
    cases (sign (skipSpace s)).1 <;> rfl

/-- `strtoul` reads the longest number that follows the spaces, and answers `ULONG_MAX` where it
is too large; without one the value is 0 and ends where the string starts. -/
theorem strtoul_longest (hbase : base = 0 ∨ 2 ≤ base ∧ base ≤ 36) (s : Ptr) (endptr : Option Ptr) :
    (∀ text neg n, LongestPrefix (Readable base) (skipSpace s) text → Subject base text neg n →
      strtoul s endptr (BitVec.ofNat 32 base) =
        (if 2 ^ 32 ≤ n then ULONG_MAX else if neg then -BitVec.ofNat 32 n else BitVec.ofNat 32 n,
          some ((skipSpace s).drop text.length))) ∧
    ((∀ text, text <+: skipSpace s → ¬Readable base text) →
      strtoul s endptr (BitVec.ofNat 32 base) = (0, some s)) :=
  ⟨fun _ _ _ htext hn => strtoul_reads hbase s endptr htext hn, strtoul_none hbase s endptr⟩

def constant : Ptr := " -0x1F".toList.map Char.toUInt8

theorem constant_subject : Subject 0 (skipSpace constant) true 31 :=
  .minus (.prefixed (.inl rfl) (⟨by decide, by decide +kernel⟩ : Digits 16 ("1F".toList.map Char.toUInt8)))

theorem strtoul_longest_constant : strtoul constant none 0 = (-31, some []) :=
  (strtoul_longest (.inl (Eq.refl 0)) constant none).1 _ _ _ (.whole ⟨_, _, constant_subject⟩)
    constant_subject

theorem skipSpace_idem (s : Ptr) : skipSpace (skipSpace s) = skipSpace s :=
  List.dropWhile_idempotent isspace s

theorem skip_alnum {s : Ptr} (h : digitValue (nth s 0) < 36) :
    skipSpace s = s ∧ sign s = (false, s) := by
  have hread : isspace (nth s 0) = false ∧ nth s 0 ≠ '-'.toUInt8 ∧ nth s 0 ≠ '+'.toUInt8 :=
    (byte_classes (nth s 0)).2.2 h
  obtain ⟨hspace, hminus, hplus⟩ := hread
  refine ⟨?_, ?_⟩
  · cases s with
    | nil => rfl
    | cons c s => exact List.dropWhile_cons_of_neg (Bool.not_eq_true _ ▸ hspace)
  · rw [sign, if_neg hminus, if_neg hplus]

/-- The signed number, brought into the range of a `long`. -/
def clamp (neg : Bool) (n : Nat) : Int :=
  max LONG_MIN.toInt (min LONG_MAX.toInt (if neg then -n else n))

/-- `strtol` after its call of `strtoul`. -/
def bounded (neg : Bool) (v : BitVec 32) : BitVec 32 :=
  if v ≥ ABS_LONG_MIN then if v = ABS_LONG_MIN ∧ neg then v else if neg then LONG_MIN else LONG_MAX
  else if neg then -v else v

theorem bounded_toInt (neg : Bool) (n : Nat) :
    (bounded neg (if 2 ^ 32 ≤ n then ULONG_MAX else BitVec.ofNat 32 n)).toInt = clamp neg n := by
  have hmin : LONG_MIN.toInt = -2147483648 := by decide
  have hmax : LONG_MAX.toInt = 2147483647 := by decide
  unfold bounded clamp
  rw [hmin, hmax]
  have hword : (if 2 ^ 32 ≤ n then ULONG_MAX else BitVec.ofNat 32 n).toNat =
      min n 4294967295 := by
    split
    · show 4294967295 = _
      omega
    · rw [BitVec.toNat_ofNat]
      omega
  generalize (if 2 ^ 32 ≤ n then ULONG_MAX else BitVec.ofNat 32 n) = v at hword
  have habs : ABS_LONG_MIN.toNat = 2147483648 := rfl
  have hge : v ≥ ABS_LONG_MIN ↔ 2147483648 ≤ n := by
    rw [ge_iff_le, BitVec.le_def, habs]
    omega
  have heq : v = ABS_LONG_MIN ↔ n = 2147483648 := by
    rw [BitVec.toNat_eq, habs]
    omega
  by_cases hbig : 2147483648 ≤ n
  · rw [if_pos (hge.mpr hbig)]
    cases neg with
    | true =>
      by_cases hexact : n = 2147483648
      · rw [if_pos ⟨heq.mpr hexact, rfl⟩, heq.mpr hexact, hexact]
        decide
      · rw [if_neg fun h => hexact (heq.mp h.1), if_pos rfl, hmin, if_pos rfl]
        omega
    | false =>
      rw [if_neg fun h => absurd h.2 (by decide), if_neg (by decide), hmax, if_neg (by decide)]
      omega
  · rw [if_neg (mt hge.mp hbig)]
    cases neg with
    | true =>
      rw [if_pos rfl, if_pos rfl, BitVec.toInt_eq_toNat_cond, BitVec.toNat_neg, hword]
      split <;> omega
    | false =>
      rw [if_neg (by decide), if_neg (by decide), BitVec.toInt_eq_toNat_cond, hword]
      split <;> omega

theorem strtol_neg_iff (s : Ptr) : nth s 0 = '-'.toUInt8 ∧ isalnum (nth s 1) = true ↔
    ∃ u, s = '-'.toUInt8 :: u ∧ digitValue (nth u 0) < 36 := by
  constructor
  · rintro ⟨hminus, halnum⟩
    obtain ⟨u, rfl⟩ := eq_cons_of_nth hminus (by decide)
    exact ⟨u, rfl, (byte_classes _).2.1.mp halnum⟩
  · rintro ⟨u, rfl, hu⟩
    exact ⟨rfl, (byte_classes _).2.1.mpr hu⟩

theorem strtol_minus {s u : Ptr} {endptr rest : Option Ptr} {base v : BitVec 32}
    (hskip : skipSpace s = '-'.toUInt8 :: u) (hu : digitValue (nth u 0) < 36)
    (hread : strtoul u endptr base = (v, rest)) :
    strtol s endptr base = (bounded true v, if rest = some u then some s else rest) := by
  have hneg := (strtol_neg_iff (skipSpace s)).mpr ⟨u, hskip, hu⟩
  have htail : (skipSpace s).tail = u := by rw [hskip, List.tail_cons]
  unfold strtol bounded
  simp only [hneg, htail, hread, and_self, if_true]
  split <;> rfl

theorem strtol_plain {s : Ptr} {endptr rest : Option Ptr} {base v : BitVec 32}
    (hminus : ¬(nth (skipSpace s) 0 = '-'.toUInt8 ∧ isalnum (nth (skipSpace s) 1) = true))
    (hread : strtoul (skipSpace s) endptr base = (v, rest)) : strtol s endptr base =
      (bounded false v, if rest = some (skipSpace s) then some s else rest) := by
  unfold strtol bounded
  simp only [hminus, hread, if_false, Bool.false_eq_true]
  split <;> rfl

theorem longest_behind {u : List UInt8} (hu : digitValue (nth u 0) < 36)
    (h : LongestPrefix (Readable base) ('-'.toUInt8 :: u) text) (hn : Subject base text neg n) :
    ∃ v, text = '-'.toUInt8 :: v ∧ neg = true ∧ Subject base v false n ∧
      LongestPrefix (Readable base) u v := by
  obtain ⟨pre, hpre, hsign⟩ := sign_spec base ('-'.toUInt8 :: u)
  obtain rfl : pre = ['-'.toUInt8] := List.append_cancel_right (show pre ++ u = ['-'.toUInt8] ++ u from hpre.symm)
  obtain ⟨v, rfl, rfl, hv⟩ := (hsign text h.start neg n).mp hn
  refine ⟨v, rfl, rfl, .unsigned hv, ⟨false, n, .unsigned hv⟩,
    (List.cons_prefix_cons.mp h.start).2, ?_⟩
  rintro w ⟨neg', m, hw⟩ hs
  obtain ⟨pre', hpre', hsign'⟩ := sign_spec base u
  rw [(skip_alnum hu).2] at hpre' hsign'
  obtain rfl : pre' = [] := List.append_left_eq_self.mp hpre'.symm
  obtain ⟨w', rfl, rfl, hm⟩ := (hsign' w hs neg' m).mp hw
  have hle := h.longest ('-'.toUInt8 :: w) ⟨true, m, .minus hm⟩ (List.cons_prefix_cons.mpr ⟨rfl, hs⟩)
  simpa using hle

theorem Subject.ne_nil (h : Subject base text neg n) : text ≠ [] := by
  cases h with
  | unsigned hn => exact hn.ne_nil
  | plus | minus => exact List.cons_ne_nil _ _

theorem strtol_reads (hbase : base = 0 ∨ 2 ≤ base ∧ base ≤ 36) (s : Ptr) (endptr : Option Ptr)
    (htext : LongestPrefix (Readable base) (skipSpace s) text) (hn : Subject base text neg n) :
    (strtol s endptr (BitVec.ofNat 32 base)).1.toInt = clamp neg n ∧
      (strtol s endptr (BitVec.ofNat 32 base)).2 = some ((skipSpace s).drop text.length) := by
  have hmoved {u v : List UInt8} (hv : LongestPrefix (Readable base) u v) :
      some (u.drop v.length) ≠ some u := fun heq => by
    obtain ⟨neg, m, hm⟩ := hv.accepted
    have hpos := List.length_pos_iff.mpr hm.ne_nil
    have hle := hv.start.length_le
    have hlen := congrArg List.length (Option.some.inj heq)
    rw [List.length_drop] at hlen
    omega
  by_cases hminus : nth (skipSpace s) 0 = '-'.toUInt8 ∧ isalnum (nth (skipSpace s) 1) = true
  · obtain ⟨u, hskip, hu⟩ := (strtol_neg_iff _).mp hminus
    rw [hskip] at htext
    obtain ⟨v, rfl, rfl, hv, hlongest⟩ := longest_behind hu htext hn
    have hread := strtoul_reads hbase u endptr ((skip_alnum hu).1.symm ▸ hlongest) hv
    rw [(skip_alnum hu).1] at hread
    rw [strtol_minus hskip hu hread, if_neg (hmoved hlongest), hskip]
    exact ⟨bounded_toInt true n, rfl⟩
  · have hneg : neg = false := by
      cases hn with
      | unsigned | plus => rfl
      | minus hv =>
        obtain ⟨rest, hskip⟩ := htext.start
        refine absurd ((strtol_neg_iff _).mpr ⟨_, hskip.symm, ?_⟩) hminus
        exact nth_zero_start (List.prefix_append _ rest) hv.ne_nil ▸ hv.head
    subst hneg
    have hread := strtoul_reads hbase _ endptr ((skipSpace_idem s).symm ▸ htext) hn
    rw [skipSpace_idem] at hread
    rw [strtol_plain hminus hread, if_neg (hmoved htext)]
    exact ⟨bounded_toInt false n, rfl⟩

theorem strtol_none (hbase : base = 0 ∨ 2 ≤ base ∧ base ≤ 36) (s : Ptr) (endptr : Option Ptr)
    (h : ∀ text, text <+: skipSpace s → ¬Readable base text) :
    strtol s endptr (BitVec.ofNat 32 base) = (0, some s) := by
  by_cases hminus : nth (skipSpace s) 0 = '-'.toUInt8 ∧ isalnum (nth (skipSpace s) 1) = true
  · obtain ⟨u, hskip, hu⟩ := (strtol_neg_iff _).mp hminus
    have hread := strtoul_none hbase u endptr fun w hw hreadable => by
      rw [(skip_alnum hu).1] at hw
      obtain ⟨neg, m, hm⟩ := hreadable
      obtain ⟨pre, hpre, hsign⟩ := sign_spec base u
      rw [(skip_alnum hu).2] at hpre hsign
      obtain rfl : pre = [] := List.append_left_eq_self.mp hpre.symm
      obtain ⟨v, rfl, rfl, hv⟩ := (hsign w hw neg m).mp hm
      refine h ('-'.toUInt8 :: w) ?_ ⟨true, m, .minus hv⟩
      rw [hskip]
      exact List.cons_prefix_cons.mpr ⟨rfl, hw⟩
    rw [strtol_minus hskip hu hread, if_pos rfl]
    rfl
  · have hread := strtoul_none hbase (skipSpace s) endptr ((skipSpace_idem s).symm ▸ h)
    rw [strtol_plain hminus hread, if_pos rfl]
    rfl

/-- `strtol` reads the same numbers, and answers the nearest `long` where one does not fit. -/
theorem strtol_longest (hbase : base = 0 ∨ 2 ≤ base ∧ base ≤ 36) (s : Ptr) (endptr : Option Ptr) :
    (∀ text neg n, LongestPrefix (Readable base) (skipSpace s) text → Subject base text neg n →
      (strtol s endptr (BitVec.ofNat 32 base)).1.toInt = clamp neg n ∧
        (strtol s endptr (BitVec.ofNat 32 base)).2 = some ((skipSpace s).drop text.length)) ∧
    ((∀ text, text <+: skipSpace s → ¬Readable base text) →
      strtol s endptr (BitVec.ofNat 32 base) = (0, some s)) :=
  ⟨fun _ _ _ htext hn => strtol_reads hbase s endptr htext hn, strtol_none hbase s endptr⟩

theorem strtol_longest_constant : (strtol constant none 0).1.toInt = -31 ∧
    (strtol constant none 0).2 = some [] :=
  (strtol_longest (.inl (Eq.refl 0)) constant none).1 _ _ _ (.whole ⟨_, _, constant_subject⟩)
    constant_subject

end Xmertl.Partikle.Stdlib
