import Mathlib.Data.Nat.Digits.Lemmas
import Xmertl.Partikle.PrintfNumbers
import Xmertl.Partikle.Scanf

/-!
# What `sprintf` writes and `sscanf` reads

The conversions of integers of `__v_scanf` read the numerals of `strtol`: the base of a
conversion, and 0 for `u` and `i`. So integers that are written with a blank behind each are
read again.
-/

namespace Xmertl.Partikle.Stdarg

open Stdlib Numerals

variable {b n : Nat} {ch : UInt8} {ds body rest : List UInt8} {k : BitVec 32}

-- ---------------------------------------------------------------------------
-- Digits
-- ---------------------------------------------------------------------------

theorem scanDigit_digit (c : UInt8) :
    (digitValue c < 36 → scanDigit c = digitValue c) ∧ (isspace c = true → 36 ≤ scanDigit c) ∧
      (c ||| 0x20 = 'x'.toUInt8 ↔ ex c) := by
  have hall : ∀ i : Fin 256, (digitValue (UInt8.ofFin i) < 36 →
      scanDigit (UInt8.ofFin i) = digitValue (UInt8.ofFin i)) ∧
      (isspace (UInt8.ofFin i) = true → 36 ≤ scanDigit (UInt8.ofFin i)) ∧
      (UInt8.ofFin i ||| 0x20 = 'x'.toUInt8 ↔
        UInt8.ofFin i = 'x'.toUInt8 ∨ UInt8.ofFin i = 'X'.toUInt8) := by
    decide +kernel
  exact hall c.toFin

def Stops (rest : List UInt8) : Prop := ∀ c, rest.head? = some c → isspace c = true

theorem number_concat (b : Nat) (ds : List UInt8) (c : UInt8) :
    Stdlib.number b (ds ++ [c]) = Stdlib.number b ds * b + digitValue c := by
  rw [Stdlib.number, List.map_append, List.map_singleton, value_concat, Stdlib.number]

theorem number_le_append (hb : 1 ≤ b) (ds es : List UInt8) :
    Stdlib.number b ds ≤ Stdlib.number b (ds ++ es) := by
  rw [Stdlib.number, Stdlib.number, List.map_append]
  exact value_le_append hb

theorem scanStep_digit (hb : 2 ≤ b) (hb' : b ≤ 16) {c : UInt8} (hc : digitValue c < b)
    {width : BitVec 32} (hwidth : width ≠ 0) {m : Nat} (hm : m * b + digitValue c < 2 ^ 32) :
    scanStep b (width, BitVec.ofNat 64 m) c =
      some (width - 1, BitVec.ofNat 64 (m * b + digitValue c)) := by
  have hdigit := (scanDigit_digit c).1 (by omega)
  have hle : m ≤ m * b := Nat.le_mul_of_pos_right m (by omega)
  have hmul : BitVec.ofNat 64 m * BitVec.ofNat 64 b = BitVec.ofNat 64 (m * b) := by
    rw [← BitVec.ofNat_mul]
  have hnot : ¬BitVec.ofNat 64 (m * b) < BitVec.ofNat 64 m := by
    rw [BitVec.lt_def, BitVec.toNat_ofNat, BitVec.toNat_ofNat, Nat.mod_eq_of_lt (by omega),
      Nat.mod_eq_of_lt (by omega)]
    omega
  have hmore : ¬(width = 0 ∨ digitValue c ≥ b) := by
    rintro (h | h)
    · exact hwidth h
    · omega
  unfold scanStep
  dsimp only
  rw [hdigit, if_neg hmore, hmul, if_neg hnot, ← BitVec.ofNat_add]

theorem whileTakes_stops (hb' : b ≤ 16) (hrest : Stops rest) (a : BitVec 32 × BitVec 64) :
    whileTakes (scanStep b) a rest = (a, rest) := by
  cases rest with
  | nil => rfl
  | cons c rest =>
    have hspace := (scanDigit_digit c).2.1 (hrest c rfl)
    have hnone : scanStep b a c = none := by
      unfold scanStep
      exact if_pos (.inr (by omega))
    rw [whileTakes, hnone]

theorem whileTakes_digits (hb : 2 ≤ b) (hb' : b ≤ 16) (hrest : Stops rest) (pre : List UInt8)
    (hds : ∀ c ∈ ds, digitValue c < b) (hn : Stdlib.number b (pre ++ ds) < 2 ^ 32)
    (width : BitVec 32) (hwidth : ds.length ≤ width.toNat) : ∃ width',
      whileTakes (scanStep b) (width, BitVec.ofNat 64 (Stdlib.number b pre)) (ds ++ rest) =
        ((width', BitVec.ofNat 64 (Stdlib.number b (pre ++ ds))), rest) := by
  induction ds generalizing pre width with
  | nil =>
    rw [List.append_nil]
    exact ⟨width, whileTakes_stops hb' hrest _⟩
  | cons c ds ih =>
    have hlen : ds.length + 1 ≤ width.toNat := hwidth
    have hzero : width ≠ 0 := by
      rintro rfl
      exact absurd hlen (by simp)
    have hle := number_le_append (show 1 ≤ b by omega) (pre ++ [c]) ds
    rw [number_concat] at hle
    rw [List.append_cons] at hn ⊢
    obtain ⟨width', hrun⟩ := ih (pre ++ [c]) (fun d hd => hds d (List.mem_cons_of_mem c hd)) hn
      (width - 1) (by
        rw [BitVec.toNat_sub_of_le (BitVec.le_def.mpr (by simp; omega))]
        simp
        omega)
    refine ⟨width', ?_⟩
    rw [List.cons_append, whileTakes, scanStep_digit hb hb' (hds c List.mem_cons_self) hzero
      (by omega), ← number_concat]
    exact hrun

-- ---------------------------------------------------------------------------
-- Numerals
-- ---------------------------------------------------------------------------

variable {m : BitVec 32} {ss : List Store}

theorem hex_plain (hds : ∀ c ∈ ds, digitValue c < 16) (hrest : Stops rest) (div : Nat) :
    Scan.hex ⟨'0'.toUInt8 :: (ds ++ rest), k, m, ss⟩ div = (div, ⟨ds ++ rest, k + 1, m, ss⟩) := by
  have hnot : ∀ c, (ds ++ rest).head? = some c → ¬(c ||| 0x20 = 'x'.toUInt8) := by
    intro c hc hx
    have hval := digitValue_ex ((scanDigit_digit c).2.2.mp hx)
    cases ds with
    | nil =>
      rcases (scanDigit_digit c).2.2.mp hx with rfl | rfl
      · exact absurd (hrest _ hc) (by decide)
      · exact absurd (hrest _ hc) (by decide)
    | cons d ds =>
      obtain rfl : d = c := Option.some.inj hc
      exact absurd (hds d List.mem_cons_self) (by omega)
  have hany : ((ds ++ rest).head?.any fun c => decide (c ||| 0x20 = 'x'.toUInt8)) = false := by
    cases hhead : (ds ++ rest).head? with
    | none => rfl
    | some c => exact decide_eq_false (hnot c hhead)
  unfold Scan.hex Scan.getc
  dsimp only [List.tail_cons]
  rw [hany]
  rfl

theorem hex_prefixed {x : UInt8} (hx : ex x) (div : Nat) :
    Scan.hex ⟨'0'.toUInt8 :: x :: (ds ++ rest), k, m, ss⟩ div =
      (16, ⟨ds ++ rest, k + 2, m, ss⟩) := by
  have hany : ((x :: (ds ++ rest)).head?.any fun c => decide (c ||| 0x20 = 'x'.toUInt8)) = true :=
    decide_eq_true ((scanDigit_digit x).2.2.mpr hx)
  unfold Scan.hex Scan.getc
  dsimp only [List.tail_cons]
  rw [hany, if_pos rfl, BitVec.add_assoc]
  rfl

theorem is_zero (hne : body ≠ []) :
    Scan.is ⟨body ++ rest, k, m, ss⟩ '0' = true ↔ nth body 0 = '0'.toUInt8 := by
  cases body with
  | nil => exact absurd rfl hne
  | cons c body => exact decide_eq_true_iff.trans ⟨Option.some.inj, congrArg some⟩

theorem zero_cons (hzero : nth body 0 = '0'.toUInt8) (hne : body ≠ []) :
    ∃ ds, body = '0'.toUInt8 :: ds ∧ Stdlib.number b ds = Stdlib.number b body := by
  cases body with
  | nil => exact absurd rfl hne
  | cons c ds =>
    obtain rfl : c = '0'.toUInt8 := hzero
    refine ⟨ds, rfl, ?_⟩
    have hmap : ('0'.toUInt8 :: ds).map digitValue = 0 :: ds.map digitValue := rfl
    rw [Stdlib.number, Stdlib.number, hmap, value_zero_cons]

theorem radix_none (x : Scan) : x.radix .none ch =
    if scanDiv ch = 16 ∧ x.is '0' then x.hex 16
    else if scanDiv ch = 0 then if x.is '0' then x.hex 8 else (10, x)
    else (scanDiv ch, x) := rfl

theorem radix_numeral (hbody : Numeral (scanDiv ch) body n) (hrest : Stops rest)
    (k m : BitVec 32) (ss : List Store) :
    ∃ b pre ds, body = pre ++ ds ∧ 2 ≤ b ∧ b ≤ 16 ∧ (∀ c ∈ ds, digitValue c < b) ∧
      Stdlib.number b ds = n ∧ Scan.radix ⟨body ++ rest, k, m, ss⟩ .none ch =
        (b, ⟨ds ++ rest, k + BitVec.ofNat 32 pre.length, m, ss⟩) := by
  have hplain : (⟨body ++ rest, k, m, ss⟩ : Scan) =
      ⟨body ++ rest, k + BitVec.ofNat 32 ([] : List UInt8).length, m, ss⟩ := by simp
  have hdiv : scanDiv ch ≤ 16 := by
    unfold scanDiv
    repeat' split
    all_goals decide
  rw [radix_none]
  generalize scanDiv ch = div at hbody hdiv
  cases hbody with
  | digits hb hb' hds =>
    by_cases hhex : div = 16 ∧ nth body 0 = '0'.toUInt8
    · obtain ⟨rfl, hzero⟩ := hhex
      obtain ⟨ds, rfl, hnumber⟩ := zero_cons (b := 16) hzero hds.1
      have hrestds : ∀ c ∈ ds, digitValue c < 16 := fun c hc => hds.2 c (List.mem_cons_of_mem _ hc)
      refine ⟨16, ['0'.toUInt8], ds, rfl, by decide, by decide, hrestds, hnumber, ?_⟩
      rw [if_pos ⟨rfl, rfl⟩]
      exact hex_plain hrestds hrest 16
    · refine ⟨div, [], body, rfl, hb, hdiv, hds.2, rfl, ?_⟩
      rw [if_neg fun h => hhex ⟨h.1, (is_zero hds.1).mp h.2⟩, if_neg (by omega)]
      exact congrArg _ hplain
  | hexadecimal hx hds =>
    rename_i x ds
    refine ⟨16, ['0'.toUInt8, x], ds, rfl, by decide, by decide, hds.2, rfl, ?_⟩
    rw [if_pos ⟨rfl, rfl⟩]
    exact hex_prefixed hx 16
  | decimal hds hzero =>
    refine ⟨10, [], body, rfl, by decide, by decide, hds.2, rfl, ?_⟩
    rw [if_neg (by simp), if_pos rfl, if_neg fun h => hzero ((is_zero hds.1).mp h)]
    exact congrArg _ hplain
  | octal hds hzero =>
    obtain ⟨ds, rfl, hnumber⟩ := zero_cons (b := 8) hzero hds.1
    have hrestds : ∀ c ∈ ds, digitValue c < 8 := fun c hc => hds.2 c (List.mem_cons_of_mem _ hc)
    refine ⟨8, ['0'.toUInt8], ds, rfl, by decide, by decide, hrestds, hnumber, ?_⟩
    rw [if_neg (by simp), if_pos rfl, if_pos ((is_zero hds.1).mpr rfl)]
    exact hex_plain (fun c hc => (hrestds c hc).trans (by decide)) hrest 8
  | prefixed hx hds =>
    rename_i x ds
    refine ⟨16, ['0'.toUInt8, x], ds, rfl, by decide, by decide, hds.2, rfl, ?_⟩
    have hzero : Scan.is ⟨'0'.toUInt8 :: x :: ds ++ rest, k, m, ss⟩ '0' = true :=
      (is_zero (List.cons_ne_nil _ _)).mpr rfl
    rw [if_neg (by simp), if_pos rfl, if_pos hzero]
    exact hex_prefixed hx 8

theorem whileTakes_spaces {blank : List UInt8} (hblank : ∀ c ∈ blank, isspace c = true)
    {text : List UInt8} (htext : ∀ c, text.head? = some c → isspace c = false) :
    whileTakes (fun (_ : Unit) c => if isspace c then some () else none) () (blank ++ text) =
      ((), text) := by
  induction blank with
  | nil =>
    cases text with
    | nil => rfl
    | cons c text =>
      rw [List.nil_append, whileTakes, htext c rfl]
      rfl
  | cons c blank ih =>
    rw [List.cons_append, whileTakes, hblank c List.mem_cons_self]
    exact ih fun d hd => hblank d (List.mem_cons_of_mem c hd)

theorem skipSpace_spaces {blank : List UInt8} (hblank : ∀ c ∈ blank, isspace c = true)
    {text : List UInt8} (htext : ∀ c, text.head? = some c → isspace c = false)
    (k m : BitVec 32) (ss : List Store) :
    Scan.skipSpace ⟨blank ++ text, k, m, ss⟩ =
      ⟨text, k + BitVec.ofNat 32 blank.length, m, ss⟩ := by
  unfold Scan.skipSpace Scan.rest
  dsimp only
  rw [whileTakes_spaces hblank htext]
  simp

theorem digit_plain : ∀ c : UInt8, digitValue c < 36 →
    isspace c = false ∧ c ≠ '+'.toUInt8 ∧ c ≠ '-'.toUInt8 := by
  have hall : ∀ i : Fin 256, digitValue (UInt8.ofFin i) < 36 → isspace (UInt8.ofFin i) = false ∧
      UInt8.ofFin i ≠ '+'.toUInt8 ∧ UInt8.ofFin i ≠ '-'.toUInt8 := by
    decide +kernel
  exact fun c => hall c.toFin

def Signs (s : List UInt8) : Prop := s = [] ∨ s = ['+'.toUInt8] ∨ s = ['-'.toUInt8]

theorem scan_sign {s : List UInt8} (hs : Signs s) (hbody : Numeral b body n) :
    Scan.sign ⟨s ++ body ++ rest, k, m, ss⟩ = (decide (s = ['-'.toUInt8]),
      ⟨body ++ rest, k + BitVec.ofNat 32 s.length, m, ss⟩) := by
  obtain ⟨-, hplus, hminus⟩ := digit_plain _ hbody.head
  have hne := hbody.ne_nil
  have his (d : Char) (hd : nth body 0 ≠ d.toUInt8) (k : BitVec 32) :
      Scan.is ⟨body ++ rest, k, m, ss⟩ d = false := by
    cases body with
    | nil => exact absurd rfl hne
    | cons c body => exact decide_eq_false fun h => hd (Option.some.inj h)
  unfold Scan.sign
  rcases hs with rfl | rfl | rfl
  · simp [his _ hminus, his _ hplus]
  · have hno : Scan.is ⟨'+'.toUInt8 :: (body ++ rest), k, m, ss⟩ '-' = false := rfl
    simp only [List.cons_append, List.nil_append, hno]
    rfl
  · have hyes : Scan.is ⟨'-'.toUInt8 :: (body ++ rest), k, m, ss⟩ '-' = true := decide_eq_true rfl
    simp only [List.cons_append, List.nil_append, hyes, Scan.getc, List.tail_cons, if_true,
      his _ hplus]
    rfl

theorem text_unspaced {s : List UInt8} (hs : Signs s) (hbody : Numeral b body n) (c : UInt8)
    (hc : (s ++ body ++ rest).head? = some c) : isspace c = false := by
  have hhead := (digit_plain _ hbody.head).1
  have hne := hbody.ne_nil
  rcases hs with rfl | rfl | rfl
  · cases body with
    | nil => exact absurd rfl hne
    | cons d body => exact Option.some.inj hc ▸ hhead
  · exact Option.some.inj hc ▸ rfl
  · exact Option.some.inj hc ▸ rfl

/-- The sign of a number, of which `u` and its like take no notice. -/
def negated (ch : UInt8) (s : List UInt8) : Bool :=
  (ch ||| 0x20) < 'p'.toUInt8 && s = ['-'.toUInt8]

theorem scan_value (s : List UInt8) (hn : n < 2 ^ 32) :
    (if (ch ||| 0x20) < 'p'.toUInt8 ∧ ¬BitVec.ofNat 64 n ≥ 0x8000000000000000 ∧
        decide (s = ['-'.toUInt8]) = true then BitVec.ofNat 64 n * -1
      else BitVec.ofNat 64 n).setWidth 32 =
    if negated ch s then -BitVec.ofNat 32 n else BitVec.ofNat 32 n := by
  have hsmall : ¬BitVec.ofNat 64 n ≥ 0x8000000000000000 := by
    rw [ge_iff_le, BitVec.le_def, BitVec.toNat_ofNat, Nat.mod_eq_of_lt (by omega)]
    show ¬9223372036854775808 ≤ n
    omega
  have hset : (BitVec.ofNat 64 n).setWidth 32 = BitVec.ofNat 32 n := by
    refine BitVec.eq_of_toNat_eq ?_
    simp only [BitVec.toNat_setWidth, BitVec.toNat_ofNat]
    omega
  have hminus : (BitVec.ofNat 64 n * -1).setWidth 32 = -BitVec.ofNat 32 n := by
    have hneg : BitVec.ofNat 64 n * -1 = -BitVec.ofNat 64 n := by
      rw [BitVec.mul_neg]
      simp
    rw [hneg, ← hset]
    exact BitVec.setWidth_neg_of_le (by decide)
  unfold negated
  by_cases hneg : (ch ||| 0x20) < 'p'.toUInt8 ∧ s = ['-'.toUInt8]
  · rw [if_pos ⟨hneg.1, hsmall, decide_eq_true hneg.2⟩, if_pos (by simpa using hneg), hminus]
  · rw [if_neg fun h => hneg ⟨h.1, of_decide_eq_true h.2.2⟩, if_neg (by simpa using hneg), hset]

theorem scanInt_reads {blank s : List UInt8} (hblank : ∀ c ∈ blank, isspace c = true)
    (hs : Signs s) (hbody : Numeral (scanDiv ch) body n) (hn : n < 2 ^ 32) (hrest : Stops rest)
    (hlen : k.toNat + (blank ++ s ++ body).length < 2 ^ 32) (m : BitVec 32) (ss : List Store)
    (format : Ptr) :
    scanInt .none ch ⟨blank ++ (s ++ body ++ rest), k, m, ss⟩ format =
      .next ⟨rest, k + BitVec.ofNat 32 (blank ++ s ++ body).length, m + 1,
        ss ++ [.word (if negated ch s then -BitVec.ofNat 32 n else BitVec.ofNat 32 n)]⟩ format := by
  have hskip := skipSpace_spaces hblank (@text_unspaced _ _ _ rest _ hs hbody) k m ss
  have hne : body ++ rest ≠ [] := fun h => hbody.ne_nil (List.append_eq_nil_iff.mp h).1
  unfold scanInt
  rw [hskip, scan_sign hs hbody]
  dsimp only
  rw [if_neg hne]
  generalize hk : k + BitVec.ofNat 32 blank.length + BitVec.ofNat 32 s.length = start
  obtain ⟨b, pre, ds, hsplit, hb, hb', hds, hnumber, hradix⟩ :=
    radix_numeral hbody hrest start m ss
  obtain ⟨width, hrun⟩ := whileTakes_digits hb hb' hrest [] hds (by rwa [List.nil_append, hnumber])
    (-1) (by
      have hle : ds.length ≤ body.length := by rw [hsplit, List.length_append]; omega
      simp only [List.length_append] at hlen
      simp
      omega)
  rw [List.nil_append, hnumber] at hrun
  have hrun' : whileTakes (scanStep b) (ScanFlags.none.width, 0) (ds ++ rest) =
      ((width, BitVec.ofNat 64 n), rest) := hrun
  have hread : start + BitVec.ofNat 32 pre.length +
        BitVec.ofNat 32 ((ds ++ rest).length - rest.length) =
      start + BitVec.ofNat 32 body.length := by
    rw [List.length_append, Nat.add_sub_cancel, BitVec.add_assoc, ← BitVec.ofNat_add, hsplit,
      List.length_append]
  have hstart : start.toNat + body.length < 2 ^ 32 ∧ 0 < body.length := by
    refine ⟨?_, List.length_pos_iff.mpr hbody.ne_nil⟩
    simp only [List.length_append] at hlen
    rw [← hk, BitVec.toNat_add, BitVec.toNat_add, BitVec.toNat_ofNat, BitVec.toNat_ofNat]
    omega
  have hsum : (start + BitVec.ofNat 32 body.length).toNat = start.toNat + body.length := by
    rw [BitVec.toNat_add, BitVec.toNat_ofNat]
    omega
  have hmore : start < start + BitVec.ofNat 32 body.length := by
    rw [BitVec.lt_def, hsum]
    omega
  rw [hradix]
  dsimp only
  rw [hrun']
  unfold Scan.rest
  dsimp only
  rw [hread, if_neg (BitVec.ne_of_lt hmore)]
  simp only [ScanFlags.none, Scan.store, Scan.count, Bool.false_eq_true, if_false, hmore, if_true,
    scan_value s hn]
  rw [← hk, List.length_append, List.length_append, BitVec.ofNat_add, BitVec.ofNat_add,
    BitVec.add_assoc, BitVec.add_assoc, BitVec.add_assoc]

-- ---------------------------------------------------------------------------
-- Formats of integers
-- ---------------------------------------------------------------------------

variable {w : List UInt8} {v : BitVec 32} {format : Ptr}

def Integer (ch : UInt8) : Prop := ch = 'p'.toUInt8 ∨ ch = 'X'.toUInt8 ∨ ch = 'x'.toUInt8 ∨
  ch = 'd'.toUInt8 ∨ ch = 'o'.toUInt8 ∨ ch = 'u'.toUInt8 ∨ ch = 'i'.toUInt8

/-- A text that a conversion reads as a word: a number with spaces around it. -/
inductive Piece (ch : UInt8) : List UInt8 → BitVec 32 → Prop
  | mk {blank s body sp : List UInt8} {n : Nat} : (∀ c ∈ blank, isspace c = true) → Signs s →
      Numeral (scanDiv ch) body n → n < 2 ^ 32 → (∀ c ∈ sp, isspace c = true) →
      Piece ch (blank ++ (s ++ body ++ sp))
        (if negated ch s then -BitVec.ofNat 32 n else BitVec.ofNat 32 n)

theorem scan_skipSpace (ahead : List UInt8) (k m : BitVec 32) (ss : List Store) :
    Scan.skipSpace ⟨ahead, k, m, ss⟩ =
    ⟨ahead.dropWhile isspace, k + BitVec.ofNat 32 (ahead.length - (ahead.dropWhile isspace).length),
      m, ss⟩ := by
  have hsplit := List.takeWhile_append_dropWhile (p := isspace) (l := ahead)
  have hblank : ∀ c ∈ ahead.takeWhile isspace, isspace c = true := fun c hc =>
    List.mem_takeWhile_imp hc
  have htext : ∀ c, (ahead.dropWhile isspace).head? = some c → isspace c = false := fun c hc => by
    have hnot := List.head?_dropWhile_not isspace ahead
    rw [hc] at hnot
    simpa using hnot
  generalize ahead.takeWhile isspace = blank at hsplit hblank
  generalize ahead.dropWhile isspace = text at hsplit htext ⊢
  subst hsplit
  rw [skipSpace_spaces hblank htext, List.length_append, Nat.add_sub_cancel]

theorem inScan_integer (hch : Integer ch) (format : Ptr) :
    inScan false .none 0 (ch :: format) = .conv ch .none format := by
  rcases hch with rfl | rfl | rfl | rfl | rfl | rfl | rfl <;> rfl

theorem scanConv_integer (hch : Integer ch) (x : Scan) (format : Ptr) :
    scanConv ch .none x format = some (scanInt .none ch x format) := by
  have hpercent : ch ≠ '%'.toUInt8 := by
    rcases hch with rfl | rfl | rfl | rfl | rfl | rfl | rfl <;> decide
  unfold scanConv
  exact (if_neg hpercent).trans (if_pos hch)

theorem dropWhile_spaces {blank : List UInt8} (h : ∀ c ∈ blank, isspace c = true)
    (text : List UInt8) : (blank ++ text).dropWhile isspace = text.dropWhile isspace :=
  List.dropWhile_append_of_pos h

theorem stops_spaces {sp : List UInt8} (h : ∀ c ∈ sp, isspace c = true) (rest : List UInt8) :
    Stops (sp ++ ' '.toUInt8 :: rest) := by
  intro c hc
  cases sp with
  | nil => exact Option.some.inj hc ▸ rfl
  | cons d sp => exact Option.some.inj hc ▸ h d List.mem_cons_self

theorem vScanfLoop_integer (hch : Integer ch) {x y : Scan} (hx : x.ahead ≠ [])
    (hread : scanInt .none ch x (' '.toUInt8 :: format) = .next y (' '.toUInt8 :: format))
    (hformat : format.takeWhile isspace = []) :
    vScanfLoop 0 ('%'.toUInt8 :: ch :: ' '.toUInt8 :: format) x =
      vScanfLoop 0 format y.skipSpace := by
  have hempty : x.ahead.isEmpty = false := by
    cases h : x.ahead with
    | nil => exact absurd h hx
    | cons c cs => rfl
  have hpassed : (ch :: ' '.toUInt8 :: format).length - (' '.toUInt8 :: format).length = 1 := by
    simp
  rw [vScanfLoop, if_neg (by decide), if_pos rfl, hempty, inScan_integer hch]
  dsimp only
  rw [scanConv_integer hch, hread]
  dsimp only
  rw [hpassed, vScanfLoop, vScanfLoop, if_pos (by decide), hformat]
  rfl

theorem dropWhile_unspaced {text : List UInt8}
    (h : ∀ c, text.head? = some c → isspace c = false) : text.dropWhile isspace = text := by
  cases text with
  | nil => rfl
  | cons c text => rw [List.dropWhile_cons_of_neg (by rw [h c rfl]; decide)]

theorem dropWhile_blank {sp : List UInt8} (h : ∀ c ∈ sp, isspace c = true) (rest : List UInt8) :
    (sp ++ ' '.toUInt8 :: rest).dropWhile isspace = rest.dropWhile isspace := by
  rw [dropWhile_spaces h, List.dropWhile_cons_of_pos (by decide)]

theorem vScanfLoop_piece (hch : Integer ch) (hpiece : Piece ch w v) {t rest : List UInt8}
    (ht : t.dropWhile isspace = (w ++ ' '.toUInt8 :: rest).dropWhile isspace)
    (hlen : k.toNat + t.length < 2 ^ 32) (hformat : format.takeWhile isspace = [])
    (m : BitVec 32) (ss : List Store) :
    ∃ k', k'.toNat + (rest.dropWhile isspace).length = k.toNat + t.length ∧
      vScanfLoop 0 ('%'.toUInt8 :: ch :: ' '.toUInt8 :: format) ⟨t, k, m, ss⟩ =
        vScanfLoop 0 format ⟨rest.dropWhile isspace, k', m + 1, ss ++ [.word v]⟩ := by
  obtain ⟨hblank, hs, hbody, hn, hsp⟩ := hpiece
  rename_i blank s body sp n
  -- the spaces in front are read with the number, those behind it by the blank of the format
  have hdrop : t.dropWhile isspace = s ++ body ++ (sp ++ ' '.toUInt8 :: rest) := by
    rw [ht, List.append_assoc, dropWhile_spaces hblank, List.append_assoc (s ++ body),
      dropWhile_unspaced (text_unspaced hs hbody)]
  have hsplit := List.takeWhile_append_dropWhile (p := isspace) (l := t)
  have hspaces : ∀ c ∈ t.takeWhile isspace, isspace c = true := fun c hc =>
    List.mem_takeWhile_imp hc
  rw [hdrop] at hsplit
  generalize t.takeWhile isspace = before at hsplit hspaces
  subst hsplit
  have hle := List.length_dropWhile_le isspace rest
  simp only [List.length_append, List.length_cons] at hlen
  have hread := scanInt_reads hspaces hs hbody hn (stops_spaces hsp rest)
    (by simp only [List.length_append]; omega : k.toNat + (before ++ s ++ body).length < 2 ^ 32)
    m ss (' '.toUInt8 :: format)
  have hne : before ++ (s ++ body ++ (sp ++ ' '.toUInt8 :: rest)) ≠ [] := by simp
  have hskip := scan_skipSpace (sp ++ ' '.toUInt8 :: rest)
    (k + BitVec.ofNat 32 (before ++ s ++ body).length) (m + 1)
    (ss ++ [.word (if negated ch s then -BitVec.ofNat 32 n else BitVec.ofNat 32 n)])
  rw [dropWhile_blank hsp] at hskip
  refine ⟨_, ?_, (vScanfLoop_integer hch hne hread hformat).trans (congrArg _ hskip)⟩
  simp only [List.length_append, List.length_cons, BitVec.toNat_add, BitVec.toNat_ofNat]
  omega

/-- The format of some conversions, each with a blank behind it. -/
def scanFormat (chs : List UInt8) : Ptr := chs.flatMap fun ch => ['%'.toUInt8, ch, ' '.toUInt8]

def spaced (ws : List (List UInt8)) : List UInt8 := ws.flatMap fun w => w ++ [' '.toUInt8]

theorem scanFormat_unspaced (chs : List UInt8) : (scanFormat chs).takeWhile isspace = [] := by
  cases chs with
  | nil => rfl
  | cons ch chs => exact List.takeWhile_cons_of_neg (by decide)

theorem vScanfLoop_pieces {items : List (UInt8 × List UInt8 × BitVec 32)}
    (hitems : ∀ i ∈ items, Integer i.1 ∧ Piece i.1 i.2.1 i.2.2) {t : List UInt8}
    (ht : t.dropWhile isspace = (spaced (items.map fun i => i.2.1)).dropWhile isspace)
    (hlen : k.toNat + t.length < 2 ^ 32) (hcount : m.toNat + items.length < 2 ^ 32)
    (hsome : m ≠ 0 ∨ items ≠ []) :
    vScanfLoop 0 (scanFormat (items.map Prod.fst)) ⟨t, k, m, ss⟩ =
      some (m + BitVec.ofNat 32 items.length, ss ++ items.map fun i => .word i.2.2) := by
  induction items generalizing t k m ss with
  | nil =>
    have hm : m ≠ 0 := hsome.resolve_right fun h => h rfl
    show some (Scan.errOut ⟨t, k, m, ss⟩) = _
    rw [Scan.errOut, if_neg fun h => hm h.2]
    simp
  | cons i items ih =>
    obtain ⟨ch, w, v⟩ := i
    obtain ⟨⟨hch, hpiece⟩, hrest⟩ := List.forall_mem_cons.mp hitems
    have htext : spaced (((ch, w, v) :: items).map fun i => i.2.1) =
        w ++ ' '.toUInt8 :: spaced (items.map fun i => i.2.1) := by
      simp [spaced]
    rw [htext] at ht
    have hcount' : m.toNat + (items.length + 1) < 2 ^ 32 := hcount
    have hnext : (m + 1).toNat = m.toNat + 1 := by
      rw [BitVec.toNat_add]
      show (m.toNat + 1) % 2 ^ 32 = _
      omega
    have hone : m + 1 ≠ 0 := fun h => by
      rw [h] at hnext
      exact absurd hnext (by simp)
    obtain ⟨k', hk', hloop⟩ := vScanfLoop_piece hch hpiece ht hlen
      (scanFormat_unspaced (items.map Prod.fst)) m ss
    refine hloop.trans ((ih hrest ?_ (by omega) (by omega) (.inl hone)).trans ?_)
    · exact List.dropWhile_idempotent _ _
    · rw [List.length_cons, BitVec.ofNat_add, BitVec.add_assoc, BitVec.add_comm 1,
        List.append_assoc]
      rfl

theorem length_le_spaced (ws : List (List UInt8)) : ws.length ≤ (spaced ws).length := by
  induction ws with
  | nil => exact Nat.le_refl 0
  | cons w ws ih =>
    have hcons : spaced (w :: ws) = w ++ ' '.toUInt8 :: spaced ws := by simp [spaced]
    rw [hcons, List.length_append, List.length_cons, List.length_cons]
    omega

theorem vsscanf_pieces {items : List (UInt8 × List UInt8 × BitVec 32)}
    (hitems : ∀ i ∈ items, Integer i.1 ∧ Piece i.1 i.2.1 i.2.2) (hne : items ≠ [])
    (hlen : (spaced (items.map fun i => i.2.1)).length + 1 < 2 ^ 32) :
    vsscanf (spaced (items.map fun i => i.2.1)) (scanFormat (items.map Prod.fst)) =
      some (BitVec.ofNat 32 items.length, items.map fun i => .word i.2.2) := by
  have hcount := length_le_spaced (items.map fun i => i.2.1)
  rw [List.length_map] at hcount
  have hrun := @vScanfLoop_pieces 1 0 [] _ hitems _ (Eq.refl _)
    (by show 1 + _ < 2 ^ 32; omega) (by show 0 + _ < 2 ^ 32; omega) (.inr hne)
  have hzero : (0 : BitVec 32) + BitVec.ofNat 32 items.length = BitVec.ofNat 32 items.length :=
    BitVec.zero_add _
  rw [hzero, List.nil_append] at hrun
  exact hrun

-- ---------------------------------------------------------------------------
-- A format for printing
-- ---------------------------------------------------------------------------

variable {spec spec' : Spec} {args args' : List Arg} {o : Out}

theorem directive_suffix {skip : Nat} {rest : Ptr}
    (h : directive spec skip format args = some (.conv ch spec' rest args')) : rest <:+ format := by
  fun_induction directive spec skip format args
  case case1 | case4 | case7 | case9 => cases h
  case case2 ih | case3 ih | case5 ih | case6 ih | case8 ih | case10 ih =>
    exact (ih h).trans (List.suffix_cons _ _)
  case case11 =>
    cases h
    exact List.suffix_cons _ _

theorem vPrintfLoop_skip {rest : Ptr} (h : rest <:+ format) (args : List Arg) (o : Out) :
    vPrintfLoop (format.length - rest.length) format args o = vPrintfLoop 0 rest args o := by
  obtain ⟨passed, rfl⟩ := h
  rw [List.length_append, Nat.add_sub_cancel]
  induction passed with
  | nil => rfl
  | cons c passed ih =>
    rw [List.length_cons, List.cons_append, vPrintfLoop]
    exact ih

/-- A format of directives with a blank behind each, what they convert and with which flags,
width and precision. -/
inductive Prints : Ptr → List Arg → List (UInt8 × Spec × BitVec 32) → Prop
  | done (args : List Arg) : Prints [] args []
  | word {format rest : Ptr} {args args' : List Arg} {ch : UInt8} {spec : Spec} {v : BitVec 32}
      {items : List (UInt8 × Spec × BitVec 32)} :
      directive .none 0 format args =
        some (.conv ch spec (' '.toUInt8 :: rest) (.word v :: args')) →
      Prints rest args' items → Prints ('%'.toUInt8 :: format) args ((ch, spec, v) :: items)

theorem Prints.start {items : List (UInt8 × Spec × BitVec 32)} (h : Prints format args items) :
    format = [] ∨ ∃ rest, format = '%'.toUInt8 :: rest := by
  cases h with
  | done => exact .inl rfl
  | word => exact .inr ⟨_, rfl⟩

theorem vPrintfLoop_blank {items : List (UInt8 × Spec × BitVec 32)} (h : Prints format args items)
    (o : Out) : vPrintfLoop 0 (' '.toUInt8 :: format) args o =
      vPrintfLoop 0 format args (o.put (' '.toUInt8 :: format) 1) := by
  have hskip : skipTo format = 0 := by
    obtain rfl | ⟨rest, rfl⟩ := h.start
    · rfl
    · rw [skipTo, List.takeWhile_cons_of_neg (by simp)]
      rfl
  rw [vPrintfLoop, if_neg (by decide), hskip]
  rfl

/-- A conversion of a word puts out `w`. -/
def Writes (ch : UInt8) (spec : Spec) (v : BitVec 32) (w : List UInt8) : Prop :=
  ∀ o rest, ∃ o', convert ch spec (.word v :: rest) o = some (o', rest) ∧ o'.text = o.text ++ w

theorem vPrintfLoop_prints {items : List (UInt8 × Spec × BitVec 32)} {ws : List (List UInt8)}
    (h : Prints format args items)
    (hws : List.Forall₂ (fun i w => Writes i.1 i.2.1 i.2.2 w) items ws) (o : Out) :
    ∃ n o', vPrintfLoop 0 format args o = some (n, o') ∧ o'.text = o.text ++ spaced ws := by
  induction h generalizing ws o with
  | done args =>
    cases hws
    exact ⟨o.len, o, rfl, (List.append_nil _).symm⟩
  | @word format rest args args' ch spec v items hdir hrest ih =>
    cases hws with
    | @cons _ w _ ws hw hws =>
      obtain ⟨o₁, hconvert, htext⟩ := hw o args'
      obtain ⟨n, o', hloop, htext'⟩ := ih hws (o₁.put (' '.toUInt8 :: rest) 1)
      refine ⟨n, o', ?_, ?_⟩
      · rw [vPrintfLoop, if_pos rfl, hdir]
        dsimp only
        rw [hconvert]
        dsimp only
        rw [vPrintfLoop_skip (directive_suffix hdir), vPrintfLoop_blank hrest, hloop]
      · rw [htext', Out.text_put, htext]
        simp [spaced]

-- ---------------------------------------------------------------------------
-- What is written is read
-- ---------------------------------------------------------------------------

theorem printOut_append (spec : Spec) (t : Text) (o : Out) :
    (printOut spec t o).text = o.text ++ (printOut spec t ⟨[], 0⟩).text := by
  have hnil : (⟨[], 0⟩ : Out).text = [] := rfl
  unfold printOut
  dsimp only
  split_ifs <;> simp only [Out.text_put, Out.text_pad, hnil, List.append_assoc, List.nil_append]

theorem radix_spec {r : Radix} (h : radix ch spec = some (r, spec')) :
    spec'.dot = spec.dot ∧ spec'.preci = spec.preci ∧ spec'.padwith = spec.padwith ∧
      (r.upcase = true → ch = 'X'.toUInt8) := by
  unfold radix at h
  dsimp only at h
  split_ifs at h <;> (cases h; refine ⟨rfl, rfl, rfl, fun hup => ?_⟩)
  all_goals first
    | exact of_decide_eq_true hup
    | exact absurd hup (by decide)

theorem ltostr_first {i : Nat} (hi : i ≠ 0) (hlt : i < 2 ^ 32) :
    nth (ltostr bufRoom i 10 false) 0 ≠ '0'.toUInt8 := by
  have hpow : i < 10 ^ (bufRoom - 1) := by
    have hten : 10 ^ 10 ≤ 10 ^ (bufRoom - 1) := Nat.pow_le_pow_right (by decide) (by decide)
    omega
  have hne : Nat.digits 10 i ≠ [] := Nat.digits_ne_nil_iff_ne_zero.mpr hi
  have hlast := Nat.getLast_digit_ne_zero 10 hi
  have hsmall := Nat.digits_lt_base (by decide : 1 < 10) (List.getLast_mem hne)
  have htext : ltostr bufRoom i 10 false = ((Nat.digits 10 i).map (digitChar false)).reverse := by
    unfold ltostr
    dsimp only
    rw [if_neg hi]
    exact (ltostrLoop_digits (by decide) false _ _ _ hpow).trans (List.append_nil _)
  have hnth : nth (ltostr bufRoom i 10 false) 0 =
      digitChar false ((Nat.digits 10 i).getLast hne) := by
    rw [htext, nth, List.getD_eq_getElem?_getD, ← List.head?_eq_getElem?, List.head?_reverse,
      List.getLast?_map, List.getLast?_eq_some_getLast hne]
    rfl
  intro hzero
  have hvalue := digitValue_digitChar false (d := (Nat.digits 10 i).getLast hne) (by omega)
  rw [← hnth, hzero] at hvalue
  exact hlast hvalue.symm

/-- What is written with `ch` is read with `sc`: in the same base, or as a constant of C where no
zeros are padded. Of a 0 a digit is written. -/
structure Fits (ch : UInt8) (spec : Spec) (v : BitVec 32) (sc : UInt8) : Prop where
  writes : Signed ch ∨ Unsigned ch
  reads : Integer sc
  long : spec.long = 0 ∨ spec.long = 1
  digit : spec.dot = true → v = 0 → 0 < spec.preci.toInt
  base : scanDiv sc = writesBase ch ∨ scanDiv sc = 0 ∧ (Signed ch → sc = 'i'.toUInt8) ∧
    writesBase ch = 10 ∧ spec.dot = false ∧ spec.preci = 0 ∧ spec.padwith ≠ '0'.toUInt8

theorem digits_zeros (hb : 2 ≤ b) (hds : Digits b ds) {z : Nat}
    (hbody : body = ds ∨ Stdlib.number b ds = 0 ∧ body = [] ∧ 0 < z) :
    Digits b (zeros z ++ body) ∧ Stdlib.number b (zeros z ++ body) = Stdlib.number b ds := by
  rcases hbody with rfl | ⟨hzero, rfl, hz⟩
  · exact ⟨Digits.zeros hb hds z, number_zeros z⟩
  · obtain ⟨z, rfl⟩ : ∃ y, z = y + 1 := ⟨z - 1, by omega⟩
    rw [List.append_nil, zeros_succ, number_zeros, hzero]
    exact ⟨Digits.zeros hb (digits_zero hb) z, rfl⟩

theorem Fits.numeral {sc : UInt8} {z : Nat} (h : Fits ch spec v sc) (up : Bool)
    (hz : spec.padwith ≠ '0'.toUInt8 → spec.preci = 0 → z = 0)
    (hn : n < 2 ^ 32) (hbase : 2 ≤ writesBase ch) (hbase' : writesBase ch ≤ 36)
    (hbody : body = ltostr bufRoom n (writesBase ch) up ∨
      n = 0 ∧ v = 0 ∧ body = [] ∧ spec.dot = true ∧ (0 < spec.preci.toInt → 0 < z))
    (hup : writesBase ch = 10 → up = false) :
    Numeral (scanDiv sc) (zeros z ++ body) n := by
  obtain ⟨hdigits, hvalue⟩ := ltostr_digits hbase hbase' up hn
  have hor : body = ltostr bufRoom n (writesBase ch) up ∨
      Stdlib.number (writesBase ch) (ltostr bufRoom n (writesBase ch) up) = 0 ∧ body = [] ∧
        0 < z := by
    refine hbody.imp_right ?_
    rintro ⟨rfl, hv, hnil, hdot, hz⟩
    exact ⟨hvalue, hnil, hz (h.digit hdot hv)⟩
  rcases h.base with hsame | ⟨hconst, -, hten, hdot, hpreci, hpad⟩
  · obtain ⟨hd, hnumber⟩ := digits_zeros hbase hdigits hor
    rw [hsame, ← hvalue, ← hnumber]
    exact .digits hbase hbase' hd
  · obtain rfl := hz hpad hpreci
    have hplain : body = ltostr bufRoom n (writesBase ch) up :=
      hbody.resolve_right fun h => absurd (h.2.2.2.1.symm.trans hdot) (by decide)
    rw [hconst, zeros, List.replicate_zero, List.nil_append, hplain, hup hten]
    rw [hten] at hdigits hvalue ⊢
    rw [hup hten] at hdigits hvalue
    by_cases hzero : n = 0
    · subst hzero
      exact .octal ⟨by decide, by decide +kernel⟩ rfl
    · have hnum := Numeral.decimal hdigits (ltostr_first hzero hn)
      rwa [hvalue] at hnum

theorem spaces_blanks (a : Nat) : ∀ c ∈ blanks a, isspace c = true := fun c hc => by
  rw [List.eq_of_mem_replicate hc]
  rfl

theorem scanDiv_ten {sc : UInt8} (h : scanDiv sc = 10) : sc = 'd'.toUInt8 := by
  unfold scanDiv at h
  split_ifs at h with _ hd
  · exact absurd h (by decide)
  · exact hd
  · exact absurd h (by decide)

theorem piece_signed {sc : UInt8} {minus : Bool} {sgn : List UInt8} (hsgn : Sgn minus sgn)
    (hsc : sc = 'd'.toUInt8 ∨ sc = 'i'.toUInt8) (hbody : Numeral (scanDiv sc) body n)
    (hn : n < 2 ^ 32) (a k : Nat) : Piece sc (blanks a ++ sgn ++ body ++ blanks k)
      (if minus then -BitVec.ofNat 32 n else BitVec.ofNat 32 n) := by
  have hneg (s : List UInt8) : negated sc s = decide (s = ['-'.toUInt8]) := by
    rcases hsc with rfl | rfl <;> rfl
  have hpiece (blank s : List UInt8) (hblank : ∀ c ∈ blank, isspace c = true) (hs : Signs s) :
      Piece sc (blank ++ (s ++ body ++ blanks k))
        (if s = ['-'.toUInt8] then -BitVec.ofNat 32 n else BitVec.ofNat 32 n) := by
    have hmk := Piece.mk hblank hs hbody hn (spaces_blanks k)
    rw [hneg] at hmk
    simpa only [decide_eq_true_eq] using hmk
  unfold Sgn at hsgn
  cases minus with
  | true =>
    rw [if_pos rfl] at hsgn
    subst hsgn
    simpa using hpiece (blanks a) ['-'.toUInt8] (spaces_blanks a) (.inr (.inr rfl))
  | false =>
    rw [if_neg (by decide)] at hsgn
    rcases hsgn with rfl | rfl | rfl
    · simpa using hpiece (blanks a) [] (spaces_blanks a) (.inl rfl)
    · have hplus := hpiece (blanks a) ['+'.toUInt8] (spaces_blanks a) (.inr (.inl rfl))
      rw [if_neg (by decide)] at hplus
      simpa using hplus
    · have hblank := hpiece (blanks (a + 1)) [] (spaces_blanks _) (.inl rfl)
      rw [blanks_succ] at hblank
      simpa using hblank

theorem numText_short (spec : Spec) (r : Radix) (hr : r.pre.length ≤ 2) (minus : Bool)
    (number : Nat) : (numText spec r minus number).sz.toNat < 2 ^ 31 := by
  have hsz := (numText_sound spec r hr minus number).sz
  have hlen := (digitsText_sound spec r hr number).2
  have hsigned (c : UInt8) : ((digitsText spec r number).signed c).s.length ≤ 125 :=
    Nat.succ_le_succ hlen
  have hshort : (numText spec r minus number).s.length ≤ 125 := by
    unfold numText
    dsimp only
    split_ifs
    · exact hsigned _
    · exact hsigned _
    · exact hsigned _
    · omega
  omega

theorem Fits.signed {sc : UInt8} (hch : Signed ch) (h : Fits ch spec v sc) :
    ∃ w, Writes ch spec v w ∧ Piece sc w v := by
  have hten : writesBase ch = 10 := by rcases hch with rfl | rfl <;> rfl
  have hlt := (if true && v.slt 0 then -v else v).isLt
  have hvalue : (if true && v.slt 0 then
      -BitVec.ofNat 32 (if true && v.slt 0 then -v else v).toNat
      else BitVec.ofNat 32 (if true && v.slt 0 then -v else v).toNat) = v := by
    simp only [BitVec.ofNat_toNat, BitVec.setWidth_eq]
    split <;> simp
  have hzero (hn : (if true && v.slt 0 then -v else v).toNat = 0) : v = 0 := by
    rw [hn] at hvalue
    simpa using hvalue.symm
  have hnumber := number_word h.long true v
  generalize (true && v.slt 0) = minus at hlt hvalue hzero hnumber
  generalize (if minus then -v else v).toNat = n at hlt hvalue hzero hnumber
  obtain ⟨hsgn, hbody⟩ := numText_parts spec ⟨10, true, false, []⟩ (by decide) (by decide) rfl minus
    hlt
  have hsound := numText_sound spec ⟨10, true, false, []⟩ (by decide) minus n
  have hshort := numText_short spec ⟨10, true, false, []⟩ (by decide) minus n
  obtain ⟨a, z, k, htext, hz, hzdot⟩ := printOut_text spec ⟨[], 0⟩ hsound
  have hsc : sc = 'd'.toUInt8 ∨ sc = 'i'.toUInt8 :=
    h.base.imp (fun hsame => scanDiv_ten (hsame.trans hten)) fun hconst => hconst.2.1 hch
  have hdigits : (numText spec ⟨10, true, false, []⟩ minus n).body =
      ltostr bufRoom n (writesBase ch) false ∨ n = 0 ∧ v = 0 ∧
        (numText spec ⟨10, true, false, []⟩ minus n).body = [] ∧ spec.dot = true ∧
          (0 < spec.preci.toInt → 0 < z) := by
    rw [hten]
    refine hbody.imp_right ?_
    rintro ⟨hn, hnil, hdot, hlen⟩
    exact ⟨hn, hzero hn, hnil, hdot, fun hpreci => hzdot hdot hpreci hlen⟩
  have hnum := h.numeral false (fun hpad hpreci => hz hpad hpreci hshort) hlt (by rw [hten]; decide)
    (by rw [hten]; decide) hdigits fun _ => rfl
  have hpiece := piece_signed hsgn hsc hnum hlt a k
  rw [hvalue] at hpiece
  refine ⟨_, fun o rest =>
    ⟨_, convert_number (.inl hch) (radix_signed hch) o (hnumber rest), ?_⟩, hpiece⟩
  rw [printOut_append, htext]
  simp [Out.text]

theorem piece_unsigned {sc : UInt8} (hbody : Numeral (scanDiv sc) body n) (hn : n < 2 ^ 32)
    (a k : Nat) : Piece sc (blanks a ++ body ++ blanks k) (BitVec.ofNat 32 n) := by
  have hpiece := Piece.mk (spaces_blanks a) (.inl rfl) hbody hn (spaces_blanks k)
  have hneg : negated sc [] = false := Bool.and_false _
  rw [hneg] at hpiece
  simpa using hpiece

theorem Fits.unsigned {sc : UInt8} (hch : Unsigned ch) (h : Fits ch spec v sc) :
    ∃ w, Writes ch spec v w ∧ Piece sc w v := by
  obtain ⟨r, spec', hradix, hlong, hbase, hsign, hpre⟩ := radix_unsigned hch h.long
  obtain ⟨hdot, hpreci, hpad, hcase⟩ := radix_spec hradix
  have hpre2 : r.pre.length ≤ 2 := by
    rcases hpre with h | ⟨-, h⟩ | ⟨-, x, -, h⟩ <;> simp [h]
  have hbounds : 2 ≤ writesBase ch ∧ writesBase ch ≤ 36 := by
    unfold writesBase
    repeat' split
    all_goals decide
  have hup (hten : writesBase ch = 10) : r.upcase = false := by
    refine Bool.eq_false_iff.mpr fun hup => ?_
    rw [hcase hup] at hten
    exact absurd hten (by decide)
  have hnumber (rest : List Arg) :
      Stdarg.number spec' r.inSign (.word v :: rest) = some (false, v.toNat, rest) := by
    rw [hsign]
    exact number_word hlong false v rest
  have hnum : numText spec' r false v.toNat = digitsText spec' r v.toNat := by
    unfold numText
    dsimp only
    rw [if_neg (by decide), if_neg fun h => absurd (hsign.symm.trans h.1) (by decide)]
  have hsound := (digitsText_sound spec' r hpre2 v.toNat).1
  have hshort := numText_short spec' r hpre2 false v.toNat
  rw [hnum] at hshort
  obtain ⟨a, z, k, htext, hz, hzdot⟩ := printOut_text spec' ⟨[], 0⟩ hsound
  rw [hpad, hpreci] at hz
  rw [hdot, hpreci] at hzdot
  have hnone (hpad : spec.padwith ≠ '0'.toUInt8) (hpreci : spec.preci = 0) : z = 0 :=
    hz hpad hpreci hshort
  have hcore : Numeral (scanDiv sc) ((digitsText spec' r v.toNat).head ++
      (zeros z ++ (digitsText spec' r v.toNat).body)) v.toNat := by
    have hsame (hten : ¬writesBase ch = 10) : scanDiv sc = writesBase ch :=
      h.base.resolve_right fun hconst => hten hconst.2.2.1
    rcases digitsText_parts spec' (hbase ▸ hbounds.1) (hbase ▸ hbounds.2) hpre2 v.isLt with
      ⟨hn, htodo, hnil, hdot', hsz⟩ | ⟨-, hhead, hbody⟩
    · have hv : v = 0 := BitVec.eq_of_toNat_eq hn
      have hsome (hpos : 0 < spec.preci.toInt) : 0 < z :=
        hzdot (hdot.symm.trans hdot') hpos (by rw [hsz, htodo]; rfl)
      rw [Text.head, htodo, List.take_zero, List.nil_append]
      exact h.numeral r.upcase hnone v.isLt hbounds.1 hbounds.2
        (.inr ⟨hn, hv, hnil, hdot.symm.trans hdot', hsome⟩) hup
    · obtain ⟨hdigits, hvalue⟩ := ltostr_digits hbounds.1 hbounds.2 r.upcase v.isLt
      rw [hhead, hbody, hbase]
      rcases hpre with hpre | ⟨height, hpre⟩ | ⟨hsixteen, x, hx, hpre⟩
      · rw [hpre, List.nil_append]
        exact h.numeral r.upcase hnone v.isLt hbounds.1 hbounds.2 (.inl rfl) hup
      · have hnum8 := Numeral.digits hbounds.1 hbounds.2 (Digits.zeros hbounds.1 hdigits (z + 1))
        rw [number_zeros, hvalue, zeros_cons] at hnum8
        rw [hsame (by omega), hpre]
        exact hnum8
      · have hbase16 : writesBase ch = 16 := hbase.symm.trans hsixteen
        rw [hsame (by omega), hpre, hbase16]
        rw [hbase16] at hdigits hvalue
        have hnum16 := Numeral.hexadecimal hx (Digits.zeros (by decide) hdigits z)
        rw [number_zeros, hvalue] at hnum16
        exact hnum16
  have hpiece := piece_unsigned hcore v.isLt a k
  rw [BitVec.ofNat_toNat, BitVec.setWidth_eq] at hpiece
  refine ⟨_, fun o rest =>
    ⟨_, convert_number (.inr hch) hradix o (hnumber rest), ?_⟩, hpiece⟩
  rw [printOut_append, hnum, htext]
  simp [Out.text]

theorem Fits.piece {sc : UInt8} (h : Fits ch spec v sc) : ∃ w, Writes ch spec v w ∧ Piece sc w v :=
  h.writes.elim (fun hch => h.signed hch) fun hch => h.unsigned hch

theorem pieces_of_fits {items : List (UInt8 × Spec × BitVec 32)} {scs : List UInt8}
    (hfits : List.Forall₂ (fun i sc => Fits i.1 i.2.1 i.2.2 sc) items scs) :
    ∃ pieces : List (UInt8 × List UInt8 × BitVec 32), pieces.map Prod.fst = scs ∧
      (pieces.map fun p => p.2.2) = (items.map fun i => i.2.2) ∧
      (∀ p ∈ pieces, Integer p.1 ∧ Piece p.1 p.2.1 p.2.2) ∧
      List.Forall₂ (fun i w => Writes i.1 i.2.1 i.2.2 w) items (pieces.map fun p => p.2.1) := by
  induction hfits with
  | nil => exact ⟨[], rfl, rfl, fun p hp => (by cases hp), .nil⟩
  | @cons i sc items scs hfit _ ih =>
    obtain ⟨pieces, hscs, hvalues, hpieces, hwrites⟩ := ih
    obtain ⟨w, hw, hpiece⟩ := hfit.piece
    refine ⟨(sc, w, i.2.2) :: pieces, congrArg (List.cons sc) hscs,
      congrArg (List.cons i.2.2) hvalues, List.forall_mem_cons.mpr ⟨⟨hfit.reads, hpiece⟩, hpieces⟩, .cons hw hwrites⟩

/-- Integers written by any format of directives with a blank behind each, whatever their flags,
widths and precisions, are read again. -/
theorem sscanf_reads_sprintf {items : List (UInt8 × Spec × BitVec 32)} {scs : List UInt8}
    (h : Prints format args items)
    (hfits : List.Forall₂ (fun i sc => Fits i.1 i.2.1 i.2.2 sc) items scs) (hne : items ≠ []) :
    ∃ n o, vPrintf format args = some (n, o) ∧ (o.text.length + 1 < 2 ^ 32 →
      vsscanf o.text (scanFormat scs) =
        some (BitVec.ofNat 32 items.length, items.map fun i => .word i.2.2)) := by
  obtain ⟨pieces, rfl, hvalues, hpieces, hwrites⟩ := pieces_of_fits hfits
  obtain ⟨n, o, hprint, htext⟩ := vPrintfLoop_prints h hwrites ⟨[], 0⟩
  have htext' : o.text = spaced (pieces.map fun p => p.2.1) := htext
  have hlen : pieces.length = items.length := by
    simpa using congrArg List.length hvalues
  have hstores : (pieces.map fun p => Store.word p.2.2) = items.map fun i => .word i.2.2 := by
    have hmap := congrArg (List.map Store.word) hvalues
    rw [List.map_map, List.map_map] at hmap
    exact hmap
  have hsome : pieces ≠ [] := by
    rintro rfl
    exact hne (List.length_eq_zero_iff.mp hlen.symm)
  refine ⟨n, o, hprint, fun hshort => ?_⟩
  rw [htext'] at hshort ⊢
  rw [vsscanf_pieces hpieces hsome hshort, hlen, hstores]

/-- A number with a sign and a precision, one with a prefix in a field, and a plain one. -/
theorem sscanf_reads_sprintf_three : ∃ n o,
    vPrintf ("%+.5d %#10x %u ".toList.map Char.toUInt8) [.word (-42), .word 0xbeef, .word 7] =
      some (n, o) ∧ (o.text.length + 1 < 2 ^ 32 →
        vsscanf o.text (scanFormat ("dxu".toList.map Char.toUInt8)) =
          some (3, [.word (-42), .word 0xbeef, .word 7])) := by
  have hsigned : directive .none 0 ("+.5d %#10x %u ".toList.map Char.toUInt8)
      [.word (-42), .word 0xbeef, .word 7] = some (.conv 'd'.toUInt8
        { Spec.none with sign := true, dot := true, preci := 5 }
        (' '.toUInt8 :: "%#10x %u ".toList.map Char.toUInt8)
        [.word (-42), .word 0xbeef, .word 7]) := by decide +kernel
  have hhex : directive .none 0 ("#10x %u ".toList.map Char.toUInt8) [.word 0xbeef, .word 7] =
      some (.conv 'x'.toUInt8 { Spec.none with hash := -1, width := 10 }
        (' '.toUInt8 :: "%u ".toList.map Char.toUInt8) [.word 0xbeef, .word 7]) := by decide +kernel
  have hplain : directive .none 0 ("u ".toList.map Char.toUInt8) [.word 7] =
      some (.conv 'u'.toUInt8 .none [' '.toUInt8] [.word 7]) := by decide +kernel
  have hu : writesBase 'u'.toUInt8 = 10 ∧ Spec.none.padwith ≠ '0'.toUInt8 := by decide
  refine sscanf_reads_sprintf (.word hsigned (.word hhex (.word hplain (.done []))))
    (.cons ?_ (.cons ?_ (.cons ?_ .nil))) (by simp)
  · exact ⟨.inl (.inl rfl), by unfold Integer; decide, .inl rfl, by decide, .inl rfl⟩
  · exact ⟨.inr (by unfold Unsigned; decide), by unfold Integer; decide, .inl rfl, by decide,
      .inl rfl⟩
  · exact ⟨.inr (.inl rfl), by unfold Integer; decide, .inl rfl, by decide,
      .inr ⟨rfl, fun h => absurd h (by unfold Signed; decide), hu.1, rfl, rfl, hu.2⟩⟩

end Xmertl.Partikle.Stdarg
