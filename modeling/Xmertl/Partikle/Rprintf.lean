import Mathlib.Logic.Function.Basic
import Mathlib.Tactic.IntervalCases

/-!
# Formatted output of librc

`vrprintf` of `core/librc/rprintf.c`. A format is the bytes from its first on, its NUL
among them; the arguments are those of the 32-bit layout. `none` is an access outside the
format or the scratch buffer, or an argument of another kind than the one asked for.
-/

namespace Xmertl.Partikle.Rprintf

def SCRATCH : Nat := 20

abbrev CString := { s : List UInt8 // 0 ∉ s }

inductive Arg where
  | int (v : BitVec 32)
  | long (v : BitVec 32)
  | vlong (v : BitVec 64)
  | str (s : CString)
  deriving DecidableEq

/-- Characters that pad have been chosen where there is a width. -/
structure Padding where
  fill : UInt8
  width : UInt8
  filled : width ≠ 0 → fill ≠ 0
  deriving DecidableEq

/-- What stands between a `%` and the end of its directive. -/
structure Directive where
  pad : Padding
  islong : Bool
  isvlong : Bool
  fmtFlag : UInt8
  deriving DecidableEq

structure Number where
  pad : Padding
  base : Nat
  neg : Bool
  uVal : BitVec 64
  hbase : base = 10 ∨ base = 16
  deriving DecidableEq

/-- What a format puts out, one part after another. -/
inductive Piece where
  | char (c : UInt8)
  | string (s : CString)
  | number (m : Number)
  deriving DecidableEq

-- ---------------------------------------------------------------------------
-- Reading the format
-- ---------------------------------------------------------------------------

/-- `*fmt++`. -/
def fetch : List UInt8 → Option (UInt8 × List UInt8)
  | [] => none
  | c :: fmt => some (c, fmt)

def isDigit (c : UInt8) : Bool := '0'.toUInt8 ≤ c && c ≤ '9'.toUInt8

/-- The characters of a width, an `unsigned char`, and the one after them. -/
def widthLoop (width : UInt8) : List UInt8 → Option (UInt8 × UInt8 × List UInt8)
  | [] => none
  | c :: fmt =>
    if isDigit c then widthLoop (10 * width + (c - '0'.toUInt8)) fmt else some (width, c, fmt)

def isFill (c : UInt8) : Bool := c = '0'.toUInt8 || c = ' '.toUInt8

theorem fill_ne_zero (c : UInt8) (h : isFill c = true) : c ≠ 0 := by
  rintro rfl
  exact absurd h (by decide)

theorem no_padding (h : (0 : UInt8) ≠ 0) : (0 : UInt8) ≠ 0 := h

def padding (fmtFlag : UInt8) (fmt : List UInt8) : Option (Padding × UInt8 × List UInt8) :=
  if h : isFill fmtFlag then do
    let (width, next, fmt) ← widthLoop 0 fmt
    return (⟨fmtFlag, width, fun _ => fill_ne_zero fmtFlag h⟩, next, fmt)
  else some (⟨0, 0, no_padding⟩, fmtFlag, fmt)

def isEll (c : UInt8) : Bool := c = 'l'.toUInt8 || c = 'L'.toUInt8

def size (fmtFlag : UInt8) (fmt : List UInt8) : Option (Bool × Bool × UInt8 × List UInt8) :=
  if isEll fmtFlag then do
    let (fmtFlag, fmt) ← fetch fmt
    if fmtFlag = 'l'.toUInt8 then do
      let (fmtFlag, fmt) ← fetch fmt
      return (true, true, fmtFlag, fmt)
    else return (true, false, fmtFlag, fmt)
  else some (false, false, fmtFlag, fmt)

/-- The format from the character after a `%` on. -/
def directive (fmt : List UInt8) : Option (Directive × List UInt8) := do
  let (fmtFlag, fmt) ← fetch fmt
  let (pad, fmtFlag, fmt) ← padding fmtFlag fmt
  let (islong, isvlong, fmtFlag, fmt) ← size fmtFlag fmt
  return (⟨pad, islong, isvlong, fmtFlag⟩, fmt)

-- ---------------------------------------------------------------------------
-- Taking the arguments
-- ---------------------------------------------------------------------------

def argInt : List Arg → Option (BitVec 32 × List Arg)
  | .int v :: args => some (v, args)
  | _ => none

def argLong : List Arg → Option (BitVec 32 × List Arg)
  | .long v :: args => some (v, args)
  | _ => none

def argVlong : List Arg → Option (BitVec 64 × List Arg)
  | .vlong v :: args => some (v, args)
  | _ => none

def argStr : List Arg → Option (CString × List Arg)
  | .str s :: args => some (s, args)
  | _ => none

/-- `s_val`, and `u_val` of what is left of it without its sign. -/
def signedVal (d : Directive) (args : List Arg) : Option (Bool × BitVec 64 × List Arg) := do
  let (sVal, args) ←
    if d.isvlong then argVlong args
    else (if d.islong then argLong args else argInt args).map fun (v, args) =>
      (v.signExtend 64, args)
  let abs := if sVal.slt 0 then -sVal else sVal
  return (sVal.slt 0, if d.isvlong then abs else (abs.truncate 32).zeroExtend 64, args)

def unsignedVal (d : Directive) (args : List Arg) : Option (BitVec 64 × List Arg) :=
  if d.isvlong then argVlong args
  else (if d.islong then argLong args else argInt args).map fun (v, args) =>
    (v.zeroExtend 64, args)

theorem base_ten : 10 = 10 ∨ 10 = 16 := .inl rfl

theorem base_sixteen : 16 = 10 ∨ 16 = 16 := .inr rfl

def convert (d : Directive) (args : List Arg) : Option (Piece × List Arg) :=
  if d.fmtFlag = 'c'.toUInt8 ∨ d.fmtFlag = 'C'.toUInt8 then do
    let (v, args) ← argInt args
    return (.char ⟨v.truncate 8⟩, args)
  else if d.fmtFlag = 's'.toUInt8 ∨ d.fmtFlag = 'S'.toUInt8 then do
    let (s, args) ← argStr args
    return (.string s, args)
  else if d.fmtFlag = 'i'.toUInt8 ∨ d.fmtFlag = 'I'.toUInt8 ∨ d.fmtFlag = 'd'.toUInt8 ∨
      d.fmtFlag = 'D'.toUInt8 then do
    let (neg, uVal, args) ← signedVal d args
    return (.number ⟨d.pad, 10, neg, uVal, base_ten⟩, args)
  else if d.fmtFlag = 'u'.toUInt8 ∨ d.fmtFlag = 'U'.toUInt8 then do
    let (uVal, args) ← unsignedVal d args
    return (.number ⟨d.pad, 10, false, uVal, base_ten⟩, args)
  else if d.fmtFlag = 'x'.toUInt8 ∨ d.fmtFlag = 'X'.toUInt8 then do
    let (uVal, args) ← unsignedVal d args
    return (.number ⟨d.pad, 16, false, uVal, base_sixteen⟩, args)
  else some (.char d.fmtFlag, args)

-- ---------------------------------------------------------------------------
-- Putting out
-- ---------------------------------------------------------------------------

def digit (u base : Nat) : UInt8 :=
  let ch := UInt8.ofNat (u % base) + '0'.toUInt8
  if ch > '9'.toUInt8 then ch + ('a'.toUInt8 - '9'.toUInt8 - 1) - 0x20 else ch

/-- The `do` loop. `ptr` is what the scratch buffer holds from the pointer on, and the last
argument is the bytes before it. -/
def digitLoop (base u : Nat) (width : UInt8) (ptr : List UInt8) :
    Nat → Option (UInt8 × List UInt8 × Nat)
  | 0 => none
  | free + 1 =>
    let ptr := digit u base :: ptr
    let width := if width ≠ 0 then width - 1 else width
    if u / base ≠ 0 then digitLoop base (u / base) width ptr free else some (width, ptr, free)

/-- `while(width--) *--ptr = fill`. -/
def padLoop (fill : UInt8) : Nat → List UInt8 → Nat → Option (List UInt8)
  | 0, ptr, _ => some ptr
  | _ + 1, _, 0 => none
  | width + 1, ptr, free + 1 => padLoop fill width (fill :: ptr) free

/-- The scratch buffer from the pointer on, once its number is there. -/
def Number.scratch (m : Number) : Option (List UInt8) := do
  let (width, ptr, free) ← digitLoop m.base m.uVal.toNat m.pad.width [0] (SCRATCH - 1)
  padLoop m.pad.fill width.toNat ptr free

section
variable {σ : Type} (putc : UInt8 → σ → σ)

/-- `while(*ptr) { fp->putc(*ptr, fp->a); ptr++; }`. -/
def putStr : List UInt8 → σ → Option σ
  | [], _ => none
  | c :: ptr, a => if c = 0 then some a else putStr ptr (putc c a)

def emit : Piece → σ → Option σ
  | .char c, a => some (putc c a)
  | .string s, a => putStr putc (s.val ++ [0]) a
  | .number m, a => do
    let a := if m.neg then putc '-'.toUInt8 a else a
    let ptr ← m.scratch
    putStr putc ptr a

/-- At most as many rounds as the first argument says. -/
def vrprintfLoop : Nat → List UInt8 → List Arg → σ → Option σ
  | 0, _, _, _ => none
  | k + 1, fmt, args, a => do
    let (fmtFlag, fmt) ← fetch fmt
    if fmtFlag ≠ '%'.toUInt8 then
      if fmtFlag = 0 then return a else vrprintfLoop k fmt args (putc fmtFlag a)
    else
      let (d, fmt) ← directive fmt
      let (piece, args) ← convert d args
      let a ← emit putc piece a
      vrprintfLoop k fmt args a

/-- Each round takes a character of the format at least. -/
def vrprintf (fmt : List UInt8) (args : List Arg) (a : σ) : Option σ :=
  vrprintfLoop putc fmt.length fmt args a

end

-- ---------------------------------------------------------------------------
-- What it is to put out
-- ---------------------------------------------------------------------------

/-- The arguments fit the format, which then asks for these pieces. -/
inductive Reads : List UInt8 → List Arg → List Piece → Prop
  | done (fmt : List UInt8) (args : List Arg) : Reads (0 :: fmt) args []
  | char (c : UInt8) (h : c ≠ '%'.toUInt8) (h0 : c ≠ 0) {fmt : List UInt8} {args : List Arg}
      {ps : List Piece} (rest : Reads fmt args ps) : Reads (c :: fmt) args (.char c :: ps)
  | directive {fmt fmt' : List UInt8} {args args' : List Arg} {d : Directive} {p : Piece}
      {ps : List Piece} (hd : directive fmt = some (d, fmt'))
      (hp : convert d args = some (p, args')) (rest : Reads fmt' args' ps) :
      Reads ('%'.toUInt8 :: fmt) args (p :: ps)

def numeral (base u : Nat) : List UInt8 :=
  (Nat.toDigits base u).map fun c => c.toUpper.toUInt8

def Number.numeral (m : Number) : List UInt8 := Rprintf.numeral m.base m.uVal.toNat

def Number.padded (m : Number) : List UInt8 :=
  List.replicate (m.pad.width.toNat - m.numeral.length) m.pad.fill ++ m.numeral

def Piece.text : Piece → List UInt8
  | .char c => [c]
  | .string s => s.val
  | .number m => if m.neg then '-'.toUInt8 :: m.padded else m.padded

def textOf (ps : List Piece) : List UInt8 := ps.flatMap Piece.text

def Piece.Fits : Piece → Prop
  | .number m => m.pad.width.toNat < SCRATCH ∧ m.numeral.length < SCRATCH
  | _ => True

instance : DecidablePred Piece.Fits
  | .number _ => instDecidableAnd
  | .char _ => instDecidableTrue
  | .string _ => instDecidableTrue

-- ---------------------------------------------------------------------------
-- The scratch buffer
-- ---------------------------------------------------------------------------

section
variable {base u w free : Nat} {fill : UInt8} {ptr : List UInt8}

theorem digit_eq (hb : base = 10 ∨ base = 16) :
    digit u base = (Nat.digitChar (u % base)).toUpper.toUInt8 := by
  have hlt : u % base < 16 := (Nat.mod_lt _ (by omega)).trans_le (by omega)
  unfold digit
  generalize u % base = d at hlt
  interval_cases d <;> rfl

theorem digit_ne_zero (hb : base = 10 ∨ base = 16) : digit u base ≠ 0 := by
  have hlt : u % base < 16 := (Nat.mod_lt _ (by omega)).trans_le (by omega)
  unfold digit
  generalize u % base = d at hlt
  interval_cases d <;> decide

theorem numeral_eq (hb : base = 10 ∨ base = 16) :
    numeral base u = (if u / base ≠ 0 then numeral base (u / base) else []) ++ [digit u base] := by
  have hone : 1 < base := by omega
  have hdiv : u / base ≠ 0 ↔ ¬u < base := by
    rw [Ne, Nat.div_eq_zero_iff]
    omega
  rw [digit_eq hb, numeral, Nat.toDigits_eq_if hone]
  by_cases hu : u < base
  · rw [if_pos hu, if_neg (mt hdiv.mp (not_not_intro hu)), Nat.mod_eq_of_lt hu]
    rfl
  · rw [if_neg hu, if_pos (hdiv.mpr hu), List.map_append]
    rfl

theorem digitLoop_spec (hb : base = 10 ∨ base = 16) (width : UInt8) (ptr : List UInt8)
    (h : (numeral base u).length ≤ free) :
    ∃ rest : UInt8, rest.toNat = width.toNat - (numeral base u).length ∧
      digitLoop base u width ptr free =
        some (rest, numeral base u ++ ptr, free - (numeral base u).length) := by
  induction free generalizing u width ptr with
  | zero =>
    rw [numeral_eq hb, List.length_append] at h
    exact absurd h (Nat.not_succ_le_zero _)
  | succ free ih =>
    have hwidth : (if width ≠ 0 then width - 1 else width).toNat = width.toNat - 1 := by
      split
      · rename_i hne
        have hpos : width.toNat ≠ 0 := fun h0 => hne (UInt8.toNat_inj.mp h0)
        exact UInt8.toNat_sub_of_le _ _ (UInt8.le_iff_toNat_le.mpr (Nat.one_le_iff_ne_zero.mpr hpos))
      · rename_i hz
        rw [not_ne_iff.mp hz]
        rfl
    rw [numeral_eq hb] at h ⊢
    by_cases hdiv : u / base ≠ 0
    · rw [if_pos hdiv, List.length_append] at h
      obtain ⟨rest, hrest, hloop⟩ := ih (if width ≠ 0 then width - 1 else width)
        (digit u base :: ptr) (Nat.le_of_succ_le_succ h)
      refine ⟨rest, ?_, ?_⟩
      · rw [hrest, hwidth, if_pos hdiv, List.length_append, Nat.sub_sub, Nat.add_comm]
        rfl
      · rw [digitLoop, if_pos hdiv, hloop, if_pos hdiv, List.append_assoc, List.length_append,
          List.length_singleton, Nat.add_sub_add_right]
        rfl
    · refine ⟨_, ?_, by rw [digitLoop, if_neg hdiv, if_neg hdiv]; rfl⟩
      rw [hwidth, if_neg hdiv]
      rfl

theorem digitLoop_overruns (hb : base = 10 ∨ base = 16) (width : UInt8)
    (h : free < (numeral base u).length) : digitLoop base u width ptr free = none := by
  induction free generalizing u width ptr with
  | zero => rfl
  | succ free ih =>
    rw [numeral_eq hb, List.length_append] at h
    have hdiv : u / base ≠ 0 := by
      intro hz
      rw [if_neg (not_not_intro hz)] at h
      exact absurd h (by simp)
    rw [if_pos hdiv] at h
    rw [digitLoop, if_pos hdiv]
    exact ih _ (Nat.lt_of_succ_lt_succ h)

theorem padLoop_eq : padLoop fill w ptr free =
    if w ≤ free then some (List.replicate w fill ++ ptr) else none := by
  induction w generalizing free ptr with
  | zero => simp [padLoop]
  | succ w ih =>
    cases free with
    | zero => simp [padLoop]
    | succ free =>
      simp only [padLoop, ih, Nat.add_le_add_iff_right]
      rw [List.replicate_succ', List.append_assoc]
      rfl

theorem numeral_plain (hb : base = 10 ∨ base = 16) : 0 ∉ numeral base u := by
  induction u using Nat.strong_induction_on with
  | _ u ih =>
    rw [numeral_eq hb, List.mem_append, List.mem_singleton]
    rintro (hrest | hlast)
    · split at hrest
      · rename_i hdiv
        have hu : u ≠ 0 := fun h => hdiv (by rw [h, Nat.zero_div])
        exact ih _ (Nat.div_lt_self (Nat.pos_of_ne_zero hu) (by omega)) hrest
      · exact List.not_mem_nil hrest
    · exact digit_ne_zero hb hlast.symm

theorem padded_plain (m : Number) : 0 ∉ m.padded := by
  rw [Number.padded, List.mem_append, List.mem_replicate]
  rintro (⟨hw, hfill⟩ | hd)
  · refine m.pad.filled (fun h => hw ?_) hfill.symm
    rw [h]
    exact Nat.zero_sub _
  · exact numeral_plain m.hbase hd

/-- The number lies in the scratch buffer behind its padding, with its NUL at the end, or it
does not fit. -/
theorem scratch_eq (m : Number) :
    m.scratch = if (Piece.number m).Fits then some (m.padded ++ [0]) else none := by
  by_cases hlen : m.numeral.length ≤ SCRATCH - 1
  · obtain ⟨rest, hrest, hloop⟩ := digitLoop_spec m.hbase m.pad.width [0] hlen
    rw [Number.scratch, hloop, Option.bind_eq_bind, Option.bind_some]
    dsimp only
    rw [padLoop_eq, hrest]
    have hfits : m.pad.width.toNat - m.numeral.length ≤ SCRATCH - 1 - m.numeral.length ↔
        (Piece.number m).Fits := by
      simp only [Piece.Fits, SCRATCH] at hlen ⊢
      omega
    rw [Number.padded, List.append_assoc]
    exact if_congr hfits rfl rfl
  · rw [Number.scratch, digitLoop_overruns m.hbase _ (Nat.lt_of_not_le hlen), if_neg]
    · rfl
    · exact fun hfits => hlen (Nat.le_sub_one_of_lt hfits.2)

end

-- ---------------------------------------------------------------------------
-- The whole of the format
-- ---------------------------------------------------------------------------

section
variable {σ : Type} {putc : UInt8 → σ → σ} {fmt fmt' : List UInt8} {args : List Arg} {a : σ}
  {c : UInt8} {s : List UInt8} {d : Directive} {ps : List Piece} {k : Nat}

/-- The characters, one call of `putc` each. -/
def feed (putc : UInt8 → σ → σ) (s : List UInt8) (a : σ) : σ := s.foldl (fun a c => putc c a) a

theorem feed_append {t : List UInt8} : feed putc (s ++ t) a = feed putc t (feed putc s a) :=
  List.foldl_append

theorem putStr_eq (h : 0 ∉ s) : putStr putc (s ++ [0]) a = some (feed putc s a) := by
  induction s generalizing a with
  | nil => rfl
  | cons c s ih =>
    obtain ⟨hc, hs⟩ := not_or.mp (mt List.mem_cons.mpr h)
    rw [List.cons_append, putStr, if_neg (Ne.symm hc), ih hs]
    rfl

theorem emit_eq (p : Piece) :
    emit putc p a = if p.Fits then some (feed putc p.text a) else none := by
  cases p with
  | char c => exact (if_pos trivial).symm
  | string s => exact (putStr_eq s.property).trans (if_pos trivial).symm
  | number m =>
    simp only [emit, scratch_eq, Piece.text]
    by_cases hfits : (Piece.number m).Fits
    · simp only [if_pos hfits, Option.bind_eq_bind, Option.bind_some, putStr_eq (padded_plain m)]
      cases m.neg <;> rfl
    · simp only [if_neg hfits, Option.bind_eq_bind, Option.bind_none]

theorem widthLoop_shorter {w w' : UInt8} (h : widthLoop w fmt = some (w', c, fmt')) :
    fmt'.length ≤ fmt.length := by
  induction fmt generalizing w with
  | nil => exact absurd h (by simp [widthLoop])
  | cons x fmt ih =>
    rw [widthLoop] at h
    split at h
    · exact Nat.le_succ_of_le (ih h)
    · obtain ⟨-, -, rfl⟩ : _ ∧ _ ∧ _ := by simpa using h
      exact Nat.le_succ _

theorem fetch_shorter (h : fetch fmt = some (c, fmt')) : fmt'.length < fmt.length := by
  cases fmt with
  | nil => exact absurd h (by simp [fetch])
  | cons x fmt =>
    obtain ⟨-, rfl⟩ : _ ∧ _ := by simpa [fetch] using h
    exact Nat.lt_succ_self _

theorem padding_shorter {next : UInt8} {p : Padding} (h : padding c fmt = some (p, next, fmt')) :
    fmt'.length ≤ fmt.length := by
  unfold padding at h
  split at h
  · obtain ⟨⟨w, x, rest⟩, hw, h⟩ := Option.bind_eq_some_iff.mp h
    obtain ⟨-, -, rfl⟩ : _ ∧ _ ∧ _ := by simpa using h
    exact widthLoop_shorter hw
  · obtain ⟨-, -, rfl⟩ : _ ∧ _ ∧ _ := by simpa using h
    exact Nat.le_refl _

theorem size_shorter {next : UInt8} {l v : Bool} (h : size c fmt = some (l, v, next, fmt')) :
    fmt'.length ≤ fmt.length := by
  unfold size at h
  split at h
  · obtain ⟨⟨x, rest⟩, hx, h⟩ := Option.bind_eq_some_iff.mp h
    dsimp only at h
    split at h
    · obtain ⟨⟨y, rest'⟩, hy, h⟩ := Option.bind_eq_some_iff.mp h
      obtain ⟨-, -, -, rfl⟩ : _ ∧ _ ∧ _ ∧ _ := by simpa using h
      exact Nat.le_of_lt ((fetch_shorter hy).trans (fetch_shorter hx))
    · obtain ⟨-, -, -, rfl⟩ : _ ∧ _ ∧ _ ∧ _ := by simpa using h
      exact Nat.le_of_lt (fetch_shorter hx)
  · obtain ⟨-, -, -, rfl⟩ : _ ∧ _ ∧ _ ∧ _ := by simpa using h
    exact Nat.le_refl _

theorem directive_shorter (h : directive fmt = some (d, fmt')) : fmt'.length < fmt.length := by
  obtain ⟨⟨c, rest⟩, hc, h⟩ := Option.bind_eq_some_iff.mp h
  obtain ⟨⟨p, x, rest'⟩, hp, h⟩ := Option.bind_eq_some_iff.mp h
  obtain ⟨⟨l, v, y, rest''⟩, hs, h⟩ := Option.bind_eq_some_iff.mp h
  obtain ⟨-, rfl⟩ : _ ∧ _ := by simpa using h
  exact ((size_shorter hs).trans (padding_shorter hp)).trans_lt (fetch_shorter hc)

theorem vrprintfLoop_eq (h : Reads fmt args ps) (hk : fmt.length ≤ k) :
    vrprintfLoop putc k fmt args a =
      if ∀ p ∈ ps, p.Fits then some (feed putc (textOf ps) a) else none := by
  induction h generalizing a k with
  | done fmt args =>
    cases k with
    | zero => exact absurd hk (Nat.not_succ_le_zero _)
    | succ k => exact (if_pos (List.forall_mem_nil _)).symm
  | char c h h0 rest ih =>
    cases k with
    | zero => exact absurd hk (Nat.not_succ_le_zero _)
    | succ k =>
      simp only [vrprintfLoop, fetch, Option.bind_eq_bind, Option.bind_some, if_pos h, if_neg h0,
        ih (Nat.le_of_succ_le_succ hk)]
      refine if_congr ?_ rfl rfl
      rw [List.forall_mem_cons]
      exact (and_iff_right trivial).symm
  | @directive fmt fmt' args args' d p ps hd hp rest ih =>
    cases k with
    | zero => exact absurd hk (Nat.not_succ_le_zero _)
    | succ k =>
      have hshort := directive_shorter hd
      have hk' : fmt'.length ≤ k := by
        rw [List.length_cons] at hk
        omega
      simp only [vrprintfLoop, fetch, Option.bind_eq_bind, Option.bind_some, ne_eq, not_true,
        if_false, hd, hp, emit_eq, List.forall_mem_cons]
      by_cases hfits : p.Fits
      · simp only [hfits, if_true, Option.bind_some, ih hk', true_and]
        rw [textOf, textOf, List.flatMap_cons, feed_append]
      · simp only [hfits, false_and, if_false, Option.bind_none]

/-- `vrprintf` puts out the text of the format, or it writes outside its scratch buffer. -/
theorem vrprintf_eq (h : Reads fmt args ps) :
    vrprintf putc fmt args a =
      if ∀ p ∈ ps, p.Fits then some (feed putc (textOf ps) a) else none :=
  vrprintfLoop_eq h (Nat.le_refl _)

end

end Xmertl.Partikle.Rprintf
