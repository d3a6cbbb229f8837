import Xmertl.Partikle.Stdarg

/-!
# Formatted input

`__v_scanf` and `vsscanf` of `ulibc/libc/stdarg.c`. The text is that of a string; what is stored
through the pointers of the argument list stands in their order. Floating point is left out:
`none` is a conversion of it, or a set that runs out of its table or of the format.
-/

namespace Xmertl.Partikle.Stdarg

open Stdlib

inductive Store where
  | word (v : BitVec 32)
  | half (v : BitVec 16)
  | llong (v : BitVec 64)
  | bytes (s : List UInt8)
  deriving DecidableEq

/-- `tpch` and the characters after it; at the end there is none. -/
structure Scan where
  ahead : List UInt8
  consumed : BitVec 32
  n : BitVec 32
  stores : List Store
  deriving DecidableEq

structure ScanFlags where
  width : BitVec 32
  flagWidth : Bool
  discard : Bool
  half : Bool
  long : Bool
  longlong : Bool
  deriving DecidableEq

def ScanFlags.none : ScanFlags := ⟨-1, false, false, false, false, false⟩

inductive ScanParsed where
  | errOut
  | zero
  | conv (ch : UInt8) (f : ScanFlags) (format : Ptr)
  deriving DecidableEq

/-- What comes of a conversion: a `return`, a `goto err_out` or the next of the format. -/
inductive Outcome where
  | returns (n : BitVec 32) (stores : List Store)
  | errOut (x : Scan)
  | next (x : Scan) (format : Ptr)
  deriving DecidableEq

-- ---------------------------------------------------------------------------
-- The text
-- ---------------------------------------------------------------------------

def Scan.is (x : Scan) (c : Char) : Bool := x.ahead.head? = some c.toUInt8

/-- `tpch = A_GETC (fn)`, which is not done at the end. -/
def Scan.getc (x : Scan) : Scan := { x with ahead := x.ahead.tail, consumed := x.consumed + 1 }

/-- A loop that ends with `tpch = A_GETC (fn)`: as long as there is a character that `step`
takes. -/
def whileTakes {σ : Type} (step : σ → UInt8 → Option σ) : σ → List UInt8 → σ × List UInt8
  | a, [] => (a, [])
  | a, c :: cs =>
    match step a c with
    | some a => whileTakes step a cs
    | none => (a, c :: cs)

def Scan.rest (x : Scan) (ahead : List UInt8) : Scan :=
  { x with ahead, consumed := x.consumed + BitVec.ofNat 32 (x.ahead.length - ahead.length) }

/-- `while (isspace (tpch)) tpch = A_GETC (fn)`. -/
def Scan.skipSpace (x : Scan) : Scan :=
  x.rest (whileTakes (fun _ c => if isspace c then some () else none) () x.ahead).2

def Scan.store (x : Scan) (s : Store) : Scan := { x with stores := x.stores ++ [s] }

def Scan.count (x : Scan) : Scan := { x with n := x.n + 1 }

/-- From `err_out` on; EOF is -1. -/
def Scan.errOut (x : Scan) : BitVec 32 × List Store :=
  (if x.ahead = [] ∧ x.n = 0 then -1 else x.n, x.stores)

-- ---------------------------------------------------------------------------
-- Integers
-- ---------------------------------------------------------------------------

def ULLONG_MAX : BitVec 64 := -1

/-- `neg`, and what follows the sign; a `+` may follow a `-`. -/
def Scan.sign (x : Scan) : Bool × Scan :=
  let neg := x.is '-'
  let x := if neg then x.getc else x
  (neg, if x.is '+' then x.getc else x)

/-- `c` for the character `tpch`; what is below `0` is large. -/
def scanDigit (tpch : UInt8) : Nat :=
  let d := tpch ||| 0x20
  if d ≥ 'a'.toUInt8 then d.toNat - 97 + 10
  else if tpch ≤ '9'.toUInt8 then (tpch.toBitVec.zeroExtend 32 - 48).toNat
  else 0xff

/-- `_div` before the prefix is looked at. -/
def scanDiv (ch : UInt8) : Nat :=
  if ch = 'p'.toUInt8 ∨ ch = 'X'.toUInt8 ∨ ch = 'x'.toUInt8 then 16
  else if ch = 'd'.toUInt8 then 10
  else if ch = 'o'.toUInt8 then 8
  else 0

/-- At a `0`: from `scan_hex` on, to the digits. -/
def Scan.hex (x : Scan) (div : Nat) : Nat × Scan :=
  let x := x.getc
  if x.ahead.head?.any fun c => c ||| 0x20 = 'x'.toUInt8 then (16, x.getc) else (div, x)

/-- `_div`, and where the digits begin. -/
def Scan.radix (x : Scan) (f : ScanFlags) (ch : UInt8) : Nat × Scan :=
  let div := scanDiv ch
  if f.flagWidth then (div, x)
  else if div = 16 ∧ x.is '0' then x.hex 16
  else if div = 0 then if x.is '0' then x.hex 8 else (10, x)
  else (div, x)

/-- `width` and `v` after one more digit. -/
def scanStep (div : Nat) : BitVec 32 × BitVec 64 → UInt8 → Option (BitVec 32 × BitVec 64)
  | (width, v), tpch =>
    let c := scanDigit tpch
    if width = 0 ∨ c ≥ div then none
    else
      let d := v * BitVec.ofNat 64 div
      some (width - 1, if d < v then ULLONG_MAX else d + BitVec.ofNat 64 c)

def scanInt (f : ScanFlags) (ch : UInt8) (x : Scan) (format : Ptr) : Outcome :=
  let (neg, x) := x.skipSpace.sign
  if x.ahead = [] then .returns x.n x.stores
  else
    let consumedsofar := x.consumed
    let (div, x) := x.radix f ch
    let ((_, v), ahead) := whileTakes (scanStep div) (f.width, 0) x.ahead
    let x := x.rest ahead
    if consumedsofar = x.consumed then .returns x.n x.stores
    else
      let v := if (ch ||| 0x20) < 'p'.toUInt8 ∧ ¬v ≥ 0x8000000000000000 ∧ neg then v * -1 else v
      if f.discard then .next x format
      else
        let x := x.store <|
          if f.longlong then .llong v
          else if f.long then .word (v.setWidth 32)
          else if f.half then .half (v.setWidth 16)
          else .word (v.setWidth 32)
        .next (if consumedsofar < x.consumed then x.count else x) format

-- ---------------------------------------------------------------------------
-- Characters
-- ---------------------------------------------------------------------------

/-- A loop that stores the characters that `takes` takes, up to the width. -/
def scanBytes (width : BitVec 32) (takes : UInt8 → Bool) (x : Scan) : List UInt8 × Scan :=
  let ((_, s), ahead) := whileTakes (fun (a : BitVec 32 × List UInt8) c =>
    if a.1 ≠ 0 ∧ takes c then some (a.1 - 1, a.2 ++ [c]) else none) (width, []) x.ahead
  (s, x.rest ahead)

def scanChars (f : ScanFlags) (x : Scan) (format : Ptr) : Outcome :=
  let (s, y) := scanBytes (if f.flagWidth then f.width else 1) (fun _ => true) x
  .next (if f.discard then y else (y.store (.bytes s)).count) format

/-- At the end of the text the pointer has been taken and nothing is stored. -/
def scanString (f : ScanFlags) (x : Scan) (format : Ptr) : Outcome :=
  let x := x.skipSpace
  if x.ahead = [] then .next (if f.discard then x else x.store (.bytes [])) format
  else
    let (s, y) := scanBytes f.width (fun c => !isspace c) x
    .next (if f.discard then y else (y.store (.bytes (s ++ [0]))).count) format

abbrev CSet := List UInt8

/-- `cset[ch] = 1`; what is not ASCII has a negative index. -/
def CSet.add (cset : CSet) (ch : UInt8) : Option CSet :=
  if ch < 0x80 then some (ch :: cset) else none

/-- `for (; ch <= tmp; ++ch) cset[ch] = 1`, where the `ch` that is not ASCII is large. -/
def CSet.span (cset : CSet) (ch tmp : UInt8) : CSet :=
  if ch < 0x80 then
    (List.range' ch.toNat (tmp.toNat + 1 - ch.toNat)).map UInt8.ofNat ++ cset
  else cset

/-- The loop up to the `]`: the set, the last character, `flag_dash` and the format at its end. -/
def scanSet : CSet → UInt8 → Bool → Ptr → Option (CSet × UInt8 × Bool × Ptr)
  | cset, ch, dash, [] => some (cset, ch, dash, [])
  | cset, ch, dash, c :: format =>
    if c = ']'.toUInt8 then some (cset, ch, dash, c :: format)
    else if dash then scanSet (cset.span ch c) c false format
    else if c = '-'.toUInt8 then scanSet cset ch true format
    else (cset.add ch).bind fun cset => scanSet cset c false format

/-- `case '['`. -/
def scanBracket (f : ScanFlags) (x : Scan) (format : Ptr) : Option Outcome := do
  let (ch, format) ← List.head? format |>.map (·, format.tail)
  let not := ch = '^'.toUInt8
  let (ch, format) ← if not then List.head? format |>.map (·, format.tail) else some (ch, format)
  let first := ch = '-'.toUInt8 ∨ ch = ']'.toUInt8
  let cset : CSet ← if first then CSet.add [] ch else some []
  let (ch, format) ← if first then List.head? format |>.map (·, format.tail) else some (ch, format)
  let (cset, ch, dash, format) ← scanSet cset ch false format
  let cset ← if dash then CSet.add cset '-'.toUInt8 else cset.add ch
  if format = [] then none
  else
    let (s, y) := scanBytes f.width (fun c => cset.contains c != not) x
    return .next (if f.discard then y else { y.store (.bytes (s ++ [0])) with n := x.n + 1 })
      format.tail

-- ---------------------------------------------------------------------------
-- The loop over the format
-- ---------------------------------------------------------------------------

/-- From `in_scan` on; `eof` is that there is no character. As many characters of the format as
`skip` says have been passed already. -/
def inScan (eof : Bool) : ScanFlags → Nat → Ptr → ScanParsed
  | _, _, [] => if eof then .errOut else .zero
  | f, skip + 1, _ :: format => inScan eof f skip format
  | f, 0, ch :: format =>
    if ch ≠ 'n'.toUInt8 ∧ eof then .errOut
    else if ch = '*'.toUInt8 then inScan eof { f with discard := true } 0 format
    else if ch = 'h'.toUInt8 then inScan eof { f with half := true } 0 format
    else if ch = 'l'.toUInt8 then
      inScan eof { f with longlong := f.longlong || f.long, long := true } 0 format
    else if ch = 'q'.toUInt8 ∨ ch = 'L'.toUInt8 then
      inScan eof { f with longlong := true } 0 format
    else if isdigit ch then
      let (width, s) := Stdlib.strtol (ch :: format) none 10
      inScan eof { f with width, flagWidth := true } (format.length - (s.getD []).length) format
    else .conv ch f format

def scanConv (ch : UInt8) (f : ScanFlags) (x : Scan) (format : Ptr) : Option Outcome :=
  if ch = '%'.toUInt8 then
    some (if x.is '%' then .next x.getc format else .errOut x)
  else if ch = 'p'.toUInt8 ∨ ch = 'X'.toUInt8 ∨ ch = 'x'.toUInt8 ∨ ch = 'd'.toUInt8 ∨
      ch = 'o'.toUInt8 ∨ ch = 'u'.toUInt8 ∨ ch = 'i'.toUInt8 then
    some (scanInt f ch x format)
  else if ch = 'e'.toUInt8 ∨ ch = 'E'.toUInt8 ∨ ch = 'f'.toUInt8 ∨ ch = 'g'.toUInt8 then none
  else if ch = 'c'.toUInt8 then some (scanChars f x format)
  else if ch = 's'.toUInt8 then some (scanString f x format)
  else if ch = 'n'.toUInt8 then
    some (.next (if f.discard then x else x.store (.word (x.consumed - 1))) format)
  else if ch = '['.toUInt8 then scanBracket f x format
  else some (.errOut x)

/-- The value of `__v_scanf`, and what it has stored. A character of the format that is not ASCII
is none of the text's. -/
def vScanfLoop : Nat → Ptr → Scan → Option (BitVec 32 × List Store)
  | _, [], x => some x.errOut
  | skip + 1, _ :: format, x => vScanfLoop skip format x
  | 0, ch :: format, x =>
    if isspace ch then vScanfLoop (format.takeWhile isspace).length format x.skipSpace
    else if ch = '%'.toUInt8 then
      match inScan x.ahead.isEmpty .none 0 format with
      | .errOut => some x.errOut
      | .zero => some (0, x.stores)
      | .conv ch f rest =>
        match scanConv ch f x rest with
        | none => none
        | some (.returns n stores) => some (n, stores)
        | some (.errOut x) => some x.errOut
        | some (.next x rest) => vScanfLoop (format.length - rest.length) format x
    else if x.ahead.head? = some ch ∧ ch < 0x80 then vScanfLoop 0 format x.getc
    else some x.errOut

/-- `vsscanf`, with the first character taken. -/
def vsscanf (str format : Ptr) : Option (BitVec 32 × List Store) :=
  vScanfLoop 0 format ⟨str, 1, 0, []⟩

end Xmertl.Partikle.Stdarg
