import Mathlib.Logic.Function.Basic
import Xmertl.Partikle.Stdlib

/-!
# Formatted output

`__v_printf` and `vsnprintf` of `ulibc/libc/stdarg.c`, and of `core/libc/stdarg.c`, which has
them too. A format is its bytes without the NUL; the arguments are those of the 32-bit layout.
Floating point is left out: `none` is a conversion of it, or an argument of another kind than
the one asked for.
-/

namespace Xmertl.Partikle.Stdarg

open Stdlib

abbrev CString := { s : List UInt8 // 0 ∉ s ∧ s.length < 2 ^ 32 }

/-- An `int` and a `long` are a word, and a null pointer is no string. -/
inductive Arg where
  | word (v : BitVec 32)
  | llong (v : BitVec 64)
  | str (s : Option CString)
  deriving DecidableEq

/-- What stands between a `%` and its conversion. -/
structure Spec where
  padwith : UInt8
  hash : Int
  left : Bool
  space : Bool
  sign : Bool
  dot : Bool
  long : Int8
  width : BitVec 32
  preci : BitVec 32
  deriving DecidableEq

def Spec.none : Spec := ⟨' '.toUInt8, 0, false, false, false, false, 0, 0, 0⟩

/-- Where a directive ends: in a `return -1`, or with its conversion, the format after it and
the arguments that are left. -/
inductive Parsed where
  | fails
  | conv (ch : UInt8) (spec : Spec) (format : Ptr) (args : List Arg)
  deriving DecidableEq

-- ---------------------------------------------------------------------------
-- The directive
-- ---------------------------------------------------------------------------

def argWord : List Arg → Option (BitVec 32 × List Arg)
  | .word v :: args => some (v, args)
  | _ => none

def argLlong : List Arg → Option (BitVec 64 × List Arg)
  | .llong v :: args => some (v, args)
  | _ => none

def argStr : List Arg → Option (Option CString × List Arg)
  | .str s :: args => some (s, args)
  | _ => none

/-- `tmp < 0 ? 0 : tmp`. -/
def precision (tmp : BitVec 32) : BitVec 32 := if tmp.slt 0 then 0 else tmp

def flag (spec : Spec) (ch : UInt8) : Option Spec :=
  if ch = '#'.toUInt8 then some { spec with hash := -1 }
  else if ch = 'z'.toUInt8 then some spec
  else if ch = 'h'.toUInt8 then some { spec with long := spec.long - 1 }
  else if ch = 'q'.toUInt8 ∨ ch = 'L'.toUInt8 then some { spec with long := spec.long + 1 + 1 }
  else if ch = 'l'.toUInt8 then some { spec with long := spec.long + 1 }
  else if ch = '-'.toUInt8 then some { spec with left := true }
  else if ch = ' '.toUInt8 then some { spec with space := true }
  else if ch = '+'.toUInt8 then some { spec with sign := true }
  else none

/-- From `inn_printf` on. The first characters of the format have been passed already where
`format` was set to the end of a number. -/
def directive : Spec → Nat → Ptr → List Arg → Option Parsed
  | _, _, [], _ => some .fails
  | spec, skip + 1, _ :: format, args => directive spec skip format args
  | spec, 0, ch :: format, args =>
    match flag spec ch with
    | some spec => directive spec 0 format args
    | none =>
      if isdigit ch then
        if spec.dot then some .fails
        else
          let (width, s) := Stdlib.strtoul (ch :: format) none 10
          let padwith := if ch = '0'.toUInt8 ∧ !spec.left then '0'.toUInt8 else spec.padwith
          directive { spec with width, padwith } (format.length - (s.getD []).length) format args
      else if ch = '*'.toUInt8 then
        match argWord args with
        | some (width, args) => directive { spec with width } 0 format args
        | none => none
      else if ch = '.'.toUInt8 then
        if nth format 0 = '*'.toUInt8 then
          match argWord args with
          | some (tmp, args) =>
            directive { spec with dot := true, preci := precision tmp } 1 format args
          | none => none
        else
          let (tmp, s) := Stdlib.strtol format none 10
          directive { spec with dot := true, preci := precision tmp }
            (format.length - (s.getD []).length) format args
      else some (.conv ch spec format args)

-- ---------------------------------------------------------------------------
-- Output
-- ---------------------------------------------------------------------------

/-- What has been passed to `put`, call by call, and `len`. -/
structure Out where
  writes : List (List UInt8)
  len : BitVec 32
  deriving DecidableEq

/-- `A_WRITE (fn, s, sz); len += sz`. -/
def Out.put (o : Out) (s : List UInt8) (sz : BitVec 32) : Out :=
  ⟨o.writes ++ [s.take sz.toNat], o.len + sz⟩

/-- The bytes of a line of `pad_line`. -/
def padLine (padwith : UInt8) (n : Nat) : List UInt8 :=
  List.replicate n (if padwith = '0'.toUInt8 then '0'.toUInt8 else ' '.toUInt8)

/-- Lines of 16 as long as there are more than 15 to pad, then the rest. -/
def padLines (padwith : UInt8) (len : Nat) : List (List UInt8) :=
  List.replicate (len / 16) (padLine padwith 16) ++
    if len % 16 = 0 then [] else [padLine padwith (len % 16)]

/-- `len += write_pad (fn, len, padwith)`, for the `int` that `len` is. -/
def Out.pad (o : Out) (len : BitVec 32) (padwith : UInt8) : Out :=
  ⟨o.writes ++ padLines padwith len.toInt.toNat, o.len + BitVec.ofNat 32 len.toInt.toNat⟩

/-- What `print_out` is given: the text at `s`, of which `sz` bytes count, with how much of it
is its sign or prefix. -/
structure Text where
  s : List UInt8
  sz : BitVec 32
  todo : Nat
  deriving DecidableEq

/-- `preci > sz ? preci : sz`. -/
def vs (preci sz : BitVec 32) : BitVec 32 := if preci > sz then preci else sz

def printOut (spec : Spec) (t : Text) (o : Out) : Out :=
  if spec.width = 0 ∧ spec.preci = 0 then o.put t.s t.sz
  else
    let todo := BitVec.ofNat 32 t.todo
    let s := t.s.drop t.todo
    let sz := t.sz - todo
    let width := spec.width - todo
    if !spec.left then
      if spec.dot then
        let o := o.pad (width - vs spec.preci sz) ' '.toUInt8
        let o := if t.todo ≠ 0 then o.put t.s todo else o
        let o := o.pad (spec.preci - sz) '0'.toUInt8
        o.put s sz
      else
        let zeros := t.todo ≠ 0 ∧ spec.padwith = '0'.toUInt8
        let o := if zeros then o.put t.s todo else o
        let o := o.pad (width - sz) spec.padwith
        let o := if t.todo ≠ 0 ∧ ¬zeros then o.put t.s todo else o
        o.put s sz
    else
      let o := if t.todo ≠ 0 then o.put t.s todo else o
      let o := o.pad (spec.preci - sz) '0'.toUInt8
      let o := o.put s sz
      o.pad (width - vs spec.preci sz) ' '.toUInt8

-- ---------------------------------------------------------------------------
-- Numbers
-- ---------------------------------------------------------------------------

def digitChar (upCase : Bool) (d : Nat) : UInt8 :=
  let c := UInt8.ofNat d + '0'.toUInt8
  if c > '9'.toUInt8 then c + ((if upCase then 'A'.toUInt8 else 'a'.toUInt8) - '9'.toUInt8 - 1)
  else c

/-- The digits from the last to the first, as long as there is room. -/
def ltostrLoop (base : Nat) (upCase : Bool) : Nat → Nat → List UInt8 → List UInt8
  | 0, _, tmp => tmp
  | room + 1, i, tmp =>
    if i = 0 then tmp
    else ltostrLoop base upCase room (i / base) (digitChar upCase (i % base) :: tmp)

/-- `__ltostr` and `__lltostr`: the text that they leave in `s`. -/
def ltostr (size i base : Nat) (upCase : Bool) : List UInt8 :=
  let base := if base = 0 ∨ base > 36 then 10 else base
  if i = 0 then ['0'.toUInt8] else ltostrLoop base upCase (size - 1) i []

/-- `sizeof (buf) - 5`. -/
def bufRoom : Nat := 128 - 5

structure Radix where
  base : Nat
  inSign : Bool
  upcase : Bool
  pre : List UInt8
  deriving DecidableEq

/-- The number to convert, and whether it has a minus; the bits that `h` leaves of it. -/
def number (spec : Spec) (inSign : Bool) (args : List Arg) : Option (Bool × Nat × List Arg) :=
  if spec.long > 1 then do
    let (llnumber, args) ← argLlong args
    let minus := inSign && llnumber.slt 0
    return (minus, (if minus then -llnumber else llnumber).toNat, args)
  else do
    let (number, args) ← argWord args
    let minus := inSign && number.slt 0
    let number := if minus then -number else number
    let number := if spec.long < 0 then number &&& 0xffff else number
    let number := if spec.long < -1 then number &&& 0xff else number
    return (minus, number.toNat, args)

/-- The prefix and the digits. When 0 is printed with an explicit precision 0, or with a prefix
and a precision, nothing of them counts. -/
def digitsText (spec : Spec) (r : Radix) (number : Nat) : Text :=
  let digits := ltostr bufRoom number r.base r.upcase
  if spec.dot ∧ digits.length = 1 ∧ nth digits 0 = '0'.toUInt8 then
    let sz := if spec.preci = 0 ∨ r.pre ≠ [] then 0 else r.pre.length
    ⟨r.pre ++ digits, BitVec.ofNat 32 sz, 0⟩
  else ⟨r.pre ++ digits, BitVec.ofNat 32 (r.pre.length + digits.length), r.pre.length⟩

/-- `*(--s) = c; ++sz`; the prefix stays the one, where there is one. -/
def Text.signed (t : Text) (c : UInt8) : Text :=
  ⟨c :: t.s, t.sz + 1, if t.todo ≠ 0 then t.todo else 1⟩

def numText (spec : Spec) (r : Radix) (minus : Bool) (number : Nat) : Text :=
  let t := digitsText spec r number
  if minus then t.signed '-'.toUInt8
  else if r.inSign ∧ (spec.sign ∨ spec.space) then
    t.signed (if spec.sign then '+'.toUInt8 else ' '.toUInt8)
  else t

-- ---------------------------------------------------------------------------
-- The conversions
-- ---------------------------------------------------------------------------

/-- The conversions of numbers, with what they change of the directive. -/
def radix (ch : UInt8) (spec : Spec) : Option (Radix × Spec) :=
  let hex (ch : UInt8) (spec : Spec) : Radix × Spec :=
    (⟨16, false, ch = 'X'.toUInt8, if spec.hash ≠ 0 then ['0'.toUInt8, ch] else []⟩,
      { spec with width := if spec.preci > spec.width then spec.preci else spec.width })
  if ch = 'b'.toUInt8 then some (⟨2, false, false, []⟩, spec)
  else if ch = 'p'.toUInt8 then some (hex 'x'.toUInt8 { spec with hash := 2, long := 1 })
  else if ch = 'X'.toUInt8 ∨ ch = 'x'.toUInt8 then some (hex ch spec)
  else if ch = 'd'.toUInt8 ∨ ch = 'i'.toUInt8 then some (⟨10, true, false, []⟩, spec)
  else if ch = 'u'.toUInt8 then some (⟨10, false, false, []⟩, spec)
  else if ch = 'o'.toUInt8 then
    some (⟨8, false, false, if spec.hash ≠ 0 then ['0'.toUInt8] else []⟩, spec)
  else none

def nullText : List UInt8 := "(null)".toList.map Char.toUInt8

/-- `case 's'`, up to `print_out`. -/
def strText (spec : Spec) (s : Option CString) : Text :=
  let s := (s.map Subtype.val).getD nullText
  let sz := BitVec.ofNat 32 s.length
  ⟨s, if spec.dot ∧ sz > spec.preci then spec.preci else sz, 0⟩

/-- The switch over the conversion; one that there is not puts out nothing. -/
def convert (ch : UInt8) (spec : Spec) (args : List Arg) (o : Out) : Option (Out × List Arg) :=
  if ch = 'c'.toUInt8 then do
    let (v, args) ← argWord args
    return (o.put [UInt8.ofNat v.toNat] 1, args)
  else if ch = '%'.toUInt8 then some (o.put [ch] 1, args)
  else if ch = 's'.toUInt8 then do
    let (s, args) ← argStr args
    let text := strText spec s
    return (printOut { spec with preci := 0, dot := false, padwith := ' '.toUInt8 } text o, args)
  else if ch = 'f'.toUInt8 ∨ ch = 'g'.toUInt8 then none
  else
    match radix ch spec with
    | some (r, spec) => do
      let (minus, number, args) ← number spec r.inSign args
      return (printOut spec (numText spec r minus number) o, args)
    | none => some (o, args)

def skipTo (format : Ptr) : Nat := (format.takeWhile (· ≠ '%'.toUInt8)).length

/-- The value of `__v_printf`, and what it has passed to `put`. As many characters of the format
as `skip` says have been passed already. -/
def vPrintfLoop : Nat → Ptr → List Arg → Out → Option (BitVec 32 × Out)
  | _, [], _, o => some (o.len, o)
  | skip + 1, _ :: format, args, o => vPrintfLoop skip format args o
  | 0, ch :: format, args, o =>
    if ch = '%'.toUInt8 then
      match directive .none 0 format args with
      | none => none
      | some .fails => some (-1, o)
      | some (.conv ch spec rest args) =>
        match convert ch spec args o with
        | none => none
        | some (o, args) => vPrintfLoop (format.length - rest.length) format args o
    else
      let sz := skipTo format + 1
      vPrintfLoop (sz - 1) format args (o.put (ch :: format) (BitVec.ofNat 32 sz))

def vPrintf (format : Ptr) (args : List Arg) : Option (BitVec 32 × Out) :=
  vPrintfLoop 0 format args ⟨[], 0⟩

-- ---------------------------------------------------------------------------
-- Into a string
-- ---------------------------------------------------------------------------

abbrev Mem := Nat → UInt8

def memcpy (mem : Mem) (dest : Nat) (src : List UInt8) (n : Nat) : Mem := fun i =>
  if dest ≤ i ∧ i < dest + n then nth src (i - dest) else mem i

/-- `struct str_data`; the string may be null. -/
structure StrData where
  str : Option Mem
  len : BitVec 32
  size : BitVec 32

def swrite (sd : StrData) (ptr : List UInt8) : StrData :=
  let nmemb := BitVec.ofNat 32 ptr.length
  let tmp := sd.size - sd.len
  if tmp > 0 then
    let len := if nmemb > tmp then tmp else nmemb
    { sd with
      str := sd.str.map fun mem =>
        Function.update (memcpy mem sd.len.toNat ptr len.toNat) (sd.len + len).toNat 0
      len := sd.len + len }
  else sd

def vsnprintf (str : Option Mem) (size : BitVec 32) (format : Ptr) (args : List Arg) :
    Option (BitVec 32 × Option Mem) := do
  let (n, o) ← vPrintf format args
  let sd := o.writes.foldl swrite ⟨str, 0, if size ≠ 0 then size - 1 else 0⟩
  if size ≠ 0 ∧ 0 ≤ n.toInt then
    let last := if size ≠ -1 ∧ n ≥ size then size - 1 else n
    return (n, sd.str.map fun mem => Function.update mem last.toNat 0)
  else return (n, sd.str)

end Xmertl.Partikle.Stdarg
