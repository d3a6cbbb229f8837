import Mathlib.Data.Int.Order.Basic
import Mathlib.Data.List.Basic

/-!
# The buffered files of the user library

`fputs` and `fgetc` of `stdio.c`. A result is `none` where the buffer of the file is accessed
outside its bounds. What `write` returns and what the reads deliver is up to the kernel.
-/

namespace Xmertl.Partikle.Stdio

def fileBufferSize : Nat := 256

theorem fileBufferSize_pos : 0 < fileBufferSize := by decide

def eof : Int := -1

def charVal (c : UInt8) : Int := c.toBitVec.toInt

structure File where
  buffer : Vector UInt8 fileBufferSize
  bufhead : Int
  buftail : Int
  bufsize : Int

namespace File

/-- What `stdvect` has for each of the files. -/
def init : File where
  buffer := Vector.replicate _ 0
  bufhead := 0
  buftail := 0
  bufsize := 0

def get (s : File) (i : Int) : Option UInt8 := if i < 0 then none else s.buffer[i.toNat]?

def put (s : File) (i : Int) (c : UInt8) : Option File :=
  if h : 0 ≤ i ∧ i.toNat < fileBufferSize then
    some { s with buffer := s.buffer.set i.toNat c h.2 }
  else none

-- ---------------------------------------------------------------------------
-- Output
-- ---------------------------------------------------------------------------

def store (s : File) : List UInt8 → Option File
  | [] => some s
  | c :: b => do
    let s := { s with bufsize := s.bufsize + 1, buftail := s.buftail + 1 }
    (← s.put s.buftail c).store b

def region (s : File) (i : Int) : Nat → Option (List UInt8)
  | 0 => some []
  | n + 1 => do return (← s.get i) :: (← s.region (i + 1) n)

end File

structure CString where
  bytes : List UInt8
  nonzero : ∀ c ∈ bytes, c ≠ 0

/-- The bytes that `write` is given, of which it returns `ret`, and the result. -/
def File.fputs (s : File) (b : CString) (ret : Int) : Option (List UInt8 × Int × File) := do
  let n := b.bytes.length
  let s ← s.store b.bytes
  let bytes ← s.region (s.bufsize - n) (n + 1)
  if ret < 0 then
    return (bytes, eof, s)
  return (bytes, ret, { s with bufsize := s.bufsize - n, buftail := s.buftail - n })

/-- Each call writes the bytes of its string and leaves the counters as they were. -/
def File.AllPut (s : File) : List (CString × Int) → Prop
  | [] => True
  | (b, ret) :: calls => ∃ r s', s.fputs b ret = some (b.bytes, r, s') ∧
      s'.bufsize = s.bufsize ∧ s'.buftail = s.buftail ∧ s'.AllPut calls

def File.putAll (s : File) : List (CString × Int) → Option (List (List UInt8) × File)
  | [] => some ([], s)
  | (b, ret) :: calls => do
    let (bytes, _, s) ← s.fputs b ret
    let (rest, s) ← s.putAll calls
    return (bytes :: rest, s)

/-- At every call, the strings whose writes failed and its own fit in the buffer. -/
def Inside (k : Nat) : List (CString × Int) → Prop
  | [] => True
  | (b, ret) :: calls => k + b.bytes.length < fileBufferSize ∧
      Inside (if ret < 0 then k + b.bytes.length else k) calls

section
variable {s s' : File} {b : List UInt8} {c : UInt8} {i : Int} {k n : Nat}

namespace File

theorem get_natCast : s.get (k : Int) = s.buffer[k]? := by
  rw [get, if_neg (by omega), Int.toNat_natCast]

theorem put_of_lt (h : k < fileBufferSize) :
    s.put (k : Int) c = some { s with buffer := s.buffer.set k c h } := by
  rw [put, dif_pos ⟨by omega, by omega⟩]
  simp only [Int.toNat_natCast]

theorem put_of_le (h : fileBufferSize ≤ k) : s.put (k : Int) c = none := by
  rw [put, dif_neg (by omega)]

/-- Both counters are `k`: so many bytes were stored and not written. -/
structure At (s : File) (k : Nat) : Prop where
  bufsize : s.bufsize = k
  buftail : s.buftail = k

theorem At.init : init.At 0 := ⟨rfl, rfl⟩

theorem At.push (h : s.At k) (hk : k + 1 < fileBufferSize) (c : UInt8) :
    File.At { s with
      buffer := s.buffer.set (k + 1) c hk
      bufsize := s.bufsize + 1
      buftail := s.buftail + 1 } (k + 1) :=
  ⟨by rw [h.bufsize]; rfl, by rw [h.buftail]; rfl⟩

/-- The loop leaves a string behind the bytes up to `k`. -/
structure Stored (s : File) (k : Nat) (b : List UInt8) (s' : File) : Prop where
  at' : s'.At (k + b.length)
  below : ∀ j : Nat, j ≤ k → s'.buffer[j]? = s.buffer[j]?
  bytes : ∀ j : Nat, j < b.length → s'.buffer[k + 1 + j]? = b[j]?

theorem At.store (h : s.At k) (hfits : k + b.length < fileBufferSize) :
    ∃ s', s.store b = some s' ∧ s.Stored k b s' := by
  induction b generalizing s k with
  | nil => exact ⟨s, rfl, h, fun _ _ => rfl, fun j hj => absurd hj (Nat.not_lt_zero j)⟩
  | cons c b ih =>
    rw [List.length_cons] at hfits
    have hk : k + 1 < fileBufferSize := by omega
    have htail : s.buftail + 1 = ((k + 1 : Nat) : Int) := by rw [h.buftail]; rfl
    obtain ⟨s', hstore, hs'⟩ := ih (h.push hk c) (by omega)
    refine ⟨s', ?_, ?_, fun j hj => ?_, fun j hj => ?_⟩
    · simp only [File.store, htail, put_of_lt hk, Option.bind_eq_bind, Option.bind_some]
      rw [← htail]
      exact hstore
    · have hat := hs'.at'
      rwa [show k + 1 + b.length = k + (c :: b).length by rw [List.length_cons]; omega] at hat
    · rw [hs'.below j (by omega)]
      exact Vector.getElem?_set_ne hk (by omega)
    · cases j with
      | zero =>
        rw [show k + 1 + 0 = k + 1 from rfl, hs'.below (k + 1) (Nat.le_refl _)]
        exact Vector.getElem?_set_self hk
      | succ j =>
        rw [List.length_cons] at hj
        rw [show k + 1 + (j + 1) = k + 1 + 1 + j by omega, hs'.bytes j (by omega)]
        rfl

theorem At.store_overruns (h : s.At k) (hk : k < fileBufferSize)
    (hlong : fileBufferSize ≤ k + b.length) : s.store b = none := by
  induction b generalizing s k with
  | nil => exact absurd (Nat.lt_of_lt_of_le hk hlong) (Nat.lt_irrefl k)
  | cons c b ih =>
    rw [List.length_cons] at hlong
    have htail : s.buftail + 1 = ((k + 1 : Nat) : Int) := by rw [h.buftail]; rfl
    simp only [File.store, htail, Option.bind_eq_bind]
    by_cases hnext : k + 1 < fileBufferSize
    · rw [put_of_lt hnext, Option.bind_some]
      have hpush := h.push hnext c
      rw [htail] at hpush
      exact ih hpush hnext (by omega)
    · rw [put_of_le (Nat.le_of_not_lt hnext), Option.bind_none]

theorem region_eq (h : ∀ j : Nat, j < b.length → s.buffer[k + j]? = b[j]?) :
    s.region k b.length = some b := by
  induction b generalizing k with
  | nil => rfl
  | cons c b ih =>
    have hhead : s.get k = some c := by rw [get_natCast, ← Nat.add_zero k, h 0 (by simp)]; rfl
    have htail : s.region ((k + 1 : Nat) : Int) b.length = some b := by
      refine ih fun j hj => ?_
      rw [Nat.add_right_comm, Nat.add_assoc, h (j + 1) (by rw [List.length_cons]; omega)]
      rfl
    rw [Int.natCast_add, Int.natCast_one] at htail
    rw [List.length_cons, region, hhead, htail]
    rfl

/-- A call writes the byte that is in front of its string, and takes the string out of the counters
only where the write succeeds. -/
theorem At.fputs (h : s.At k) {b : CString} (ret : Int)
    (hfits : k + b.bytes.length < fileBufferSize) :
    ∃ c s', s.buffer[k]? = some c ∧
      s.fputs b ret = some (c :: b.bytes, if ret < 0 then eof else ret, s') ∧
      s'.At (if ret < 0 then k + b.bytes.length else k) := by
  obtain ⟨s', hstore, hs'⟩ := h.store hfits
  have hk : k < fileBufferSize := by omega
  have hc : s.buffer[k]? = some (s.buffer[k]) := Vector.getElem?_eq_getElem hk
  have hregion : s'.region k (b.bytes.length + 1) = some (s.buffer[k] :: b.bytes) := by
    refine region_eq (b := s.buffer[k] :: b.bytes) fun j hj => ?_
    cases j with
    | zero => rw [Nat.add_zero, hs'.below k (Nat.le_refl k), hc]; rfl
    | succ j => rw [Nat.add_comm j 1, ← Nat.add_assoc, hs'.bytes j (Nat.lt_of_succ_lt_succ hj),
        Nat.add_comm 1 j, List.getElem?_cons_succ]
  have hsize : s'.bufsize - b.bytes.length = k := by rw [hs'.at'.bufsize]; omega
  have htail : s'.buftail - b.bytes.length = k := by rw [hs'.at'.buftail]; omega
  simp only [File.fputs, hstore, Option.bind_eq_bind, Option.bind_some, hsize, hregion, htail]
  by_cases hret : ret < 0
  · simp only [hret, if_true]
    exact ⟨_, s', hc, rfl, hs'.at'⟩
  · simp only [hret, if_false]
    exact ⟨_, _, hc, rfl, rfl, rfl⟩

theorem At.fputs_overruns (h : s.At k) (hk : k < fileBufferSize) {b : CString} {ret : Int}
    (hlong : fileBufferSize ≤ k + b.bytes.length) : s.fputs b ret = none := by
  rw [File.fputs, h.store_overruns hk hlong]
  rfl

theorem At.not_puts (h : s.At k) (hk : k < fileBufferSize) (b : CString) (ret r : Int) (s' : File) :
    s.fputs b ret ≠ some (b.bytes, r, s') := by
  intro hputs
  by_cases hfits : k + b.bytes.length < fileBufferSize
  · obtain ⟨c, t, -, ht, -⟩ := h.fputs ret hfits
    rw [ht] at hputs
    have hbytes := congrArg (Option.map Prod.fst) hputs
    simp at hbytes
  · rw [h.fputs_overruns hk (Nat.le_of_not_lt hfits)] at hputs
    exact absurd hputs (by simp)

/-- For every sequence of calls, the property fails unless no call is made. -/
theorem allPut_iff (calls : List (CString × Int)) : init.AllPut calls ↔ calls = [] := by
  cases calls with
  | nil => exact iff_of_true trivial rfl
  | cons call calls =>
    refine iff_of_false ?_ (by simp)
    rintro ⟨r, s', hputs, -⟩
    exact At.init.not_puts (by decide) _ _ _ _ hputs

theorem letter_nonzero : ∀ c ∈ ([97] : List UInt8), c ≠ 0 := by simp

def letter : CString := ⟨[97], letter_nonzero⟩

/-- A single write of one letter that succeeds. -/
theorem letter_not_put : ¬init.AllPut [(letter, 2)] := by
  rintro ⟨r, s', hputs, -⟩
  have hbytes : (init.fputs letter 2).map Prod.fst ≠ some letter.bytes := by decide
  exact hbytes (by rw [hputs]; rfl)

theorem At.putAll_iff (h : s.At k) (hk : k < fileBufferSize) (calls : List (CString × Int)) :
    (∃ out, s.putAll calls = some out) ↔ Inside k calls := by
  induction calls generalizing s k with
  | nil => exact iff_of_true ⟨_, rfl⟩ trivial
  | cons call calls ih =>
    obtain ⟨b, ret⟩ := call
    rw [Inside, putAll]
    by_cases hfits : k + b.bytes.length < fileBufferSize
    · obtain ⟨c, s', -, hputs, hs'⟩ := h.fputs ret hfits
      have hnext : (if ret < 0 then k + b.bytes.length else k) < fileBufferSize := by
        split
        · exact hfits
        · exact hk
      rw [hputs, and_iff_right hfits, ← ih hs' hnext]
      cases hrest : s'.putAll calls with
      | none => simp [hrest]
      | some out => simp [hrest]
    · rw [h.fputs_overruns hk (Nat.le_of_not_lt hfits)]
      exact iff_of_false (by simp) fun hin => hfits hin.1

end File

end

-- ---------------------------------------------------------------------------
-- Input
-- ---------------------------------------------------------------------------

/-- What a `read` of one byte does. -/
inductive ReadResult where
  | data (c : UInt8)
  | empty
  | error
  deriving DecidableEq

def ReadResult.ret : ReadResult → Int
  | .data _ => 1
  | .empty => 0
  | .error => -1

structure Input where
  file : File
  reads : Nat

namespace Input

def init : Input := ⟨.init, 0⟩

/-- The read at the beginning of `fgetc`. -/
def fill (i : Input) (r : ReadResult) : Input :=
  let s := i.file
  let buffer := match r with
    | .data c => s.buffer.set 0 c fileBufferSize_pos
    | _ => s.buffer
  let bufsize := s.bufsize + r.ret
  { file := { buffer, bufsize, bufhead := 0, buftail := bufsize - 1 }, reads := i.reads + 1 }

def take (i : Input) : Option (Int × Input) := do
  let bufsize := i.file.bufsize - 1
  let c ← i.file.get i.file.bufhead
  let file := { i.file with bufsize, bufhead := i.file.bufhead + 1 }
  return (if bufsize < 0 then eof else charVal c, { i with file })

def fgetc (dev : Nat → ReadResult) (i : Input) : Option (Int × Input) :=
  (if i.file.bufsize = 0 then i.fill (dev i.reads) else i).take

end Input

def ReadResult.value : ReadResult → Int
  | .data b => charVal b
  | _ => eof

/-- The call returned what the read delivered, and `EOF` only if that was nothing. -/
def ReadResult.Gives (r : ReadResult) (c : Int) : Prop :=
  c = r.value ∧ ∀ b, r = .data b → c ≠ eof

/-- Each of the next `n` calls makes one read and returns what it delivered. -/
def Input.AllGet (dev : Nat → ReadResult) (i : Input) : Nat → Prop
  | 0 => True
  | n + 1 => ∃ c i', i.fgetc dev = some (c, i') ∧ i'.reads = i.reads + 1 ∧
      (dev i.reads).Gives c ∧ i'.AllGet dev n

section
variable {dev : Nat → ReadResult} {i i' : Input} {c : Int} {n : Nat}

theorem charVal_eq_eof {b : UInt8} : charVal b = eof ↔ b = 0xFF := by
  constructor
  · intro h
    exact UInt8.eq_of_toBitVec_eq (BitVec.eq_of_toInt_eq h)
  · rintro rfl
    rfl

namespace Input

theorem take_eq_some (h : i.take = some (c, i')) : i'.reads = i.reads := by
  unfold take at h
  obtain ⟨b, -, hi'⟩ := Option.bind_eq_some_iff.mp h
  obtain ⟨rfl, rfl⟩ := Prod.mk.inj (Option.some.inj hi')
  rfl

theorem take_of_get {b : UInt8} (h : i.file.get i.file.bufhead = some b) :
    ∃ i', i.take = some (if i.file.bufsize - 1 < 0 then eof else charVal b, i') ∧
      i'.reads = i.reads ∧ i'.file.bufsize = i.file.bufsize - 1 := by
  rw [take, h]
  exact ⟨_, rfl, rfl, rfl⟩

theorem fgetc_of_neg (h : i.file.bufsize < 0) (hc : i.fgetc dev = some (c, i')) :
    i'.reads = i.reads := by
  rw [fgetc, if_neg (Int.ne_of_lt h)] at hc
  exact take_eq_some hc

theorem allGet_of_neg (h : i.file.bufsize < 0) : i.AllGet dev n ↔ n = 0 := by
  cases n with
  | zero => exact iff_of_true trivial rfl
  | succ n =>
    refine iff_of_false ?_ (Nat.succ_ne_zero n)
    rintro ⟨c, i', hc, hreads, -⟩
    rw [fgetc_of_neg h hc] at hreads
    omega

/-- A call that finds no byte in the buffer makes a read. A read that delivers nothing leaves the
size negative. -/
theorem fgetc_of_zero (dev : Nat → ReadResult) (h : i.file.bufsize = 0) :
    ∃ i', i.fgetc dev = some ((dev i.reads).value, i') ∧ i'.reads = i.reads + 1 ∧
      i'.file.bufsize = (dev i.reads).ret - 1 := by
  have hsize : (i.fill (dev i.reads)).file.bufsize = (dev i.reads).ret := by
    rw [show (i.fill (dev i.reads)).file.bufsize = i.file.bufsize + (dev i.reads).ret from rfl, h,
      Int.zero_add]
  have hget : ∃ b, (i.fill (dev i.reads)).file.get 0 = some b ∧
      (dev i.reads).value = if (dev i.reads).ret - 1 < 0 then eof else charVal b := by
    rw [show (0 : Int) = ((0 : Nat) : Int) from rfl, File.get_natCast]
    cases dev i.reads with
    | data d => exact ⟨d, Vector.getElem?_set_self fileBufferSize_pos, rfl⟩
    | empty => exact ⟨_, Vector.getElem?_eq_getElem fileBufferSize_pos, rfl⟩
    | error => exact ⟨_, Vector.getElem?_eq_getElem fileBufferSize_pos, rfl⟩
  obtain ⟨b, hb, hvalue⟩ := hget
  obtain ⟨i', hi', hreads, hbufsize⟩ := take_of_get (i := i.fill (dev i.reads)) hb
  rw [hsize] at hi' hbufsize
  exact ⟨i', by rw [fgetc, if_pos h, hi', hvalue], hreads, hbufsize⟩

theorem gives_value {r : ReadResult} : r.Gives r.value ↔ r ≠ .data 0xFF := by
  cases r with
  | data b =>
    simp [ReadResult.Gives, ReadResult.value, ← charVal_eq_eof]
  | empty => simp [ReadResult.Gives]
  | error => simp [ReadResult.Gives]

/-- The first call of a sequence does what it should unless the byte is `0xFF`, and the others only
if it delivered a byte. -/
theorem allGet_succ (dev : Nat → ReadResult) (n : Nat) (h : i.file.bufsize = 0) :
    ∃ i' : Input, i'.reads = i.reads + 1 ∧ i'.file.bufsize = (dev i.reads).ret - 1 ∧
      (i.AllGet dev (n + 1) ↔ dev i.reads ≠ .data 0xFF ∧ i'.AllGet dev n) := by
  obtain ⟨i', hi', hreads, hsize⟩ := fgetc_of_zero dev h
  refine ⟨i', hreads, hsize, ?_⟩
  rw [← gives_value, AllGet]
  constructor
  · rintro ⟨c, j, hj, -, hgives, hrest⟩
    rw [hi'] at hj
    obtain ⟨rfl, rfl⟩ := Prod.mk.inj (Option.some.inj hj)
    exact ⟨hgives, hrest⟩
  · rintro ⟨hgives, hrest⟩
    exact ⟨_, i', hi', hreads, hgives, hrest⟩

/-- The reads from the `m`th on let `n` calls do what they should. -/
def Clean (dev : Nat → ReadResult) (m n : Nat) : Prop :=
  (∀ k < n, dev (m + k) ≠ .data 0xFF) ∧ ∀ k, k + 1 < n → ∃ b, dev (m + k) = .data b

theorem Clean.succ_iff {m : Nat} :
    Clean dev m (n + 1) ↔ dev m ≠ .data 0xFF ∧
      (n = 0 ∨ (∃ b, dev m = .data b) ∧ Clean dev (m + 1) n) := by
  have hshift : ∀ k, m + 1 + k = m + (k + 1) := fun k => by omega
  rw [Clean, Nat.forall_lt_succ_left, and_assoc]
  refine and_congr_right fun _ => ?_
  cases n with
  | zero => simp
  | succ n =>
    have hsecond : (∀ k, k + 1 < n + 1 + 1 → ∃ b, dev (m + k) = .data b) ↔
        (∃ b, dev m = .data b) ∧ ∀ k, k + 1 < n + 1 → ∃ b, dev (m + 1 + k) = .data b := by
      simp only [Nat.add_lt_add_iff_right, Nat.forall_lt_succ_left, Nat.add_zero, hshift]
    rw [hsecond, or_iff_right (Nat.succ_ne_zero n), Clean]
    simp only [hshift]
    exact and_left_comm

theorem allGet_of_zero (h : i.file.bufsize = 0) : i.AllGet dev n ↔ Clean dev i.reads n := by
  induction n generalizing i with
  | zero => simp [AllGet, Clean]
  | succ n ih =>
    obtain ⟨i', hreads, hsize, hiff⟩ := allGet_succ dev n h
    rw [hiff, Clean.succ_iff]
    refine and_congr_right fun _ => ?_
    cases hr : dev i.reads with
    | data b =>
      rw [hr] at hsize
      rw [ih hsize, hreads]
      cases n with
      | zero => simp [Clean]
      | succ n => simp
    | empty =>
      rw [hr] at hsize
      rw [allGet_of_neg (by rw [hsize]; decide)]
      simp
    | error =>
      rw [hr] at hsize
      rw [allGet_of_neg (by rw [hsize]; decide)]
      simp

/-- For every device and every number of calls, the calls return what the device delivers if and
only if no byte delivered is `0xFF` and every read but the last delivers one. -/
theorem allGet_iff (dev : Nat → ReadResult) (n : Nat) :
    init.AllGet dev n ↔ (∀ k < n, dev k ≠ .data 0xFF) ∧ ∀ k, k + 1 < n → ∃ b, dev k = .data b := by
  rw [allGet_of_zero rfl, Clean]
  simp only [init, Nat.zero_add]

def late : Nat → ReadResult
  | 0 => .empty
  | _ => .data 97

/-- The second call does not read. -/
theorem late_not_got : ¬init.AllGet late 2 := by
  rintro ⟨c, i, hi, hreads, -, d, j, hj, hreads', -⟩
  have hlate : ((init.fgetc late).bind fun x => x.2.fgetc late).map (·.2.reads) = some 1 := by
    decide
  simp only [hi, hj, Option.bind_some, Option.map_some, hreads', hreads] at hlate
  exact absurd (Option.some.inj hlate) (by decide)

end Input

end

end Xmertl.Partikle.Stdio
