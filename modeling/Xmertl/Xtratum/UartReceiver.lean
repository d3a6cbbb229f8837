import Xmertl.Xtratum.SerialFifo
import Xmertl.Xtratum.Uart

/-!
# What the serial driver receives

The receiver of `serial.c` with the in FIFOs' control blocks. A buffer that is full is
flushed, and the next byte starts the buffer again: what is longer than the buffer comes
to the FIFOs as several packets, each with its first byte for a destination. A result is
`none` when `memcpy` would leave a FIFO.
-/

namespace Xmertl.Xtratum

open RingBuffer

/-- `uin` as in `Uart`; `inFifo` is the `in` of each `rt_serial`. -/
structure UartRecv where
  inFifo : Nat → SerialFifo
  uin : List UInt8 := []
  uinSize : Nat := uartPackSize

def bytesAt (bytes : List UInt8) (i : Int) : UInt8 := bytes.getD i.toNat 0

namespace UartRecv

def uartInPutb (x : UartRecv) (data : UInt8) : UartRecv × Bool :=
  if x.uin.length < x.uinSize then ({ x with uin := x.uin ++ [data] }, true) else (x, false)

def uartResetInBuff (x : UartRecv) : UartRecv := { x with uin := [], uinSize := uartPackSize }

def uartFlushInBuff (x : UartRecv) : Option (UartRecv × Int) :=
  match x.uin with
  | id :: data :: rest =>
    if id.toNat < vuartSerialCount then do
      let (ff, size, _) ← (x.inFifo id.toNat).domSerialFifoWrite true
        (some (bytesAt (data :: rest))) (data :: rest).length
      let inFifo := Function.update x.inFifo id.toNat ff
      return ({ x with inFifo }.uartResetInBuff, size)
    else some (x.uartResetInBuff, 0)
  | _ => some (x, 0)

def uartRecvStart (x : UartRecv) : Option UartRecv := do
  let (x, _) ← x.uartFlushInBuff
  return x.uartResetInBuff

def uartRecvStop (x : UartRecv) : Option UartRecv := do
  let (x, _) ← x.uartFlushInBuff
  return x

/-- One round of the loop in `uart_RDA_handler`. -/
def rdaRound (x : UartRecv) (ch : UInt8) : Option UartRecv :=
  match x.uartInPutb ch with
  | (x, true) => some x
  | (x, false) => do
    let (x, _) ← x.uartFlushInBuff
    return (x.uartInPutb ch).1

/-- `uart_RDA_handler`, with what it reads as long as the line status has UART_DATA_ABLE. -/
def uartRdaHandler (x : UartRecv) (bytes : List UInt8) : Option UartRecv := bytes.foldlM rdaRound x

def receive (x : UartRecv) (interrupts : List (List UInt8)) : Option UartRecv := do
  let x ← interrupts.foldlM uartRdaHandler x
  x.uartRecvStop

/-- What goes to a uart of a transfer: all but the destination. -/
def due : List UInt8 → Nat → List UInt8
  | id :: data, i => if id.toNat = i then data else []
  | [], _ => []

/-- The transfer's bytes are in its FIFO, and no others in any. -/
def Receives (x : UartRecv) (interrupts : List (List UInt8)) : Prop :=
  ∃ y, x.receive interrupts = some y ∧ ∀ i < vuartSerialCount,
    (y.inFifo i).contents = (x.inFifo i).contents ++ due interrupts.flatten i

end UartRecv

namespace SerialFifo

structure InPage (ff : SerialFifo) : Prop extends ff.InRange where
  page : ff.size ≤ 0x1000

/-- What `dom_serial_fifo_write` does not write. -/
def Refuses (ff : SerialFifo) (size : Int) : Prop :=
  ¬ff.flag.Has rtSerialDomUsed ∨ ¬ff.flag.Has rtSerialDomWrite ∨ ff.free < size

def Fits (ff : SerialFifo) (size : Int) : Prop := ff.top = ff.bom → ff.top + size ≤ ff.size

instance (ff : SerialFifo) (size : Int) : Decidable (ff.Refuses size) :=
  inferInstanceAs (Decidable (_ ∨ _))

instance (ff : SerialFifo) (size : Int) : Decidable (ff.Fits size) :=
  inferInstanceAs (Decidable (_ → _))

variable {ff : SerialFifo} {src : Int → UInt8} {size : Int}

theorem InPage.wsize_eq (h : ff.InPage) : ff.wsize = ff.free := by
  obtain ⟨⟨hlt, hbom, hbom', htop, htop'⟩, hpage⟩ := id h
  exact h.freeSum (by omega)

theorem InPage.write_eq (h : ff.InPage) (hsize : 0 ≤ size) :
    ff.domSerialFifoWrite true (some src) size =
      if ¬ff.flag.Has rtSerialDomUsed then some (ff, -enodev, [])
      else if ¬ff.flag.Has rtSerialDomWrite then some (ff, -eperm, [])
      else if ff.free < size then some (ff, -enomem, [])
      else (ff.copyIn src size).map fun z =>
        ({ z with top := (long (z.top + size)).tmod z.size }, size, []) := by
  simp only [domSerialFifoWrite, h.wsize_eq, Bool.not_true, Bool.false_eq_true, false_or,
    not_lt.mpr hsize, if_false]
  repeat' split
  · rfl
  · rfl
  · rfl
  · cases ff.copyIn src size <;> rfl

variable (src) in
theorem InPage.write_refused (h : ff.InPage) (hsize : 0 ≤ size) (hr : ff.Refuses size) :
    ∃ r, ff.domSerialFifoWrite true (some src) size = some (ff, r, []) := by
  rw [h.write_eq hsize]
  repeat' split
  · exact ⟨_, rfl⟩
  · exact ⟨_, rfl⟩
  · exact ⟨_, rfl⟩
  · rename_i hused hwrite hfree
    exact absurd hr (by simp only [Refuses, hused, hwrite, hfree, or_self, not_false_eq_true])

theorem InPage.write_taken (h : ff.InPage) (hsize : 0 ≤ size) (hr : ¬ff.Refuses size) :
    ff.domSerialFifoWrite true (some src) size = (ff.copyIn src size).map fun z =>
      ({ z with top := (long (z.top + size)).tmod z.size }, size, []) := by
  simp only [Refuses, not_or] at hr
  obtain ⟨hused, hwrite, hfree⟩ := hr
  rw [h.write_eq hsize, if_neg hused, if_neg hwrite, if_neg hfree]

variable (src) in
theorem InPage.write_fits (h : ff.InPage) (hsize : 0 ≤ size) (hr : ¬ff.Refuses size)
    (hfit : ff.Fits size) :
    ∃ z, ff.domSerialFifoWrite true (some src) size = some (z, size, []) ∧ z.InPage ∧
      z.contents = ff.contents ++ block src 0 size.toNat := by
  have hle : size ≤ ff.free := not_lt.mp fun hfree => hr (.inr (.inr hfree))
  have hfree : ff.free = ff.size - 1 - ff.used := rfl
  have hused := h.used_range
  have htop := h.top_lt
  have hpage := h.page
  rw [h.write_taken hsize hr]
  obtain ⟨data, hcopy, hw⟩ := h.copyIn src hsize hle hfit
  obtain ⟨hin, hcontents⟩ := h.added hsize hle (by omega) hw
  exact ⟨_, congrArg _ hcopy, ⟨hin, hpage⟩, hcontents⟩

theorem InPage.write_over (h : ff.InPage) (hsize : 0 < size) (hr : ¬ff.Refuses size)
    (hfit : ¬ff.Fits size) : ff.domSerialFifoWrite true (some src) size = none := by
  obtain ⟨heq, hover⟩ := Classical.not_imp.mp hfit
  have hout : ¬ff.Inside ff.top size := by
    rintro ⟨-, hzero | ⟨-, hle⟩⟩
    · omega
    · exact hover hle
  have hcopy : ff.copyIn src size = none := by
    rw [copyIn, if_neg (by omega), copyTo, if_neg hout]
  rw [h.write_taken (Int.le_of_lt hsize) hr, hcopy]
  rfl

end SerialFifo

theorem block_bytesAt (bytes : List UInt8) : block (bytesAt bytes) 0 bytes.length = bytes := by
  refine List.ext_getElem (block_length ..) fun i hi hi' => ?_
  simp [block, bytesAt, hi']

namespace UartRecv

/-- Of such a packet `uart_flush_in_buff` writes nothing. -/
def Ignores (x : UartRecv) : List UInt8 → Prop
  | id :: data :: rest =>
    id.toNat < vuartSerialCount → (x.inFifo id.toNat).Refuses (data :: rest).length
  | _ => True

def Takes (x : UartRecv) : List UInt8 → Prop
  | id :: data :: rest =>
    id.toNat < vuartSerialCount ∧ ¬(x.inFifo id.toNat).Refuses (data :: rest).length ∧
      (x.inFifo id.toNat).Fits (data :: rest).length
  | _ => False

instance (x : UartRecv) : DecidablePred x.Ignores
  | _ :: _ :: _ => inferInstanceAs (Decidable (_ → _))
  | [] | [_] => isTrue trivial

instance (x : UartRecv) : DecidablePred x.Takes
  | _ :: _ :: _ => inferInstanceAs (Decidable (_ ∧ _))
  | [] | [_] => isFalse not_false

/-- The in FIFOs are as `vuart_device_init` sets them up. -/
def Rings (x : UartRecv) : Prop := ∀ i < vuartSerialCount, (x.inFifo i).InPage

variable {x y z : UartRecv} {f : Nat → SerialFifo} {bytes packet : List UInt8} {i k : Nat} {r : Int}

-- ---------------------------------------------------------------------------
-- One packet
-- ---------------------------------------------------------------------------

theorem flush_ignored (h : x.Rings) (hi : x.Ignores x.uin) :
    ∃ y r, x.uartFlushInBuff = some (y, r) ∧ y.inFifo = x.inFifo := by
  rw [uartFlushInBuff]
  split
  · rename_i id data rest heq
    rw [heq] at hi
    split
    · rename_i hid
      obtain ⟨r, hw⟩ := (h _ hid).write_refused (bytesAt (data :: rest))
        (Int.natCast_nonneg _) (hi hid)
      rw [hw]
      exact ⟨_, _, rfl, Function.update_eq_self _ _⟩
    · exact ⟨_, _, rfl, rfl⟩
  · exact ⟨_, _, rfl, rfl⟩

theorem flush_taken (h : x.Rings) (ht : x.Takes x.uin) :
    ∃ y r, x.uartFlushInBuff = some (y, r) ∧ y.Rings ∧ ∀ i < vuartSerialCount,
      (y.inFifo i).contents = (x.inFifo i).contents ++ due x.uin i := by
  rw [uartFlushInBuff]
  split
  · rename_i id data rest heq
    rw [heq] at ht
    obtain ⟨hid, hr, hfit⟩ := ht
    obtain ⟨ff, hw, hpage, hcontents⟩ := (h _ hid).write_fits (bytesAt (data :: rest))
      (Int.natCast_nonneg _) hr hfit
    rw [Int.toNat_natCast, block_bytesAt] at hcontents
    rw [if_pos hid, hw]
    refine ⟨_, _, rfl, fun i hi => ?_, fun i hi => ?_⟩
    · by_cases hi' : i = id.toNat
      · subst hi'
        simpa only [uartResetInBuff, Function.update_self] using hpage
      · simpa only [uartResetInBuff, Function.update_of_ne hi'] using h i hi
    · by_cases hi' : i = id.toNat
      · subst hi'
        simpa only [uartResetInBuff, Function.update_self, heq, due, if_true] using hcontents
      · simp only [uartResetInBuff, Function.update_of_ne hi', heq, due, if_neg (Ne.symm hi'),
          List.append_nil]
  · rename_i hshort
    unfold Takes at ht
    split at ht
    · rename_i heq
      exact absurd heq (hshort _ _ _)
    · exact ht.elim

theorem flush_over (h : x.Rings) (hi : ¬x.Ignores x.uin) (ht : ¬x.Takes x.uin) :
    x.uartFlushInBuff = none := by
  rw [uartFlushInBuff]
  split
  · rename_i id data rest heq
    rw [heq] at hi ht
    obtain ⟨hid, hr⟩ := Classical.not_imp.mp hi
    have hfit := fun hfit => ht ⟨hid, hr, hfit⟩
    have hpos : 0 < ((data :: rest).length : Int) := Int.natCast_pos.mpr (Nat.succ_pos _)
    rw [if_pos hid, (h _ hid).write_over hpos hr hfit]
    rfl
  · rename_i hshort
    unfold Ignores at hi
    split at hi
    · rename_i heq
      exact absurd heq (hshort _ _ _)
    · exact absurd trivial hi

theorem flush_empties (hl : 2 ≤ x.uin.length) (hf : x.uartFlushInBuff = some (y, r)) :
    y = { inFifo := y.inFifo } := by
  rw [uartFlushInBuff] at hf
  split at hf
  · split at hf
    · obtain ⟨w, -, heq⟩ := Option.bind_eq_some_iff.mp hf
      obtain ⟨rfl, -⟩ := Prod.mk.inj (Option.some.inj heq)
      rfl
    · obtain ⟨rfl, -⟩ := Prod.mk.inj (Option.some.inj hf)
      rfl
  · rename_i hshort
    rcases hu : x.uin with - | ⟨id, - | ⟨data, rest⟩⟩
    · simp [hu] at hl
    · simp [hu] at hl
    · exact absurd hu (hshort id data rest)

theorem due_length (bytes : List UInt8) (i : Nat) : (due bytes i).length ≤ bytes.length - 1 := by
  unfold due
  split
  · split
    · exact Nat.le_refl _
    · exact Nat.zero_le _
  · exact Nat.zero_le _

-- ---------------------------------------------------------------------------
-- A transfer
-- ---------------------------------------------------------------------------

def receiveBytes (x : UartRecv) (bytes : List UInt8) : Option UartRecv := do
  let x ← bytes.foldlM rdaRound x
  x.uartRecvStop

theorem handlers_eq (x : UartRecv) (interrupts : List (List UInt8)) :
    interrupts.foldlM uartRdaHandler x = interrupts.flatten.foldlM rdaRound x := by
  induction interrupts generalizing x with
  | nil => rfl
  | cons bytes interrupts ih =>
    rw [List.foldlM_cons, List.flatten_cons, List.foldlM_append, uartRdaHandler]
    exact congrArg _ (funext ih)

theorem receive_eq (x : UartRecv) (interrupts : List (List UInt8)) :
    x.receive interrupts = x.receiveBytes interrupts.flatten := by
  rw [receive, receiveBytes, handlers_eq]

theorem rounds_fill (hx : x.uinSize = uartPackSize)
    (hl : x.uin.length + bytes.length ≤ uartPackSize) :
    bytes.foldlM rdaRound x = some { x with uin := x.uin ++ bytes } := by
  induction bytes generalizing x with
  | nil => rw [List.append_nil]; rfl
  | cons ch bytes ih =>
    rw [List.length_cons] at hl
    have hround : x.rdaRound ch = some { x with uin := x.uin ++ [ch] } := by
      rw [rdaRound, uartInPutb, if_pos (by omega)]
    rw [List.foldlM_cons, hround]
    refine (ih (x := { x with uin := x.uin ++ [ch] }) hx ?_).trans ?_
    · rw [List.length_append, List.length_singleton]
      omega
    · rw [List.append_assoc, List.singleton_append]

theorem receiveBytes_short (hl : bytes.length ≤ uartPackSize) :
    ({ inFifo := f } : UartRecv).receiveBytes bytes =
      (uartFlushInBuff { inFifo := f, uin := bytes }).map Prod.fst := by
  rw [receiveBytes, rounds_fill rfl (by simpa using hl)]
  simp only [uartRecvStop, List.nil_append, Option.map_eq_bind]
  rfl

theorem receiveBytes_long (hl : uartPackSize < bytes.length) :
    ({ inFifo := f } : UartRecv).receiveBytes bytes =
      (uartFlushInBuff { inFifo := f, uin := bytes.take uartPackSize }).bind fun w =>
        ({ inFifo := w.1.inFifo } : UartRecv).receiveBytes (bytes.drop uartPackSize) := by
  obtain ⟨ch, rest, hrest⟩ : ∃ ch rest, bytes.drop uartPackSize = ch :: rest :=
    List.exists_cons_of_length_pos (by rw [List.length_drop]; omega)
  have hfull : (bytes.take uartPackSize).length = uartPackSize := by
    rw [List.length_take]
    omega
  have hsplit : bytes = bytes.take uartPackSize ++ ch :: rest := by
    rw [← hrest, List.take_append_drop]
  rw [hrest, receiveBytes]
  conv_lhs => rw [hsplit]
  rw [List.foldlM_append, rounds_fill rfl (by simp [hfull])]
  simp only [List.nil_append, Option.bind_eq_bind, Option.bind_some, List.foldlM_cons, receiveBytes]
  have hround : rdaRound { inFifo := f, uin := bytes.take uartPackSize } ch =
      (uartFlushInBuff { inFifo := f, uin := bytes.take uartPackSize }).bind fun w =>
        rdaRound { inFifo := w.1.inFifo } ch := by
    rw [rdaRound, uartInPutb, if_neg (by simp [hfull])]
    refine Option.bind_congr fun w hw => ?_
    have hempty := flush_empties (by rw [hfull]; decide) hw
    have hputb : w.1.uartInPutb ch = ({ inFifo := w.1.inFifo, uin := [ch] }, true) := by
      rw [hempty]
      rfl
    exact congrArg (fun p => some (Prod.fst p)) hputb
  rw [hround, Option.bind_assoc, Option.bind_assoc]
  exact Option.bind_congr fun w _ => (Option.bind_assoc ..).symm

theorem flush_adds (h : x.Rings) (hf : x.uartFlushInBuff = some (y, r)) :
    y.Rings ∧ ∀ i < vuartSerialCount, ∃ w, (y.inFifo i).contents = (x.inFifo i).contents ++ w ∧
      w.length ≤ x.uin.length - 1 := by
  by_cases hi : x.Ignores x.uin
  · obtain ⟨y', r', hf', heq⟩ := flush_ignored h hi
    obtain ⟨rfl, -⟩ := Prod.mk.inj (Option.some.inj (hf.symm.trans hf'))
    refine ⟨fun i => ?_, fun i _ => ⟨[], ?_, Nat.zero_le _⟩⟩
    · rw [heq]
      exact h i
    · rw [heq, List.append_nil]
  by_cases ht : x.Takes x.uin
  · obtain ⟨y', r', hf', hrings, hcontents⟩ := flush_taken h ht
    obtain ⟨rfl, -⟩ := Prod.mk.inj (Option.some.inj (hf.symm.trans hf'))
    exact ⟨hrings, fun i hi => ⟨_, hcontents i hi, due_length _ i⟩⟩
  · rw [flush_over h hi ht] at hf
    cases hf

theorem receiveBytes_adds (h : ({ inFifo := f } : UartRecv).Rings)
    (hr : ({ inFifo := f } : UartRecv).receiveBytes bytes = some y) (hi : i < vuartSerialCount) :
    ∃ w, (y.inFifo i).contents = (f i).contents ++ w ∧ w.length ≤ bytes.length - 1 ∧
      (uartPackSize < bytes.length → w.length < bytes.length - 1) := by
  induction hn : bytes.length using Nat.strong_induction_on generalizing f bytes with
  | _ n ih =>
  subst hn
  by_cases hl : bytes.length ≤ uartPackSize
  · rw [receiveBytes_short hl] at hr
    obtain ⟨⟨z, s⟩, hf, rfl⟩ := Option.map_eq_some_iff.mp hr
    obtain ⟨w, hw, hlen⟩ := (flush_adds (x := { inFifo := f, uin := bytes }) h hf).2 i hi
    exact ⟨w, hw, hlen, fun hlong => absurd hlong (not_lt.mpr hl)⟩
  · rw [receiveBytes_long (not_le.mp hl)] at hr
    obtain ⟨⟨z, s⟩, hf, hrest⟩ := Option.bind_eq_some_iff.mp hr
    obtain ⟨hrings, hadds⟩ := flush_adds (x := { inFifo := f, uin := bytes.take uartPackSize }) h hf
    obtain ⟨w, hw, hlen⟩ := hadds i hi
    obtain ⟨w', hw', hlen', -⟩ := ih _ (by simp [uartPackSize] at *; omega) hrings hrest rfl
    have hlt : (w ++ w').length < bytes.length - 1 := by
      simp only [List.length_append, List.length_take, List.length_drop, uartPackSize] at *
      omega
    exact ⟨w ++ w', by rw [hw', hw, List.append_assoc], by omega, fun _ => hlt⟩

/-- The `k`th packet that a transfer comes as. -/
def pack (bytes : List UInt8) (k : Nat) : List UInt8 :=
  (bytes.drop (uartPackSize * k)).take uartPackSize

theorem pack_zero (bytes : List UInt8) : pack bytes 0 = bytes.take uartPackSize := rfl

theorem pack_succ (bytes : List UInt8) (k : Nat) :
    pack bytes (k + 1) = pack (bytes.drop uartPackSize) k := by
  rw [pack, pack, List.drop_drop, Nat.mul_succ, Nat.add_comm]

theorem pack_nil (k : Nat) : pack [] k = [] := by
  rw [pack, List.drop_nil, List.take_nil]

theorem Takes.due (ht : x.Takes packet) : ∃ i < vuartSerialCount, due packet i ≠ [] := by
  unfold Takes at ht
  split at ht
  · rename_i id data rest
    exact ⟨id.toNat, ht.1, by simp [UartRecv.due]⟩
  · exact ht.elim

theorem ignores_of_same (h : x.Rings) (hf : x.uartFlushInBuff = some (y, r))
    (hsame : ∀ i < vuartSerialCount, ∃ w, (x.inFifo i).contents = (y.inFifo i).contents ++ w) :
    x.Ignores x.uin := by
  by_contra hi
  by_cases ht : x.Takes x.uin
  · obtain ⟨y', r', hf', -, hcontents⟩ := flush_taken h ht
    obtain ⟨rfl, -⟩ := Prod.mk.inj (Option.some.inj (hf.symm.trans hf'))
    obtain ⟨i, hi', hdue⟩ := ht.due
    obtain ⟨w, hw⟩ := hsame i hi'
    rw [hcontents i hi', List.append_assoc] at hw
    exact hdue (List.append_eq_nil_iff.mp (List.self_eq_append_right.mp hw)).1
  · rw [flush_over h hi ht] at hf
    cases hf

theorem receiveBytes_none (h : ({ inFifo := f } : UartRecv).Rings) :
    (∃ y, ({ inFifo := f } : UartRecv).receiveBytes bytes = some y ∧
      ∀ i < vuartSerialCount, (y.inFifo i).contents = (f i).contents) ↔
    ∀ k, ({ inFifo := f } : UartRecv).Ignores (pack bytes k) := by
  induction hn : bytes.length using Nat.strong_induction_on generalizing bytes with
  | _ n ih =>
  subst hn
  rw [← Nat.and_forall_add_one, pack_zero]
  simp only [pack_succ]
  by_cases hl : bytes.length ≤ uartPackSize
  · rw [receiveBytes_short hl, List.take_of_length_le hl, List.drop_eq_nil_of_le hl]
    simp only [pack_nil]
    constructor
    · rintro ⟨y, hy, hsame⟩
      obtain ⟨⟨z, r⟩, hf, rfl⟩ := Option.map_eq_some_iff.mp hy
      refine ⟨ignores_of_same (x := { inFifo := f, uin := bytes }) h hf fun i hi => ⟨[], ?_⟩,
        fun _ => trivial⟩
      rw [hsame i hi, List.append_nil]
    · intro hi
      obtain ⟨y, r, hf, heq⟩ := flush_ignored (x := { inFifo := f, uin := bytes }) h hi.1
      exact ⟨y, by rw [hf]; rfl, fun i _ => by rw [heq]⟩
  have hshorter : (bytes.drop uartPackSize).length < bytes.length := by
    rw [List.length_drop]
    unfold uartPackSize at *
    omega
  rw [receiveBytes_long (not_le.mp hl), ← ih _ hshorter rfl]
  constructor
  · rintro ⟨y, hy, hsame⟩
    obtain ⟨⟨z, r⟩, hf, hrest⟩ := Option.bind_eq_some_iff.mp hy
    obtain ⟨hrings, -⟩ := flush_adds (x := { inFifo := f, uin := bytes.take uartPackSize }) h hf
    have hi := ignores_of_same (x := { inFifo := f, uin := bytes.take uartPackSize }) h hf fun i hi => by
      obtain ⟨w, hw, -⟩ := receiveBytes_adds hrings hrest hi
      exact ⟨w, (hsame i hi).symm.trans hw⟩
    obtain ⟨z', r', hf', heq⟩ := flush_ignored (x := { inFifo := f, uin := bytes.take uartPackSize }) h hi
    obtain ⟨rfl, -⟩ := Prod.mk.inj (Option.some.inj (hf.symm.trans hf'))
    rw [heq] at hrest
    exact ⟨hi, y, hrest, hsame⟩
  · rintro ⟨hi, y, hy, hsame⟩
    obtain ⟨z, r, hf, heq⟩ := flush_ignored (x := { inFifo := f, uin := bytes.take uartPackSize }) h hi
    rw [hf, Option.bind_some, heq]
    exact ⟨y, hy, hsame⟩

/-- A transfer to a uart is right if and only if it is one packet that the FIFO takes. -/
theorem receiveBytes_due {id : UInt8} {data : List UInt8} (h : ({ inFifo := f } : UartRecv).Rings)
    (hid : id.toNat < vuartSerialCount) :
    (∃ y, ({ inFifo := f } : UartRecv).receiveBytes (id :: data) = some y ∧
      ∀ i < vuartSerialCount, (y.inFifo i).contents = (f i).contents ++ due (id :: data) i) ↔
    data = [] ∨ data.length < uartPackSize ∧ ({ inFifo := f } : UartRecv).Takes (id :: data) := by
  by_cases hl : (id :: data).length ≤ uartPackSize
  · rw [receiveBytes_short hl]
    cases data with
    | nil =>
      have hnone (i : Nat) : due [id] i = [] := ite_self []
      obtain ⟨y, r, hf, heq⟩ := flush_ignored (x := { inFifo := f, uin := [id] }) h trivial
      refine iff_of_true ⟨y, by rw [hf]; rfl, fun i _ => ?_⟩ (.inl rfl)
      rw [heq, hnone, List.append_nil]
    | cons ch rest =>
      have hlt : (ch :: rest).length < uartPackSize := hl
      rw [or_iff_right (List.cons_ne_nil ch rest), and_iff_right hlt]
      constructor
      · rintro ⟨y, hy, hdue⟩
        obtain ⟨⟨z, r⟩, hf, rfl⟩ := Option.map_eq_some_iff.mp hy
        by_contra ht
        by_cases hi : ({ inFifo := f } : UartRecv).Ignores (id :: ch :: rest)
        · obtain ⟨z', r', hf', heq⟩ :=
            flush_ignored (x := { inFifo := f, uin := id :: ch :: rest }) h hi
          obtain ⟨rfl, -⟩ := Prod.mk.inj (Option.some.inj (hf.symm.trans hf'))
          have hsame := hdue id.toNat hid
          rw [heq, due, if_pos rfl] at hsame
          exact List.cons_ne_nil _ _ (List.self_eq_append_right.mp hsame)
        · rw [flush_over (x := { inFifo := f, uin := id :: ch :: rest }) h hi ht] at hf
          cases hf
      · intro ht
        obtain ⟨y, r, hf, -, hdue⟩ := flush_taken (x := { inFifo := f, uin := id :: ch :: rest }) h ht
        exact ⟨y, by rw [hf]; rfl, hdue⟩
  have hlong : uartPackSize ≤ data.length := Nat.le_of_lt_succ (not_le.mp hl)
  refine iff_of_false ?_ ?_
  · rintro ⟨y, hy, hdue⟩
    obtain ⟨w, hw, -, hlt⟩ := receiveBytes_adds h hy hid
    rw [hdue _ hid, due, if_pos rfl] at hw
    obtain rfl := List.append_cancel_left hw
    exact absurd (hlt (not_le.mp hl)) (lt_irrefl _)
  · rintro (rfl | hshort)
    · exact absurd hlong (by decide)
    · exact not_lt.mpr hlong hshort.1

/-- A transfer that the FIFOs get as it is: one packet to a FIFO in use that the driver may
write, or no packet that any FIFO takes. -/
def InOrder (x : UartRecv) : List UInt8 → Prop
  | id :: data =>
    if id.toNat < vuartSerialCount then
      data = [] ∨ data.length < uartPackSize ∧
        (x.inFifo id.toNat).flag.Has rtSerialDomUsed ∧
        (x.inFifo id.toNat).flag.Has rtSerialDomWrite ∧ (x.inFifo id.toNat).Fits data.length
    else ∀ k, x.Ignores (pack (id :: data) k)
  | [] => True

def HasRoom (x : UartRecv) : List UInt8 → Prop
  | id :: data => id.toNat < vuartSerialCount → data.length ≤ (x.inFifo id.toNat).free
  | [] => True

theorem uartRecvStart_spec (h : x.Rings) (hs : x.uartRecvStart = some y) :
    y = { inFifo := y.inFifo } ∧ y.Rings := by
  obtain ⟨⟨z, r⟩, hf, heq⟩ := Option.bind_eq_some_iff.mp hs
  obtain rfl := Option.some.inj heq
  exact ⟨rfl, (flush_adds h hf).1⟩

/-- After any transfer, with the FIFOs in any state, what comes between a start and a stop is
in the FIFO of its first byte, and in no other, if and only if it is one packet there, or all
its packets are ignored. -/
theorem receives_iff {interrupts : List (List UInt8)} (h : x.Rings) (hs : x.uartRecvStart = some y)
    (hroom : y.HasRoom interrupts.flatten) :
    y.Receives interrupts ↔ y.InOrder interrupts.flatten := by
  obtain ⟨heq, hrings⟩ := uartRecvStart_spec h hs
  rw [heq] at hrings hroom ⊢
  generalize y.inFifo = f at hrings hroom ⊢
  simp only [Receives, receive_eq]
  generalize interrupts.flatten = bytes at hroom ⊢
  cases bytes with
  | nil =>
    obtain ⟨z, r, hf, heq'⟩ := flush_ignored (x := { inFifo := f }) hrings trivial
    refine iff_of_true ⟨z, ?_, fun i _ => ?_⟩ trivial
    · rw [receiveBytes_short (Nat.zero_le _), hf]
      rfl
    · rw [heq']
      exact (List.append_nil _).symm
  | cons id data =>
    simp only [InOrder]
    by_cases hid : id.toNat < vuartSerialCount
    · rw [if_pos hid, receiveBytes_due hrings hid]
      cases data with
      | nil => exact iff_of_true (.inl rfl) (.inl rfl)
      | cons ch rest =>
        have hfree := not_lt.mpr (hroom hid)
        simp only [Takes, SerialFifo.Refuses, hid, hfree, true_and, or_false, not_or, not_not, and_assoc]
    · have hnone (i : Nat) (hi : i < vuartSerialCount) : due (id :: data) i = [] :=
        if_neg fun (heq : id.toNat = i) => hid (heq ▸ hi)
      rw [if_neg hid, ← receiveBytes_none hrings]
      refine exists_congr fun z => and_congr_right fun _ => forall₂_congr fun i hi => ?_
      rw [hnone i hi, List.append_nil]

def emptyFifo : SerialFifo where
  flag := 0x38
  top := 0
  bom := 0
  size := 0x1000 - 28
  data := fun _ => 0

theorem emptyFifo_inPage : emptyFifo.InPage :=
  ⟨⟨by decide, by decide, by decide, by decide, by decide⟩, by decide⟩

def inUse : UartRecv where
  inFifo := fun _ => emptyFifo

theorem inUse_rings : inUse.Rings := fun _ _ => emptyFifo_inPage

/-- A packet of two interrupts. -/
theorem receives_short : inUse.uartRecvStart = some inUse ∧
    inUse.HasRoom [[3, 7, 8], [9, 0, 9]].flatten ∧ inUse.Receives [[3, 7, 8], [9, 0, 9]] := by
  have hroom : inUse.HasRoom [[3, 7, 8], [9, 0, 9]].flatten := fun _ => by decide +kernel
  exact ⟨rfl, hroom, (receives_iff inUse_rings rfl hroom).mpr (.inr (by decide +kernel))⟩

/-- Of 62 bytes for uart 1, which are two packets, the last is for uart 0 and one is lost. -/
theorem receives_long : inUse.uartRecvStart = some inUse ∧
    inUse.HasRoom [[1], List.replicate 61 0].flatten ∧
    (∃ y, inUse.receive [[1], List.replicate 61 0] = some y ∧
      (y.inFifo 1).contents.length = 59 ∧ (y.inFifo 0).contents = [0]) ∧
    ¬inUse.Receives [[1], List.replicate 61 0] := by
  have hrun : (inUse.receive [[1], List.replicate 61 0]).any fun y =>
      decide ((y.inFifo 1).contents.length = 59 ∧ (y.inFifo 0).contents = [0]) := by
    decide +kernel
  obtain ⟨y, hy, hfifos⟩ := (Option.any_eq_true _ _).mp hrun
  have hfifos := of_decide_eq_true hfifos
  refine ⟨rfl, fun _ => by decide +kernel, ⟨y, hy, hfifos⟩, ?_⟩
  rintro ⟨z, hz, hdue⟩
  obtain rfl := Option.some.inj (hz.symm.trans hy)
  have hzero := hdue 0 (by decide)
  rw [hfifos.2] at hzero
  exact absurd hzero (by decide +kernel)

end UartRecv

end Xmertl.Xtratum
