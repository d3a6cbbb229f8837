import Xmertl.Common.Fifo
import Xmertl.Lib.Cyclic
import Xmertl.Lib.Runs

/-!
# XMTrace

The trace buffers of `xmtrace_core.c` in shared memory: `rtl_do_trace` records into
the current buffer and, on RTL_TRACE_FINALIZE, marks it ready and goes on to the next.
The tracer of `tracer.c` looks for the next ready buffer, dumps it record by record
and marks it free, with calls of `rtl_do_trace` in between.
-/

namespace Xmertl

open Cyclic RingBuffer Runs

def rtlTraceMaxEvents : Int := 64

def rtlTnbuffers : Int := 32

def rtlTnrecords : Int := 40

def rtlTraceFinalizeEvent : Int := 18

structure TraceRecord where
  timestamp : Int
  eventData : Int
  eip : Int
  eventId : Int
  domainId : Int
  deriving DecidableEq

structure TraceBuffer where
  pos : Int
  timestamp : Int
  len : Int
  id : Int
  overwritten : Int
  trace : Int → TraceRecord

/-- `rtl_trace`, the shared memory. -/
structure RtlTrace where
  traceDataReady : BitVec 32
  overwritten : Int
  finalizeCount : Int
  readerPpos : Int
  readerCpos : Int
  writerCpos : Int
  writerNpos : Int
  buffers : Int → TraceBuffer

def testBit (nr : Int) (x : BitVec 32) : Bool := x.getLsbD nr.toNat

def xmSetBit (nr : Int) (x : BitVec 32) : BitVec 32 := x ||| BitVec.twoPow 32 nr.toNat

def xmClearBit (nr : Int) (x : BitVec 32) : BitVec 32 := x &&& ~~~BitVec.twoPow 32 nr.toNat

def RtlTrace.setBuffer (trace : RtlTrace) (i : Int) (buf : TraceBuffer) : RtlTrace :=
  { trace with buffers := Function.update trace.buffers i buf }

structure Dump where
  records : List TraceRecord
  timestamp : Int
  lost : Int
  deriving DecidableEq

/-- Where the loop of the tracer is, with the variables of `rtl_trace_dump`. -/
inductive ReaderPc
  | look
  | dump
  | record (i s : Int) (shown : List TraceRecord)
  | lost (shown : List TraceRecord)
  | free
  | advance
  deriving DecidableEq

/-- The shared memory, the writer's variables and the reader. `recorded` are the records
since the last `init_current_buffer`, `published` what was marked ready and `dumped`
what the reader has shown. -/
structure Tracing where
  trace : RtlTrace
  eventClass : Int → UInt32
  eventmask : UInt32
  timestamp : Int
  cbuf : Int
  len : Int
  /-- `cur - sbp`; `ebp - sbp` is RTL_TNRECORDS. -/
  cur : Int
  pc : ReaderPc
  recorded : List TraceRecord
  published : List Dump
  dumped : List Dump

inductive TraceAction
  /-- `rtl_do_trace`, with the time and what `xm_in_interrupt` and the current domain say. -/
  | trace (eventId eventData eip nsec : Int) (inInterrupt : Bool) (currentDomain : Int)
  | setEventClass (event : Int) (classmask : UInt32)
  /-- The next step of the tracer. -/
  | reader

namespace Tracing

def CBUF (x : Tracing) : TraceBuffer := x.trace.buffers x.cbuf

def initCurrentBuffer (x : Tracing) : Tracing := { x with len := 0, cur := 0, recorded := [] }

def rtlTraceFinalize (x : Tracing) (id : Int) : Tracing :=
  let timestamp := long (x.timestamp + 1)
  let cpos := x.trace.writerCpos
  let npos := (cpos + 1).tmod rtlTnbuffers
  let ready := xmSetBit cpos x.trace.traceDataReady
  let trace := { x.trace with
    finalizeCount := ulong (x.trace.finalizeCount + 1), writerNpos := npos }
  if testBit npos ready then
    let buf := { x.CBUF with overwritten := ulong (x.CBUF.overwritten + 1) }
    initCurrentBuffer { x with
      timestamp,
      trace := { trace.setBuffer x.cbuf buf with
        overwritten := ulong (x.trace.overwritten + 1), traceDataReady := xmClearBit cpos ready } }
  else
    let buf := { x.CBUF with id, timestamp, len := x.len, pos := x.cur }
    initCurrentBuffer { x with
      timestamp,
      trace := { trace.setBuffer x.cbuf buf with traceDataReady := ready, writerCpos := npos },
      cbuf := npos,
      published := x.published ++
        [⟨x.recorded.drop (x.recorded.length - rtlTnrecords.toNat), timestamp, x.CBUF.overwritten⟩] }

/-- A record into the current buffer, which keeps the last RTL_TNRECORDS. -/
def record (x : Tracing) (r : TraceRecord) : Tracing :=
  let buf := { x.CBUF with trace := Function.update x.CBUF.trace x.cur r }
  { x with
    trace := x.trace.setBuffer x.cbuf buf,
    len := if x.len < rtlTnrecords then x.len + 1 else x.len,
    cur := if x.cur + 1 ≥ rtlTnrecords then 0 else x.cur + 1,
    recorded := x.recorded ++ [r] }

/-- Interrupts are off from the first test on, so no reader's step is in between. -/
def rtlDoTrace (x : Tracing) (eventId eventData eip nsec : Int) (inInterrupt : Bool)
    (currentDomain : Int) : Tracing :=
  if ulong eventId ≥ rtlTraceMaxEvents then x
  else if eventId = rtlTraceFinalizeEvent then x.rtlTraceFinalize 1
  else if x.eventClass eventId &&& x.eventmask ≠ 0 then
    x.record ⟨nsec, eventData, eip, eventId, if inInterrupt then -1 else currentDomain⟩
  else x

def rtlTraceSeteventclass (x : Tracing) (event : Int) (classmask : UInt32) : Tracing :=
  if ulong event ≥ rtlTraceMaxEvents then x
  else { x with eventClass := Function.update x.eventClass event classmask }

/-- `xmtrace_core_setup`, with whatever the memory and the classes are, and the tracer
before its first look. -/
def xmtraceCoreSetup (mem : RtlTrace) (eventClass : Int → UInt32) : Tracing where
  trace := { mem with
    traceDataReady := 0, readerCpos := 0, readerPpos := -1, writerCpos := 0, writerNpos := 0,
    overwritten := 0 }
  eventClass
  eventmask := 0xffffffff
  timestamp := 0
  cbuf := 0
  len := 0
  cur := 0
  pc := .look
  recorded := []
  published := []
  dumped := []

def rbuf (x : Tracing) : TraceBuffer := x.trace.buffers x.trace.readerCpos

def reader (x : Tracing) : Tracing :=
  match x.pc with
  | .look =>
    let cpos := (x.trace.readerPpos + 1).tmod rtlTnbuffers
    { x with
      trace := { x.trace with readerCpos := cpos },
      pc := if testBit cpos x.trace.traceDataReady then .dump else .look }
  | .dump =>
    let s := x.rbuf.pos - x.rbuf.len
    { x with pc := .record 0 (if s < 0 then s + rtlTnrecords else s) [] }
  | .record i s shown =>
    if i < x.rbuf.len then
      { x with
        pc := .record (i + 1) (if s + 1 ≥ rtlTnrecords then 0 else s + 1) (shown ++ [x.rbuf.trace s]) }
    else { x with pc := .lost shown }
  | .lost shown =>
    { x with
      trace := x.trace.setBuffer x.trace.readerCpos { x.rbuf with overwritten := 0 },
      pc := .free,
      dumped := x.dumped ++ [⟨shown, x.rbuf.timestamp, x.rbuf.overwritten⟩] }
  | .free =>
    { x with
      trace := { x.trace with
        traceDataReady := xmClearBit x.trace.readerCpos x.trace.traceDataReady },
      pc := .advance }
  | .advance =>
    { x with trace := { x.trace with readerPpos := x.trace.readerCpos }, pc := .look }

def step (x : Tracing) : TraceAction → Option Tracing
  | .trace eventId eventData eip nsec inInterrupt currentDomain =>
    some (x.rtlDoTrace eventId eventData eip nsec inInterrupt currentDomain)
  | .setEventClass event classmask => some (x.rtlTraceSeteventclass event classmask)
  | .reader => some x.reader

-- ---------------------------------------------------------------------------
-- Bits and buffers
-- ---------------------------------------------------------------------------

theorem testBit_xmSetBit (x : BitVec 32) {i j : Nat} (hj : j < 32) :
    testBit i (xmSetBit j x) = true ↔ testBit i x = true ∨ i = j := by
  rw [testBit, testBit, xmSetBit, Int.toNat_natCast, Int.toNat_natCast, BitVec.getLsbD_or,
    BitVec.getLsbD_twoPow, decide_eq_true hj, Bool.true_and, Bool.or_eq_true, decide_eq_true_eq,
    eq_comm (a := j)]

theorem testBit_xmClearBit (x : BitVec 32) {i j : Nat} (hi : i < 32) (hj : j < 32) :
    testBit i (xmClearBit j x) = true ↔ testBit i x = true ∧ i ≠ j := by
  rw [testBit, testBit, xmClearBit, Int.toNat_natCast, Int.toNat_natCast, BitVec.getLsbD_and,
    BitVec.getLsbD_not, BitVec.getLsbD_twoPow, decide_eq_true hi, decide_eq_true hj, Bool.true_and,
    Bool.true_and, Bool.and_eq_true, Bool.not_eq_true', decide_eq_false_iff_not, ne_comm, ne_eq]

@[simp] theorem setBuffer_self (t : RtlTrace) (i : Int) (buf : TraceBuffer) :
    (t.setBuffer i buf).buffers i = buf := Function.update_self ..

theorem setBuffer_of_ne (t : RtlTrace) {i j : Int} (buf : TraceBuffer) (h : j ≠ i) :
    (t.setBuffer i buf).buffers j = t.buffers j := Function.update_of_ne h ..

theorem next_tmod {i : Int} {k : Nat} (h : i = (k % 32 : Nat)) :
    (i + 1).tmod rtlTnbuffers = ((k + 1) % 32 : Nat) := by
  rw [h, rtlTnbuffers, Int.tmod_eq_emod_of_nonneg (by omega)]
  omega

-- ---------------------------------------------------------------------------
-- The invariant
-- ---------------------------------------------------------------------------

def unfreed : ReaderPc → Nat
  | .free => 1
  | _ => 0

def freed (x : Tracing) : Nat := x.dumped.length - unfreed x.pc

/-- `buf` has what was published as `c`. -/
structure Holds (buf : TraceBuffer) (c : Dump) : Prop where
  timestamp : buf.timestamp = c.timestamp
  lost : buf.overwritten = c.lost
  len : buf.len = c.records.length
  len_le : c.records.length ≤ 40
  pos : 0 ≤ buf.pos ∧ buf.pos < 40
  records : contents buf.trace 40 (buf.pos - buf.len) c.records.length = c.records

/-- The variables of the reader, which dumps the publication after those dumped. -/
def ReaderOk (x : Tracing) : Prop :=
  let at_ (k : Nat) := x.trace.readerCpos = (k % 32 : Nat)
  let n := x.dumped.length
  match x.pc with
  | .look => (x.trace.readerPpos + 1).tmod rtlTnbuffers = (n % 32 : Nat)
  | .dump => at_ n ∧ n < x.published.length
  | .record i s shown => at_ n ∧ ∃ c, x.published[n]? = some c ∧
      shown = c.records.take shown.length ∧ shown.length ≤ c.records.length ∧
      i = shown.length ∧ s = (x.rbuf.pos - x.rbuf.len + i) % 40
  | .lost shown => at_ n ∧ ∃ c, x.published[n]? = some c ∧ shown = c.records
  | .free | .advance => 0 < n ∧ at_ (n - 1)

structure Inv (x : Tracing) : Prop where
  len : x.len = (min 40 x.recorded.length : Nat)
  cur : x.cur = (x.recorded.length % 40 : Nat)
  last : Last x.CBUF.trace 40 x.recorded
  cbuf : x.cbuf = (x.published.length % 32 : Nat)
  writerCpos : x.trace.writerCpos = x.cbuf
  ready : ∀ i < 32, testBit (i : Nat) x.trace.traceDataReady = true ↔
    Within 32 x.freed x.published.length i
  freed_le : x.freed ≤ x.published.length
  room : x.published.length < x.freed + 32
  dumped : x.dumped <+: x.published
  held : ∀ k c, x.dumped.length ≤ k → x.published[k]? = some c →
    Holds (x.trace.buffers (k % 32 : Nat)) c
  reader : x.ReaderOk

theorem init_inv (mem : RtlTrace) (eventClass : Int → UInt32) :
    Inv (xmtraceCoreSetup mem eventClass) where
  len := rfl
  cur := rfl
  last := last_nil _ _
  cbuf := rfl
  writerCpos := rfl
  ready i _ := by
    have hnone := not_within_self 32 0 i
    simpa [testBit, xmtraceCoreSetup, freed] using hnone
  freed_le := Nat.le_of_eq rfl
  room := Nat.zero_lt_succ 31
  dumped := List.prefix_rfl
  held k c _ h := by simp [xmtraceCoreSetup] at h
  reader := rfl

section
variable {x y : Tracing}

theorem Inv.cbuf_ne (h : Inv x) (hk : x.freed ≤ k) (hlt : k < x.published.length) :
    ((k % 32 : Nat) : Int) ≠ x.cbuf := by
  intro heq
  rw [h.cbuf] at heq
  have hroom := h.room
  have hkeq : k = x.published.length := eq_of_place (n := 32) (by omega) (by omega) (by omega)
  omega

theorem freed_le_dumped (x : Tracing) : x.freed ≤ x.dumped.length := Nat.sub_le ..

theorem Inv.not_ready (h : Inv x) : testBit x.cbuf x.trace.traceDataReady = false := by
  have hplace : x.published.length % 32 < 32 := Nat.mod_lt _ (by omega)
  rw [h.cbuf, ← Bool.not_eq_true, h.ready _ hplace]
  exact not_within_top h.room

-- ---------------------------------------------------------------------------
-- The writer
-- ---------------------------------------------------------------------------

/-- What a step of the writer leaves to the reader. -/
structure Leaves (x y : Tracing) : Prop where
  pc : y.pc = x.pc
  dumped : y.dumped = x.dumped
  readerPpos : y.trace.readerPpos = x.trace.readerPpos
  readerCpos : y.trace.readerCpos = x.trace.readerCpos
  published : x.published <+: y.published
  buffers : ∀ i, i ≠ x.cbuf → y.trace.buffers i = x.trace.buffers i

theorem Leaves.freed (hl : Leaves x y) : y.freed = x.freed := by
  rw [Tracing.freed, Tracing.freed, hl.pc, hl.dumped]

theorem Leaves.published_getElem? (hl : Leaves x y) {k : Nat} {c : Dump}
    (h : x.published[k]? = some c) : y.published[k]? = some c := by
  obtain ⟨more, hmore⟩ := hl.published
  rw [← hmore, List.getElem?_append_left (List.getElem?_eq_some_iff.mp h).choose]
  exact h

theorem Leaves.reader (hl : Leaves x y) (h : Inv x) : y.ReaderOk := by
  have hr := h.reader
  have hlen : x.published.length ≤ y.published.length := hl.published.length_le
  unfold ReaderOk at hr ⊢
  simp only [hl.pc, hl.dumped, hl.readerPpos, hl.readerCpos] at hr ⊢
  cases hpc : x.pc with
  | look | free | advance =>
    rw [hpc] at hr
    exact hr
  | dump =>
    rw [hpc] at hr
    exact ⟨hr.1, by omega⟩
  | lost shown =>
    rw [hpc] at hr
    obtain ⟨hat, c, hc, hshown⟩ := hr
    exact ⟨hat, c, hl.published_getElem? hc, hshown⟩
  | record i s shown =>
    rw [hpc] at hr
    obtain ⟨hat, c, hc, htake, hle, hi, hs⟩ := hr
    have hlt := (List.getElem?_eq_some_iff.mp hc).choose
    have hbuf : y.rbuf = x.rbuf := by
      rw [rbuf, rbuf, hl.readerCpos, hl.buffers]
      rw [hat]
      exact h.cbuf_ne (freed_le_dumped x) hlt
    exact ⟨hat, c, hl.published_getElem? hc, htake, hle, hi, by rw [hbuf]; exact hs⟩

theorem Leaves.held (hl : Leaves x y) (h : Inv x) (hk : x.dumped.length ≤ k)
    (hc : x.published[k]? = some c) : Holds (y.trace.buffers (k % 32 : Nat)) c := by
  have hlt := (List.getElem?_eq_some_iff.mp hc).choose
  rw [hl.buffers _ (h.cbuf_ne ((freed_le_dumped x).trans hk) hlt)]
  exact h.held k c hk hc

theorem record_leaves (x : Tracing) (r : TraceRecord) : Leaves x (x.record r) where
  pc := rfl
  dumped := rfl
  readerPpos := rfl
  readerCpos := rfl
  published := List.prefix_rfl
  buffers _ h := setBuffer_of_ne _ _ h

theorem Inv.record (h : Inv x) (r : TraceRecord) : Inv (x.record r) := by
  have hl := record_leaves x r
  refine
    { cbuf := h.cbuf, writerCpos := h.writerCpos, ready := h.ready, freed_le := h.freed_le,
      room := h.room, dumped := h.dumped, reader := hl.reader h,
      held := fun k c hk hc => hl.held h hk hc, len := ?_, cur := ?_, last := ?_ }
  · have hlen := h.len
    have hlength : (x.recorded ++ [r]).length = x.recorded.length + 1 := List.length_append
    show (if x.len < 40 then x.len + 1 else x.len) = (min 40 (x.recorded ++ [r]).length : Nat)
    split <;> omega
  · have hcur := h.cur
    have hlength : (x.recorded ++ [r]).length = x.recorded.length + 1 := List.length_append
    show (if x.cur + 1 ≥ 40 then 0 else x.cur + 1) = ((x.recorded ++ [r]).length % 40 : Nat)
    split <;> omega
  · have hlast := h.last.snoc (by decide) r
    have hcur : x.cur = (x.recorded.length : Int) % (40 : Nat) := h.cur
    rw [← hcur] at hlast
    simpa [Tracing.record, CBUF] using hlast

def Full (x : Tracing) : Prop :=
  testBit ((x.trace.writerCpos + 1).tmod rtlTnbuffers) x.trace.traceDataReady = true

instance (x : Tracing) : Decidable x.Full := inferInstanceAs (Decidable (_ = true))

theorem Inv.next (h : Inv x) :
    (x.trace.writerCpos + 1).tmod rtlTnbuffers = ((x.published.length + 1) % 32 : Nat) :=
  next_tmod (h.writerCpos.trans h.cbuf)

theorem Inv.full_iff (h : Inv x) : x.Full ↔ x.published.length + 1 = x.freed + 32 := by
  rw [Full, h.next, h.ready _ (Nat.mod_lt _ (by decide))]
  exact within_next (by decide) h.room

theorem Inv.cbuf_ne_next (h : Inv x) : ((x.published.length + 1) % 32 : Nat) ≠ x.cbuf := by
  rw [h.cbuf]
  omega

theorem Inv.test_npos (h : Inv x) :
    testBit ((x.trace.writerCpos + 1).tmod rtlTnbuffers)
      (xmSetBit x.trace.writerCpos x.trace.traceDataReady) = true ↔ x.Full := by
  have hne := h.cbuf_ne_next
  rw [h.cbuf] at hne
  rw [Full, h.next, h.writerCpos, h.cbuf, testBit_xmSetBit _ (Nat.mod_lt _ (by decide))]
  exact or_iff_left fun heq => hne (by rw [heq])

theorem finalize_full (h : Inv x) (hf : x.Full) (id : Int) :
    x.rtlTraceFinalize id = { x with
      timestamp := long (x.timestamp + 1), len := 0, cur := 0, recorded := [],
      trace := { x.trace.setBuffer x.cbuf
          { x.CBUF with overwritten := ulong (x.CBUF.overwritten + 1) } with
        finalizeCount := ulong (x.trace.finalizeCount + 1)
        overwritten := ulong (x.trace.overwritten + 1)
        writerNpos := (x.trace.writerCpos + 1).tmod rtlTnbuffers
        traceDataReady := xmClearBit x.trace.writerCpos
          (xmSetBit x.trace.writerCpos x.trace.traceDataReady) } } := by
  have htest := h.test_npos.mpr hf
  rw [rtlTraceFinalize, if_pos htest]
  rfl

theorem finalize_room (h : Inv x) (hf : ¬x.Full) (id : Int) :
    x.rtlTraceFinalize id = { x with
      timestamp := long (x.timestamp + 1), len := 0, cur := 0, recorded := [],
      cbuf := (x.trace.writerCpos + 1).tmod rtlTnbuffers
      trace := { x.trace.setBuffer x.cbuf { x.CBUF with
          id, timestamp := long (x.timestamp + 1), len := x.len, pos := x.cur } with
        finalizeCount := ulong (x.trace.finalizeCount + 1)
        writerNpos := (x.trace.writerCpos + 1).tmod rtlTnbuffers
        writerCpos := (x.trace.writerCpos + 1).tmod rtlTnbuffers
        traceDataReady := xmSetBit x.trace.writerCpos x.trace.traceDataReady }
      published := x.published ++ [⟨x.recorded.drop (x.recorded.length - rtlTnrecords.toNat),
        long (x.timestamp + 1), x.CBUF.overwritten⟩] } := by
  have htest := mt h.test_npos.mp hf
  rw [rtlTraceFinalize, if_neg htest]
  rfl

theorem finalize_leaves (h : Inv x) (id : Int) : Leaves x (x.rtlTraceFinalize id) := by
  by_cases hf : x.Full
  · rw [finalize_full h hf]
    exact ⟨rfl, rfl, rfl, rfl, List.prefix_rfl, fun _ hi => setBuffer_of_ne x.trace _ hi⟩
  · rw [finalize_room h hf]
    exact ⟨rfl, rfl, rfl, rfl, List.prefix_append _ _, fun _ hi => setBuffer_of_ne x.trace _ hi⟩

theorem Inv.finalize_full (h : Inv x) (hf : x.Full) (id : Int) : Inv (x.rtlTraceFinalize id) := by
  have hl := finalize_leaves h id
  rw [Tracing.finalize_full h hf] at hl ⊢
  refine
    { cbuf := h.cbuf, writerCpos := h.writerCpos, freed_le := h.freed_le, room := h.room,
      dumped := h.dumped, reader := hl.reader h, held := fun k c hk hc => hl.held h hk hc,
      len := rfl, cur := rfl, last := last_nil _ _, ready := fun i hi => ?_ }
  have hplace : x.published.length % 32 < 32 := Nat.mod_lt _ (by decide)
  have hnot : i = x.published.length % 32 → ¬Within 32 x.freed x.published.length i := by
    rintro rfl
    exact not_within_top h.room
  show testBit i (xmClearBit _ _) = true ↔ _
  rw [h.writerCpos, h.cbuf, testBit_xmClearBit _ hi hplace, testBit_xmSetBit _ hplace, h.ready i hi]
  constructor
  · rintro ⟨hin | heq, hne⟩
    · exact hin
    · exact absurd heq hne
  · exact fun hin => ⟨.inl hin, fun heq => hnot heq hin⟩

theorem Inv.holds (h : Inv x) (id : Int) :
    Holds { x.CBUF with id, timestamp := long (x.timestamp + 1), len := x.len, pos := x.cur }
      ⟨x.recorded.drop (x.recorded.length - rtlTnrecords.toNat), long (x.timestamp + 1),
        x.CBUF.overwritten⟩ := by
  have hlen := h.len
  have hcur := h.cur
  have hrecords : (x.recorded.drop (x.recorded.length - rtlTnrecords.toNat)).length
      = min 40 x.recorded.length := by
    rw [List.length_drop]
    simp only [rtlTnrecords]
    omega
  refine ⟨rfl, rfl, ?_, ?_, ?_, ?_⟩
  · rw [hrecords]
    exact hlen
  · rw [hrecords]
    omega
  · show 0 ≤ x.cur ∧ x.cur < 40
    omega
  · rw [hrecords]
    have hplace : (x.cur - x.len) % 40 = (x.recorded.length - 40 : Nat) % 40 := by omega
    show contents x.CBUF.trace 40 (x.cur - x.len) (min 40 x.recorded.length) = _
    rw [← contents_place, hplace, contents_place]
    exact h.last

theorem Inv.finalize_room (h : Inv x) (hf : ¬x.Full) (id : Int) : Inv (x.rtlTraceFinalize id) := by
  have hl := finalize_leaves h id
  have hnext := h.next
  have hfreed : x.freed ≤ x.published.length := h.freed_le
  have hroom : x.published.length + 1 < x.freed + 32 := by
    have hlt := h.room
    have hne := mt h.full_iff.mpr hf
    omega
  rw [Tracing.finalize_room h hf] at hl ⊢
  refine
    { cbuf := ?_, writerCpos := rfl, freed_le := ?_, room := ?_,
      dumped := h.dumped.trans (List.prefix_append _ _), reader := hl.reader h,
      held := fun k c hk hc => ?_,
      len := rfl, cur := rfl, last := last_nil _ _, ready := fun i hi => ?_ }
  · rw [List.length_append]
    exact hnext
  · have hplace : x.published.length % 32 < 32 := Nat.mod_lt _ (by decide)
    rw [List.length_append]
    show testBit i (xmSetBit _ _) = true ↔ Within 32 x.freed (x.published.length + 1) i
    rw [h.writerCpos, h.cbuf, testBit_xmSetBit _ hplace, h.ready i hi, within_add hfreed]
  · rw [List.length_append]
    exact Nat.le_succ_of_le hfreed
  · rw [List.length_append]
    exact hroom
  · rcases Nat.lt_or_ge k x.published.length with hlt | hge
    · rw [List.getElem?_append_left hlt] at hc
      exact hl.held h hk hc
    · rw [List.getElem?_append_right hge, List.getElem?_singleton, Option.ite_none_right_eq_some] at hc
      obtain ⟨hkeq, hc⟩ := hc
      have hk : k = x.published.length := by omega
      rw [← Option.some.inj hc, hk, ← h.cbuf]
      show Holds ((x.trace.setBuffer x.cbuf _).buffers x.cbuf) _
      rw [setBuffer_self]
      exact h.holds id

theorem Inv.finalize (h : Inv x) (id : Int) : Inv (x.rtlTraceFinalize id) := by
  by_cases hf : x.Full
  · exact h.finalize_full hf id
  · exact h.finalize_room hf id

theorem Inv.rtlDoTrace (h : Inv x) (eventId eventData eip nsec : Int) (inInterrupt : Bool)
    (currentDomain : Int) :
    Inv (x.rtlDoTrace eventId eventData eip nsec inInterrupt currentDomain) := by
  unfold Tracing.rtlDoTrace
  split
  · exact h
  · split
    · exact h.finalize 1
    · split
      · exact h.record _
      · exact h

theorem Inv.seteventclass (h : Inv x) (event : Int) (classmask : UInt32) :
    Inv (x.rtlTraceSeteventclass event classmask) := by
  unfold rtlTraceSeteventclass
  split
  · exact h
  · exact { h with }

-- ---------------------------------------------------------------------------
-- The reader
-- ---------------------------------------------------------------------------

theorem Inv.read (h : Inv x) {pc : ReaderPc} (hpc : unfreed pc = unfreed x.pc)
    {readerPpos readerCpos : Int}
    (hr : ReaderOk { x with pc, trace := { x.trace with readerPpos, readerCpos } }) :
    Inv { x with pc, trace := { x.trace with readerPpos, readerCpos } } := by
  have hfreed : x.freed = x.dumped.length - unfreed pc := by rw [hpc]; rfl
  have hready := h.ready
  have hle := h.freed_le
  have hroom := h.room
  rw [hfreed] at hready hle hroom
  exact
    { len := h.len, cur := h.cur, last := h.last, cbuf := h.cbuf, writerCpos := h.writerCpos,
      ready := hready, freed_le := hle, room := hroom, dumped := h.dumped, held := h.held,
      reader := hr }

theorem Inv.turn (h : Inv x) (hat : x.trace.readerCpos = (x.dumped.length % 32 : Nat))
    (hc : x.published[x.dumped.length]? = some c) : Holds x.rbuf c := by
  rw [rbuf, hat]
  exact h.held _ c (Nat.le_refl _) hc

theorem Inv.look (h : Inv x) (hpc : x.pc = .look) : Inv x.reader := by
  have hpos : (x.trace.readerPpos + 1).tmod rtlTnbuffers = (x.dumped.length % 32 : Nat) := by
    have hr := h.reader
    rw [ReaderOk, hpc] at hr
    exact hr
  rw [Tracing.reader, hpc]
  simp only [hpos]
  split
  · rename_i htest
    refine h.read (by rw [hpc]; rfl) ⟨rfl, ?_⟩
    have hfreed : x.freed = x.dumped.length := by rw [freed, hpc]; rfl
    obtain ⟨k, hk, hlt, -⟩ := (h.ready _ (Nat.mod_lt _ (by decide))).mp htest
    show x.dumped.length < x.published.length
    omega
  · exact h.read (by rw [hpc]) hpos

theorem Inv.dump (h : Inv x) (hpc : x.pc = .dump) : Inv x.reader := by
  have hr := h.reader
  rw [ReaderOk, hpc] at hr
  obtain ⟨hat, hlt⟩ := hr
  have hc := List.getElem?_eq_getElem hlt
  have hholds := h.turn hat hc
  rw [Tracing.reader, hpc]
  refine h.read (by rw [hpc]; rfl) ⟨hat, _, hc, rfl, Nat.zero_le _, rfl, ?_⟩
  have hlen := hholds.len
  have hle := hholds.len_le
  have hpos := hholds.pos
  show (if x.rbuf.pos - x.rbuf.len < 0 then x.rbuf.pos - x.rbuf.len + 40 else _)
    = (x.rbuf.pos - x.rbuf.len + 0) % 40
  split <;> omega

theorem Inv.showRecord (h : Inv x) (hpc : x.pc = .record i s shown) : Inv x.reader := by
  have hr := h.reader
  rw [ReaderOk, hpc] at hr
  obtain ⟨hat, c, hc, htake, hle, hi, hs⟩ := hr
  have hholds := h.turn hat hc
  have hlen := hholds.len
  rw [Tracing.reader, hpc]
  dsimp only
  split
  · have hlt : shown.length < c.records.length := by omega
    have hget : c.records[shown.length]? = some (x.rbuf.trace s) := by
      rw [← hholds.records, contents_getElem? _ _ _ hlt, hs, hi]
    have hshown : shown ++ [x.rbuf.trace s] = c.records.take (shown.length + 1) := by
      rw [List.take_add_one, hget, ← htake]
      rfl
    refine h.read (by rw [hpc]; rfl) ⟨hat, c, hc, ?_, ?_, ?_, ?_⟩
    · rw [List.length_append, List.length_singleton]
      exact hshown
    · rw [List.length_append]
      exact hlt
    · rw [List.length_append, List.length_singleton]
      omega
    · show (if s + 1 ≥ 40 then 0 else s + 1) = (x.rbuf.pos - x.rbuf.len + (i + 1)) % 40
      split <;> omega
  · refine h.read (by rw [hpc]; rfl) ⟨hat, c, hc, ?_⟩
    have hall : shown.length = c.records.length := by omega
    rw [htake, hall, List.take_length]

theorem Inv.lost (h : Inv x) (hpc : x.pc = .lost shown) : Inv x.reader := by
  have hr := h.reader
  rw [ReaderOk, hpc] at hr
  obtain ⟨hat, c, hc, hshown⟩ := hr
  obtain ⟨hlt, hget⟩ := List.getElem?_eq_some_iff.mp hc
  have hholds := h.turn hat hc
  have hfreed : x.freed = x.dumped.length := by rw [freed, hpc]; rfl
  have hdump : (⟨shown, x.rbuf.timestamp, x.rbuf.overwritten⟩ : Dump) = c := by
    rw [hshown, hholds.timestamp, hholds.lost]
  have hne : x.cbuf ≠ x.trace.readerCpos := by
    rw [hat]
    exact (h.cbuf_ne hfreed.le hlt).symm
  have hlength : (x.dumped ++ [c]).length - 1 = x.freed := by
    rw [List.length_append, hfreed]
    rfl
  rw [Tracing.reader, hpc]
  dsimp only
  rw [hdump]
  refine
    { len := h.len, cur := h.cur, cbuf := h.cbuf, writerCpos := h.writerCpos,
      last := ?_, ready := ?_, freed_le := ?_, room := ?_, dumped := ?_, held := ?_, reader := ?_ }
  · have hlast := h.last
    show Last ((x.trace.setBuffer x.trace.readerCpos _).buffers x.cbuf).trace 40 x.recorded
    rw [setBuffer_of_ne _ _ hne]
    exact hlast
  · show ∀ i < 32, _ ↔ Within 32 ((x.dumped ++ [c]).length - 1) x.published.length i
    rw [hlength]
    exact h.ready
  · show (x.dumped ++ [c]).length - 1 ≤ x.published.length
    rw [hlength]
    exact h.freed_le
  · show x.published.length < (x.dumped ++ [c]).length - 1 + 32
    rw [hlength]
    exact h.room
  · have htake : x.published.take (x.dumped.length + 1) = x.dumped ++ [c] := by
      rw [List.take_add_one, hc, ← List.prefix_iff_eq_take.mp h.dumped]
      rfl
    rw [← htake]
    exact List.take_prefix _ _
  · intro k c' hk hc'
    have hk : x.dumped.length + 1 ≤ k := by
      rw [List.length_append] at hk
      exact hk
    have hlt' : k < x.published.length := (List.getElem?_eq_some_iff.mp hc').choose
    have hroom := h.room
    have hne' : ((k % 32 : Nat) : Int) ≠ x.trace.readerCpos := by
      rw [hat]
      intro heq
      have hkeq : k = x.dumped.length := eq_of_place (n := 32) (by omega) (by omega) (by omega)
      omega
    show Holds ((x.trace.setBuffer x.trace.readerCpos _).buffers (k % 32 : Nat)) c'
    rw [setBuffer_of_ne _ _ hne']
    exact h.held k c' (by omega) hc'
  · refine ⟨by simp, ?_⟩
    show x.trace.readerCpos = (((x.dumped ++ [c]).length - 1) % 32 : Nat)
    rw [hlength, hfreed]
    exact hat

theorem Inv.free (h : Inv x) (hpc : x.pc = .free) : Inv x.reader := by
  have hr := h.reader
  rw [ReaderOk, hpc] at hr
  obtain ⟨hpos, hat⟩ := hr
  have hfreed : x.freed = x.dumped.length - 1 := by rw [freed, hpc]; rfl
  have hplace : (x.dumped.length - 1) % 32 < 32 := Nat.mod_lt _ (by decide)
  have hready := h.ready
  have hroom := h.room
  have hle := h.dumped.length_le
  rw [hfreed] at hready hroom
  rw [Tracing.reader, hpc]
  refine
    { len := h.len, cur := h.cur, last := h.last, cbuf := h.cbuf, writerCpos := h.writerCpos,
      freed_le := hle, room := ?_, dumped := h.dumped, held := h.held, reader := ⟨hpos, hat⟩,
      ready := fun i hi => ?_ }
  · show testBit i (xmClearBit x.trace.readerCpos _) = true ↔
      Within 32 x.dumped.length x.published.length i
    have htake := @within_take 32 (x.dumped.length - 1) x.published.length i (by omega)
    rw [Nat.sub_add_cancel hpos] at htake
    rw [hat, testBit_xmClearBit _ hi hplace, hready i hi, htake]
  · show x.published.length < x.dumped.length + 32
    omega

theorem Inv.advance (h : Inv x) (hpc : x.pc = .advance) : Inv x.reader := by
  have hr := h.reader
  rw [ReaderOk, hpc] at hr
  obtain ⟨hpos, hat⟩ := hr
  rw [Tracing.reader, hpc]
  refine h.read (by rw [hpc]; rfl) ?_
  have hnext := next_tmod hat
  rw [Nat.sub_add_cancel hpos] at hnext
  exact hnext

theorem Inv.readerStep (h : Inv x) : Inv x.reader := by
  cases hpc : x.pc with
  | look => exact h.look hpc
  | dump => exact h.dump hpc
  | record i s shown => exact h.showRecord hpc
  | lost shown => exact h.lost hpc
  | free => exact h.free hpc
  | advance => exact h.advance hpc

theorem step_inv (h : Inv x) (hs : step x a = some y) : Inv y := by
  cases a with
  | trace eventId eventData eip nsec inInterrupt currentDomain =>
    obtain rfl := Option.some.inj hs
    exact h.rtlDoTrace ..
  | setEventClass event classmask =>
    obtain rfl := Option.some.inj hs
    exact h.seteventclass event classmask
  | reader =>
    obtain rfl := Option.some.inj hs
    exact h.readerStep

-- ---------------------------------------------------------------------------
-- Runs
-- ---------------------------------------------------------------------------

variable {mem : RtlTrace} {classes : Int → UInt32} {tr : List (Tracing × TraceAction)} {s : Tracing}

theorem run_inv (hr : Run step (xmtraceCoreSetup mem classes) tr s) (hx : Visited tr s x) :
    Inv x :=
  hr.invariant_visited (C := fun _ _ => True) (init_inv mem classes)
    (fun _ _ _ h _ hs => step_inv h hs) (fun _ _ => trivial) hx

theorem Inv.leaves_ready (h : Inv x) (ha : a ≠ .reader) (hs : step x a = some y) {i : Nat}
    (hready : testBit i x.trace.traceDataReady = true) :
    y.trace.buffers i = x.trace.buffers i := by
  have hne : (i : Int) ≠ x.cbuf := by
    intro heq
    rw [heq, h.not_ready] at hready
    exact absurd hready Bool.false_ne_true
  cases a with
  | reader => exact absurd rfl ha
  | setEventClass event classmask =>
    obtain rfl := Option.some.inj hs
    unfold rtlTraceSeteventclass
    split <;> rfl
  | trace eventId eventData eip nsec inInterrupt currentDomain =>
    obtain rfl := Option.some.inj hs
    unfold Tracing.rtlDoTrace
    split
    · rfl
    · split
      · exact (finalize_leaves h 1).buffers i hne
      · split
        · exact (record_leaves x _).buffers i hne
        · rfl

/-- A call of `rtl_do_trace` for RTL_TRACE_FINALIZE. -/
def finalizes : TraceAction → Bool
  | .trace eventId .. => eventId = rtlTraceFinalizeEvent
  | .setEventClass .. | .reader => false

def drops (e : Tracing × TraceAction) : Bool := finalizes e.2 && decide e.1.Full

/-- The writer's counters after `n` finalisations, `m` of which found no free buffer. -/
structure Counts (mem : RtlTrace) (n m : Nat) (x : Tracing) : Prop where
  finalizations : n = x.published.length + m
  finalizeCount : ulong x.trace.finalizeCount = ulong (mem.finalizeCount + n)
  overwritten : x.trace.overwritten = ulong m

theorem Counts.of_eq {n m : Nat} (hc : Counts mem n m x) (hp : y.published = x.published)
    (hf : y.trace.finalizeCount = x.trace.finalizeCount)
    (ho : y.trace.overwritten = x.trace.overwritten) : Counts mem n m y :=
  ⟨by rw [hp]; exact hc.finalizations, by rw [hf]; exact hc.finalizeCount,
    ho.trans hc.overwritten⟩

theorem Counts.finalize_full {n m : Nat} (hc : Counts mem n m x) (h : Inv x) (hf : x.Full)
    (id : Int) : Counts mem (n + 1) (m + 1) (x.rtlTraceFinalize id) := by
  have hn := hc.finalizations
  have hcount := hc.finalizeCount
  have hover := hc.overwritten
  rw [Tracing.finalize_full h hf]
  refine ⟨by show n + 1 = x.published.length + (m + 1); omega, ?_, ?_⟩
  · show ulong (ulong (x.trace.finalizeCount + 1)) = ulong (mem.finalizeCount + (n + 1 : Nat))
    unfold ulong at hcount ⊢
    omega
  · show ulong (x.trace.overwritten + 1) = ulong (m + 1 : Nat)
    rw [hover]
    unfold ulong
    omega

theorem Counts.finalize_room {n m : Nat} (hc : Counts mem n m x) (h : Inv x) (hf : ¬x.Full)
    (id : Int) : Counts mem (n + 1) m (x.rtlTraceFinalize id) := by
  have hn := hc.finalizations
  have hcount := hc.finalizeCount
  rw [Tracing.finalize_room h hf]
  refine ⟨?_, ?_, hc.overwritten⟩
  · rw [List.length_append, List.length_singleton]
    omega
  · show ulong (ulong (x.trace.finalizeCount + 1)) = ulong (mem.finalizeCount + (n + 1 : Nat))
    unfold ulong at hcount ⊢
    omega

theorem Counts.reader {n m : Nat} (hc : Counts mem n m x) : Counts mem n m x.reader := by
  unfold Tracing.reader
  split <;> first | exact hc.of_eq rfl rfl rfl | split <;> exact hc.of_eq rfl rfl rfl

theorem Counts.step {n m : Nat} (hc : Counts mem n m x) (h : Inv x) (hs : step x a = some y) :
    Counts mem (n + (finalizes a).toNat) (m + (drops (x, a)).toNat) y := by
  cases a with
  | reader =>
    obtain rfl := Option.some.inj hs
    exact hc.reader
  | setEventClass event classmask =>
    obtain rfl := Option.some.inj hs
    unfold rtlTraceSeteventclass
    split <;> exact hc.of_eq rfl rfl rfl
  | trace eventId eventData eip nsec inInterrupt currentDomain =>
    obtain rfl := Option.some.inj hs
    unfold Tracing.rtlDoTrace
    by_cases hid : eventId = rtlTraceFinalizeEvent
    · have hsmall : ¬ulong eventId ≥ rtlTraceMaxEvents := by rw [hid]; decide
      rw [if_neg hsmall, if_pos hid, drops, finalizes, decide_eq_true hid]
      by_cases hf : x.Full
      · rw [decide_eq_true hf]
        exact hc.finalize_full h hf 1
      · rw [decide_eq_false hf]
        exact hc.finalize_room h hf 1
    · rw [if_neg hid, drops, finalizes, decide_eq_false hid]
      split
      · exact hc
      · split <;> exact hc.of_eq rfl rfl rfl

theorem run_counts (hr : Run step (xmtraceCoreSetup mem classes) tr s) :
    Counts mem (tr.countP fun e => finalizes e.2) (tr.countP drops) s := by
  have hnone : ulong mem.finalizeCount = ulong (mem.finalizeCount + (0 : Nat)) := by
    rw [Nat.cast_zero, Int.add_zero]
  refine (hr.history (I := fun past x => Inv x ∧
    Counts mem (past.countP fun e => finalizes e.2) (past.countP drops) x)
    (C := fun _ _ _ => True) ⟨init_inv mem classes, rfl, hnone, rfl⟩ ?_ fun _ _ _ => trivial).2
  rintro past x a y ⟨h, hc⟩ - hs
  refine ⟨step_inv h hs, ?_⟩
  have hstep := hc.step h hs
  rw [List.countP_cons, List.countP_cons]
  cases hf : finalizes a <;> cases hd : drops (x, a) <;> simpa [hf, hd] using hstep

theorem trace_buffers_delivered (hr : Run step (xmtraceCoreSetup mem classes) tr s) :
    s.dumped <+: s.published ∧
    (∀ x, Visited tr s x → testBit x.cbuf x.trace.traceDataReady = false) ∧
    (∀ e ∈ tr, e.2 ≠ .reader → ∀ y, step e.1 e.2 = some y → ∀ i : Nat,
      testBit i e.1.trace.traceDataReady = true → y.trace.buffers i = e.1.trace.buffers i) ∧
    tr.countP (fun e => finalizes e.2) = s.published.length + tr.countP drops ∧
    ulong s.trace.finalizeCount = ulong (mem.finalizeCount + tr.countP fun e => finalizes e.2) ∧
    s.trace.overwritten = ulong (tr.countP drops) := by
  have hcounts := run_counts hr
  refine ⟨(run_inv hr .self).dumped, fun x hx => (run_inv hr hx).not_ready, ?_,
    hcounts.finalizations, hcounts.finalizeCount, hcounts.overwritten⟩
  intro e he ha y hy i hready
  exact (run_inv hr (.pre he)).leaves_ready ha hy hready

def emptyBuffer : TraceBuffer := ⟨0, 0, 0, 0, 0, fun _ => ⟨0, 0, 0, 0, 0⟩⟩

def emptyTrace : RtlTrace := ⟨0, 0, 0, 0, 0, 0, 0, fun _ => emptyBuffer⟩

/-- Two records, a finalisation, a record into the next buffer during the dump. -/
theorem trace_buffers_delivered_two : ∃ tr s,
    Run step (xmtraceCoreSetup emptyTrace fun _ => 1) tr s ∧
    s.dumped = [⟨[⟨10, 1, 0, 19, 0⟩, ⟨20, 2, 0, 19, -1⟩], 1, 0⟩] ∧ s.dumped <+: s.published := by
  have hrun : (exec step (xmtraceCoreSetup emptyTrace fun _ => 1)
      [.trace 19 1 0 10 false 0, .trace 19 2 0 20 true 0, .trace 18 0 0 30 false 0, .reader,
        .reader, .reader, .trace 19 3 0 40 false 0, .reader, .reader, .reader]).any
      fun r => decide (r.2.dumped = [⟨[⟨10, 1, 0, 19, 0⟩, ⟨20, 2, 0, 19, -1⟩], 1, 0⟩]) := by
    decide +kernel
  obtain ⟨tr, s, hr, hs⟩ := exec_any hrun
  exact ⟨tr, s, hr, of_decide_eq_true hs, (trace_buffers_delivered hr).1⟩

end

end Tracing

end Xmertl
