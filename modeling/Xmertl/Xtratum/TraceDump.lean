import Xmertl.Xtratum.Trace

/-!
# What the dump of a trace buffer prints

`rtl_trace_dump` of `tracedump.h`, a line at a time: the records of the buffer from the
oldest on, and the trailer. It prints the newest of the records that were made, which are
those of the calls with an event that is none of RTL_TRACE_FINALIZE, is in range and whose
class is in the mask.
-/

namespace Xmertl

open Cyclic RingBuffer Runs

/-- A line that `rtl_trace_dump` prints, with the values of its `sprintf`. -/
inductive DumpLine
  | empty
  | record (domainId diff : Int) (name : String) (eventData eip : Int)
  | trailer (timestamp overwritten : Int)
  deriving DecidableEq

/-- `names` is the table of the other shared memory. -/
def eventname (names : Int → String) (eventId : Int) : String :=
  if ulong eventId ≥ rtlTraceMaxEvents then "unknown" else names eventId

def recordLine (names : Int → String) (prevts : Int) (r : TraceRecord) : DumpLine :=
  .record r.domainId (long (r.timestamp - prevts)) (eventname names r.eventId) r.eventData r.eip

def dumpRounds (names : Int → String) (trace : Int → TraceRecord) : Nat → Int → Int → List DumpLine
  | 0, _, _ => []
  | n + 1, s, prevts =>
    recordLine names prevts (trace s) ::
      dumpRounds names trace n (if s + 1 ≥ rtlTnrecords then 0 else s + 1) (trace s).timestamp

def rtlTraceDump (names : Int → String) (buf : TraceBuffer) : List DumpLine :=
  let s := buf.pos - buf.len
  (if buf.len = 0 then [.empty] else []) ++
    dumpRounds names buf.trace buf.len.toNat (if s < 0 then s + rtlTnrecords else s) 0 ++
    [.trailer buf.timestamp buf.overwritten]

/-- The lines of records that follow one of `prevts`. -/
def recordLines (names : Int → String) : Int → List TraceRecord → List DumpLine
  | _, [] => []
  | prevts, r :: records => recordLine names prevts r :: recordLines names r.timestamp records

def Dump.lines (names : Int → String) (c : Dump) : List DumpLine :=
  (if c.records = [] then [.empty] else []) ++ recordLines names 0 c.records ++
    [.trailer c.timestamp c.lost]

namespace Tracing

variable {names : Int → String} {trace : Int → TraceRecord} {buf : TraceBuffer} {c : Dump}

theorem dumpRounds_eq (n : Nat) {lo s : Int} (prevts : Int) (hs : s = lo % 40) :
    dumpRounds names trace n s prevts = recordLines names prevts (contents trace 40 lo n) := by
  induction n generalizing lo s prevts with
  | zero => rfl
  | succ n ih =>
    have hnext : (if s + 1 ≥ rtlTnrecords then 0 else s + 1) = (lo + 1) % 40 := by
      unfold rtlTnrecords
      split <;> omega
    have hcons : contents trace 40 lo (n + 1) = trace s :: contents trace 40 (lo + 1) n := by
      rw [Nat.add_comm, contents, block_add, hs]
      simp [block, contents]
    rw [dumpRounds, hcons, recordLines, ih _ hnext]

theorem Holds.dump (h : Holds buf c) : rtlTraceDump names buf = c.lines names := by
  have hlen := h.len
  have hle := h.len_le
  have hpos := h.pos
  have hstart : (if buf.pos - buf.len < 0 then buf.pos - buf.len + rtlTnrecords
      else buf.pos - buf.len) = (buf.pos - buf.len) % 40 := by
    unfold rtlTnrecords
    split <;> omega
  have hcount : buf.len.toNat = c.records.length := by omega
  have hempty : buf.len = 0 ↔ c.records = [] := by
    rw [← List.length_eq_zero_iff]
    omega
  rw [rtlTraceDump, dumpRounds_eq _ 0 hstart, hcount, h.records, h.timestamp, h.lost, Dump.lines]
  simp only [hempty]

-- ---------------------------------------------------------------------------
-- The records of a run
-- ---------------------------------------------------------------------------

def made (e : Tracing × TraceAction) : Option TraceRecord :=
  match e.2 with
  | .trace eventId eventData eip nsec inInterrupt currentDomain =>
    if ulong eventId < rtlTraceMaxEvents ∧ eventId ≠ rtlTraceFinalizeEvent ∧
        e.1.eventClass eventId &&& e.1.eventmask ≠ 0 then
      some ⟨nsec, eventData, eip, eventId, if inInterrupt then -1 else currentDomain⟩
    else none
  | .setEventClass .. | .reader => none

def newest (calls : List (Tracing × TraceAction)) : List TraceRecord :=
  let records := calls.reverse.filterMap made
  records.drop (records.length - 40)

variable {x y z w : Tracing} {a : TraceAction} {mem : RtlTrace} {classes : Int → UInt32}
  {past calls rest : List (Tracing × TraceAction)}

theorem reader_recorded (x : Tracing) :
    x.reader.recorded = x.recorded ∧ x.reader.published = x.published := by
  unfold reader
  split <;> first | exact ⟨rfl, rfl⟩ | split <;> exact ⟨rfl, rfl⟩

theorem step_recorded (hn : finalizes a = false) (hs : step x a = some y) :
    y.recorded = x.recorded ++ (made (x, a)).toList := by
  cases a with
  | reader =>
    obtain rfl := Option.some.inj hs
    rw [(reader_recorded x).1]
    exact (List.append_nil _).symm
  | setEventClass event classmask =>
    obtain rfl := Option.some.inj hs
    unfold rtlTraceSeteventclass
    split <;> exact (List.append_nil _).symm
  | trace eventId eventData eip nsec inInterrupt currentDomain =>
    obtain rfl := Option.some.inj hs
    have hid : eventId ≠ rtlTraceFinalizeEvent := of_decide_eq_false hn
    simp only [rtlDoTrace, made]
    by_cases hrange : ulong eventId < rtlTraceMaxEvents
    · rw [if_neg (not_le.mpr hrange), if_neg hid]
      by_cases hclass : x.eventClass eventId &&& x.eventmask ≠ 0
      · have hmade := And.intro hrange (And.intro hid hclass)
        rw [if_pos hclass, if_pos hmade]
        rfl
      · rw [if_neg hclass, if_neg fun h => hclass h.2.2]
        exact (List.append_nil _).symm
    · rw [if_pos (not_lt.mp hrange), if_neg fun h => hrange h.1]
      exact (List.append_nil _).symm

theorem run_recorded (hr : Run step x calls y) (hn : ∀ e ∈ calls, finalizes e.2 = false) :
    y.recorded = x.recorded ++ calls.reverse.filterMap made := by
  induction hr with
  | start => exact (List.append_nil _).symm
  | @next tr y a z _ hs ih =>
    rw [step_recorded (hn _ List.mem_cons_self) hs, ih fun e he => hn e (List.mem_cons_of_mem _ he),
      List.reverse_cons, List.filterMap_append, List.append_assoc]
    congr 2

theorem Inv.step_published (h : Inv x) (hs : step x a = some y) : x.published <+: y.published := by
  cases a with
  | reader =>
    obtain rfl := Option.some.inj hs
    exact (reader_recorded x).2.symm ▸ List.prefix_rfl
  | setEventClass event classmask =>
    obtain rfl := Option.some.inj hs
    unfold rtlTraceSeteventclass
    split <;> exact List.prefix_rfl
  | trace eventId eventData eip nsec inInterrupt currentDomain =>
    obtain rfl := Option.some.inj hs
    unfold Tracing.rtlDoTrace
    split
    · exact List.prefix_rfl
    split
    · exact (finalize_leaves h 1).published
    split <;> exact List.prefix_rfl

theorem Inv.run_published (h : Inv x) (hr : Run step x calls y) :
    Inv y ∧ x.published <+: y.published :=
  hr.invariant (I := fun y => Inv y ∧ x.published <+: y.published) (C := fun _ _ => True)
    ⟨h, List.prefix_rfl⟩ (fun _ _ _ hi _ hs => ⟨step_inv hi.1 hs, hi.2.trans (hi.1.step_published hs)⟩)
    fun _ _ => trivial

/-- In any run, of the calls after a finalisation or the set-up and up to the next finalisation
for which there is a buffer, with steps of the tracer in between, the buffer's dump prints the
newest 40 records, the oldest first, and still does until the tracer has shown it. -/
theorem dump_shows_newest {eventData eip nsec currentDomain : Int} {inInterrupt : Bool}
    (hpast : Run step (xmtraceCoreSetup mem classes) past x) (hx : x.len = 0)
    (hcalls : Run step x calls y) (hn : ∀ e ∈ calls, finalizes e.2 = false) (hroom : ¬y.Full)
    (hend : step y (.trace rtlTraceFinalizeEvent eventData eip nsec inInterrupt currentDomain) = some z)
    (hrest : Run step z rest w) (hshown : w.dumped.length ≤ y.published.length)
    (names : Int → String) :
    rtlTraceDump names (w.trace.buffers y.cbuf) =
      Dump.lines names ⟨newest calls, z.timestamp, y.CBUF.overwritten⟩ := by
  have hix := run_inv hpast .self
  obtain ⟨hiy, -⟩ := hix.run_published hcalls
  have hiz := step_inv hiy hend
  obtain ⟨hiw, hpub⟩ := hiz.run_published hrest
  have hnone : x.recorded = [] := by
    have hlen := hix.len
    rw [← List.length_eq_zero_iff]
    omega
  have hrecorded := run_recorded hcalls hn
  rw [hnone, List.nil_append] at hrecorded
  obtain rfl := Option.some.inj hend
  have hz : y.rtlDoTrace rtlTraceFinalizeEvent eventData eip nsec inInterrupt currentDomain =
      y.rtlTraceFinalize 1 := rfl
  rw [hz, finalize_room hiy hroom] at hpub ⊢
  obtain ⟨more, hmore⟩ := hpub
  have hget : w.published[y.published.length]? =
      some ⟨newest calls, long (y.timestamp + 1), y.CBUF.overwritten⟩ := by
    rw [← hmore, hrecorded]
    simp [newest, rtlTnrecords]
  have hheld := hiw.held _ _ hshown hget
  rw [← hiy.cbuf] at hheld
  exact hheld.dump

/-- The lines printed of the records of a buffer that is finished after some calls. -/
def linesAfter (x : Tracing) (calls : List TraceAction) : Option (List DumpLine) := do
  let y ← calls.foldlM step x
  let z := y.rtlDoTrace rtlTraceFinalizeEvent 0 0 0 false 0
  return (rtlTraceDump (fun _ => "") (z.trace.buffers y.cbuf)).filter fun line =>
    line matches .record ..

def oneClass : Tracing := xmtraceCoreSetup emptyTrace fun _ => 1

def twoCalls : Tracing := (oneClass.rtlDoTrace 19 1 0 10 false 0).rtlDoTrace 20 2 0 25 true 0

/-- After two calls two records are printed. -/
theorem dump_shows_newest_two :
    rtlTraceDump (fun _ => "user")
      ((twoCalls.rtlDoTrace rtlTraceFinalizeEvent 0 0 30 false 0).trace.buffers twoCalls.cbuf) =
      [.record 0 10 "user" 1 0, .record (-1) 15 "user" 2 0, .trailer 1 0] := by
  have hfirst : Run step oneClass [(oneClass, .trace 19 1 0 10 false 0)] _ := Run.start.next rfl
  have hcalls : Run step oneClass
      [(_, .trace 20 2 0 25 true 0), (oneClass, .trace 19 1 0 10 false 0)] twoCalls := hfirst.next rfl
  exact dump_shows_newest .start rfl hcalls (by decide) (by decide +kernel) rfl .start
    (by decide +kernel) fun _ => "user"

/-- As many records are printed as calls are made, or 40. -/
def ShowsCalls (x : Tracing) (calls : List TraceAction) : Prop :=
  (x.linesAfter calls).map List.length = some (min calls.length 40)

/-- Two calls make one record where one is out of range, and none is left of what is recorded
before a finalisation. -/
theorem dump_shows_fewer :
    let outOfRange := [.trace 19 1 0 10 false 0, .trace 64 2 0 20 false 0]
    let finalized := [.trace 19 1 0 10 false 0, .trace rtlTraceFinalizeEvent 0 0 20 false 0]
    oneClass.linesAfter outOfRange = some [.record 0 10 "" 1 0] ∧ ¬oneClass.ShowsCalls outOfRange ∧
    oneClass.linesAfter finalized = some [] ∧ ¬oneClass.ShowsCalls finalized := by
  unfold ShowsCalls
  decide +kernel

end Tracing

end Xmertl
