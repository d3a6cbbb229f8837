import Xmertl.Xtratum.Sched
import Xmertl.Xtratum.TraceDump

/-!
# Tracing and the scheduler

`xm_sched` of `sched.c` a statement at a time, with its calls of `rtl_do_trace` and the
redirection of the records to no domain, which it sets at its start and clears at its end.
Each domain has its own system stack: a domain that is switched to goes on in the
`xm_sched` that it is in, or in `init_wrapper` if it has not run yet. Between the
statements come interrupts, and in `sync_events` handlers, which may call `xm_sched` again.
-/

namespace Xmertl.Xtratum

open Runs

def rtlTraceHardCli : Int := 0

def rtlTraceHardSaveFlags : Int := 2

def rtlTraceHardRestoreFlags : Int := 3

def rtlTraceSchedIn : Int := 11

def rtlTraceSchedOut : Int := 12

/-- Where a call of `xm_sched` is; `events` is whether the events flag was enabled. -/
inductive SchedPc
  | schedIn
  | saveFlags
  | cli
  | select
  /-- Behind `domain_context_switch`. -/
  | switched
  | syncEvents
  | restoreFlags (events : Bool)
  | restored (events : Bool)
  | schedOut
  | unsetTracerFlag
  deriving DecidableEq

/-- A call of `xm_sched` with its `hw_flags`, of which only the interrupt flag. -/
structure SchedFrame where
  pc : SchedPc
  hwFlags : Bool
  deriving DecidableEq

/-- `tracing` is the tracer's memory, and `trace` whether `rtl_trace` is `rtl_do_trace`. A
domain's `stack` has its calls of `xm_sched`, the innermost first. -/
structure Traced (D : Type) where
  tracing : Tracing
  trace : Bool
  /-- The hardware interrupt flag. -/
  interrupts : Bool
  tracerFlag : Bool
  domainList : List D
  dom : D → Domain
  id : D → Int
  root : D
  current : D
  started : D → Bool
  stack : D → List SchedFrame

inductive TracedAction (D : Type)
  /-- `rtl_trace2` by what runs on the current domain. -/
  | trace (eventId eventData eip nsec : Int)
  | xmSched
  /-- The next statement of the innermost `xm_sched`, with what a trace of it records. -/
  | advance (eflags eip nsec : Int)
  /-- Other code turns interrupts on or off, or returns to where they were. -/
  | setInterrupts (on : Bool)
  /-- Other calls change the list, the domains' states and events. -/
  | setDomains (domainList : List D) (dom : D → Domain)
  | load (d : D)
  | rtlTraceInit (mem : RtlTrace) (eventClass : Int → UInt32)
  | rtlTraceDestroy
  /-- A step of the tracer. -/
  | tracer

namespace Traced

variable {D : Type}

/-- `rtl_do_trace`: the flags are saved behind the first test. -/
def rtlDoTrace (x : Traced D) (eventId eventData eip nsec : Int) : Traced D :=
  if ulong eventId ≥ rtlTraceMaxEvents then x
  else
    let flags := x.interrupts
    let tracing := x.tracing.rtlDoTrace eventId eventData eip nsec x.tracerFlag (x.id x.current)
    let x := { x with interrupts := false, tracing }
    if eventId = rtlTraceFinalizeEvent then x else { x with interrupts := flags }

def rtlTrace2 (x : Traced D) (eventId eventData eip nsec : Int) : Traced D :=
  if x.trace then x.rtlDoTrace eventId eventData eip nsec else x

/-- What the loop of `xm_sched` selects. -/
def selDomain (x : Traced D) : D :=
  ((walk (x.domainList.map x.dom)).2.bind fun i => x.domainList[i]?).getD x.root

/-- The current domain's own code runs, a handler of its events or that of an interrupt. -/
def others (x : Traced D) : Bool :=
  x.interrupts || match x.stack x.current with
    | [] => true
    | f :: _ => f.pc = .syncEvents

/-- No `xm_sched` is under way on the stack that runs. -/
def Outside (x : Traced D) : Prop := x.stack x.current = []

instance (x : Traced D) : Decidable x.Outside := inferInstanceAs (Decidable (_ = _))

/-- The record that a call of `rtl_trace2` makes. -/
def recorded (x : Traced D) : TracedAction D → Option TraceRecord
  | .trace eventId eventData eip nsec =>
    if x.trace then
      Tracing.made (x.tracing, .trace eventId eventData eip nsec x.tracerFlag (x.id x.current))
    else none
  | _ => none

section
variable [DecidableEq D]

/-- After the start: the root domain runs, and nothing is traced. -/
def start (tracing : Tracing) (root : D) (dom : D → Domain) (id : D → Int) : Traced D where
  tracing
  trace := false
  interrupts := true
  tracerFlag := false
  domainList := [root]
  dom
  id
  root
  current := root
  started d := d = root
  stack _ := []

def setFrames (x : Traced D) (frames : List SchedFrame) : Traced D :=
  { x with stack := Function.update x.stack x.current frames }

def bypassed (x : Traced D) (d : D) : Domain :=
  ((walk (x.domainList.map x.dom)).1[x.domainList.idxOf d]?).getD (x.dom d)

def contextSwitch (x : Traced D) (sel : D) : Traced D :=
  if sel = x.current then x
  else { x with current := sel, started := Function.update x.started sel true }

/-- The next statement of the `xm_sched` that is in `f`. -/
def schedStep (x : Traced D) (f : SchedFrame) (rest : List SchedFrame) (eflags eip nsec : Int) :
    Traced D :=
  let goto (x : Traced D) (pc : SchedPc) := x.setFrames ({ f with pc } :: rest)
  match f.pc with
  | .schedIn => goto (x.rtlTrace2 rtlTraceSchedIn 0 eip nsec) .saveFlags
  | .saveFlags =>
    (x.setFrames (⟨.cli, x.interrupts⟩ :: rest)).rtlTrace2 rtlTraceHardSaveFlags eflags eip nsec
  | .cli => goto ({ x with interrupts := false }.rtlTrace2 rtlTraceHardCli 0 eip nsec) .select
  | .select => (goto { x with dom := x.bypassed } .switched).contextSwitch x.selDomain
  | .switched =>
    let d := setDomainState (x.dom x.current) domainActive
    goto { x with dom := Function.update x.dom x.current d }
      (if d.events.isEventsFlagEnabled then .syncEvents else .restoreFlags false)
  | .syncEvents => goto x (.restoreFlags true)
  | .restoreFlags events => goto { x with interrupts := f.hwFlags } (.restored events)
  | .restored events =>
    let x := x.rtlTrace2 rtlTraceHardRestoreFlags eflags eip nsec
    if events then goto x .schedOut else x.setFrames rest
  | .schedOut =>
    goto (x.rtlTrace2 rtlTraceSchedOut (x.id x.current) eip nsec) .unsetTracerFlag
  | .unsetTracerFlag => { x.setFrames rest with tracerFlag := false }

def step (x : Traced D) : TracedAction D → Option (Traced D)
  | .trace eventId eventData eip nsec =>
    if x.others then some (x.rtlTrace2 eventId eventData eip nsec) else none
  | .xmSched =>
    if x.others then
      some { x.setFrames (⟨.schedIn, false⟩ :: x.stack x.current) with tracerFlag := true }
    else none
  | .advance eflags eip nsec =>
    match x.stack x.current with
    | [] => none
    | f :: rest => some (x.schedStep f rest eflags eip nsec)
  | .setInterrupts on => if x.others then some { x with interrupts := on } else none
  | .setDomains domainList dom => if x.others then some { x with domainList, dom } else none
  | .load d =>
    if x.others ∧ d ≠ x.current then
      some { x with
        started := Function.update x.started d false
        stack := Function.update x.stack d [] }
    else none
  | .rtlTraceInit mem eventClass =>
    some { x with tracing := .xmtraceCoreSetup mem eventClass, trace := true }
  | .rtlTraceDestroy => some { x with trace := false }
  | .tracer => some { x with tracing := x.tracing.reader }

/-- The next statement returns from the only `xm_sched` by its early exit, or switches to a
domain that has not run. -/
def leaves (x : Traced D) : Bool :=
  match x.stack x.current with
  | [] => false
  | f :: rest =>
    match f.pc with
    | .restored false => rest.isEmpty
    | .select => x.selDomain ≠ x.current && !x.started x.selDomain
    | _ => false

/-- A step that so leaves `xm_sched` finds the redirection cleared. -/
def Clears (x : Traced D) : TracedAction D → Prop
  | .advance .. => x.leaves = true → x.tracerFlag = false
  | _ => True

instance (x : Traced D) : DecidablePred x.Clears
  | .advance .. => inferInstanceAs (Decidable (_ → _))
  | .trace .. | .xmSched | .setInterrupts .. | .setDomains .. | .load .. | .rtlTraceInit ..
  | .rtlTraceDestroy | .tracer => isTrue trivial

end

-- ---------------------------------------------------------------------------
-- A call of rtl_do_trace
-- ---------------------------------------------------------------------------

variable {x y z : Traced D} {a : TracedAction D} {f : SchedFrame} {rest : List SchedFrame}
  {eventId eventData eflags eip nsec : Int} {r : TraceRecord} {d : D}

/-- But for the tracer's memory and the interrupt flag, nothing changes. -/
structure SameSched (x y : Traced D) : Prop where
  tracerFlag : y.tracerFlag = x.tracerFlag
  current : y.current = x.current
  started : y.started = x.started
  stack : y.stack = x.stack

theorem SameSched.trans (h : SameSched x y) (h' : SameSched y z) : SameSched x z where
  tracerFlag := h'.tracerFlag.trans h.tracerFlag
  current := h'.current.trans h.current
  started := h'.started.trans h.started
  stack := h'.stack.trans h.stack

theorem rtlTrace2_same (x : Traced D) (eventId eventData eip nsec : Int) :
    SameSched x (x.rtlTrace2 eventId eventData eip nsec) := by
  unfold rtlTrace2 rtlDoTrace
  split
  · split
    · exact ⟨rfl, rfl, rfl, rfl⟩
    · dsimp only
      split <;> exact ⟨rfl, rfl, rfl, rfl⟩
  · exact ⟨rfl, rfl, rfl, rfl⟩

theorem rtlDoTrace_interrupts (x : Traced D) (eventId eventData eip nsec : Int) :
    (x.rtlDoTrace eventId eventData eip nsec).interrupts = x.interrupts ↔
      eventId ≠ rtlTraceFinalizeEvent ∨ x.interrupts = false := by
  unfold rtlDoTrace
  by_cases hid : eventId = rtlTraceFinalizeEvent
  · subst hid
    have hrange : ¬ulong rtlTraceFinalizeEvent ≥ rtlTraceMaxEvents := by decide
    rw [if_neg hrange, if_pos rfl, or_iff_right fun hne => hne rfl]
    exact eq_comm
  · simp only [hid, if_false, ne_eq, not_false_eq_true, true_or, iff_true]
    split <;> rfl

theorem recorded_domainId (hf : x.tracerFlag = false) (hr : x.recorded a = some r) :
    r.domainId = x.id x.current := by
  cases a with
  | trace eventId eventData eip nsec =>
    obtain ⟨-, hmade⟩ := Option.ite_none_right_eq_some.mp hr
    obtain ⟨-, hr⟩ := Option.ite_none_right_eq_some.mp hmade
    rw [← Option.some.inj hr, hf]
    rfl
  | _ => cases hr

-- ---------------------------------------------------------------------------
-- A statement of xm_sched
-- ---------------------------------------------------------------------------

/-- A domain that does not run is in an `xm_sched`, or has not run yet. -/
structure Stacked (x : Traced D) : Prop where
  running : x.started x.current = true
  suspended : ∀ d, d ≠ x.current → (x.started d = true ↔ x.stack d ≠ [])

/-- The redirection is cleared outside of `xm_sched`. -/
def Cleared (x : Traced D) : Prop := x.Outside → x.tracerFlag = false

theorem Stacked.same (h : x.Stacked) (hs : SameSched x y) : y.Stacked where
  running := by
    rw [hs.started, hs.current]
    exact h.running
  suspended d hd := by
    rw [hs.current] at hd
    rw [hs.started, hs.stack]
    exact h.suspended d hd

theorem Cleared.same (h : x.Cleared) (hs : SameSched x y) : y.Cleared := by
  unfold Cleared Outside at h ⊢
  rwa [hs.stack, hs.current, hs.tracerFlag]

section
variable [DecidableEq D]

theorem SameSched.cleared (hs : SameSched x y) (h : x.Stacked) (hc : x.Clears a) :
    y.Stacked ∧ (x.Cleared → (y.Cleared ↔ x.Clears a)) :=
  ⟨h.same hs, fun hx => iff_of_true (hx.same hs) hc⟩

theorem start_stacked (tracing : Tracing) (root : D) (dom : D → Domain) (id : D → Int) :
    (start tracing root dom id).Stacked where
  running := decide_eq_true rfl
  suspended _ hd := iff_of_false (fun hs => hd (of_decide_eq_true hs)) fun hs => hs rfl

structure Moves (x y : Traced D) (frames : List SchedFrame) : Prop where
  current : y.current = x.current
  started : y.started = x.started
  stack : y.stack = Function.update x.stack x.current frames

theorem Moves.stacked {frames : List SchedFrame} (hm : Moves x y frames) (h : x.Stacked) :
    y.Stacked where
  running := by
    rw [hm.started, hm.current]
    exact h.running
  suspended d hd := by
    rw [hm.current] at hd
    rw [hm.started, hm.stack, Function.update_of_ne hd]
    exact h.suspended d hd

theorem Moves.outside {frames : List SchedFrame} (hm : Moves x y frames) :
    y.Outside ↔ frames = [] := by
  rw [Outside, hm.current, hm.stack, Function.update_self]

theorem Moves.trans_same {frames : List SchedFrame} (hm : Moves x y frames) (hs : SameSched y z) :
    Moves x z frames where
  current := hs.current.trans hm.current
  started := hs.started.trans hm.started
  stack := hs.stack.trans hm.stack

theorem SameSched.moves {frames : List SchedFrame} (hs : SameSched x y) :
    Moves x (y.setFrames frames) frames where
  current := hs.current
  started := hs.started
  stack := by rw [setFrames, hs.stack, hs.current]

theorem contextSwitch_cleared (h : y.Stacked) (hs : y.stack y.current ≠ []) (sel : D) :
    (y.contextSwitch sel).Stacked ∧ ((y.contextSwitch sel).Cleared ↔
      (sel ≠ y.current → y.started sel = false → y.tracerFlag = false)) := by
  unfold contextSwitch
  split
  · rename_i hsel
    exact ⟨h, iff_of_true (fun ho => absurd ho hs) fun hne => absurd hsel hne⟩
  rename_i hsel
  refine ⟨⟨Function.update_self .., fun d hd => ?_⟩, ?_⟩
  · show Function.update y.started sel true d = true ↔ y.stack d ≠ []
    rw [Function.update_of_ne hd]
    by_cases hd' : d = y.current
    · subst hd'
      exact iff_of_true h.running hs
    · exact h.suspended d hd'
  · show (y.stack sel = [] → y.tracerFlag = false) ↔ _
    have hnew : y.started sel = false ↔ y.stack sel = [] := by
      rw [← Bool.not_eq_true, h.suspended sel hsel, not_not]
    rw [imp_iff_right hsel, hnew]

/-- Only a return by the early exit and the switch to a new domain leave the redirection. -/
theorem schedStep_cleared (h : x.Stacked) (hs : x.stack x.current = f :: rest) :
    (x.schedStep f rest eflags eip nsec).Stacked ∧
    ((x.schedStep f rest eflags eip nsec).Cleared ↔ x.Clears (.advance eflags eip nsec)) := by
  obtain ⟨pc, hwFlags⟩ := f
  have hself : SameSched x x := ⟨rfl, rfl, rfl, rfl⟩
  have hinside {y : Traced D} {g : SchedFrame} (hm : Moves x y (g :: rest))
      (hc : x.Clears (.advance eflags eip nsec)) :
      y.Stacked ∧ (y.Cleared ↔ x.Clears (.advance eflags eip nsec)) :=
    ⟨hm.stacked h, iff_of_true (fun ho => absurd (hm.outside.mp ho) (List.cons_ne_nil _ _)) hc⟩
  cases pc with
  | schedIn => exact hinside (rtlTrace2_same ..).moves (by simp [Clears, leaves, hs])
  | saveFlags => exact hinside (hself.moves.trans_same (rtlTrace2_same ..)) (by simp [Clears, leaves, hs])
  | cli =>
    have hoff : SameSched x { x with interrupts := false } := ⟨rfl, rfl, rfl, rfl⟩
    exact hinside (hoff.trans (rtlTrace2_same ..)).moves (by simp [Clears, leaves, hs])
  | select =>
    have hm : Moves x ({ x with dom := x.bypassed }.setFrames (⟨.switched, hwFlags⟩ :: rest))
        (⟨.switched, hwFlags⟩ :: rest) := ⟨rfl, rfl, rfl⟩
    have hne := mt hm.outside.mp (List.cons_ne_nil _ _)
    obtain ⟨hstacked, hcleared⟩ := contextSwitch_cleared (hm.stacked h) hne x.selDomain
    refine ⟨hstacked, hcleared.trans ?_⟩
    show (x.selDomain ≠ x.current → x.started x.selDomain = false → x.tracerFlag = false) ↔ _
    simp [Clears, leaves, hs]
  | switched =>
    have hstate (dom : D → Domain) : SameSched x { x with dom } := ⟨rfl, rfl, rfl, rfl⟩
    exact hinside (hstate _).moves (by simp [Clears, leaves, hs])
  | syncEvents => exact hinside hself.moves (by simp [Clears, leaves, hs])
  | restoreFlags events =>
    have hflags : SameSched x { x with interrupts := hwFlags } := ⟨rfl, rfl, rfl, rfl⟩
    exact hinside hflags.moves (by simp [Clears, leaves, hs])
  | restored events =>
    have htrace := rtlTrace2_same x rtlTraceHardRestoreFlags eflags eip nsec
    cases events with
    | true => exact hinside htrace.moves (by simp [Clears, leaves, hs])
    | false =>
      have hm : Moves x _ rest := htrace.moves
      refine ⟨hm.stacked h, Iff.trans (b := rest = [] → x.tracerFlag = false) ?_ ?_⟩
      · exact imp_congr hm.outside (by rw [← htrace.tracerFlag]; rfl)
      · cases rest with
        | nil => simp [Clears, leaves, hs]
        | cons g rest => simp [Clears, leaves, hs]
  | schedOut => exact hinside (rtlTrace2_same ..).moves (by simp [Clears, leaves, hs])
  | unsetTracerFlag =>
    have hm : Moves x { x.setFrames rest with tracerFlag := false } rest := ⟨rfl, rfl, rfl⟩
    exact ⟨hm.stacked h, iff_of_true (fun _ => rfl) (by simp [Clears, leaves, hs])⟩

theorem step_cleared (h : x.Stacked) (hs : step x a = some y) :
    y.Stacked ∧ (x.Cleared → (y.Cleared ↔ x.Clears a)) := by
  cases a with
  | trace eventId eventData eip nsec =>
    obtain ⟨-, hy⟩ := Option.ite_none_right_eq_some.mp hs
    obtain rfl := Option.some.inj hy
    exact (rtlTrace2_same ..).cleared h trivial
  | xmSched =>
    obtain ⟨-, hy⟩ := Option.ite_none_right_eq_some.mp hs
    obtain rfl := Option.some.inj hy
    have hm : Moves x { x.setFrames (⟨.schedIn, false⟩ :: x.stack x.current) with
      tracerFlag := true } (⟨.schedIn, false⟩ :: x.stack x.current) := ⟨rfl, rfl, rfl⟩
    have hinside := mt hm.outside.mp (List.cons_ne_nil _ _)
    exact ⟨hm.stacked h, fun _ => iff_of_true (fun ho => absurd ho hinside) trivial⟩
  | advance eflags eip nsec =>
    simp only [step] at hs
    split at hs
    · cases hs
    · rename_i f rest hstack
      obtain rfl := Option.some.inj hs
      exact ⟨(schedStep_cleared h hstack).1, fun _ => (schedStep_cleared h hstack).2⟩
  | setInterrupts on =>
    obtain ⟨-, hy⟩ := Option.ite_none_right_eq_some.mp hs
    obtain rfl := Option.some.inj hy
    have hsame : SameSched x { x with interrupts := on } := ⟨rfl, rfl, rfl, rfl⟩
    exact hsame.cleared h trivial
  | setDomains domainList dom =>
    obtain ⟨-, hy⟩ := Option.ite_none_right_eq_some.mp hs
    obtain rfl := Option.some.inj hy
    have hsame : SameSched x { x with domainList, dom } := ⟨rfl, rfl, rfl, rfl⟩
    exact hsame.cleared h trivial
  | load d =>
    obtain ⟨⟨-, hd⟩, hy⟩ := Option.ite_none_right_eq_some.mp hs
    obtain rfl := Option.some.inj hy
    refine ⟨⟨?_, fun d' hd' => ?_⟩, fun hx => iff_of_true (fun ho => hx ?_) trivial⟩
    · show Function.update x.started d false x.current = true
      rw [Function.update_of_ne hd.symm]
      exact h.running
    · show Function.update x.started d false d' = true ↔ Function.update x.stack d [] d' ≠ []
      by_cases heq : d' = d
      · subst heq
        rw [Function.update_self, Function.update_self]
        exact iff_of_false Bool.false_ne_true fun hne => hne rfl
      · rw [Function.update_of_ne heq, Function.update_of_ne heq]
        exact h.suspended d' hd'
    · have hstack : Function.update x.stack d [] x.current = [] := ho
      rwa [Function.update_of_ne hd.symm] at hstack
  | rtlTraceInit mem eventClass =>
    obtain rfl := Option.some.inj hs
    exact SameSched.cleared ⟨rfl, rfl, rfl, rfl⟩ h trivial
  | rtlTraceDestroy =>
    obtain rfl := Option.some.inj hs
    exact SameSched.cleared ⟨rfl, rfl, rfl, rfl⟩ h trivial
  | tracer =>
    obtain rfl := Option.some.inj hs
    exact SameSched.cleared ⟨rfl, rfl, rfl, rfl⟩ h trivial

/-- A call of `rtl_do_trace` leaves the interrupt flag as it is, but for a finalisation that
finds interrupts on. In every run the redirection is cleared outside of `xm_sched` if and only
if no `xm_sched` leaves it at an early exit or for a domain that has not run; and then the
records made there carry the domain that runs. -/
theorem trace_undisturbed {tracing : Tracing} {root : D} {dom : D → Domain} {id : D → Int}
    {tr : List (Traced D × TracedAction D)} {s : Traced D}
    (hr : Run step (start tracing root dom id) tr s) :
    (∀ (x : Traced D) (eventId eventData eip nsec : Int),
      (x.rtlDoTrace eventId eventData eip nsec).interrupts = x.interrupts ↔
        eventId ≠ rtlTraceFinalizeEvent ∨ x.interrupts = false) ∧
    ((∀ x, Visited tr s x → x.Outside → x.tracerFlag = false) ↔ ∀ e ∈ tr, e.1.Clears e.2) ∧
    ((∀ e ∈ tr, e.1.Clears e.2) → ∀ x, Visited tr s x → x.Outside → ∀ a r,
      x.recorded a = some r → r.domainId = x.id x.current) := by
  have hiff : (∀ x, Visited tr s x → x.Cleared) ↔ ∀ e ∈ tr, e.1.Clears e.2 :=
    hr.visited_iff (J := Stacked) (start_stacked ..) (fun _ _ _ h hs => (step_cleared h hs).1)
      (fun _ => rfl) fun _ _ _ h hx hs => (step_cleared h hs).2 hx
  exact ⟨rtlDoTrace_interrupts, hiff,
    fun hc x hx ho a r hrec => recorded_domainId (hiff.mpr hc x hx ho) hrec⟩

end

/-- The root domain alone, with its events enabled or not, which starts to trace. -/
def rootOnly (events : Bool) : Traced Unit :=
  let eventFlags := if events then eventsEnabled else 0
  start (.xmtraceCoreSetup Tracing.emptyTrace fun _ => 1) () (fun _ => ⟨1, 0, { eventFlags }⟩) fun _ => 0

/-- A call of `xm_sched` of `n` statements. -/
def calls (n : Nat) : List (TracedAction Unit) :=
  .rtlTraceInit Tracing.emptyTrace (fun _ => 1) :: .xmSched :: List.replicate n (.advance 0 0 0)

/-- With the events enabled `xm_sched` clears the redirection. -/
theorem trace_undisturbed_events : ∃ tr s, Run step (rootOnly true) tr s ∧ s.Outside ∧
    s.trace = true ∧ ∀ a r, s.recorded a = some r → r.domainId = s.id s.current := by
  have hrun : (exec step (rootOnly true) (calls 10)).any fun r =>
      decide ((∀ e ∈ r.1, e.1.Clears e.2) ∧ r.2.Outside ∧ r.2.trace = true) := by
    decide +kernel
  obtain ⟨tr, s, hr, hs⟩ := exec_any hrun
  obtain ⟨hc, ho, htrace⟩ := of_decide_eq_true hs
  exact ⟨tr, s, hr, ho, htrace, (trace_undisturbed hr).2.2 hc s .self ho⟩

/-- With the events disabled `xm_sched` takes the early exit, and what the root domain then
records carries no domain. A finalisation leaves interrupts off. -/
theorem trace_disturbed :
    (∃ tr s r, Run step (rootOnly false) tr s ∧ s.Outside ∧
      s.recorded (.trace 19 0 0 0) = some r ∧ r.domainId = -1 ∧ s.id s.current = 0) ∧
    (rootOnly false).interrupts = true ∧
    ((rootOnly false).rtlDoTrace rtlTraceFinalizeEvent 0 0 0).interrupts = false := by
  have hrun : (exec step (rootOnly false) (calls 7)).any fun r =>
      decide (r.2.Outside ∧ r.2.recorded (.trace 19 0 0 0) = some ⟨0, 0, 0, 19, -1⟩ ∧
        r.2.id r.2.current = 0) := by
    decide +kernel
  obtain ⟨tr, s, hr, hs⟩ := exec_any hrun
  obtain ⟨ho, hrecord, hid⟩ := of_decide_eq_true hs
  exact ⟨⟨tr, s, _, hr, ho, hrecord, rfl, hid⟩, rfl, by decide +kernel⟩

end Traced

end Xmertl.Xtratum
