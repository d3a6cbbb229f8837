import Xmertl.Xtratum.Domain

/-!
# Delivery of pending events

`sync_events` of `irqs.c`. The two loops are the same but for their domain, so
they are one definition here. A handler that enables the events flag, by `vsti`
or by `enable_events_flag` of the libraries, calls `sync_events` again; an event
can be raised whenever a handler runs, by the handler or by an interrupt.
-/

namespace Xmertl.Xtratum

/-- A call of `sync_events` in its loop: the local `pending`, and the event whose
handler is running. -/
structure Batch where
  pending : Bitmap
  running : Option Event

/-- The domain's events, the calls of `sync_events`, innermost first, and what has
happened, most recent first. -/
structure Delivery where
  events : EventHandling
  calls : List Batch
  log : List Occurrence

inductive SyncAct
  /-- By the handler that is running. -/
  | handler (op : HandlerOp)
  /-- The handler returns, or the loop goes on. -/
  | next

def Handler.may (h : Handler) (togglesFlag : Bool) : HandlerOp → Bool
  | .mask e => h.masks.Has e
  | .unmask e => h.unmasks.Has e
  | .raise _ => true
  | .enableFlag => togglesFlag
  | .disableFlag => true

namespace Delivery

/-- `sync_root_events`, and `sync_domain_events` of a domain that is not FINISHED, up to
the head of the loop. -/
def syncPending (b : Delivery) : Delivery :=
  let ev := b.events
  { b with
    calls := ⟨ev.pendingEvents, none⟩ :: b.calls
    events := { ev with pendingEvents := ev.pendingEvents &&& ev.maskedEvents } }

/-- `sync_events` of a domain whose handler is running. -/
def sync (b : Delivery) : Delivery :=
  if b.events.isEventsFlagEnabled ∧ b.events.pendingEvents ≠ 0 then b.syncPending else b

def withEvents (b : Delivery) (events : EventHandling) : Delivery := { b with events }

def perform (b : Delivery) (op : HandlerOp) : Delivery :=
  let ev := b.events
  let b := { b with log := .did op :: b.log }
  match op with
  | .mask e => b.withEvents { ev with maskedEvents := ev.maskedEvents.setBit e }
  | .unmask e => b.withEvents { ev with maskedEvents := ev.maskedEvents.clearBit e }
  | .raise e => b.withEvents { ev with pendingEvents := ev.pendingEvents.setBit e }
  | .enableFlag => (b.withEvents ev.enableEventsFlag).sync
  | .disableFlag => b.withEvents ev.disableEventsFlag

/-- What is set before the handler of `event` is called. -/
def enter (b : Delivery) (event : Event) : Delivery :=
  let masked := b.events.maskedEvents
  let ev := { b.events with maskedEvents := masked.setBit event }.disableEventsFlag
  { b with events := ev, log := .dispatch event masked ev.eventFlags :: b.log }

def take (b : Delivery) (pending : Bitmap) (calls : List Batch) : Delivery :=
  match getNextSetBitAndClear pending b.events.maskedEvents with
  | (none, _) => { b with calls }
  | (some event, pending) =>
    match b.events.eventHandler event with
    | none => { b with calls := ⟨pending, none⟩ :: calls, log := .drop event :: b.log }
    | some _ => { b with calls := ⟨pending, some event⟩ :: calls }.enter event

def step (b : Delivery) (a : SyncAct) : Option Delivery :=
  match b.calls with
  | [] => none
  | ⟨pending, none⟩ :: calls =>
    match a with
    | .next => some (b.take pending calls)
    | .handler _ => none
  | ⟨pending, some event⟩ :: calls =>
    match a with
    | .next =>
      -- "iret emulation"
      some { b with calls := ⟨pending, none⟩ :: calls, events := b.events.enableEventsFlag }
    | .handler op =>
      match b.events.eventHandler event with
      | none => none
      | some h => if h.may b.events.togglesFlag op then some (b.perform op) else none

def run (b : Delivery) : List SyncAct → Delivery
  | [] => b
  | a :: as => ((b.step a).getD b).run as

end Delivery

/-- The call is in its loop where it has anything to do. -/
def syncStart (d : Domain) (isRoot : Bool) : Delivery :=
  let b : Delivery := { events := d.events, calls := [], log := [] }
  if d.events.isEventsFlagEnabled ∧ d.events.pendingEvents ≠ 0 then
    if isRoot then b.syncPending
    else if getDomainState d = domainFinished then b
    else b.syncPending
  else b

/-- `sync_events` for the current domain `d`, as far as `acts` take it. -/
def syncEvents (d : Domain) (isRoot : Bool) (acts : List SyncAct) : Delivery :=
  (syncStart d isRoot).run acts

-- ---------------------------------------------------------------------------
-- What has happened
-- ---------------------------------------------------------------------------

def Occurrence.dispatches (e : Event) : Occurrence → Bool
  | .dispatch event _ _ => event = e
  | _ => false

def Occurrence.drops (e : Event) : Occurrence → Bool
  | .drop event => event = e
  | _ => false

def dispatched (log : List Occurrence) (e : Event) : Nat := log.countP (Occurrence.dispatches e)

def dropped (log : List Occurrence) (e : Event) : Nat := log.countP (Occurrence.drops e)

def Raised (log : List Occurrence) (e : Event) : Prop := .did (.raise e) ∈ log

instance (log : List Occurrence) (e : Event) : Decidable (Raised log e) :=
  inferInstanceAs (Decidable (_ ∈ _))

section
variable {log : List Occurrence} {e event : Event}

@[simp] theorem dispatched_nil : dispatched [] e = 0 := rfl
@[simp] theorem dropped_nil : dropped [] e = 0 := rfl
@[simp] theorem raised_nil : ¬Raised [] e := by simp [Raised]

@[simp] theorem dispatched_did : dispatched (.did op :: log) e = dispatched log e := by
  simp [dispatched, Occurrence.dispatches]

@[simp] theorem dropped_did : dropped (.did op :: log) e = dropped log e := by
  simp [dropped, Occurrence.drops]

@[simp] theorem raised_did : Raised (.did op :: log) e ↔ op = .raise e ∨ Raised log e := by
  simp [Raised, eq_comm]

@[simp] theorem dispatched_dispatch : dispatched (.dispatch event masked flags :: log) e =
    dispatched log e + if event = e then 1 else 0 := by
  simp [dispatched, Occurrence.dispatches, List.countP_cons]

@[simp] theorem dropped_dispatch :
    dropped (.dispatch event masked flags :: log) e = dropped log e := by
  simp [dropped, Occurrence.drops]

@[simp] theorem raised_dispatch :
    Raised (.dispatch event masked flags :: log) e ↔ Raised log e := by
  simp [Raised]

@[simp] theorem dispatched_drop : dispatched (.drop event :: log) e = dispatched log e := by
  simp [dispatched, Occurrence.dispatches]

@[simp] theorem dropped_drop :
    dropped (.drop event :: log) e = dropped log e + if event = e then 1 else 0 := by
  simp [dropped, Occurrence.drops, List.countP_cons]

@[simp] theorem raised_drop : Raised (.drop event :: log) e ↔ Raised log e := by simp [Raised]

end

-- ---------------------------------------------------------------------------
-- One step
-- ---------------------------------------------------------------------------

namespace Delivery

section
variable {b b' : Delivery} {e event : Event} {op : HandlerOp}

theorem perform_enableFlag (b : Delivery) :
    b.perform .enableFlag = ⟨b.events.enableEventsFlag, b.calls, .did .enableFlag :: b.log⟩ ∨
      b.perform .enableFlag = syncPending
        ⟨b.events.enableEventsFlag, b.calls, .did .enableFlag :: b.log⟩ := by
  by_cases h : b.events.enableEventsFlag.isEventsFlagEnabled ∧ b.events.pendingEvents ≠ 0
  · exact .inr (if_pos h)
  · exact .inl (if_neg h)

@[simp] theorem perform_log (b : Delivery) (op : HandlerOp) :
    (b.perform op).log = .did op :: b.log := by
  cases op with
  | enableFlag => rcases perform_enableFlag b with h | h <;> simp [h, syncPending]
  | _ => rfl

theorem perform_handlers (b : Delivery) (op : HandlerOp) :
    (b.perform op).events.eventHandler = b.events.eventHandler ∧
      (b.perform op).events.togglesFlag = b.events.togglesFlag := by
  cases op with
  | enableFlag => rcases perform_enableFlag b with h | h <;> rw [h] <;> exact ⟨rfl, rfl⟩
  | _ => exact ⟨rfl, rfl⟩

theorem perform_masked : (b.perform op).events.maskedEvents.Has e ↔
    op = .mask e ∨ b.events.maskedEvents.Has e ∧ op ≠ .unmask e := by
  cases op with
  | mask event => simp [perform, withEvents, eq_comm, or_comm]
  | unmask event => simp [perform, withEvents, eq_comm]
  | enableFlag =>
    rcases perform_enableFlag b with h | h <;> rw [h] <;>
      simp [syncPending, EventHandling.enableEventsFlag]
  | _ => simp [perform, withEvents, EventHandling.disableEventsFlag]

theorem perform_pending :
    ((b.perform op).events.pendingEvents.Has e → op = .raise e ∨ b.events.pendingEvents.Has e) ∧
      (b.events.pendingEvents.Has e → b.events.maskedEvents.Has e →
        (b.perform op).events.pendingEvents.Has e) := by
  cases op with
  | raise event =>
    simp only [perform, withEvents, BitVec.has_setBit, HandlerOp.raise.injEq]
    grind
  | enableFlag =>
    rcases perform_enableFlag b with h | h <;> rw [h] <;>
      simp +contextual [syncPending, EventHandling.enableEventsFlag]
  | _ => simp +contextual [perform, withEvents, EventHandling.disableEventsFlag]

theorem perform_calls (b : Delivery) (op : HandlerOp) : (b.perform op).calls = b.calls ∨
    op = .enableFlag ∧ (b.perform op).calls = ⟨b.events.pendingEvents, none⟩ :: b.calls := by
  cases op with
  | enableFlag =>
    rcases perform_enableFlag b with h | h <;> rw [h]
    · exact .inl rfl
    · exact .inr ⟨rfl, rfl⟩
  | _ => exact .inl rfl

theorem take_cases (b : Delivery) (pending : Bitmap) (calls : List Batch) :
    (∀ e, pending.Has e → b.events.maskedEvents.Has e) ∧ b.take pending calls = { b with calls } ∨
      ∃ event, pending.Has event ∧ ¬b.events.maskedEvents.Has event ∧
        (∀ e < event, pending.Has e → b.events.maskedEvents.Has e) ∧
        (b.events.eventHandler event = none ∧ b.take pending calls = { b with
            calls := ⟨pending.clearBit event, none⟩ :: calls, log := .drop event :: b.log } ∨
          (b.events.eventHandler event).isSome ∧ b.take pending calls =
            enter { b with calls := ⟨pending.clearBit event, some event⟩ :: calls } event) := by
  unfold take
  split
  · rename_i hnext
    exact .inl ⟨fun e he => getNextSetBitAndClear_none (by rw [hnext]) he, rfl⟩
  · rename_i event rest hnext
    obtain ⟨hp, hm, rfl⟩ := getNextSetBitAndClear_some hnext
    refine .inr ⟨event, hp, hm, fun e he hpe => ?_, ?_⟩
    · exact getNextSetBitAndClear_first hnext he hpe
    · split
      · rename_i hnone
        exact .inl ⟨hnone, rfl⟩
      · rename_i handler hsome
        exact .inr ⟨by rw [hsome]; rfl, rfl⟩

theorem step_cases {a : SyncAct} (h : b.step a = some b') :
    (∃ pending event calls handler op, b.calls = ⟨pending, some event⟩ :: calls ∧
      b.events.eventHandler event = some handler ∧
      handler.may b.events.togglesFlag op = true ∧ b' = b.perform op) ∨
    (∃ pending event calls, b.calls = ⟨pending, some event⟩ :: calls ∧
      b' = { b with calls := ⟨pending, none⟩ :: calls, events := b.events.enableEventsFlag }) ∨
    ∃ pending calls, b.calls = ⟨pending, none⟩ :: calls ∧ b' = b.take pending calls := by
  unfold step at h
  split at h
  · cases h
  · rename_i pending calls hcalls
    cases a with
    | next => exact .inr (.inr ⟨pending, calls, hcalls, (Option.some.inj h).symm⟩)
    | handler op => cases h
  · rename_i pending event calls hcalls
    cases a with
    | next => exact .inr (.inl ⟨pending, event, calls, hcalls, (Option.some.inj h).symm⟩)
    | handler op =>
      simp only at h
      split at h
      · cases h
      · rename_i handler hhandler
        split at h
        · rename_i hmay
          exact .inl ⟨pending, event, calls, handler, op, hcalls, hhandler, hmay,
            (Option.some.inj h).symm⟩
        · cases h

theorem run_keeps {I : Delivery → Prop} (hs : ∀ b a b', I b → b.step a = some b' → I b') (h : I b)
    (acts : List SyncAct) : I (b.run acts) := by
  induction acts generalizing b with
  | nil => exact h
  | cons a acts ih =>
    unfold run
    cases hstep : b.step a with
    | none => exact ih h
    | some b' => exact ih (hs b a b' h hstep)

theorem run_append (b : Delivery) (acts acts' : List SyncAct) :
    b.run (acts ++ acts') = (b.run acts).run acts' := by
  induction acts generalizing b with
  | nil => rfl
  | cons a acts ih => exact ih _

end

end Delivery

end Xmertl.Xtratum
