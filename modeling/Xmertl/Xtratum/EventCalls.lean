import Xmertl.Xtratum.DeliveryRuns
import Xmertl.Xtratum.Sched

/-!
# The event calls of the user library

The calls of `xm_syscalls.c` on the domain's shared event structure, and
`xm_unmask_event`, which is PaRTiKle's copy of `unmask_event`. They run in the
current domain, whose `event_handling` is mapped. What its handlers do in a call
of `sync_events` comes with the call.
-/

namespace Xmertl.Xtratum

def badEventNm : Int := 6

/-- The hardware a domain's `enable_hwirq` looks at. -/
structure Hwirqs where
  timerEvent : Int
  /-- NR_IRQS. -/
  nrIrqs : Int

/-- What a call returns, the domain's events behind it, what its handlers have
done, and the line whose `end` it has called. -/
structure Called where
  ret : Int := 0
  events : EventHandling
  log : List Occurrence := []
  ended : Option Int := none

def eventOf (event : Int) : Option Event :=
  if h : 0 ≤ event ∧ event < 32 then some ⟨event.toNat, by omega⟩ else none

def enableHwirqSys (hw : Hwirqs) (irq : Int) : Option Int :=
  if irq ≠ hw.timerEvent ∧ irq < hw.nrIrqs then some irq else none

namespace Domain

def withEvents (d : Domain) (events : EventHandling) : Domain := { d with events }

def syncEventsSys (d : Domain) (isRoot : Bool) (acts : List SyncAct) : Called :=
  let b := syncEvents d isRoot acts
  { events := b.events, log := b.log }

def enableEventsFlag (d : Domain) (isRoot : Bool) (acts : List SyncAct) : Called :=
  let d := d.withEvents d.events.enableEventsFlag
  if d.events.pendingEvents ≠ 0 then d.syncEventsSys isRoot acts else { events := d.events }

def disableEventsFlag (d : Domain) : Called := { events := d.events.disableEventsFlag }

def maskEvent (d : Domain) (event : Int) : Called :=
  match eventOf event with
  | none => { ret := -badEventNm, events := d.events }
  | some e => { events := { d.events with maskedEvents := d.events.maskedEvents.setBit e } }

/-- What both libraries do for an event of the range: the flag is tested the other
way round than in `enable_events_flag`. -/
def unmaskAndSync (d : Domain) (isRoot : Bool) (e : Event) (acts : List SyncAct) : Called :=
  let d := d.withEvents { d.events with maskedEvents := d.events.maskedEvents.clearBit e }
  if !d.events.isEventsFlagEnabled ∧
      getDomainPendingEvents d.events.pendingEvents d.events.maskedEvents ≠ 0 then
    d.syncEventsSys isRoot acts
  else { events := d.events }

def unmaskEvent (hw : Hwirqs) (d : Domain) (isRoot : Bool) (event : Int) (acts : List SyncAct) :
    Called :=
  match eventOf event with
  | none => { ret := -badEventNm, events := d.events }
  | some e => { d.unmaskAndSync isRoot e acts with ended := enableHwirqSys hw event }

def xmUnmaskEvent (d : Domain) (isRoot : Bool) (event : Int) (acts : List SyncAct) : Called :=
  match eventOf event with
  | none => { ret := -1, events := d.events }
  | some e => d.unmaskAndSync isRoot e acts

/-- With the old mask, which is `none` where `old` is NULL. -/
def setMaskEvents (d : Domain) (new : Option Bitmap) (old : Bool) : Called × Option Bitmap :=
  ({ events := { d.events with maskedEvents := new.getD d.events.maskedEvents } },
    if old then some d.events.maskedEvents else none)

def installEventHandler (d : Domain) (isRoot : Bool) (event : Int) (h : Option Handler)
    (acts : List SyncAct) : Called :=
  match eventOf event with
  | none => { ret := -badEventNm, events := d.events }
  | some e =>
    let ev := d.events
    (d.withEvents { ev with
      eventHandler := fun i => if i = e then h else ev.eventHandler i
      interceptedEvents :=
        if h.isSome then ev.interceptedEvents.setBit e else ev.interceptedEvents.clearBit e
      maskedEvents := ev.maskedEvents.setBit e }).enableEventsFlag isRoot acts

end Domain

/-- What happens to a domain's events: its own calls, events raised for it, and the
scheduler's walk with the domain that follows. -/
inductive EventStep
  | enableEventsFlag (acts : List SyncAct)
  | disableEventsFlag
  | maskEvent (event : Int)
  | unmaskEvent (event : Int) (acts : List SyncAct)
  | xmUnmaskEvent (event : Int) (acts : List SyncAct)
  | setMaskEvents (new : Option Bitmap) (old : Bool)
  | installEventHandler (event : Int) (h : Option Handler) (acts : List SyncAct)
  | syncEvents (acts : List SyncAct)
  | raise (event : Event)
  | bypass (next : Domain)

namespace EventStep

def step (hw : Hwirqs) (d : Domain) (isRoot : Bool) : EventStep → Called
  | .enableEventsFlag acts => d.enableEventsFlag isRoot acts
  | .disableEventsFlag => d.disableEventsFlag
  | .maskEvent event => d.maskEvent event
  | .unmaskEvent event acts => d.unmaskEvent hw isRoot event acts
  | .xmUnmaskEvent event acts => d.xmUnmaskEvent isRoot event acts
  | .setMaskEvents new old => (d.setMaskEvents new old).1
  | .installEventHandler event h acts => d.installEventHandler isRoot event h acts
  | .syncEvents acts => d.syncEventsSys isRoot acts
  | .raise e => { events := (d.setPending (d.events.pendingEvents.setBit e)).events }
  | .bypass next => { events := (Xtratum.bypass d next).1.events }

/-- The domain after the steps, with all that its handlers have done. -/
def run (hw : Hwirqs) (d : Domain) (isRoot : Bool) : List EventStep → Domain × List Occurrence
  | [] => (d, [])
  | s :: ss =>
    let c := s.step hw d isRoot
    let (d, log) := run hw (d.withEvents c.events) isRoot ss
    (d, log ++ c.log)

def enables : EventStep → Bool
  | .enableEventsFlag _ => true
  | .installEventHandler event _ _ => (eventOf event).isSome
  | _ => false

/-- The scheduler does not take event `e` away from `d` in this step. -/
def Leaves (d : Domain) (e : Event) : EventStep → Prop
  | .bypass _ => ¬d.Passes e
  | _ => True

end EventStep

/-- While events are disabled `e` stays pending and nothing is dispatched, whatever
else happens. -/
def Waits (hw : Hwirqs) (d : Domain) (isRoot : Bool) (e : Event) : Prop :=
  ∀ ss : List EventStep, (∀ s ∈ ss, s.enables = false ∧ s.Leaves d e) →
    (EventStep.run hw d isRoot ss).2 = [] ∧
      (EventStep.run hw d isRoot ss).1.events.pendingEvents.Has e

/-- What unmasking the pending event `e` is for: `c` is how the call ends. -/
structure Unmasks (hw : Hwirqs) (d : Domain) (isRoot : Bool) (e : Event) (c : Called) : Prop where
  enabled : d.events.isEventsFlagEnabled = true →
    dispatched c.log e = 1 ∧ (¬Raised c.log e → ¬c.events.pendingEvents.Has e)
  disabled : d.events.isEventsFlagEnabled = false →
    c.log = [] ∧ Waits hw (d.withEvents c.events) isRoot e

section
variable {hw : Hwirqs} {d : Domain} {isRoot : Bool} {e : Event}

@[simp] theorem eventOf_event (e : Event) : eventOf (e : Nat) = some e := by
  have he : (0 : Int) ≤ (e : Nat) ∧ ((e : Nat) : Int) < 32 := by omega
  simp [eventOf, he]

-- ---------------------------------------------------------------------------
-- With events disabled nothing is dispatched
-- ---------------------------------------------------------------------------

theorem syncEventsSys_disabled (h : d.events.isEventsFlagEnabled = false) (isRoot : Bool)
    (acts : List SyncAct) : d.syncEventsSys isRoot acts = { events := d.events } := by
  have hstart : syncStart d isRoot = ⟨d.events, [], []⟩ := by simp [syncStart, h]
  simp only [Domain.syncEventsSys, syncEvents, hstart, run_idle]

theorem unmaskAndSync_eq (d : Domain) (isRoot : Bool) (e : Event) (acts : List SyncAct) :
    d.unmaskAndSync isRoot e acts =
      { events := { d.events with maskedEvents := d.events.maskedEvents.clearBit e } } := by
  unfold Domain.unmaskAndSync
  simp only
  split
  · rename_i h
    exact syncEventsSys_disabled (by simpa using h.1) isRoot acts
  · rfl

theorem unmaskEvent_events (hw : Hwirqs) (d : Domain) (isRoot : Bool) (e : Event)
    (acts : List SyncAct) : (d.unmaskEvent hw isRoot (e : Nat) acts).log = [] ∧
      (d.unmaskEvent hw isRoot (e : Nat) acts).events =
        { d.events with maskedEvents := d.events.maskedEvents.clearBit e } := by
  simp [Domain.unmaskEvent, unmaskAndSync_eq]

theorem xmUnmaskEvent_events (d : Domain) (isRoot : Bool) (e : Event) (acts : List SyncAct) :
    (d.xmUnmaskEvent isRoot (e : Nat) acts).log = [] ∧
      (d.xmUnmaskEvent isRoot (e : Nat) acts).events =
        { d.events with maskedEvents := d.events.maskedEvents.clearBit e } := by
  simp [Domain.xmUnmaskEvent, unmaskAndSync_eq]

/-- Events are disabled and `e` is pending; `d₀` says what the scheduler may take. -/
structure Waiting (d₀ : Domain) (e : Event) (d : Domain) : Prop where
  disabled : d.events.isEventsFlagEnabled = false
  pending : d.events.pendingEvents.Has e
  passes : d.Passes e ↔ d₀.Passes e

theorem Waiting.step {d₀ : Domain} (h : Waiting d₀ e d) (hw : Hwirqs) (isRoot : Bool)
    {s : EventStep} (hs : s.enables = false) (hl : s.Leaves d₀ e) : (s.step hw d isRoot).log = [] ∧
      Waiting d₀ e (d.withEvents (s.step hw d isRoot).events) := by
  have hmasked (m : Bitmap) : Waiting d₀ e (d.withEvents { d.events with maskedEvents := m }) :=
    ⟨h.disabled, h.pending, h.passes⟩
  have hunmask (event : Event) (acts : List SyncAct) :
      (d.unmaskAndSync isRoot event acts).log = [] ∧
        Waiting d₀ e (d.withEvents (d.unmaskAndSync isRoot event acts).events) := by
    rw [unmaskAndSync_eq]
    exact ⟨rfl, hmasked _⟩
  cases s with
  | enableEventsFlag acts => cases hs
  | disableEventsFlag =>
    exact ⟨rfl, disableEventsFlag_disabled d.events, h.pending, h.passes⟩
  | maskEvent event =>
    simp only [EventStep.step, Domain.maskEvent]
    split
    · exact ⟨rfl, h⟩
    · exact ⟨rfl, hmasked _⟩
  | unmaskEvent event acts =>
    simp only [EventStep.step, Domain.unmaskEvent]
    split
    · exact ⟨rfl, h⟩
    · exact hunmask _ acts
  | xmUnmaskEvent event acts =>
    simp only [EventStep.step, Domain.xmUnmaskEvent]
    split
    · exact ⟨rfl, h⟩
    · exact hunmask _ acts
  | setMaskEvents new old => exact ⟨rfl, hmasked _⟩
  | installEventHandler event handler acts =>
    have hnone : eventOf event = none := by simpa [EventStep.enables] using hs
    simp only [EventStep.step, Domain.installEventHandler, hnone]
    exact ⟨trivial, h⟩
  | syncEvents acts =>
    simp only [EventStep.step, syncEventsSys_disabled h.disabled]
    exact ⟨trivial, h⟩
  | raise event =>
    refine ⟨rfl, h.disabled, ?_, h.passes⟩
    simp [EventStep.step, Domain.withEvents, Domain.setPending, h.pending]
  | bypass next =>
    have hstays : ¬d.Passes e := fun hp => hl (h.passes.mp hp)
    refine ⟨rfl, ?_, bypass_keeps.mpr ⟨h.pending, hstays⟩, ?_⟩
    · exact bypass_events.2.trans h.disabled
    · have hpasses : (bypass d next).1.Passes e ↔ d₀.Passes e := bypass_passes_left.trans h.passes
      rw [(bypass_rest d next).1] at hpasses
      simp only [EventStep.step]
      rw [(bypass_rest d next).1]
      exact hpasses

theorem Waiting.run {d₀ : Domain} (h : Waiting d₀ e d) (ss : List EventStep)
    (hs : ∀ s ∈ ss, s.enables = false ∧ s.Leaves d₀ e) :
    (EventStep.run hw d isRoot ss).2 = [] ∧
      (EventStep.run hw d isRoot ss).1.events.pendingEvents.Has e := by
  induction ss generalizing d with
  | nil => exact ⟨rfl, h.pending⟩
  | cons s ss ih =>
    obtain ⟨hoff, hl⟩ := hs s List.mem_cons_self
    obtain ⟨hlog, hnext⟩ := h.step hw isRoot hoff hl
    obtain ⟨hrest, hpending⟩ := ih hnext fun s hm => hs s (List.mem_cons_of_mem _ hm)
    refine ⟨?_, hpending⟩
    simp only [EventStep.run, hlog, List.append_nil]
    exact hrest

theorem waits_of_disabled (hoff : d.events.isEventsFlagEnabled = false)
    (hp : d.events.pendingEvents.Has e) : Waits hw d isRoot e :=
  fun ss hs => Waiting.run ⟨hoff, hp, Iff.rfl⟩ ss hs

theorem enableEventsFlag_delivers (hp : d.events.pendingEvents.Has e)
    (hm : ¬d.events.maskedEvents.Has e) (hh : d.events.Handles e)
    (hl : d.events.enableEventsFlag.LeavesMasks)
    (hrun : isRoot = true ∨ getDomainState d ≠ domainFinished) {acts : List SyncAct}
    (hend : (syncEvents (d.withEvents d.events.enableEventsFlag) isRoot acts).calls = []) :
    dispatched (d.enableEventsFlag isRoot acts).log e = 1 ∧
      (¬Raised (d.enableEventsFlag isRoot acts).log e →
        ¬(d.enableEventsFlag isRoot acts).events.pendingEvents.Has e) := by
  have hcall : d.enableEventsFlag isRoot acts =
      (d.withEvents d.events.enableEventsFlag).syncEventsSys isRoot acts :=
    if_pos (BitVec.ne_zero_iff.mpr ⟨e, hp⟩)
  have hsync : Synchronises (d.withEvents d.events.enableEventsFlag) isRoot :=
    ⟨enableEventsFlag_enabled _, BitVec.ne_zero_iff.mpr ⟨e, hp⟩, hrun⟩
  obtain ⟨hsound, hsettled⟩ := syncEvents_settled hsync hl acts
  rw [hcall]
  exact hsettled.dispatches hsound hend ⟨hp, hm⟩ hh

/-- An event that is pending, masked or not, is dispatched by neither library's call:
the calls do what they are for exactly when events are disabled. -/
theorem unmaskEvent_delivers (hw : Hwirqs) (d : Domain) (isRoot : Bool) (e : Event)
    (acts : List SyncAct) (hp : d.events.pendingEvents.Has e) :
    (Unmasks hw d isRoot e (d.unmaskEvent hw isRoot (e : Nat) acts) ↔
      d.events.isEventsFlagEnabled = false) ∧
    (Unmasks hw d isRoot e (d.xmUnmaskEvent isRoot (e : Nat) acts) ↔
      d.events.isEventsFlagEnabled = false) := by
  have hcall (c : Called) (hc : c.log = [] ∧ c.events =
      { d.events with maskedEvents := d.events.maskedEvents.clearBit e }) :
      Unmasks hw d isRoot e c ↔ d.events.isEventsFlagEnabled = false := by
    obtain ⟨hlog, hevents⟩ := hc
    constructor
    · intro h
      by_contra hon
      have honce := (h.enabled (by simpa using hon)).1
      simp [hlog] at honce
    · intro hoff
      refine ⟨fun hon => absurd hon (by simp [hoff]), fun _ => ⟨hlog, ?_⟩⟩
      rw [hevents]
      exact waits_of_disabled hoff hp
  exact ⟨hcall _ (unmaskEvent_events hw d isRoot e acts),
    hcall _ (xmUnmaskEvent_events d isRoot e acts)⟩

end

-- ---------------------------------------------------------------------------
-- An event that waits although events are enabled
-- ---------------------------------------------------------------------------

/-- Event 1 is pending and masked, and has a handler. -/
def maskedDomain (flags : Bitmap) : Domain where
  priority := 0
  events :=
    { interceptedEvents := 2
      maskedEvents := 2
      pendingEvents := 2
      eventHandler := fun _ => some {}
      eventFlags := flags }

def timerHwirqs : Hwirqs where
  timerEvent := 0
  nrIrqs := 16

/-- A handler is entered and returns, and the loop ends. -/
def handlerActs : List SyncAct := [.next, .next, .next]

theorem unmaskEvent_delivers_disabled :
    Unmasks timerHwirqs (maskedDomain 0) true 1
        ((maskedDomain 0).unmaskEvent timerHwirqs true (1 : Event) handlerActs) ∧
      Unmasks timerHwirqs (maskedDomain 0) true 1
        ((maskedDomain 0).xmUnmaskEvent true (1 : Event) handlerActs) := by
  have h := unmaskEvent_delivers timerHwirqs (maskedDomain 0) true 1 handlerActs (by decide)
  exact ⟨h.1.mpr (by decide), h.2.mpr (by decide)⟩

/-- With events enabled, event 1 is unmasked and pending and its handler is not called. -/
theorem unmaskEvent_delays : (maskedDomain eventsEnabled).events.isEventsFlagEnabled = true ∧
    (maskedDomain eventsEnabled).events.pendingEvents.Has 1 ∧
    (maskedDomain eventsEnabled).events.maskedEvents.Has 1 ∧
    dispatched ((maskedDomain eventsEnabled).unmaskEvent timerHwirqs true (1 : Event) handlerActs).log 1 = 0 ∧
    ((maskedDomain eventsEnabled).unmaskEvent timerHwirqs true
      (1 : Event) handlerActs).events.pendingEvents.Has 1 ∧
    ¬Unmasks timerHwirqs (maskedDomain eventsEnabled) true 1
      ((maskedDomain eventsEnabled).unmaskEvent timerHwirqs true (1 : Event) handlerActs) := by
  have hon : (maskedDomain eventsEnabled).events.isEventsFlagEnabled = true := by decide
  have hnever : dispatched
      ((maskedDomain eventsEnabled).unmaskEvent timerHwirqs true (1 : Event) handlerActs).log 1 = 0 := by decide
  refine ⟨hon, by decide, by decide, hnever, by decide, fun h => ?_⟩
  have honce := (h.enabled hon).1
  rw [hnever] at honce
  exact absurd honce (by decide)

end Xmertl.Xtratum
