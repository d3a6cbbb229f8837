import Xmertl.Xtratum.Irqs

/-!
# What becomes of pending events

The loop clears the pending bit of every unmasked event before it calls the
first handler, and tests the mask again at each event's turn. An event that an
earlier handler masks has lost its bit and is not dispatched; one that was
masked and that a handler unmasks is dispatched and keeps its bit. Handlers that
enable the events flag can have any event taken in between that is not masked.
-/

namespace Xmertl.Xtratum

namespace EventHandling

/-- Event `e` is pending and not masked. -/
def Batched (ev : EventHandling) (e : Event) : Prop :=
  ev.pendingEvents.Has e ∧ ¬ev.maskedEvents.Has e

def Handles (ev : EventHandling) (e : Event) : Prop := (ev.eventHandler e).isSome = true

/-- The handler of `f` may mask event `e`. -/
def Masks (ev : EventHandling) (f e : Event) : Prop :=
  ∃ h, ev.eventHandler f = some h ∧ h.masks.Has e

def Unmasks (ev : EventHandling) (f e : Event) : Prop :=
  ∃ h, ev.eventHandler f = some h ∧ h.unmasks.Has e

/-- The handler of `f` can run in a call of `sync_events` before that of `e` does. -/
inductive RunsBefore (ev : EventHandling) (e : Event) : Event → Prop
  | turn : ev.Batched f → ev.Handles f → f ≠ e → (ev.Batched e → f < e) → RunsBefore ev e f
  | nested : ev.togglesFlag = true → RunsBefore ev e g → ev.Handles f → f ≠ e →
      ¬ev.maskedEvents.Has f → RunsBefore ev e f
  | unmasked : ev.togglesFlag = true → RunsBefore ev e g → ev.Unmasks g f → ev.Handles f →
      f ≠ e → RunsBefore ev e f

/-- The handler of `f` can run where handlers enable the events flag. -/
inductive RunsNested (ev : EventHandling) : Event → Prop
  | nested : ev.Handles f → ¬ev.maskedEvents.Has f → RunsNested ev f
  | unmasked : RunsNested ev g → ev.Unmasks g f → ev.Handles f → RunsNested ev f

/-- What handlers leave alone: none masks an event of the batch before its turn, none
unmasks one that was pending and masked, and where they enable the events flag none
unmasks one of the batch either. -/
structure LeavesMasks (ev : EventHandling) : Prop where
  masks : ∀ e f, ev.Batched e → ev.Handles e → ev.RunsBefore e f → ¬ev.Masks f e
  unmasks : ∀ e f, ev.pendingEvents.Has e → ev.maskedEvents.Has e → ev.Handles e →
    ev.RunsBefore e f → ¬ev.Unmasks f e
  nested : ev.togglesFlag = true → ∀ e f, ev.Batched e → ev.Handles e → ev.RunsNested f →
    ¬ev.Unmasks f e

end EventHandling

inductive Fate
  | dispatched
  | dropped
  | left

/-- The fate of event `e` of `ev`, given the events at exit and what has happened. An event
without a handler is consumed when its pending bit is. -/
def Fate.Holds (ev out : EventHandling) (log : List Occurrence) (e : Event) : Fate → Prop
  | .dispatched => Xtratum.dispatched log e = 1 ∧ (¬Raised log e → ¬out.pendingEvents.Has e)
  | .dropped => ev.eventHandler e = none ∧ (0 < Xtratum.dropped log e ∨ ¬out.pendingEvents.Has e)
  | .left => Xtratum.dispatched log e = 0 ∧ Xtratum.dropped log e = 0 ∧ out.pendingEvents.Has e

/-- `out` and `log` are how `sync_events` ends: each event that was pending has one
fate, an event is dropped for want of a handler only, none is dispatched while it
is masked, and handlers are entered with the flag disabled. -/
structure Delivered (ev out : EventHandling) (log : List Occurrence) : Prop where
  fate : ∀ e, ev.pendingEvents.Has e → ∃! f : Fate, f.Holds ev out log e
  unhandled : ∀ e, 0 < Xtratum.dropped log e → ev.eventHandler e = none
  entered : ∀ e masked flags, .dispatch e masked flags ∈ log →
    ¬masked.Has e ∧ flags &&& eventsEnabled = 0

def Synchronises (d : Domain) (isRoot : Bool) : Prop :=
  d.events.isEventsFlagEnabled = true ∧ d.events.pendingEvents ≠ 0 ∧
    (isRoot = true ∨ getDomainState d ≠ domainFinished)

theorem syncStart_eq (d : Domain) (isRoot : Bool) :
    Synchronises d isRoot ∧ syncStart d isRoot = Delivery.syncPending ⟨d.events, [], []⟩ ∨
      ¬Synchronises d isRoot ∧ syncStart d isRoot = ⟨d.events, [], []⟩ := by
  unfold Synchronises syncStart
  by_cases h : d.events.isEventsFlagEnabled = true ∧ d.events.pendingEvents ≠ 0
  · simp only [if_pos h]
    cases isRoot with
    | true => exact .inl ⟨⟨h.1, h.2, .inl rfl⟩, rfl⟩
    | false =>
      by_cases hf : getDomainState d = domainFinished
      · exact .inr ⟨fun hs => by simp [hf] at hs, by simp [hf]⟩
      · exact .inl ⟨⟨h.1, h.2, .inr hf⟩, by simp [hf]⟩
  · rw [if_neg h]
    exact .inr ⟨fun hs => h ⟨hs.1, hs.2.1⟩, rfl⟩

namespace Delivery

open EventHandling

/-- What holds at every point of a call, whatever the handlers do. -/
structure Sound (ev : EventHandling) (b : Delivery) : Prop where
  handler : b.events.eventHandler = ev.eventHandler
  toggles : b.events.togglesFlag = ev.togglesFlag
  handled : ∀ e, 0 < dispatched b.log e → ev.Handles e
  unhandled : ∀ e, 0 < dropped b.log e → ev.eventHandler e = none
  entered : ∀ e masked flags, .dispatch e masked flags ∈ b.log →
    ¬masked.Has e ∧ flags &&& eventsEnabled = 0
  running : ∀ c ∈ b.calls, ∀ e, c.running = some e → 0 < dispatched b.log e
  nested : ∀ c ∈ b.calls.tail, c.running.isSome = true
  toggled : 2 ≤ b.calls.length → ev.togglesFlag = true
  unmasked : ∀ e, ¬b.events.maskedEvents.Has e → ev.maskedEvents.Has e →
    ∃ f, 0 < dispatched b.log f ∧ ev.Unmasks f e
  fresh : ∀ e, ¬Raised b.log e → b.events.pendingEvents.Has e →
    ev.pendingEvents.Has e ∧ ev.maskedEvents.Has e
  outer : ∀ c, b.calls.getLast? = some c → ∀ e, c.pending.Has e → ev.pendingEvents.Has e
  stays : ∀ c, b.calls.getLast? = some c → ∀ e, ev.pendingEvents.Has e → ev.Handles e →
    dispatched b.log e = 0 → c.pending.Has e

section
variable {ev : EventHandling} {b b' : Delivery} {e f event : Event} {pending : Bitmap}
  {calls : List Batch} {op : HandlerOp}

theorem syncPending_sound (ev : EventHandling) : Sound ev (syncPending ⟨ev, [], []⟩) where
  handler := rfl
  toggles := rfl
  handled e h := by simp [syncPending] at h
  unhandled e h := by simp [syncPending] at h
  entered e masked flags h := by simp [syncPending] at h
  running c hc e he := by
    obtain rfl : c = ⟨ev.pendingEvents, none⟩ := by simpa [syncPending] using hc
    cases he
  nested c hc := by simp [syncPending] at hc
  toggled h := by simp [syncPending] at h
  unmasked e hm hm' := absurd hm' hm
  fresh e _ he := by simpa [syncPending] using he
  outer c hc e he := by
    obtain rfl : ⟨ev.pendingEvents, none⟩ = c := by simpa [syncPending] using hc
    exact he
  stays c hc e he _ _ := by
    obtain rfl : ⟨ev.pendingEvents, none⟩ = c := by simpa [syncPending] using hc
    exact he

theorem perform_outer (hcalls : b.calls = ⟨pending, r⟩ :: calls) :
    (b.perform op).calls.getLast? = b.calls.getLast? := by
  rcases perform_calls b op with hsame | ⟨-, hnew⟩
  · rw [hsame]
  · rw [hnew, hcalls, List.getLast?_cons_cons]

theorem outer_keep {pending' : Bitmap} {r r' : Option Event} (hp : pending.Has e → pending'.Has e)
    (h : ∃ c, (⟨pending, r⟩ :: calls : List Batch).getLast? = some c ∧ c.pending.Has e) :
    ∃ c, (⟨pending', r'⟩ :: calls : List Batch).getLast? = some c ∧ c.pending.Has e := by
  obtain ⟨c, hc, hpe⟩ := h
  cases calls with
  | nil =>
    obtain rfl : ⟨pending, r⟩ = c := by simpa using hc
    exact ⟨_, rfl, hp hpe⟩
  | cons c' calls => exact ⟨c, by simpa using hc, hpe⟩

theorem outer_pop {r : Option Event} (hp : ¬pending.Has e)
    (h : ∃ c, (⟨pending, r⟩ :: calls : List Batch).getLast? = some c ∧ c.pending.Has e) :
    ∃ c, calls.getLast? = some c ∧ c.pending.Has e := by
  obtain ⟨c, hc, hpe⟩ := h
  cases calls with
  | nil =>
    obtain rfl : ⟨pending, r⟩ = c := by simpa using hc
    exact absurd hpe hp
  | cons c' calls => exact ⟨c, by simpa using hc, hpe⟩

theorem outer_back {c c' : Batch} (hcalls : b.calls = c :: calls) (h : calls.getLast? = some c') :
    b.calls.getLast? = some c' := by
  rw [hcalls]
  cases calls with
  | nil => cases h
  | cons c calls => rwa [List.getLast?_cons_cons]

theorem Sound.perform (h : Sound ev b) (hcalls : b.calls = ⟨pending, some event⟩ :: calls)
    {h' : Handler} (hhandler : b.events.eventHandler event = some h')
    (hmay : h'.may b.events.togglesFlag op = true) : Sound ev (b.perform op) where
  handler := (perform_handlers b op).1.trans h.handler
  toggles := (perform_handlers b op).2.trans h.toggles
  handled e he := h.handled e (by simpa using he)
  unhandled e he := h.unhandled e (by simpa using he)
  entered e masked flags he := h.entered e masked flags (by simpa using he)
  running c hc e he := by
    rw [perform_log, dispatched_did]
    rcases perform_calls b op with hsame | ⟨-, hnew⟩
    · exact h.running c (hsame ▸ hc) e he
    · rw [hnew, List.mem_cons] at hc
      rcases hc with rfl | hc
      · cases he
      · exact h.running c hc e he
  nested c hc := by
    rcases perform_calls b op with hsame | ⟨-, hnew⟩
    · exact h.nested c (hsame ▸ hc)
    · rw [hnew, List.tail_cons, hcalls, List.mem_cons] at hc
      rcases hc with rfl | hc
      · rfl
      · exact h.nested c (by rw [hcalls]; exact hc)
  toggled hlen := by
    rcases perform_calls b op with hsame | ⟨rfl, -⟩
    · exact h.toggled (hsame ▸ hlen)
    · exact h.toggles ▸ hmay
  unmasked e hm hm' := by
    simp only [perform_log, dispatched_did]
    by_cases hpre : b.events.maskedEvents.Has e
    · have hop : op = .unmask e := by
        by_contra hne
        exact hm (perform_masked.mpr (.inr ⟨hpre, hne⟩))
      subst hop
      refine ⟨event, h.running _ (hcalls ▸ List.mem_cons_self) event rfl, h', ?_, ?_⟩
      · rw [← h.handler, hhandler]
      · exact of_decide_eq_true hmay
    · exact h.unmasked e hpre hm'
  fresh e hr he := by
    simp only [perform_log, raised_did, not_or] at hr
    exact h.fresh e hr.2 ((perform_pending.1 he).resolve_left hr.1)
  outer c hc := h.outer c (perform_outer hcalls ▸ hc)
  stays c hc e hp hh hnone := h.stays c (perform_outer hcalls ▸ hc) e hp hh (by simpa using hnone)

theorem Sound.call (h : Sound ev b) (hcalls : b.calls = ⟨pending, r⟩ :: calls)
    {pending' : Bitmap} (hp : ∀ e, pending'.Has e → pending.Has e) :
    (∀ c ∈ (⟨pending', none⟩ :: calls : List Batch), ∀ e, c.running = some e →
      0 < dispatched b.log e) ∧
    (∀ c ∈ calls, c.running.isSome = true) ∧ (2 ≤ calls.length + 1 → ev.togglesFlag = true) ∧
    ∀ r' c, (⟨pending', r'⟩ :: calls : List Batch).getLast? = some c → ∀ e,
      (c.pending.Has e → ev.pendingEvents.Has e) ∧
      (ev.pendingEvents.Has e → ev.Handles e → dispatched b.log e = 0 →
        (pending.Has e → pending'.Has e) → c.pending.Has e) := by
  refine ⟨fun c hc e he => ?_, fun c hc => h.nested c (by rw [hcalls]; exact hc),
    fun hlen => h.toggled (by rw [hcalls]; exact hlen), fun r' c hc e => ?_⟩
  · rcases List.mem_cons.mp hc with rfl | hc
    · cases he
    · exact h.running c (by rw [hcalls]; exact List.mem_cons_of_mem _ hc) e he
  · cases calls with
    | nil =>
      obtain rfl : ⟨pending', r'⟩ = c := by simpa using hc
      have hlast : b.calls.getLast? = some ⟨pending, r⟩ := by rw [hcalls]; rfl
      exact ⟨fun he => h.outer _ hlast e (hp e he),
        fun he hh hnone hkeep => hkeep (h.stays _ hlast e he hh hnone)⟩
    | cons c' calls =>
      rw [List.getLast?_cons_cons] at hc
      have hlast : b.calls.getLast? = some c := by rw [hcalls, List.getLast?_cons_cons]; exact hc
      exact ⟨h.outer c hlast e, fun he hh hnone _ => h.stays c hlast e he hh hnone⟩

theorem Sound.over (h : Sound ev b) (hcalls : b.calls = ⟨pending, r⟩ :: calls) :
    Sound ev { b with calls } := by
  obtain ⟨hrunning, hnested, htoggled, -⟩ := h.call hcalls fun e he => he
  refine ⟨h.handler, h.toggles, h.handled, h.unhandled, h.entered, fun c hc => ?_,
    fun c hc => hnested c (List.mem_of_mem_tail hc), fun hlen => htoggled ?_, h.unmasked,
    h.fresh, fun c hc => h.outer c (outer_back hcalls hc),
    fun c hc => h.stays c (outer_back hcalls hc)⟩
  · exact hrunning c (List.mem_cons_of_mem _ hc)
  · exact Nat.le_succ_of_le hlen

theorem Sound.drop (h : Sound ev b) (hcalls : b.calls = ⟨pending, none⟩ :: calls)
    (hnone : b.events.eventHandler event = none) : Sound ev { b with
      calls := ⟨pending.clearBit event, none⟩ :: calls, log := .drop event :: b.log } := by
  obtain ⟨hrunning, hnested, htoggled, houter⟩ :=
    h.call hcalls fun e he => (BitVec.has_clearBit.mp he).1
  refine ⟨h.handler, h.toggles, by simpa using h.handled, fun e he => ?_,
    by simpa using h.entered, by simpa using hrunning, hnested, htoggled,
    by simpa using h.unmasked, by simpa using h.fresh, fun c hc e => (houter none c hc e).1,
    fun c hc e hpe hh hnone' => ?_⟩
  · by_cases hev : event = e
    · exact hev ▸ h.handler ▸ hnone
    · exact h.unhandled e (by simpa [hev] using he)
  · refine (houter none c hc e).2 hpe hh (by simpa using hnone') fun hpe' => ?_
    have hne : e ≠ event := by
      rintro rfl
      rw [h.handler] at hnone
      simp [Handles, hnone] at hh
    simp [hpe', hne]

theorem Sound.enter (h : Sound ev b) (hcalls : b.calls = ⟨pending, none⟩ :: calls)
    (hm : ¬b.events.maskedEvents.Has event)
    (hsome : (b.events.eventHandler event).isSome = true) : Sound ev
      (Delivery.enter { b with calls := ⟨pending.clearBit event, some event⟩ :: calls } event) := by
  obtain ⟨hrunning, hnested, htoggled, houter⟩ :=
    h.call hcalls fun e he => (BitVec.has_clearBit.mp he).1
  have hmono (e : Event) (he : 0 < dispatched b.log e) :
      0 < dispatched b.log e + if event = e then 1 else 0 := Nat.lt_add_right _ he
  refine ⟨h.handler, h.toggles, fun e he => ?_, by simpa [Delivery.enter] using h.unhandled,
    fun e masked flags he => ?_, fun c hc e he => ?_, hnested, htoggled, fun e hm' hm'' => ?_,
    by simpa [Delivery.enter] using h.fresh, fun c hc e => (houter _ c hc e).1,
    fun c hc e hpe hh hnone => ?_⟩
  · by_cases hev : event = e
    · rw [← hev, Handles, ← h.handler]
      exact hsome
    · exact h.handled e (by simpa [Delivery.enter, hev] using he)
  · rcases List.mem_cons.mp he with hnew | hold
    · simp only [Occurrence.dispatch.injEq] at hnew
      obtain ⟨rfl, rfl, rfl⟩ := hnew
      have hoff := disableEventsFlag_disabled
        { b.events with maskedEvents := b.events.maskedEvents.setBit e }
      exact ⟨hm, by simpa [isEventsFlagEnabled] using hoff⟩
    · exact h.entered e masked flags hold
  · simp only [Delivery.enter, dispatched_dispatch]
    rcases List.mem_cons.mp hc with rfl | hc
    · simp [Option.some.inj he]
    · exact hmono e (hrunning c (List.mem_cons_of_mem _ hc) e he)
  · simp only [Delivery.enter, disableEventsFlag_rest, BitVec.has_setBit, not_or] at hm'
    obtain ⟨f, hf, hu⟩ := h.unmasked e hm'.1 hm''
    refine ⟨f, ?_, hu⟩
    simpa only [Delivery.enter, dispatched_dispatch] using hmono f hf
  · simp only [Delivery.enter, dispatched_dispatch, Nat.add_eq_zero_iff] at hnone
    have hne : event ≠ e := fun he => by simp [he] at hnone
    exact (houter _ c hc e).2 hpe hh hnone.1 fun hpe' => by simp [hpe', Ne.symm hne]

theorem Sound.step {a : SyncAct} (h : Sound ev b) (hs : b.step a = some b') : Sound ev b' := by
  rcases step_cases hs with ⟨pending, event, calls, handler, op, hcalls, hhandler, hmay, rfl⟩ |
    ⟨pending, event, calls, hcalls, rfl⟩ | ⟨pending, calls, hcalls, rfl⟩
  · exact h.perform hcalls hhandler hmay
  · obtain ⟨hrunning, hnested, htoggled, houter⟩ := h.call hcalls fun e he => he
    exact ⟨h.handler, h.toggles, h.handled, h.unhandled, h.entered, hrunning, hnested, htoggled,
      h.unmasked, h.fresh, fun c hc e => (houter none c hc e).1,
      fun c hc e hp hh hnone => (houter none c hc e).2 hp hh hnone id⟩
  · rcases take_cases b pending calls with ⟨-, heq⟩ |
      ⟨event, -, hm, -, ⟨hnone, heq⟩ | ⟨hsome, heq⟩⟩ <;> rw [heq]
    · exact h.over hcalls
    · exact h.drop hcalls hnone
    · exact h.enter hcalls hm hsome

end

-- ---------------------------------------------------------------------------
-- Handlers that leave the masks alone
-- ---------------------------------------------------------------------------

/-- The events pending at entry that have a handler. One of the batch waits for its turn,
unmasked, until it is dispatched; one that was masked stays pending and masked. -/
structure Settled (ev : EventHandling) (b : Delivery) : Prop where
  kept : ∀ e, ev.pendingEvents.Has e → ev.maskedEvents.Has e → ev.Handles e →
    dispatched b.log e = 0 ∧ b.events.maskedEvents.Has e ∧ b.events.pendingEvents.Has e
  before : ∀ e, ev.pendingEvents.Has e → ev.Handles e → dispatched b.log e = 0 →
    ∀ f, 0 < dispatched b.log f → ev.RunsBefore e f
  waits : ∀ e, ev.Batched e → ev.Handles e → dispatched b.log e = 0 →
    ¬b.events.maskedEvents.Has e ∧ ∃ c, b.calls.getLast? = some c ∧ c.pending.Has e
  once : ∀ e, ev.Batched e → ev.Handles e → dispatched b.log e ≤ 1
  nested : ev.togglesFlag = true → ∀ f, 0 < dispatched b.log f → ev.RunsNested f
  masked : ev.togglesFlag = true → ∀ e, ev.Batched e → ev.Handles e →
    0 < dispatched b.log e → b.events.maskedEvents.Has e
  gone : ∀ e, ev.Batched e → ev.Handles e → 0 < dispatched b.log e → ev.togglesFlag = false →
    ∀ c, b.calls.getLast? = some c → ¬c.pending.Has e

section
variable {ev : EventHandling} {b b' : Delivery} {e f event : Event} {pending : Bitmap}
  {calls : List Batch} {op : HandlerOp}

theorem syncPending_settled (ev : EventHandling) : Settled ev (syncPending ⟨ev, [], []⟩) where
  kept e hp hm _ := by simp [syncPending, hp, hm]
  before e _ _ _ f hf := by simp [syncPending] at hf
  waits e he _ _ := ⟨he.2, ⟨ev.pendingEvents, none⟩, rfl, he.1⟩
  once e _ _ := Nat.zero_le 1
  nested _ f hf := by simp [syncPending] at hf
  masked _ e _ _ hf := by simp [syncPending] at hf
  gone e _ _ hf := by simp [syncPending] at hf

theorem Settled.perform (h : Settled ev b) (hsound : Sound ev b) (hl : ev.LeavesMasks)
    (hcalls : b.calls = ⟨pending, some event⟩ :: calls) {h' : Handler}
    (hhandler : b.events.eventHandler event = some h')
    (hmay : h'.may b.events.togglesFlag op = true) : Settled ev (b.perform op) := by
  have hrun : 0 < dispatched b.log event :=
    hsound.running _ (hcalls ▸ List.mem_cons_self) event rfl
  rw [hsound.handler] at hhandler
  have hmask (e : Event) (he : op = .mask e) : ev.Masks event e :=
    ⟨h', hhandler, by subst he; exact of_decide_eq_true hmay⟩
  have hunmask (e : Event) (he : op = .unmask e) : ev.Unmasks event e :=
    ⟨h', hhandler, by subst he; exact of_decide_eq_true hmay⟩
  constructor
  · intro e hp hm hh
    obtain ⟨hnone, hm', hp'⟩ := h.kept e hp hm hh
    refine ⟨by simpa using hnone, perform_masked.mpr (.inr ⟨hm', fun hop => ?_⟩),
      perform_pending.2 hp' hm'⟩
    exact hl.unmasks e event hp hm hh (h.before e hp hh hnone event hrun) (hunmask e hop)
  · simpa using h.before
  · intro e hb hh hnone
    simp only [perform_log, dispatched_did] at hnone
    obtain ⟨hm, houter⟩ := h.waits e hb hh hnone
    refine ⟨fun hm' => ?_, by rw [perform_outer hcalls]; exact houter⟩
    rcases perform_masked.mp hm' with hop | ⟨hm', -⟩
    · exact hl.masks e event hb hh (h.before e hb.1 hh hnone event hrun) (hmask e hop)
    · exact hm hm'
  · simpa using h.once
  · simpa using h.nested
  · intro ht e hb hh hdone
    have hm := h.masked ht e hb hh (by simpa using hdone)
    exact perform_masked.mpr (.inr ⟨hm, fun hop =>
      hl.nested ht e event hb hh (h.nested ht event hrun) (hunmask e hop)⟩)
  · intro e hb hh hdone
    rw [perform_outer hcalls]
    exact h.gone e hb hh (by simpa using hdone)

theorem Settled.entered (h : Settled ev b) (hsound : Sound ev b)
    (hcalls : b.calls = ⟨pending, none⟩ :: calls) (hp : pending.Has event)
    (hm : ¬b.events.maskedEvents.Has event)
    (hfirst : ∀ e < event, pending.Has e → b.events.maskedEvents.Has e)
    (hsome : ev.Handles event) (he : ev.pendingEvents.Has e) (hh : ev.Handles e)
    (hnone : dispatched b.log e = 0) (hne : event ≠ e) : ev.RunsBefore e event := by
  have hunmasked : ¬ev.maskedEvents.Has event ∨
      ∃ f, 0 < dispatched b.log f ∧ ev.Unmasks f event := by
    by_cases hm' : ev.maskedEvents.Has event
    · exact .inr (hsound.unmasked event hm hm')
    · exact .inl hm'
  cases calls with
  | nil =>
    have houter : b.calls.getLast? = some ⟨pending, none⟩ := by rw [hcalls]; rfl
    have hpend : ev.pendingEvents.Has event := hsound.outer _ houter event hp
    have hbatched : ev.Batched event := by
      refine ⟨hpend, fun hm' => hm ?_⟩
      exact (h.kept event hpend hm' hsome).2.1
    refine .turn hbatched hsome hne fun hb => ?_
    obtain ⟨hm', c, hc, hpe⟩ := h.waits e hb hh hnone
    obtain rfl : ⟨pending, none⟩ = c := Option.some.inj (houter.symm.trans hc)
    by_contra hnot
    exact hm' (hfirst e (lt_of_le_of_ne (not_lt.mp hnot) (Ne.symm hne)) hpe)
  | cons c calls =>
    have ht : ev.togglesFlag = true := hsound.toggled (by rw [hcalls]; simp)
    have hc : c ∈ b.calls.tail := by rw [hcalls]; exact List.mem_cons_self
    obtain ⟨g, hg⟩ := Option.isSome_iff_exists.mp (hsound.nested c hc)
    have hrun := hsound.running c (List.mem_of_mem_tail hc) g hg
    rcases hunmasked with hm' | ⟨f, hf, hu⟩
    · exact .nested ht (h.before e he hh hnone g hrun) hsome hne hm'
    · exact .unmasked ht (h.before e he hh hnone f hf) hu hsome hne

theorem Settled.enter (h : Settled ev b) (hsound : Sound ev b)
    (hcalls : b.calls = ⟨pending, none⟩ :: calls) (hp : pending.Has event)
    (hm : ¬b.events.maskedEvents.Has event)
    (hfirst : ∀ e < event, pending.Has e → b.events.maskedEvents.Has e)
    (hsome : (b.events.eventHandler event).isSome = true) : Settled ev
      (Delivery.enter { b with calls := ⟨pending.clearBit event, some event⟩ :: calls } event) := by
  rw [hsound.handler] at hsome
  constructor
  · intro e hpe hme hh
    obtain ⟨hnone, hm', hp'⟩ := h.kept e hpe hme hh
    have hne : event ≠ e := fun he => hm (he ▸ hm')
    simp [Delivery.enter, hne, hnone, hm', hp']
  · intro e hpe hh hnone f hf
    simp only [Delivery.enter, dispatched_dispatch, Nat.add_eq_zero_iff] at hnone
    have hne : event ≠ e := fun he => by simp [he] at hnone
    by_cases hev : event = f
    · subst hev
      exact h.entered hsound hcalls hp hm hfirst hsome hpe hh hnone.1 hne
    · exact h.before e hpe hh hnone.1 f (by simpa [Delivery.enter, hev] using hf)
  · intro e hb hh hnone
    simp only [Delivery.enter, dispatched_dispatch, Nat.add_eq_zero_iff] at hnone
    have hne : event ≠ e := fun he => by simp [he] at hnone
    obtain ⟨hm', houter⟩ := h.waits e hb hh hnone.1
    rw [hcalls] at houter
    refine ⟨by simp [Delivery.enter, hm', Ne.symm hne], outer_keep (fun hpe => ?_) houter⟩
    simp [hpe, Ne.symm hne]
  · intro e hb hh
    by_cases hev : event = e
    · subst hev
      have hnone : dispatched b.log event = 0 := by
        by_contra hdone
        have hpos : 0 < dispatched b.log event := Nat.pos_of_ne_zero hdone
        by_cases ht : ev.togglesFlag = true
        · exact hm (h.masked ht event hb hh hpos)
        · have hsingle : calls = [] := by
            cases calls with
            | nil => rfl
            | cons c calls => exact absurd (hsound.toggled (by rw [hcalls]; simp)) ht
          subst hsingle
          exact h.gone event hb hh hpos (by simpa using ht) ⟨pending, none⟩ (by rw [hcalls]; rfl) hp
      simp [Delivery.enter, hnone]
    · simpa [Delivery.enter, hev] using h.once e hb hh
  · intro ht f hf
    by_cases hev : event = f
    · subst hev
      by_cases hm' : ev.maskedEvents.Has event
      · obtain ⟨f, hf, hu⟩ := hsound.unmasked event hm hm'
        exact .unmasked (h.nested ht f hf) hu hsome
      · exact .nested hsome hm'
    · exact h.nested ht f (by simpa [Delivery.enter, hev] using hf)
  · intro ht e hb hh hdone
    by_cases hev : event = e
    · simp [Delivery.enter, hev]
    · have hm' := h.masked ht e hb hh (by simpa [Delivery.enter, hev] using hdone)
      simp [Delivery.enter, hm']
  · intro e hb hh hdone ht c hc hpe
    have hsingle : calls = [] := by
      cases calls with
      | nil => rfl
      | cons c calls =>
        have hon := hsound.toggled (by rw [hcalls]; simp)
        rw [hon] at ht
        cases ht
    subst hsingle
    obtain rfl : ⟨pending.clearBit event, some event⟩ = c := Option.some.inj hc
    obtain ⟨hpe', hne⟩ := BitVec.has_clearBit.mp hpe
    exact h.gone e hb hh (by simpa [Delivery.enter, Ne.symm hne] using hdone) ht ⟨pending, none⟩
      (by rw [hcalls]; rfl) hpe'

theorem Settled.call (h : Settled ev b) (hcalls : b.calls = ⟨pending, r⟩ :: calls)
    {log : List Occurrence} {events : EventHandling} {pending' : Bitmap}
    (hlog : ∀ e, dispatched log e = dispatched b.log e)
    (hevents : events.maskedEvents = b.events.maskedEvents ∧
      events.pendingEvents = b.events.pendingEvents)
    (hp : ∀ e, pending'.Has e → pending.Has e)
    (hp' : ∀ e, ev.Handles e → pending.Has e → pending'.Has e) :
    Settled ev ⟨events, ⟨pending', none⟩ :: calls, log⟩ := by
  obtain ⟨hmasked, hpending⟩ := hevents
  refine ⟨?_, ?_, fun e hb hh hnone => ?_, ?_, ?_, ?_, fun e hb hh hdone ht c hc hpe => ?_⟩
  · simpa only [hlog, hmasked, hpending] using h.kept
  · simpa only [hlog] using h.before
  · rw [hlog] at hnone
    obtain ⟨hm, houter⟩ := h.waits e hb hh hnone
    rw [hcalls] at houter
    exact ⟨by rwa [hmasked], outer_keep (hp' e hh) houter⟩
  · simpa only [hlog] using h.once
  · simpa only [hlog] using h.nested
  · simpa only [hlog, hmasked] using h.masked
  · rw [hlog] at hdone
    obtain ⟨c₀, hc₀, hpe₀⟩ := outer_keep (hp e) ⟨c, hc, hpe⟩
    exact h.gone e hb hh hdone ht c₀ (hcalls ▸ hc₀) hpe₀

theorem Settled.over (h : Settled ev b) (hcalls : b.calls = ⟨pending, r⟩ :: calls)
    (hall : ∀ e, pending.Has e → b.events.maskedEvents.Has e) : Settled ev { b with calls } := by
  refine ⟨h.kept, h.before, fun e hb hh hnone => ?_, h.once, h.nested, h.masked,
    fun e hb hh hdone ht c hc => h.gone e hb hh hdone ht c (outer_back hcalls hc)⟩
  obtain ⟨hm, houter⟩ := h.waits e hb hh hnone
  rw [hcalls] at houter
  -- the outermost call ends with masked events only
  exact ⟨hm, outer_pop (fun hpe => hm (hall e hpe)) houter⟩

theorem Settled.step {a : SyncAct} (h : Settled ev b) (hsound : Sound ev b) (hl : ev.LeavesMasks)
    (hs : b.step a = some b') : Settled ev b' := by
  rcases step_cases hs with ⟨pending, event, calls, handler, op, hcalls, hhandler, hmay, rfl⟩ |
    ⟨pending, event, calls, hcalls, rfl⟩ | ⟨pending, calls, hcalls, rfl⟩
  · exact h.perform hsound hl hcalls hhandler hmay
  · exact h.call hcalls (fun e => rfl) ⟨rfl, rfl⟩ (fun e he => he) fun e _ he => he
  · rcases take_cases b pending calls with ⟨hall, heq⟩ |
      ⟨event, hp, hm, hfirst, ⟨hnone, heq⟩ | ⟨hsome, heq⟩⟩ <;> rw [heq]
    · exact h.over hcalls hall
    · refine h.call hcalls (by simp) ⟨rfl, rfl⟩ (fun e he => (BitVec.has_clearBit.mp he).1)
        fun e hh he => ?_
      have hne : e ≠ event := by
        rintro rfl
        rw [hsound.handler] at hnone
        simp [Handles, hnone] at hh
      simp [he, hne]
    · exact h.enter hsound hcalls hp hm hfirst hsome

/-- At the end of a call whose handlers leave the masks alone the batch has been dispatched. -/
theorem Settled.dispatches (h : Settled ev b) (hsound : Sound ev b) (hend : b.calls = [])
    (hb : ev.Batched e) (hh : ev.Handles e) :
    dispatched b.log e = 1 ∧ (¬Raised b.log e → ¬b.events.pendingEvents.Has e) := by
  refine ⟨?_, fun hr hp => hb.2 (hsound.fresh e hr hp).2⟩
  have hle := h.once e hb hh
  by_contra hne
  obtain ⟨-, c, hc, -⟩ := h.waits e hb hh (by omega)
  rw [hend] at hc
  cases hc

theorem handles_ne_none (hh : ev.Handles e) : ev.eventHandler e ≠ none := by
  rwa [Handles, Option.isSome_iff_ne_none] at hh

theorem Settled.fate (h : Settled ev b) (hsound : Sound ev b) (hend : b.calls = [])
    (hp : ev.pendingEvents.Has e) : ∃! f : Fate, f.Holds ev b.events b.log e := by
  by_cases hh : ev.Handles e
  · have hhandler := handles_ne_none hh
    have hdropped : dropped b.log e = 0 := by
      by_contra hne
      exact hhandler (hsound.unhandled e (Nat.pos_of_ne_zero hne))
    by_cases hm : ev.maskedEvents.Has e
    · obtain ⟨hnone, -, hp'⟩ := h.kept e hp hm hh
      refine ⟨.left, ⟨hnone, hdropped, hp'⟩, fun f hf => ?_⟩
      cases f with
      | dispatched => simp [Fate.Holds, hnone] at hf
      | dropped => exact absurd hf.1 hhandler
      | left => rfl
    · have hdone := h.dispatches hsound hend ⟨hp, hm⟩ hh
      refine ⟨.dispatched, hdone, fun f hf => ?_⟩
      cases f with
      | dispatched => rfl
      | dropped => exact absurd hf.1 hhandler
      | left => simp [Fate.Holds, hdone.1] at hf
  · have hhandler : ev.eventHandler e = none := by simpa [Handles] using hh
    have hnone : dispatched b.log e = 0 := by
      by_contra hne
      exact hh (hsound.handled e (Nat.pos_of_ne_zero hne))
    by_cases hc : 0 < dropped b.log e ∨ ¬b.events.pendingEvents.Has e
    · refine ⟨.dropped, ⟨hhandler, hc⟩, fun f hf => ?_⟩
      cases f with
      | dispatched => simp [Fate.Holds, hnone] at hf
      | dropped => rfl
      | left =>
        obtain ⟨-, hzero, hp'⟩ := hf
        exact absurd hp' (hc.resolve_left (by omega))
    · rw [not_or, not_not] at hc
      refine ⟨.left, ⟨hnone, by omega, hc.2⟩, fun f hf => ?_⟩
      cases f with
      | dispatched => simp [Fate.Holds, hnone] at hf
      | dropped => exact absurd hf.2 (by simp only [not_or, not_not]; exact hc)
      | left => rfl

end

end Delivery

end Xmertl.Xtratum
