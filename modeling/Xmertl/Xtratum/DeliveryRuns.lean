import Mathlib.Order.WellFounded
import Xmertl.Xtratum.Delivery

/-!
# Calls of `sync_events`

Every call can be led to its end, its handlers only returning; and a handler that
can run by what the others may do is led to: in its turn, or called from a running
one that raises its event and enables the flag. So whatever handlers may do to the
masks has a call in which they do it.
-/

namespace Xmertl.Xtratum

namespace Delivery

open EventHandling

-- ---------------------------------------------------------------------------
-- Calls that go on by themselves
-- ---------------------------------------------------------------------------

def Leads (b b' : Delivery) : Prop := ∃ acts, b.run acts = b'

/-- What is so after some steps in which no handler does anything but return. -/
structure After (ev : EventHandling) (b b' : Delivery) : Prop where
  leads : b.Leads b'
  pending : b'.events.pendingEvents = b.events.pendingEvents
  raised : ∀ e, Raised b'.log e ↔ Raised b.log e
  masked : ∀ e, b.events.maskedEvents.Has e → b'.events.maskedEvents.Has e
  dispatched : ∀ e, Xtratum.dispatched b.log e ≤ Xtratum.dispatched b'.log e
  skipped : ∀ e, b.events.maskedEvents.Has e →
    Xtratum.dispatched b'.log e = Xtratum.dispatched b.log e
  waits : ∀ e, ev.Handles e → ¬b.events.maskedEvents.Has e →
    (∃ c, b.calls.getLast? = some c ∧ c.pending.Has e) →
      Xtratum.dispatched b.log e < Xtratum.dispatched b'.log e ∨
        ¬b'.events.maskedEvents.Has e ∧ ∃ c, b'.calls.getLast? = some c ∧ c.pending.Has e

section
variable {ev : EventHandling} {b b' b'' : Delivery} {e f g event : Event} {pending : Bitmap}
  {calls : List Batch} {op : HandlerOp}

theorem Leads.refl (b : Delivery) : b.Leads b := ⟨[], rfl⟩

theorem Leads.trans (h : b.Leads b') (h' : b'.Leads b'') : b.Leads b'' := by
  obtain ⟨acts, rfl⟩ := h
  obtain ⟨acts', rfl⟩ := h'
  exact ⟨acts ++ acts', run_append b acts acts'⟩

theorem Leads.step {a : SyncAct} (h : b.step a = some b') : b.Leads b' := by
  refine ⟨[a], ?_⟩
  simp only [run, h, Option.getD_some]

theorem Sound.leads (h : Sound ev b) (hl : b.Leads b') : Sound ev b' := by
  obtain ⟨acts, rfl⟩ := hl
  exact run_keeps (fun _ _ _ h hs => h.step hs) h acts

theorem After.refl (ev : EventHandling) (b : Delivery) : After ev b b :=
  ⟨.refl b, rfl, fun _ => Iff.rfl, fun _ h => h, fun _ => le_rfl, fun _ _ => rfl,
    fun _ _ hm hc => .inr ⟨hm, hc⟩⟩

theorem After.trans (h : After ev b b') (h' : After ev b' b'') : After ev b b'' where
  leads := h.leads.trans h'.leads
  pending := h'.pending.trans h.pending
  raised e := (h'.raised e).trans (h.raised e)
  masked e hm := h'.masked e (h.masked e hm)
  dispatched e := (h.dispatched e).trans (h'.dispatched e)
  skipped e hm := (h'.skipped e (h.masked e hm)).trans (h.skipped e hm)
  waits e hh hm hc := by
    rcases h.waits e hh hm hc with hlt | ⟨hm', hc'⟩
    · exact .inl (hlt.trans_le (h'.dispatched e))
    · rcases h'.waits e hh hm' hc' with hlt | hstill
      · exact .inl ((h.dispatched e).trans_lt hlt)
      · exact .inr hstill

theorem step_take (hcalls : b.calls = ⟨pending, none⟩ :: calls) :
    b.step .next = some (b.take pending calls) := by
  unfold step
  rw [hcalls]

theorem step_return (hcalls : b.calls = ⟨pending, some event⟩ :: calls) : b.step .next =
    some ⟨b.events.enableEventsFlag, ⟨pending, none⟩ :: calls, b.log⟩ := by
  unfold step
  rw [hcalls]

theorem step_handler (hcalls : b.calls = ⟨pending, some event⟩ :: calls) {h : Handler}
    (hh : b.events.eventHandler event = some h) (hmay : h.may b.events.togglesFlag op = true) :
    b.step (.handler op) = some (b.perform op) := by
  unfold step
  rw [hcalls]
  simp only [hh, hmay, if_true]

theorem after_return (hcalls : b.calls = ⟨pending, some event⟩ :: calls) :
    After ev b ⟨b.events.enableEventsFlag, ⟨pending, none⟩ :: calls, b.log⟩ := by
  refine ⟨.step (step_return hcalls), rfl, fun _ => Iff.rfl, fun _ h => h, fun _ => le_rfl,
    fun _ _ => rfl, fun e _ hm hc => .inr ⟨hm, ?_⟩⟩
  rw [hcalls] at hc
  exact outer_keep id hc

theorem after_drop (hsound : Sound ev b) (hcalls : b.calls = ⟨pending, none⟩ :: calls)
    (hnone : b.events.eventHandler event = none)
    (heq : b.take pending calls = { b with
      calls := ⟨pending.clearBit event, none⟩ :: calls, log := .drop event :: b.log }) :
    After ev b (b.take pending calls) := by
  rw [hsound.handler] at hnone
  refine ⟨.step (step_take hcalls), by rw [heq], fun e => by simp [heq],
    fun e h => by rw [heq]; exact h, fun e => by simp [heq], fun e _ => by simp [heq],
    fun e hh hm hc => .inr ⟨by rw [heq]; exact hm, ?_⟩⟩
  have hne : e ≠ event := by
    rintro rfl
    simp [Handles, hnone] at hh
  rw [hcalls] at hc
  rw [heq]
  exact outer_keep (fun hp => BitVec.has_clearBit.mpr ⟨hp, hne⟩) hc

theorem after_enter (hcalls : b.calls = ⟨pending, none⟩ :: calls)
    (hm : ¬b.events.maskedEvents.Has event)
    (heq : b.take pending calls =
      Delivery.enter { b with calls := ⟨pending.clearBit event, some event⟩ :: calls } event) :
    After ev b (b.take pending calls) := by
  refine ⟨.step (step_take hcalls), by rw [heq]; rfl, fun e => by simp [heq, Delivery.enter],
    fun e h => by rw [heq]; simp [Delivery.enter, h], fun e => by simp [heq, Delivery.enter],
    fun e h => ?_, fun e hh hm' hc => ?_⟩
  · have hne : event ≠ e := fun he => hm (he ▸ h)
    simp [heq, Delivery.enter, hne]
  · by_cases hev : event = e
    · exact .inl (by simp [heq, Delivery.enter, hev])
    · refine .inr ⟨by simp [heq, Delivery.enter, hm', Ne.symm hev], ?_⟩
      rw [hcalls] at hc
      rw [heq]
      exact outer_keep (fun hp => BitVec.has_clearBit.mpr ⟨hp, Ne.symm hev⟩) hc

theorem after_end (hcalls : b.calls = ⟨pending, none⟩ :: calls)
    (hall : ∀ e, pending.Has e → b.events.maskedEvents.Has e)
    (heq : b.take pending calls = { b with calls }) : After ev b (b.take pending calls) := by
  refine ⟨.step (step_take hcalls), by rw [heq], fun e => by rw [heq], fun e h => by rw [heq]; exact h,
    fun e => by rw [heq], fun e _ => by rw [heq], fun e _ hm hc => .inr ⟨by rw [heq]; exact hm, ?_⟩⟩
  rw [hcalls] at hc
  rw [heq]
  exact outer_pop (fun hp => hm (hall e hp)) hc

theorem loop_ends (n : Nat) (hsound : Sound ev b) (hcalls : b.calls = ⟨pending, none⟩ :: calls)
    (hn : pending.population < n) : ∃ b', After ev b b' ∧ b'.calls = calls := by
  induction n generalizing b pending with
  | zero => omega
  | succ n ih =>
    rcases take_cases b pending calls with ⟨hall, heq⟩ |
      ⟨event, hp, hm, -, ⟨hnone, heq⟩ | ⟨-, heq⟩⟩
    · exact ⟨_, after_end hcalls hall heq, by rw [heq]⟩
    · have hdrop : After ev b (b.take pending calls) := after_drop hsound hcalls hnone heq
      have hless := BitVec.population_clearBit hp
      obtain ⟨b', hb', hc⟩ := ih (hsound.leads hdrop.leads) (by rw [heq]) (by omega)
      exact ⟨b', hdrop.trans hb', hc⟩
    · have henter : After ev b (b.take pending calls) := after_enter hcalls hm heq
      have hback : After ev (b.take pending calls) _ :=
        @after_return _ _ event (pending.clearBit event) calls (by rw [heq]; rfl)
      have hless := BitVec.population_clearBit hp
      obtain ⟨b', hb', hc⟩ := ih (hsound.leads (henter.trans hback).leads) rfl (by omega)
      exact ⟨b', (henter.trans hback).trans hb', hc⟩

theorem call_ends (hsound : Sound ev b) {c : Batch} (hcalls : b.calls = c :: calls) :
    ∃ b', After ev b b' ∧ b'.calls = calls := by
  obtain ⟨pending, r⟩ := c
  cases r with
  | none => exact loop_ends _ hsound hcalls (Nat.lt_succ_self _)
  | some event =>
    have hback : After ev b _ := after_return hcalls
    obtain ⟨b', hb', hc⟩ := loop_ends _ (hsound.leads hback.leads) rfl (Nat.lt_succ_self _)
    exact ⟨b', hback.trans hb', hc⟩

theorem ends (hsound : Sound ev b) : ∃ b', After ev b b' ∧ b'.calls = [] := by
  generalize hcalls : b.calls = calls
  induction calls generalizing b with
  | nil => exact ⟨b, .refl ev b, hcalls⟩
  | cons c calls ih =>
    obtain ⟨b', hb', hc⟩ := call_ends hsound hcalls
    obtain ⟨b'', hb'', hend⟩ := ih (hsound.leads hb'.leads) hc
    exact ⟨b'', hb'.trans hb'', hend⟩

end

-- ---------------------------------------------------------------------------
-- Which handlers can run
-- ---------------------------------------------------------------------------

/-- The handler of `f` is running in the innermost call, and what is pending and has a
handler is masked. -/
structure Top (ev : EventHandling) (f : Event) (b : Delivery) : Prop where
  sound : Sound ev b
  top : ∃ pending calls, b.calls = ⟨pending, some f⟩ :: calls
  quiet : ∀ e, b.events.pendingEvents.Has e → ¬b.events.maskedEvents.Has e → ¬ev.Handles e

/-- What is done about other events does not touch `e`. -/
structure Untouched (e : Event) (b b' : Delivery) : Prop where
  dispatched : Xtratum.dispatched b'.log e = Xtratum.dispatched b.log e
  masked : b'.events.maskedEvents.Has e ↔ b.events.maskedEvents.Has e

section
variable {ev : EventHandling} {b b' b'' : Delivery} {e f g event : Event} {pending : Bitmap}
  {calls : List Batch} {op : HandlerOp}

theorem Untouched.refl (e : Event) (b : Delivery) : Untouched e b b := ⟨rfl, Iff.rfl⟩

theorem Untouched.trans (h : Untouched e b b') (h' : Untouched e b' b'') : Untouched e b b'' :=
  ⟨h'.dispatched.trans h.dispatched, h'.masked.trans h.masked⟩

theorem loop_turn (n : Nat) (hsound : Sound ev b) (hcalls : b.calls = ⟨pending, none⟩ :: calls)
    (hp : pending.Has f) (hm : ¬b.events.maskedEvents.Has f) (hh : ev.Handles f)
    (hn : pending.population < n) :
    ∃ b', After ev b b' ∧ (∃ pending', b'.calls = ⟨pending', some f⟩ :: calls) ∧
      Xtratum.dispatched b.log f < Xtratum.dispatched b'.log f ∧
      ∀ e ≠ f, (pending.Has e → ¬b.events.maskedEvents.Has e → ev.Handles e → f < e) →
        Untouched e b b' := by
  induction n generalizing b pending with
  | zero => omega
  | succ n ih =>
    rcases take_cases b pending calls with ⟨hall, -⟩ |
      ⟨event, hpe, hme, hfirst, ⟨hnone, heq⟩ | ⟨hsome, heq⟩⟩
    · exact absurd (hall f hp) hm
    · have hne : f ≠ event := by
        rintro rfl
        rw [hsound.handler] at hnone
        simp [Handles, hnone] at hh
      have hdrop : After ev b (b.take pending calls) := after_drop hsound hcalls hnone heq
      have hless := BitVec.population_clearBit hpe
      obtain ⟨b', hb', htop, hmore, hrest⟩ := @ih _ (pending.clearBit event)
        (hsound.leads hdrop.leads) (by rw [heq]) (by simp [hp, hne]) (by rw [heq]; exact hm)
        (by omega)
      refine ⟨b', hdrop.trans hb', htop, (hdrop.dispatched f).trans_lt hmore, fun e hef he => ?_⟩
      have hstep : Untouched e b (b.take pending calls) := ⟨by simp [heq], by rw [heq]⟩
      refine hstep.trans (hrest e hef fun hpe' hme' hhe => he ?_ ?_ hhe)
      · exact (BitVec.has_clearBit.mp hpe').1
      · rwa [heq] at hme'
    · have hhe : ev.Handles event := by rwa [hsound.handler] at hsome
      have henter : After ev b (b.take pending calls) := after_enter hcalls hme heq
      by_cases hev : event = f
      · subst hev
        refine ⟨_, henter, ⟨pending.clearBit event, by rw [heq]; rfl⟩,
          by simp [heq, Delivery.enter], fun e hne _ => ?_⟩
        exact ⟨by simp [heq, Delivery.enter, Ne.symm hne], by simp [heq, Delivery.enter, hne]⟩
      · have hback : After ev (b.take pending calls) _ :=
          @after_return _ _ event (pending.clearBit event) calls (by rw [heq]; rfl)
        have hless := BitVec.population_clearBit hpe
        have hmask (e : Event) : (b.take pending calls).events.maskedEvents.Has e ↔
            b.events.maskedEvents.Has e ∨ e = event := by simp [heq, Delivery.enter]
        have hlt : event < f := by
          refine lt_of_le_of_ne (not_lt.mp fun hlt => hm (hfirst f hlt hp)) hev
        obtain ⟨b', hb', htop, hmore, hrest⟩ := @ih _ (pending.clearBit event)
          (hsound.leads (henter.trans hback).leads) rfl (by simp [hp, Ne.symm hev])
          (fun hm' => ((hmask f).mp hm').elim hm (Ne.symm hev)) (by omega)
        refine ⟨b', (henter.trans hback).trans hb', htop,
          ((henter.trans hback).dispatched f).trans_lt hmore, fun e hef he => ?_⟩
        have hne : event ≠ e := fun h => by
          subst h
          exact absurd (he hpe hme hhe) (not_lt.mpr (le_of_lt hlt))
        have hstep : Untouched e b ⟨(b.take pending calls).events.enableEventsFlag,
            ⟨pending.clearBit event, none⟩ :: calls, (b.take pending calls).log⟩ := by
          refine ⟨by simp [heq, Delivery.enter, hne], ?_⟩
          simp [hmask, Ne.symm hne]
        refine hstep.trans (hrest e hef fun hpe' hme' hhe' => he ?_ ?_ hhe')
        · exact (BitVec.has_clearBit.mp hpe').1
        · exact fun hm' => hme' ((hmask e).mpr (.inl hm'))

/-- A running handler that may enable the flag can have the handler of any event called
that is not masked: the event is raised, and the flag enabled. -/
theorem nest (hsound : Sound ev b) (hcalls : b.calls = ⟨pending, some g⟩ :: calls)
    (ht : ev.togglesFlag = true) (hh : ev.Handles f) (hm : ¬b.events.maskedEvents.Has f)
    (hquiet : ∀ e ≠ f, b.events.pendingEvents.Has e → ¬b.events.maskedEvents.Has e →
      ¬ev.Handles e) :
    ∃ b', b.Leads b' ∧ Top ev f b' ∧ b'.calls.tail = b.calls ∧
      Xtratum.dispatched b.log f < Xtratum.dispatched b'.log f ∧
      (∀ e, Xtratum.dispatched b.log e ≤ Xtratum.dispatched b'.log e) ∧
      ∀ e ≠ f, Untouched e b b' ∧ (Raised b'.log e ↔ Raised b.log e) ∧
        (b.events.maskedEvents.Has e → b.events.pendingEvents.Has e →
          b'.events.pendingEvents.Has e) := by
  obtain ⟨hg, hhg⟩ : ∃ h, b.events.eventHandler g = some h := by
    have hrun := hsound.handled g (hsound.running _ (hcalls ▸ List.mem_cons_self) g rfl)
    rw [Handles, ← hsound.handler] at hrun
    exact Option.isSome_iff_exists.mp hrun
  -- the event is raised
  let b₁ := b.perform (.raise f)
  have hstep₁ : b.step (.handler (.raise f)) = some b₁ := step_handler hcalls hhg rfl
  have hsound₁ : Sound ev b₁ := hsound.step hstep₁
  have hpend₁ (e : Event) : b₁.events.pendingEvents.Has e ↔ b.events.pendingEvents.Has e ∨ e = f :=
    BitVec.has_setBit
  -- the flag is enabled
  let b₂ := b₁.perform .enableFlag
  have hstep₂ : b₁.step (.handler .enableFlag) = some b₂ :=
    @step_handler b₁ g pending calls .enableFlag hcalls hg hhg (hsound.toggles.trans ht)
  have hsound₂ : Sound ev b₂ := hsound₁.step hstep₂
  have hb₂ : b₂ = syncPending ⟨b₁.events.enableEventsFlag, b₁.calls,
      .did .enableFlag :: b₁.log⟩ := by
    refine if_pos ⟨enableEventsFlag_enabled _, BitVec.ne_zero_iff.mpr ⟨f, ?_⟩⟩
    exact (hpend₁ f).mpr (.inr rfl)
  have hcalls₂ : b₂.calls = ⟨b₁.events.pendingEvents, none⟩ :: b.calls := by rw [hb₂]; rfl
  have hmasked₂ : b₂.events.maskedEvents = b.events.maskedEvents := by rw [hb₂]; rfl
  have hpend₂ (e : Event) : b₂.events.pendingEvents.Has e ↔
      (b.events.pendingEvents.Has e ∨ e = f) ∧ b.events.maskedEvents.Has e := by
    rw [← hpend₁, hb₂]
    exact BitVec.has_and
  have hlog₂ (e : Event) : Xtratum.dispatched b₂.log e = Xtratum.dispatched b.log e ∧
      (e ≠ f → (Raised b₂.log e ↔ Raised b.log e)) := by
    refine ⟨by simp [b₂, b₁], fun hne => ?_⟩
    simp [b₂, b₁, Ne.symm hne]
  -- its turn comes
  obtain ⟨b', hafter, htop, hmore, hrest⟩ := loop_turn _ hsound₂ hcalls₂ ((hpend₁ f).mpr (.inr rfl))
    (by rw [hmasked₂]; exact hm) hh (Nat.lt_succ_self _)
  have hleads : b.Leads b' := ((Leads.step hstep₁).trans (.step hstep₂)).trans hafter.leads
  have hsound' : Sound ev b' := hsound.leads hleads
  obtain ⟨pending', htop⟩ := htop
  have hmono (e : Event) : Xtratum.dispatched b.log e ≤ Xtratum.dispatched b'.log e :=
    (hlog₂ e).1 ▸ hafter.dispatched e
  refine ⟨b', hleads, ⟨hsound', ⟨pending', _, htop⟩, fun e hp hm' => ?_⟩, by rw [htop]; rfl, ?_,
    hmono, fun e hne => ⟨?_, ?_, fun hme hpe => ?_⟩⟩
  · rw [hafter.pending, hpend₂] at hp
    exact absurd (hafter.masked e (by rw [hmasked₂]; exact hp.2)) hm'
  · rw [← (hlog₂ f).1]
    exact hmore
  · have hsame : Untouched e b₂ b' := by
      refine hrest e hne fun hpe hme hhe => absurd hhe ?_
      rw [hmasked₂] at hme
      exact hquiet e hne (((hpend₁ e).mp hpe).resolve_right hne) hme
    exact ⟨hsame.dispatched.trans (hlog₂ e).1, by rw [hsame.masked, hmasked₂]⟩
  · rw [hafter.raised, (hlog₂ e).2 hne]
  · rw [hafter.pending, hpend₂]
    exact ⟨.inl hpe, hme⟩

end

/-- A state in which the handler of `f` runs, and `e`, which was pending, has neither been
dispatched nor raised again. -/
structure RunsUntouched (ev : EventHandling) (e f : Event) (b : Delivery) : Prop where
  leads : Leads (syncPending ⟨ev, [], []⟩) b
  top : Top ev f b
  none : dispatched b.log e = 0 ∧ ¬Raised b.log e
  kept : ev.maskedEvents.Has e → b.events.maskedEvents.Has e ∧ b.events.pendingEvents.Has e

section
variable {ev : EventHandling} {b b' : Delivery} {e f g : Event}

theorem turn (hb : ev.Batched f) (hh : ev.Handles f) : ∃ b,
    Leads (syncPending ⟨ev, [], []⟩) b ∧ Top ev f b ∧ 0 < dispatched b.log f ∧
      (∀ e, ¬Raised b.log e ∧ (b.events.pendingEvents.Has e ↔
        ev.pendingEvents.Has e ∧ ev.maskedEvents.Has e)) ∧
      ∀ e ≠ f, (ev.Batched e → ev.Handles e → f < e) →
        dispatched b.log e = 0 ∧ (b.events.maskedEvents.Has e ↔ ev.maskedEvents.Has e) := by
  obtain ⟨b, hafter, ⟨pending, hcalls⟩, hmore, hrest⟩ :=
    loop_turn _ (syncPending_sound ev) rfl hb.1 hb.2 hh (Nat.lt_succ_self _)
  have hpend (e : Event) : b.events.pendingEvents.Has e ↔
      ev.pendingEvents.Has e ∧ ev.maskedEvents.Has e := by
    rw [hafter.pending]
    exact BitVec.has_and
  refine ⟨b, hafter.leads, ⟨(syncPending_sound ev).leads hafter.leads, ⟨pending, [], hcalls⟩,
    fun e hp hm => ?_⟩, Nat.zero_lt_of_lt hmore, fun e => ⟨?_, hpend e⟩, fun e hne he => ?_⟩
  · exact absurd (hafter.masked e ((hpend e).mp hp).2) hm
  · rw [hafter.raised]
    exact raised_nil
  · obtain ⟨hdone, hm⟩ := hrest e hne fun hp hm hhe => he ⟨hp, hm⟩ hhe
    exact ⟨hdone, hm⟩

theorem turn_untouched (hb : ev.Batched f) (hh : ev.Handles f) (hne : f ≠ e)
    (he : ev.Batched e → f < e) (hp : ev.pendingEvents.Has e) :
    ∃ b, RunsUntouched ev e f b := by
  obtain ⟨b, hleads, htop, -, hpend, hrest⟩ := turn hb hh
  obtain ⟨hdone, hm⟩ := hrest e hne.symm fun hbe _ => he hbe
  exact ⟨b, hleads, htop, ⟨hdone, (hpend e).1⟩, fun hme => ⟨hm.mpr hme, (hpend e).2.mpr ⟨hp, hme⟩⟩⟩

theorem RunsUntouched.nest (h : RunsUntouched ev e g b) (ht : ev.togglesFlag = true)
    (hh : ev.Handles f) (hne : f ≠ e) (hm : ¬b.events.maskedEvents.Has f) :
    ∃ b, RunsUntouched ev e f b := by
  obtain ⟨pending, calls, hcalls⟩ := h.top.top
  obtain ⟨b', hleads, htop, -, -, -, hrest⟩ :=
    Delivery.nest h.top.sound hcalls ht hh hm fun e _ => h.top.quiet e
  obtain ⟨hsame, hraised, hpend⟩ := hrest e hne.symm
  refine ⟨b', h.leads.trans hleads, htop, ⟨hsame.dispatched.trans h.none.1, ?_⟩, fun hme => ?_⟩
  · rw [hraised]
    exact h.none.2
  · obtain ⟨hm', hp'⟩ := h.kept hme
    exact ⟨hsame.masked.mpr hm', hpend hm' hp'⟩

theorem nest_unmasked (htop : Top ev g b) (ht : ev.togglesFlag = true) (hu : ev.Unmasks g f)
    (hh : ev.Handles f) : ∃ b', b.Leads b' ∧ Top ev f b' ∧
      dispatched b.log f < dispatched b'.log f ∧
      (∀ e, dispatched b.log e ≤ dispatched b'.log e) ∧
      ∀ e ≠ f, Untouched e b b' ∧ (Raised b'.log e ↔ Raised b.log e) ∧
        (b.events.maskedEvents.Has e → b.events.pendingEvents.Has e →
          b'.events.pendingEvents.Has e) := by
  obtain ⟨hsound, ⟨pending, calls, hcalls⟩, hquiet⟩ := htop
  obtain ⟨h, hg, hm⟩ := hu
  have hstep : b.step (.handler (.unmask f)) = some (b.perform (.unmask f)) :=
    step_handler hcalls (hsound.handler ▸ hg) (decide_eq_true hm)
  have hmasked (e : Event) : (b.perform (.unmask f)).events.maskedEvents.Has e ↔
      b.events.maskedEvents.Has e ∧ e ≠ f := BitVec.has_clearBit
  obtain ⟨b', hleads, htop, -, hmore, hmono, hrest⟩ :=
    Delivery.nest (f := f) (hsound.step hstep) hcalls ht hh (fun hm => ((hmasked f).mp hm).2 rfl)
      fun e hne hp hm => hquiet e hp fun hm' => hm ((hmasked e).mpr ⟨hm', hne⟩)
  refine ⟨b', (Leads.step hstep).trans hleads, htop, by simpa using hmore, by simpa using hmono,
    fun e hne => ?_⟩
  obtain ⟨hsame, hraised, hpend⟩ := hrest e hne
  refine ⟨⟨by simpa using hsame.dispatched, ?_⟩, by simpa using hraised, fun hm hp => ?_⟩
  · rw [hsame.masked, hmasked]
    simp [hne]
  · exact hpend ((hmasked e).mpr ⟨hm, hne⟩) hp

theorem runsBefore_first (h : ev.RunsBefore e f) :
    ∃ f₀, ev.Batched f₀ ∧ ev.Handles f₀ ∧ f₀ ≠ e ∧ (ev.Batched e → f₀ < e) := by
  induction h with
  | turn hb hh hne hlt => exact ⟨_, hb, hh, hne, hlt⟩
  | nested _ _ _ _ _ ih => exact ih
  | unmasked _ _ _ _ _ ih => exact ih

theorem runsBefore_runs (hp : ev.pendingEvents.Has e) (h : ev.RunsBefore e f) :
    ∃ b, RunsUntouched ev e f b := by
  induction h with
  | turn hb hh hne hlt => exact turn_untouched hb hh hne hlt hp
  | @nested g f ht hg hh hne hm _ =>
    by_cases hearly : ev.Batched f ∧ (ev.Batched e → f < e)
    · exact turn_untouched hearly.1 hh hne hearly.2 hp
    · obtain ⟨f₀, hb₀, hh₀, hne₀, hlt₀⟩ := runsBefore_first hg
      have hff₀ : f ≠ f₀ := by
        rintro rfl
        exact hearly ⟨hb₀, hlt₀⟩
      obtain ⟨b, hleads, htop, -, hpend, hrest⟩ := turn hb₀ hh₀
      have hlater : ev.Batched f → f₀ < f := by
        intro hb
        by_cases hbe : ev.Batched e
        · have hle : ¬f < e := fun hlt => hearly ⟨hb, fun _ => hlt⟩
          exact (hlt₀ hbe).trans_le (not_lt.mp hle)
        · exact absurd ⟨hb, fun hbe' => absurd hbe' hbe⟩ hearly
      obtain ⟨hdone, hme⟩ := hrest e hne₀.symm fun hbe _ => hlt₀ hbe
      have huntouched : RunsUntouched ev e f₀ b := ⟨hleads, htop, ⟨hdone, (hpend e).1⟩,
        fun hme' => ⟨hme.mpr hme', (hpend e).2.mpr ⟨hp, hme'⟩⟩⟩
      refine huntouched.nest ht hh hne fun hmf => hm ?_
      exact (hrest f hff₀ fun hb _ => hlater hb).2.mp hmf
  | @unmasked g f ht _ hu hh hne ih =>
    obtain ⟨b, h⟩ := ih
    obtain ⟨b', hleads, htop, -, -, hrest⟩ := nest_unmasked h.top ht hu hh
    obtain ⟨hsame, hraised, hpend⟩ := hrest e hne.symm
    refine ⟨b', h.leads.trans hleads, htop, ⟨hsame.dispatched.trans h.none.1, ?_⟩, fun hme => ?_⟩
    · rw [hraised]
      exact h.none.2
    · obtain ⟨hm', hp'⟩ := h.kept hme
      exact ⟨hsame.masked.mpr hm', hpend hm' hp'⟩

theorem runsNested_runs (ht : ev.togglesFlag = true) (hb : ev.Batched e) (hhe : ev.Handles e)
    (h : ev.RunsNested f) : ∃ b, Leads (syncPending ⟨ev, [], []⟩) b ∧ Top ev f b ∧
      0 < dispatched b.log e := by
  induction h with
  | @nested f hh hm =>
    obtain ⟨f₀, ⟨hb₀, hh₀⟩, hfirst⟩ : ∃ f₀, (ev.Batched f₀ ∧ ev.Handles f₀) ∧
        ∀ x, ev.Batched x ∧ ev.Handles x → ¬x < f₀ :=
      (wellFounded_lt (α := Event)).has_min {x | ev.Batched x ∧ ev.Handles x} ⟨e, hb, hhe⟩
    have hlater (x : Event) (hne : x ≠ f₀) (hbx : ev.Batched x) (hhx : ev.Handles x) : f₀ < x :=
      lt_of_le_of_ne (not_lt.mp (hfirst x ⟨hbx, hhx⟩)) (Ne.symm hne)
    obtain ⟨b₀, hleads₀, htop₀, hrun₀, -, hrest₀⟩ := turn hb₀ hh₀
    have hfree (x : Event) (hne : x ≠ f₀) (hmx : ¬ev.maskedEvents.Has x) :
        ¬b₀.events.maskedEvents.Has x :=
      fun h => hmx ((hrest₀ x hne fun hbx hhx => hlater x hne hbx hhx).2.mp h)
    -- the handler of `e` runs, in its turn or called from the first one
    obtain ⟨b₁, hleads₁, htop₁, hrun₁, hback, hfree₁⟩ : ∃ b₁,
        Leads (syncPending ⟨ev, [], []⟩) b₁ ∧ Top ev e b₁ ∧ 0 < dispatched b₁.log e ∧
        (e ≠ f₀ → b₁.calls.tail = b₀.calls) ∧
        (∀ x, x ≠ f₀ → x ≠ e → ¬ev.maskedEvents.Has x → ¬b₁.events.maskedEvents.Has x) := by
      by_cases hef : e = f₀
      · subst hef
        exact ⟨b₀, hleads₀, htop₀, hrun₀, fun hne => absurd rfl hne, fun x hne _ => hfree x hne⟩
      · obtain ⟨pending, calls, hcalls⟩ := htop₀.top
        obtain ⟨b₁, hleads, htop, htail, hmore, -, hrest⟩ := Delivery.nest htop₀.sound hcalls ht hhe
          (hfree e hef hb.2) fun x _ => htop₀.quiet x
        refine ⟨b₁, hleads₀.trans hleads, htop, Nat.zero_lt_of_lt hmore, fun _ => htail,
          fun x hne hxe hmx hmx' => ?_⟩
        exact hfree x hne hmx ((hrest x hxe).1.masked.mp hmx')
    by_cases hfe : f = e
    · subst hfe
      exact ⟨b₁, hleads₁, htop₁, hrun₁⟩
    by_cases hff₀ : f = f₀
    · -- the call that it made is over
      subst hff₀
      obtain ⟨pending, calls, hcalls⟩ := htop₁.top
      have htail : calls = b₀.calls := by rw [← hback (Ne.symm hfe), hcalls]; rfl
      obtain ⟨b₂, hafter, hcalls₂⟩ := call_ends htop₁.sound hcalls
      refine ⟨b₂, hleads₁.trans hafter.leads, ⟨htop₁.sound.leads hafter.leads, ?_, fun x hp hm' => ?_⟩,
        hrun₁.trans_le (hafter.dispatched e)⟩
      · rw [hcalls₂, htail]
        exact htop₀.top
      · rw [hafter.pending] at hp
        exact htop₁.quiet x hp fun hm'' => hm' (hafter.masked x hm'')
    · obtain ⟨pending, calls, hcalls⟩ := htop₁.top
      obtain ⟨b₂, hleads, htop, -, -, hmono, -⟩ := Delivery.nest htop₁.sound hcalls ht hh
        (hfree₁ f hff₀ hfe hm) fun x _ => htop₁.quiet x
      exact ⟨b₂, hleads₁.trans hleads, htop, hrun₁.trans_le (hmono e)⟩
  | unmasked _ hu hh ih =>
    obtain ⟨b, hleads, htop, hrun⟩ := ih
    obtain ⟨b', hleads', htop', -, hmono, -⟩ := nest_unmasked htop ht hu hh
    exact ⟨b', hleads.trans hleads', htop', hrun.trans_le (hmono e)⟩

/-- The handler of `f` masks `e` before its turn, and `e` is lost. -/
theorem masks_loses (hb : ev.Batched e) (hh : ev.Handles e) (hr : ev.RunsBefore e f)
    (hm : ev.Masks f e) : ∃ b, Leads (syncPending ⟨ev, [], []⟩) b ∧ b.calls = [] ∧
      ∀ fate : Fate, ¬fate.Holds ev b.events b.log e := by
  obtain ⟨b, hleads, ⟨hsound, ⟨pending, calls, hcalls⟩, -⟩, ⟨hnone, hraised⟩, -⟩ :=
    runsBefore_runs hb.1 hr
  obtain ⟨h', hf, hmf⟩ := hm
  have hstep : b.step (.handler (.mask e)) = some (b.perform (.mask e)) :=
    step_handler hcalls (hsound.handler ▸ hf) (decide_eq_true hmf)
  obtain ⟨b', hafter, hend⟩ := ends (hsound.step hstep)
  have hdone : dispatched b'.log e = 0 := by
    rw [hafter.skipped e (perform_masked.mpr (.inl rfl)), perform_log, dispatched_did]
    exact hnone
  have hgone : ¬b'.events.pendingEvents.Has e := by
    intro hp
    rw [hafter.pending] at hp
    exact hb.2 (hsound.fresh e hraised hp).2
  refine ⟨b', (hleads.trans (.step hstep)).trans hafter.leads, hend, fun fate hfate => ?_⟩
  cases fate with
  | dispatched => simp [Fate.Holds, hdone] at hfate
  | dropped => exact handles_ne_none hh hfate.1
  | left => exact hgone hfate.2.2

/-- The handler of `f` unmasks `e`, which is dispatched and keeps its pending bit. -/
theorem unmasks_repeats (hp : ev.pendingEvents.Has e) (hme : ev.maskedEvents.Has e)
    (hh : ev.Handles e) (hr : ev.RunsBefore e f) (hu : ev.Unmasks f e) :
    ∃ b, Leads (syncPending ⟨ev, [], []⟩) b ∧ b.calls = [] ∧
      ∀ fate : Fate, ¬fate.Holds ev b.events b.log e := by
  obtain ⟨b, hleads, ⟨hsound, ⟨pending, calls, hcalls⟩, -⟩, ⟨hnone, hraised⟩, hkept⟩ :=
    runsBefore_runs hp hr
  obtain ⟨h', hf, huf⟩ := hu
  have hstep : b.step (.handler (.unmask e)) = some (b.perform (.unmask e)) :=
    step_handler hcalls (hsound.handler ▸ hf) (decide_eq_true huf)
  have hfree : ¬(b.perform (.unmask e)).events.maskedEvents.Has e :=
    fun hm => (BitVec.has_clearBit.mp hm).2 rfl
  obtain ⟨c, hc⟩ : ∃ c, (b.perform (.unmask e)).calls.getLast? = some c := by
    rw [perform_outer hcalls, hcalls]
    exact ⟨_, List.getLast?_eq_some_getLast (List.cons_ne_nil _ _)⟩
  have hwaits := (hsound.step hstep).stays c hc e hp hh (by simpa using hnone)
  obtain ⟨b', hafter, hend⟩ := ends (hsound.step hstep)
  have hdone : 0 < dispatched b'.log e := by
    rcases hafter.waits e hh hfree ⟨c, hc, hwaits⟩ with hlt | ⟨-, c', hc', -⟩
    · exact Nat.zero_lt_of_lt hlt
    · rw [hend] at hc'
      cases hc'
  have hstill : b'.events.pendingEvents.Has e := by
    rw [hafter.pending]
    exact (hkept hme).2
  have hraised' : ¬Raised b'.log e := by
    rw [hafter.raised]
    simpa using hraised
  refine ⟨b', (hleads.trans (.step hstep)).trans hafter.leads, hend, fun fate hfate => ?_⟩
  cases fate with
  | dispatched => exact hfate.2 hraised' hstill
  | dropped => exact handles_ne_none hh hfate.1
  | left => exact absurd hfate.1 (by omega)

/-- `e` is dispatched, unmasked by the handler of `f` and dispatched again. -/
theorem unmasks_twice (ht : ev.togglesFlag = true) (hb : ev.Batched e) (hh : ev.Handles e)
    (hr : ev.RunsNested f) (hu : ev.Unmasks f e) : ∃ b, Leads (syncPending ⟨ev, [], []⟩) b ∧
      b.calls = [] ∧ ∀ fate : Fate, ¬fate.Holds ev b.events b.log e := by
  obtain ⟨b, hleads, htop, hrun⟩ := runsNested_runs ht hb hh hr
  obtain ⟨b', hleads', htop', hmore, -, -⟩ := nest_unmasked htop ht hu hh
  obtain ⟨b'', hafter, hend⟩ := ends htop'.sound
  have htwo : 1 < dispatched b''.log e := by
    have hle := hafter.dispatched e
    omega
  refine ⟨b'', (hleads.trans hleads').trans hafter.leads, hend, fun fate hfate => ?_⟩
  cases fate with
  | dispatched => exact absurd hfate.1 (by omega)
  | dropped => exact handles_ne_none hh hfate.1
  | left => exact absurd hfate.1 (by omega)

/-- Calls whose events all have a fate are made by handlers that leave the masks alone. -/
theorem leavesMasks_of_fates (h : ∀ b, Leads (syncPending ⟨ev, [], []⟩) b → b.calls = [] →
    ∀ e, ev.pendingEvents.Has e → ∃ f : Fate, f.Holds ev b.events b.log e) : ev.LeavesMasks := by
  have hfated (e : Event) (hp : ev.pendingEvents.Has e) : ¬∃ b,
      Leads (syncPending ⟨ev, [], []⟩) b ∧ b.calls = [] ∧
        ∀ fate : Fate, ¬fate.Holds ev b.events b.log e := by
    rintro ⟨b, hleads, hend, hno⟩
    obtain ⟨fate, hfate⟩ := h b hleads hend e hp
    exact hno fate hfate
  exact ⟨fun e f hb hh hr hm => hfated e hb.1 (masks_loses hb hh hr hm),
    fun e f hp hme hh hr hu => hfated e hp (unmasks_repeats hp hme hh hr hu),
    fun ht e f hb hh hr hu => hfated e hb.1 (unmasks_twice ht hb hh hr hu)⟩

end

end Delivery

-- ---------------------------------------------------------------------------
-- Whole calls
-- ---------------------------------------------------------------------------

theorem run_idle {b : Delivery} (h : b.calls = []) (acts : List SyncAct) : b.run acts = b := by
  have hstep (a : SyncAct) : b.step a = none := by rw [Delivery.step, h]
  induction acts with
  | nil => rfl
  | cons a acts ih => rw [Delivery.run, hstep, Option.getD_none, ih]

theorem syncEvents_settled {d : Domain} {isRoot : Bool} (hsync : Synchronises d isRoot)
    (hl : d.events.LeavesMasks) (acts : List SyncAct) :
    Delivery.Sound d.events (syncEvents d isRoot acts) ∧
      Delivery.Settled d.events (syncEvents d isRoot acts) := by
  rcases syncStart_eq d isRoot with ⟨-, heq⟩ | ⟨hidle, -⟩
  · rw [syncEvents, heq]
    exact Delivery.run_keeps (I := fun b => Delivery.Sound d.events b ∧ Delivery.Settled d.events b)
      (fun b a b' hb hs => ⟨hb.1.step hs, hb.2.step hb.1 hl hs⟩)
      ⟨Delivery.syncPending_sound d.events, Delivery.syncPending_settled d.events⟩ acts
  · exact absurd hsync hidle

theorem delivered_idle (ev : EventHandling) : Delivered ev ev [] := by
  refine ⟨fun e hp => ⟨.left, ⟨rfl, rfl, hp⟩, fun f hf => ?_⟩, by simp, by simp⟩
  cases f with
  | dispatched => simp [Fate.Holds] at hf
  | dropped => exact absurd hp (hf.2.resolve_left (by simp))
  | left => rfl

theorem syncEvents_ends (d : Domain) (isRoot : Bool) (acts : List SyncAct) :
    ∃ acts', (syncEvents d isRoot (acts ++ acts')).calls = [] := by
  rcases syncStart_eq d isRoot with ⟨-, heq⟩ | ⟨-, heq⟩
  · have hsound := (Delivery.syncPending_sound d.events).leads ⟨acts, rfl⟩
    obtain ⟨b', hafter, hend⟩ := Delivery.ends hsound
    obtain ⟨acts', rfl⟩ := hafter.leads
    exact ⟨acts', by rw [syncEvents, heq, Delivery.run_append]; exact hend⟩
  · exact ⟨[], by rw [syncEvents, heq, run_idle rfl]⟩

/-- In every call, whatever its handlers do of what they may, every event pending at entry has
one of the three fates at the end, exactly when the handlers that can run leave the masks of
the events with a handler alone. -/
theorem events_delivered (d : Domain) (isRoot : Bool) :
    (∀ acts, (syncEvents d isRoot acts).calls = [] →
      Delivered d.events (syncEvents d isRoot acts).events (syncEvents d isRoot acts).log) ↔
    (Synchronises d isRoot → d.events.LeavesMasks) := by
  rcases syncStart_eq d isRoot with ⟨hsync, heq⟩ | ⟨hidle, heq⟩
  · constructor
    · intro h _
      refine Delivery.leavesMasks_of_fates fun b hleads hend e hp => ?_
      obtain ⟨acts, rfl⟩ := hleads
      have hcall : syncEvents d isRoot acts =
          (Delivery.syncPending ⟨d.events, [], []⟩).run acts := by rw [syncEvents, heq]
      have hdelivered := h acts (by rw [hcall]; exact hend)
      rw [hcall] at hdelivered
      exact (hdelivered.fate e hp).exists
    · intro h acts hend
      obtain ⟨hsound, hsettled⟩ := syncEvents_settled hsync (h hsync) acts
      exact ⟨fun e hp => hsettled.fate hsound hend hp, hsound.unhandled, hsound.entered⟩
  · simp only [syncEvents, heq]
    refine ⟨fun _ hsync => absurd hsync hidle, fun _ acts _ => ?_⟩
    rw [run_idle rfl]
    exact delivered_idle d.events

-- ---------------------------------------------------------------------------
-- A handler that masks a waiting event
-- ---------------------------------------------------------------------------

/-- Events 0 and 1 are pending and unmasked; the handler of event 0 may mask event 1. -/
def maskingDomain : Domain where
  priority := 0
  events :=
    { pendingEvents := 3
      eventHandler := fun e => some { masks := if e = 0 then 2 else 0 }
      eventFlags := eventsEnabled }

/-- The handler of event 0 is entered, masks event 1 and returns, and the loop ends. -/
def maskingActs : List SyncAct := [.next, .handler (.mask 1), .next, .next]

/-- Event 1 is neither dispatched nor pending any more. -/
theorem event_lost : maskingDomain.events.pendingEvents.Has 1 ∧
    (syncEvents maskingDomain true maskingActs).calls = [] ∧
    dispatched (syncEvents maskingDomain true maskingActs).log 1 = 0 ∧
    ¬(syncEvents maskingDomain true maskingActs).events.pendingEvents.Has 1 ∧
    ¬Delivered maskingDomain.events (syncEvents maskingDomain true maskingActs).events
      (syncEvents maskingDomain true maskingActs).log := by
  have hpending : maskingDomain.events.pendingEvents.Has 1 := by decide
  have hend : (syncEvents maskingDomain true maskingActs).calls.isEmpty ∧
      dispatched (syncEvents maskingDomain true maskingActs).log 1 = 0 ∧
      ¬(syncEvents maskingDomain true maskingActs).events.pendingEvents.Has 1 := by
    decide +kernel
  obtain ⟨hend, hdispatched, hgone⟩ := hend
  refine ⟨hpending, List.isEmpty_iff.mp hend, hdispatched, hgone, fun h => ?_⟩
  obtain ⟨f, hf, -⟩ := h.fate 1 hpending
  cases f with
  | dispatched => simp [Fate.Holds, hdispatched] at hf
  | dropped => cases hf.1
  | left => exact hgone hf.2.2

end Xmertl.Xtratum
