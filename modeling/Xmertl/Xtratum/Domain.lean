import Xmertl.Lib.Bitmap

/-!
# XtratuM domains

The fields of `domain.h` and `events.h` that the scheduler and the event
delivery work on, and the macros of these headers and of `bitmap.h`.

A handler is known by what it may do to its domain's events.
-/

namespace Xmertl.Xtratum

abbrev Bitmap := BitVec 32

/-- MAX_EVENTS is 32. -/
abbrev Event := Fin 32

instance instNeZeroEvents : @NeZero Nat Zero.ofOfNat0 32 := ⟨Nat.succ_ne_zero 31⟩

inductive HandlerOp
  | mask (event : Event)
  | unmask (event : Event)
  | raise (event : Event)
  | enableFlag
  | disableFlag
  deriving DecidableEq

inductive Occurrence
  /-- A handler is entered: the masked events when its event was taken, and the flags. -/
  | dispatch (event : Event) (masked flags : Bitmap)
  /-- An event is taken that has no handler. -/
  | drop (event : Event)
  | did (op : HandlerOp)
  deriving DecidableEq

/-- The events that a handler may mask and unmask. -/
structure Handler where
  masks : Bitmap := 0
  unmasks : Bitmap := 0

structure EventHandling where
  interceptedEvents : Bitmap := 0
  maskedEvents : Bitmap := 0
  pendingEvents : Bitmap := 0
  eventHandler : Event → Option Handler := fun _ => none
  eventFlags : Bitmap := 0
  /-- Its handlers may enable the events flag themselves. -/
  togglesFlag : Bool := true

structure Domain where
  priority : Nat
  flags : Bitmap := 0
  events : EventHandling := {}

def stateMask : Bitmap := 0xF
def domainActive : Bitmap := 0x0
def domainSuspended : Bitmap := 0x1
def domainFinished : Bitmap := 0x2

def eventsEnabled : Bitmap := 0x10

def getDomainState (d : Domain) : Bitmap := d.flags &&& stateMask

def setDomainState (d : Domain) (state : Bitmap) : Domain :=
  { d with flags := d.flags &&& ~~~stateMask ||| state }

namespace EventHandling

def enableEventsFlag (ev : EventHandling) : EventHandling :=
  { ev with eventFlags := ev.eventFlags ||| eventsEnabled }

def disableEventsFlag (ev : EventHandling) : EventHandling :=
  { ev with eventFlags := ev.eventFlags &&& ~~~eventsEnabled }

def isEventsFlagEnabled (ev : EventHandling) : Bool := ev.eventFlags &&& eventsEnabled ≠ 0

end EventHandling

def getDomainPendingEvents (pending mask : Bitmap) : Bitmap := ~~~mask &&& pending

/-- `_ffs`, with `none` for -1. -/
def ffs (x : Bitmap) : Option Event := x.first

def getNextSetBitAndClear (pending mask : Bitmap) : Option Event × Bitmap :=
  match ffs (getDomainPendingEvents pending mask) with
  | some pos => (some pos, pending.clearBit pos)
  | none => (none, pending)

def insertDomainList (node : Domain) : List Domain → List Domain
  | [] => [node]
  | p :: ps => if node.priority < p.priority then node :: p :: ps else p :: insertDomainList node ps

theorem getDomainState_setDomainState (d : Domain) (h : state &&& stateMask = state) :
    getDomainState (setDomainState d state) = state := by
  refine BitVec.eq_of_has fun i => ?_
  have hi : (state &&& stateMask).Has i ↔ state.Has i := by rw [h]
  simp only [BitVec.has_and] at hi
  simp only [getDomainState, setDomainState, BitVec.has_and, BitVec.has_or, BitVec.has_not]
  grind

theorem disableEventsFlag_disabled (ev : EventHandling) :
    ev.disableEventsFlag.isEventsFlagEnabled = false := by
  simp only [EventHandling.isEventsFlagEnabled, decide_eq_false_iff_not, ne_eq, not_not]
  refine BitVec.eq_of_has fun i => ?_
  simp [EventHandling.disableEventsFlag, BitVec.has_and]

theorem enableEventsFlag_enabled (ev : EventHandling) :
    ev.enableEventsFlag.isEventsFlagEnabled = true := by
  simp only [EventHandling.isEventsFlagEnabled, decide_eq_true_eq]
  refine BitVec.ne_zero_iff.mpr ⟨4, ?_⟩
  simp only [EventHandling.enableEventsFlag, BitVec.has_and, BitVec.has_or]
  exact ⟨.inr (by decide), by decide⟩

@[simp] theorem enableEventsFlag_rest (ev : EventHandling) :
    ev.enableEventsFlag.interceptedEvents = ev.interceptedEvents ∧
    ev.enableEventsFlag.maskedEvents = ev.maskedEvents ∧
    ev.enableEventsFlag.pendingEvents = ev.pendingEvents ∧
    ev.enableEventsFlag.eventHandler = ev.eventHandler := ⟨rfl, rfl, rfl, rfl⟩

@[simp] theorem disableEventsFlag_rest (ev : EventHandling) :
    ev.disableEventsFlag.interceptedEvents = ev.interceptedEvents ∧
    ev.disableEventsFlag.maskedEvents = ev.maskedEvents ∧
    ev.disableEventsFlag.pendingEvents = ev.pendingEvents ∧
    ev.disableEventsFlag.eventHandler = ev.eventHandler := ⟨rfl, rfl, rfl, rfl⟩

section
variable {pending mask : Bitmap}

theorem getNextSetBitAndClear_some (h : getNextSetBitAndClear pending mask = (some e, pending')) :
    pending.Has e ∧ ¬mask.Has e ∧ pending' = pending.clearBit e := by
  unfold getNextSetBitAndClear at h
  split at h
  · rename_i pos hpos
    simp only [Prod.mk.injEq, Option.some.injEq] at h
    obtain ⟨rfl, rfl⟩ := h
    have hhas := BitVec.has_of_first hpos
    simp only [getDomainPendingEvents, BitVec.has_and, BitVec.has_not] at hhas
    exact ⟨hhas.2, hhas.1, rfl⟩
  · simp at h

theorem getNextSetBitAndClear_first (h : getNextSetBitAndClear pending mask = (some event, pending'))
    (he : e < event) (hp : pending.Has e) : mask.Has e := by
  unfold getNextSetBitAndClear at h
  split at h
  · rename_i pos hpos
    simp only [Prod.mk.injEq, Option.some.injEq] at h
    have hnot := BitVec.not_has_of_lt_first hpos (h.1 ▸ he)
    simp only [getDomainPendingEvents, BitVec.has_and, BitVec.has_not] at hnot
    grind
  · simp at h

theorem getNextSetBitAndClear_none (h : (getNextSetBitAndClear pending mask).1 = none)
    (he : pending.Has e) : mask.Has e := by
  unfold getNextSetBitAndClear at h
  split at h
  · simp at h
  · rename_i hnone
    have hnot := BitVec.first_eq_none.mp hnone e
    simp only [getDomainPendingEvents, BitVec.has_and, BitVec.has_not] at hnot
    grind

end

end Xmertl.Xtratum
