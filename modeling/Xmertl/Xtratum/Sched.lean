import Xmertl.Xtratum.Irqs

/-!
# The domain scheduler

`xm_sched` of `sched.c`. The domain list is walked from its head; each domain
hands the events it does not intercept to its successor before it is tested. The
last domain of the list is the root domain.
-/

namespace Xmertl.Xtratum

/-- `xm_domain_list`, and `xm_current_domain` as its place in the list. -/
structure System where
  domains : List Domain
  current : Nat

def Domain.setPending (d : Domain) (pending : Bitmap) : Domain :=
  { d with events := { d.events with pendingEvents := pending } }

/-- "Bypassing all not intercepted events to the next domain in the list". -/
def bypass (d next : Domain) : Domain × Domain :=
  let pending := d.events.pendingEvents
  let intercepted := d.events.interceptedEvents
  if getDomainState d ≠ domainFinished then
    (d.setPending (pending &&& intercepted),
      next.setPending (next.events.pendingEvents ||| (pending &&& ~~~intercepted)))
  else (d.setPending 0, next.setPending (next.events.pendingEvents ||| pending))

def isSelected (d : Domain) : Bool :=
  getDomainState d = domainActive ∨
    getDomainState d = domainSuspended ∧ d.events.isEventsFlagEnabled ∧
      getDomainPendingEvents d.events.pendingEvents d.events.maskedEvents ≠ 0

/-- The walk from `d` on: the domains afterwards, and which one ended it. -/
def walkFrom (d : Domain) : List Domain → List Domain × Option Nat
  | [] => ([d], if isSelected d then some 0 else none)
  | next :: rest =>
    let (d, next) := bypass d next
    if isSelected d then (d :: next :: rest, some 0)
    else
      let (ds, sel) := walkFrom next rest
      (d :: ds, sel.map (· + 1))

def walk : List Domain → List Domain × Option Nat
  | [] => ([], none)
  | d :: ds => walkFrom d ds

/-- `xm_sched`, with its result and what the handlers have done, as far as `acts` take the
call of `sync_events`. A domain that is switched to goes on behind its own
`domain_context_switch`. -/
def xmSched (s : System) (acts : List SyncAct) : System × Nat × List Occurrence :=
  let (domains, sel) := walk s.domains
  let rootDomain := domains.length - 1
  let current := sel.getD rootDomain
  let domains := domains.modify current (setDomainState · domainActive)
  match domains[current]? with
  | none => ({ domains, current }, 0, [])
  | some d =>
    if d.events.isEventsFlagEnabled then
      let b := syncEvents d (current = rootDomain) acts
      ({ domains := domains.modify current ({ · with events := b.events }), current }, 1, b.log)
    else ({ domains, current }, 0, [])

/-- Events of kind `e` go past `d` to its successor. -/
def Domain.Passes (d : Domain) (e : Event) : Prop :=
  getDomainState d = domainFinished ∨ ¬d.events.interceptedEvents.Has e

-- ---------------------------------------------------------------------------
-- One domain of the walk
-- ---------------------------------------------------------------------------

section
variable {d next : Domain} {e : Event}

theorem bypass_rest (d next : Domain) :
    (bypass d next).1 = d.setPending (bypass d next).1.events.pendingEvents ∧
    (bypass d next).2 = next.setPending (bypass d next).2.events.pendingEvents := by
  unfold bypass
  simp only
  split <;> exact ⟨rfl, rfl⟩

theorem bypass_keeps :
    (bypass d next).1.events.pendingEvents.Has e ↔ d.events.pendingEvents.Has e ∧ ¬d.Passes e := by
  unfold bypass Domain.Passes
  simp only
  split
  · rename_i h
    simp [Domain.setPending, h]
  · rename_i h
    simp [Domain.setPending, not_not.mp h]

theorem bypass_hands : (bypass d next).2.events.pendingEvents.Has e ↔
    next.events.pendingEvents.Has e ∨ d.events.pendingEvents.Has e ∧ d.Passes e := by
  unfold bypass Domain.Passes
  simp only
  split
  · rename_i h
    simp [Domain.setPending, h]
  · rename_i h
    simp [Domain.setPending, not_not.mp h]

@[simp] theorem setPending_state (d : Domain) (p : Bitmap) :
    getDomainState (d.setPending p) = getDomainState d := rfl

@[simp] theorem setPending_passes (d : Domain) (p : Bitmap) : (d.setPending p).Passes e ↔ d.Passes e :=
  Iff.rfl

theorem bypass_state : getDomainState (bypass d next).1 = getDomainState d ∧
    getDomainState (bypass d next).2 = getDomainState next := by
  obtain ⟨h₁, h₂⟩ := bypass_rest d next
  rw [h₁, h₂]
  exact ⟨rfl, rfl⟩

theorem bypass_passes : (bypass d next).2.Passes e ↔ next.Passes e := by
  rw [(bypass_rest d next).2]
  exact setPending_passes _ _

theorem bypass_passes_left : (bypass d next).1.Passes e ↔ d.Passes e := by
  rw [(bypass_rest d next).1]
  exact setPending_passes _ _

theorem bypass_events : (bypass d next).1.events.maskedEvents = d.events.maskedEvents ∧
    (bypass d next).1.events.isEventsFlagEnabled = d.events.isEventsFlagEnabled := by
  rw [(bypass_rest d next).1]
  exact ⟨rfl, rfl⟩

theorem isSelected_iff : isSelected d = true ↔ getDomainState d = domainActive ∨
    getDomainState d = domainSuspended ∧ d.events.isEventsFlagEnabled = true ∧
      ∃ e, d.events.pendingEvents.Has e ∧ ¬d.events.maskedEvents.Has e := by
  have hpending : getDomainPendingEvents d.events.pendingEvents d.events.maskedEvents ≠ 0 ↔
      ∃ e, d.events.pendingEvents.Has e ∧ ¬d.events.maskedEvents.Has e := by
    refine BitVec.ne_zero_iff.trans (exists_congr fun e => ?_)
    simp [getDomainPendingEvents, and_comm]
  simp only [isSelected, decide_eq_true_eq, hpending]

theorem isSelected_bypass : isSelected (bypass d next).1 = true ↔ getDomainState d = domainActive ∨
    getDomainState d = domainSuspended ∧ d.events.isEventsFlagEnabled = true ∧
      ∃ e, d.events.interceptedEvents.Has e ∧ ¬d.events.maskedEvents.Has e ∧
        d.events.pendingEvents.Has e := by
  rw [isSelected_iff, bypass_state.1, bypass_events.1, bypass_events.2]
  simp only [bypass_keeps, Domain.Passes]
  refine or_congr_right (and_congr_right fun hsusp => and_congr_right fun _ => ?_)
  have hne : getDomainState d ≠ domainFinished := by
    rw [hsusp]
    decide
  refine exists_congr fun e => ?_
  grind

end

theorem walkFrom_length (d : Domain) (ds : List Domain) :
    (walkFrom d ds).1.length = ds.length + 1 := by
  induction ds generalizing d with
  | nil => simp [walkFrom]
  | cons next rest ih =>
    simp only [walkFrom]
    split
    · rfl
    · simp [ih]

end Xmertl.Xtratum
