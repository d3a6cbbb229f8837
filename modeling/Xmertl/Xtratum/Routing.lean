import Xmertl.Xtratum.Sched

/-!
# Where events go and which domain runs

What the walk of `xm_sched` does, told without the walk: an event passes the
domains that are finished or do not intercept it, and stays at the first other
one, or behind the last domain visited. The domain that runs is the first one
that is ACTIVE or that an event reaches and wakes.
-/

namespace Xmertl.Xtratum

def PassesAt (ds : List Domain) (k : Nat) (e : Event) : Prop := ∀ d, ds[k]? = some d → d.Passes e

def PendingAt (ds : List Domain) (k : Nat) (e : Event) : Prop :=
  ∃ d, ds[k]? = some d ∧ d.events.pendingEvents.Has e

/-- Every domain from place `i` up to `j` passes `e`. -/
def Reaches (ds : List Domain) (i j : Nat) (e : Event) : Prop :=
  i ≤ j ∧ ∀ k, i ≤ k → k < j → PassesAt ds k e

/-- Where an event pending at place `i` is after a walk that ends at place `v`: with
the first domain that does not pass it, or else with the successor of the last
domain visited, or with the last domain of the list. -/
def LandsAt (ds : List Domain) (v i : Nat) (e : Event) (j : Nat) : Prop :=
  Reaches ds i j e ∧ j ≤ v ∧ ¬PassesAt ds j e ∨
    Reaches ds i (v + 1) e ∧ j = min (v + 1) (ds.length - 1)

def lastVisited (ds : List Domain) : Nat := (walk ds).2.getD (ds.length - 1)

/-- The domain at place `i` is ACTIVE, or is SUSPENDED with events enabled and
intercepts an unmasked event that reaches it. -/
def RunnableAt (ds : List Domain) (i : Nat) : Prop :=
  ∃ d, ds[i]? = some d ∧ (getDomainState d = domainActive ∨
    getDomainState d = domainSuspended ∧ d.events.isEventsFlagEnabled = true ∧
      ∃ e, d.events.interceptedEvents.Has e ∧ ¬d.events.maskedEvents.Has e ∧
        ∃ j, Reaches ds j i e ∧ PendingAt ds j e)

section
variable {d next : Domain} {ds rest : List Domain} {e : Event} {i j k v : Nat}

@[simp] theorem passesAt_zero : PassesAt (d :: ds) 0 e ↔ d.Passes e := by simp [PassesAt]

@[simp] theorem passesAt_succ : PassesAt (d :: ds) (k + 1) e ↔ PassesAt ds k e := by simp [PassesAt]

@[simp] theorem pendingAt_zero : PendingAt (d :: ds) 0 e ↔ d.events.pendingEvents.Has e := by
  simp [PendingAt]

@[simp] theorem pendingAt_succ : PendingAt (d :: ds) (k + 1) e ↔ PendingAt ds k e := by
  simp [PendingAt]

theorem reaches_succ : Reaches (d :: ds) (i + 1) (j + 1) e ↔ Reaches ds i j e := by
  constructor
  · rintro ⟨hle, h⟩
    exact ⟨by omega, fun k hi hj => by simpa using h (k + 1) (by omega) (by omega)⟩
  · rintro ⟨hle, h⟩
    refine ⟨by omega, fun k hi hj => ?_⟩
    cases k with
    | zero => omega
    | succ k => simpa using h k (by omega) (by omega)

theorem reaches_zero : Reaches (d :: ds) 0 (j + 1) e ↔ d.Passes e ∧ Reaches ds 0 j e := by
  constructor
  · rintro ⟨-, h⟩
    refine ⟨by simpa using h 0 (by omega) (by omega), by omega, fun k _ hj => ?_⟩
    simpa using h (k + 1) (by omega) (by omega)
  · rintro ⟨hd, -, h⟩
    refine ⟨by omega, fun k _ hj => ?_⟩
    cases k with
    | zero => simpa using hd
    | succ k => simpa using h k (by omega) (by omega)

theorem reaches_self : Reaches ds i i e := ⟨Nat.le_refl i, fun k hi hj => by omega⟩

-- ---------------------------------------------------------------------------
-- The list behind one domain, with what that domain hands on
-- ---------------------------------------------------------------------------

theorem passesAt_bypass : PassesAt ((bypass d next).2 :: rest) k e ↔ PassesAt (next :: rest) k e := by
  cases k with
  | zero => simpa using bypass_passes
  | succ k => simp

theorem reaches_bypass :
    Reaches ((bypass d next).2 :: rest) i j e ↔ Reaches (next :: rest) i j e := by
  simp only [Reaches, passesAt_bypass]

theorem pendingAt_bypass : PendingAt ((bypass d next).2 :: rest) k e ↔
    PendingAt (next :: rest) k e ∨ k = 0 ∧ d.events.pendingEvents.Has e ∧ d.Passes e := by
  cases k with
  | zero => simpa using bypass_hands
  | succ k => simp

theorem landsAt_bypass :
    LandsAt ((bypass d next).2 :: rest) v i e j ↔ LandsAt (next :: rest) v i e j := by
  simp only [LandsAt, reaches_bypass, passesAt_bypass, List.length_cons]

theorem landsAt_succ : LandsAt (d :: next :: rest) (v + 1) (i + 1) e (j + 1) ↔
    LandsAt (next :: rest) v i e j := by
  simp only [LandsAt, reaches_succ, passesAt_succ, List.length_cons]
  grind

theorem landsAt_zero : LandsAt (d :: next :: rest) (v + 1) 0 e (j + 1) ↔
    d.Passes e ∧ LandsAt (next :: rest) v 0 e j := by
  simp only [LandsAt, reaches_zero, passesAt_succ, List.length_cons]
  grind

theorem arrives_bypass :
    (∃ j, Reaches (d :: next :: rest) j (i + 1) e ∧ PendingAt (d :: next :: rest) j e) ↔
      ∃ j, Reaches ((bypass d next).2 :: rest) j i e ∧
        PendingAt ((bypass d next).2 :: rest) j e := by
  simp only [reaches_bypass, pendingAt_bypass]
  constructor
  · rintro ⟨j, hr, hp⟩
    cases j with
    | zero =>
      rw [reaches_zero] at hr
      exact ⟨0, hr.2, .inr ⟨rfl, by simpa using hp, hr.1⟩⟩
    | succ j => exact ⟨j, reaches_succ.mp hr, .inl (by simpa using hp)⟩
  · rintro ⟨j, hr, hp | ⟨rfl, hp, hpass⟩⟩
    · exact ⟨j + 1, reaches_succ.mpr hr, by simpa using hp⟩
    · exact ⟨0, reaches_zero.mpr ⟨hpass, hr⟩, by simpa using hp⟩

-- ---------------------------------------------------------------------------
-- Routing
-- ---------------------------------------------------------------------------

theorem lastVisited_cons (hs : isSelected (bypass d next).1 = false) :
    lastVisited (d :: next :: rest) = lastVisited ((bypass d next).2 :: rest) + 1 := by
  simp only [lastVisited, walk, walkFrom, hs, Bool.false_eq_true, ↓reduceIte, List.length_cons]
  cases (walkFrom (bypass d next).2 rest).2 <;> simp

theorem lastVisited_selected (hs : isSelected (bypass d next).1 = true) :
    lastVisited (d :: next :: rest) = 0 := by
  simp [lastVisited, walk, walkFrom, hs]

def Routed (ds : List Domain) : Prop :=
  ∀ j e, PendingAt (walk ds).1 j e ↔
    (∃ i, i ≤ lastVisited ds ∧ PendingAt ds i e ∧ LandsAt ds (lastVisited ds) i e j) ∨
      lastVisited ds < j ∧ PendingAt ds j e

theorem routed_last (d : Domain) : Routed [d] := by
  intro j e
  have hv : lastVisited [d] = 0 := by
    simp only [lastVisited, walk, walkFrom]
    split <;> rfl
  rw [hv]
  cases j with
  | zero =>
    have hlands : LandsAt [d] 0 0 e 0 := by
      by_cases hp : d.Passes e
      · exact .inr ⟨reaches_zero.mpr ⟨hp, reaches_self⟩, rfl⟩
      · exact .inl ⟨reaches_self, Nat.le_refl 0, by simpa using hp⟩
    constructor
    · intro h
      exact .inl ⟨0, Nat.le_refl 0, h, hlands⟩
    · rintro (⟨i, hi, hp, -⟩ | ⟨hlt, -⟩)
      · obtain rfl := Nat.le_zero.mp hi
        exact hp
      · omega
  | succ j =>
    have hnone : ¬PendingAt [d] (j + 1) e := by simp [PendingAt]
    have hlands (i : Nat) : ¬LandsAt [d] 0 i e (j + 1) := by
      rintro (⟨-, hle, -⟩ | ⟨-, he⟩)
      · omega
      · simp at he
    constructor
    · intro h
      exact absurd h hnone
    · rintro (⟨i, -, -, h⟩ | ⟨-, h⟩)
      · exact absurd h (hlands i)
      · exact absurd h hnone

theorem routed_selected (hs : isSelected (bypass d next).1 = true) : Routed (d :: next :: rest) := by
  intro j e
  have hwalk : (walk (d :: next :: rest)).1 = (bypass d next).1 :: (bypass d next).2 :: rest := by
    simp [walk, walkFrom, hs]
  rw [hwalk, lastVisited_selected hs]
  have hlands : LandsAt (d :: next :: rest) 0 0 e j ↔
      j = 0 ∧ ¬d.Passes e ∨ j = 1 ∧ d.Passes e := by
    have hone : Reaches (d :: next :: rest) 0 1 e ↔ d.Passes e := by
      simp [reaches_zero, reaches_self]
    simp only [LandsAt, hone, List.length_cons]
    constructor
    · rintro (⟨-, hle, hp⟩ | ⟨hp, rfl⟩)
      · obtain rfl := Nat.le_zero.mp hle
        exact .inl ⟨rfl, by simpa using hp⟩
      · exact .inr ⟨by omega, hp⟩
    · rintro (⟨rfl, hp⟩ | ⟨rfl, hp⟩)
      · exact .inl ⟨reaches_self, Nat.le_refl 0, by simpa using hp⟩
      · exact .inr ⟨hp, by omega⟩
  have hfirst : (∃ i, i ≤ 0 ∧ PendingAt (d :: next :: rest) i e ∧
      LandsAt (d :: next :: rest) 0 i e j) ↔
      d.events.pendingEvents.Has e ∧ (j = 0 ∧ ¬d.Passes e ∨ j = 1 ∧ d.Passes e) := by
    simp [hlands]
  rw [hfirst]
  cases j with
  | zero => simp [bypass_keeps]
  | succ j =>
    rw [pendingAt_succ, pendingAt_bypass, pendingAt_succ]
    grind

theorem routed_next (hs : isSelected (bypass d next).1 = false)
    (h : Routed ((bypass d next).2 :: rest)) : Routed (d :: next :: rest) := by
  intro j e
  have hwalk : (walk (d :: next :: rest)).1 =
      (bypass d next).1 :: (walk ((bypass d next).2 :: rest)).1 := by
    simp [walk, walkFrom, hs]
  rw [hwalk, lastVisited_cons hs]
  cases j with
  | zero =>
    rw [pendingAt_zero, bypass_keeps]
    constructor
    · rintro ⟨hp, hpass⟩
      exact .inl ⟨0, Nat.zero_le _, by simpa using hp,
        .inl ⟨reaches_self, Nat.zero_le _, by simpa using hpass⟩⟩
    · rintro (⟨i, -, hp, hlands⟩ | ⟨hlt, -⟩)
      · rcases hlands with ⟨⟨hle, -⟩, -, hpass⟩ | ⟨-, he⟩
        · obtain rfl := Nat.le_zero.mp hle
          exact ⟨by simpa using hp, by simpa using hpass⟩
        · simp at he
      · omega
  | succ j =>
    rw [pendingAt_succ, h j e]
    simp only [landsAt_bypass, pendingAt_bypass]
    constructor
    · rintro (⟨i, hi, hp | ⟨rfl, hp, hpass⟩, hlands⟩ | ⟨hlt, hp | ⟨rfl, -⟩⟩)
      · exact .inl ⟨i + 1, by omega, by simpa using hp, landsAt_succ.mpr hlands⟩
      · exact .inl ⟨0, by omega, by simpa using hp, landsAt_zero.mpr ⟨hpass, hlands⟩⟩
      · exact .inr ⟨by omega, by simpa using hp⟩
      · omega
    · rintro (⟨i, hi, hp, hlands⟩ | ⟨hlt, hp⟩)
      · cases i with
        | zero =>
          obtain ⟨hpass, hlands⟩ := landsAt_zero.mp hlands
          exact .inl ⟨0, Nat.zero_le _, .inr ⟨rfl, by simpa using hp, hpass⟩, hlands⟩
        | succ i =>
          exact .inl ⟨i, by omega, .inl (by simpa using hp), landsAt_succ.mp hlands⟩
      · exact .inr ⟨by omega, .inl (by simpa using hp)⟩

theorem routed (ds : List Domain) : Routed ds := by
  have hcons (d : Domain) (rest : List Domain) : Routed (d :: rest) := by
    induction rest generalizing d with
    | nil => exact routed_last d
    | cons next rest ih =>
      cases hs : isSelected (bypass d next).1 with
      | true => exact routed_selected hs
      | false => exact routed_next hs (ih _)
  cases ds with
  | nil =>
    intro j e
    simp [walk, PendingAt]
  | cons d rest => exact hcons d rest

theorem landsAt_le (h : LandsAt ds v i e j) (hi : i ≤ v) (hp : PendingAt ds i e) : i ≤ j := by
  rcases h with ⟨⟨hle, -⟩, -⟩ | ⟨-, rfl⟩
  · exact hle
  · obtain ⟨d, hd, -⟩ := hp
    have hlt : i < ds.length := (List.getElem?_eq_some_iff.mp hd).1
    omega

theorem landsAt_unique (h : LandsAt ds v i e j) (h' : LandsAt ds v i e j') : j' = j := by
  rcases h with ⟨⟨hij, hpass⟩, hjv, hstop⟩ | ⟨⟨-, hpass⟩, rfl⟩
  · rcases h' with ⟨⟨hij', hpass'⟩, -, hstop'⟩ | ⟨⟨-, hpass'⟩, -⟩
    · rcases Nat.lt_trichotomy j' j with hlt | he | hlt
      · exact absurd (hpass j' hij' hlt) hstop'
      · exact he
      · exact absurd (hpass' j hij hlt) hstop
    · exact absurd (hpass' j hij (Nat.lt_succ_of_le hjv)) hstop
  · rcases h' with ⟨⟨hij', -⟩, hjv', hstop'⟩ | ⟨-, rfl⟩
    · exact absurd (hpass j' hij' (Nat.lt_succ_of_le hjv')) hstop'
    · rfl

theorem landsAt_exists (ds : List Domain) (e : Event) (hi : i ≤ v) : ∃ j, LandsAt ds v i e j := by
  -- the first place up to `v` that does not pass the event, if there is one
  have hsearch (n : Nat) : Reaches ds i (i + n) e ∨ ∃ j, j < i + n ∧ Reaches ds i j e ∧
      ¬PassesAt ds j e := by
    induction n with
    | zero => exact .inl reaches_self
    | succ n ih =>
      rcases ih with ⟨-, hpass⟩ | ⟨j, hj, hr, hstop⟩
      · by_cases hnext : PassesAt ds (i + n) e
        · refine .inl ⟨by omega, fun k hk hkn => ?_⟩
          rcases Nat.lt_or_ge k (i + n) with hlt | hge
          · exact hpass k hk hlt
          · rw [show k = i + n by omega]
            exact hnext
        · exact .inr ⟨i + n, by omega, ⟨by omega, hpass⟩, hnext⟩
      · exact .inr ⟨j, by omega, hr, hstop⟩
  have hend : i + (v + 1 - i) = v + 1 := by omega
  rcases hsearch (v + 1 - i) with hr | ⟨j, hj, hr, hstop⟩
  · rw [hend] at hr
    exact ⟨_, .inr ⟨hr, rfl⟩⟩
  · exact ⟨j, .inl ⟨hr, by omega, hstop⟩⟩

/-- Every event pending in a visited domain lands in one domain at or behind it and is
pending there after the walk; nothing else is pending there, and behind the
successor of the last domain visited nothing changes. -/
theorem events_routed (ds : List Domain) :
    (∀ i e, i ≤ lastVisited ds → PendingAt ds i e →
      ∃ j, i ≤ j ∧ LandsAt ds (lastVisited ds) i e j ∧ PendingAt (walk ds).1 j e ∧
        ∀ j', LandsAt ds (lastVisited ds) i e j' → j' = j) ∧
    (∀ j e, PendingAt (walk ds).1 j e ↔
      (∃ i, i ≤ lastVisited ds ∧ PendingAt ds i e ∧ LandsAt ds (lastVisited ds) i e j) ∨
        lastVisited ds < j ∧ PendingAt ds j e) ∧
    ∀ j e, lastVisited ds + 1 < j → (PendingAt (walk ds).1 j e ↔ PendingAt ds j e) := by
  refine ⟨fun i e hi hp => ?_, routed ds, fun j e hj => ?_⟩
  · obtain ⟨j, hj⟩ := landsAt_exists ds e hi
    have hpending : PendingAt (walk ds).1 j e := (routed ds j e).mpr (.inl ⟨i, hi, hp, hj⟩)
    exact ⟨j, landsAt_le hj hi hp, hj, hpending, fun j' hj' => landsAt_unique hj hj'⟩
  · rw [routed ds j e]
    constructor
    · rintro (⟨i, -, -, ⟨-, hle, -⟩ | ⟨-, he⟩⟩ | ⟨-, hp⟩)
      · omega
      · omega
      · exact hp
    · intro hp
      exact .inr ⟨by omega, hp⟩

-- ---------------------------------------------------------------------------
-- Selection
-- ---------------------------------------------------------------------------

theorem runnableAt_succ :
    RunnableAt (d :: next :: rest) (i + 1) ↔ RunnableAt ((bypass d next).2 :: rest) i := by
  have hnext := (bypass_rest d next).2
  have hsame (P : Domain → Prop)
      (hP : P (bypass d next).2 ↔ P next) :
      (∃ x, (next :: rest)[i]? = some x ∧ P x) ↔
        ∃ x, ((bypass d next).2 :: rest)[i]? = some x ∧ P x := by
    cases i with
    | zero => simp [hP]
    | succ i => simp
  unfold RunnableAt
  simp only [arrives_bypass, List.getElem?_cons_succ]
  refine hsame _ ?_
  rw [hnext]
  rfl

theorem runnableAt_zero : RunnableAt (d :: next :: rest) 0 ↔ isSelected (bypass d next).1 = true := by
  have harrives (e : Event) : (∃ j, Reaches (d :: next :: rest) j 0 e ∧
      PendingAt (d :: next :: rest) j e) ↔ d.events.pendingEvents.Has e := by
    constructor
    · rintro ⟨j, ⟨hle, -⟩, hp⟩
      obtain rfl := Nat.le_zero.mp hle
      simpa using hp
    · intro hp
      exact ⟨0, reaches_self, by simpa using hp⟩
  rw [isSelected_bypass]
  simp only [RunnableAt, harrives, List.getElem?_cons_zero, Option.some.injEq, exists_eq_left']

theorem runnableAt_last (h : RunnableAt [d] 0) : isSelected d = true := by
  obtain ⟨d', hd, hrun⟩ := h
  obtain rfl := Option.some.inj hd
  rw [isSelected_iff]
  rcases hrun with hactive | ⟨hsusp, hflag, e, -, hmask, j, ⟨hle, -⟩, hp⟩
  · exact .inl hactive
  · obtain rfl := Nat.le_zero.mp hle
    exact .inr ⟨hsusp, hflag, e, by simpa using hp, hmask⟩

theorem RunnableAt.lt (h : RunnableAt ds i) : i < ds.length := by
  obtain ⟨d, hd, -⟩ := h
  exact (List.getElem?_eq_some_iff.mp hd).1

theorem walkFrom_selects (d : Domain) (rest : List Domain) :
    match (walkFrom d rest).2 with
    | some s => (RunnableAt (d :: rest) s ∨ s = rest.length) ∧
        ∀ k, k < s → ¬RunnableAt (d :: rest) k
    | none => ∀ k, ¬RunnableAt (d :: rest) k := by
  induction rest generalizing d with
  | nil =>
    unfold walkFrom
    cases hs : isSelected d with
    | true => exact ⟨.inr rfl, fun k hk => absurd hk (Nat.not_lt_zero k)⟩
    | false =>
      intro k hrun
      obtain rfl := Nat.lt_one_iff.mp hrun.lt
      rw [runnableAt_last hrun] at hs
      cases hs
  | cons next rest ih =>
    cases hs : isSelected (bypass d next).1 with
    | true =>
      simp only [walkFrom, hs, ↓reduceIte]
      exact ⟨.inl (runnableAt_zero.mpr hs), fun k hk => absurd hk (Nat.not_lt_zero k)⟩
    | false =>
      have hfirst : ¬RunnableAt (d :: next :: rest) 0 := by simp [runnableAt_zero, hs]
      have hnext := ih (bypass d next).2
      simp only [walkFrom, hs, Bool.false_eq_true, ↓reduceIte]
      cases hsel : (walkFrom (bypass d next).2 rest).2 with
      | none =>
        rw [hsel] at hnext
        intro k
        cases k with
        | zero => exact hfirst
        | succ k => exact fun hrun => hnext k (runnableAt_succ.mp hrun)
      | some s =>
        rw [hsel] at hnext
        obtain ⟨hrun, hbefore⟩ := hnext
        refine ⟨?_, fun k hk => ?_⟩
        · rcases hrun with hrun | rfl
          · exact .inl (runnableAt_succ.mpr hrun)
          · exact .inr rfl
        · cases k with
          | zero => exact hfirst
          | succ k =>
            exact fun hrun => hbefore k (Nat.lt_of_succ_lt_succ hk) (runnableAt_succ.mp hrun)

theorem lastVisited_selects (ds : List Domain) :
    (RunnableAt ds (lastVisited ds) ∨ (∀ k, ¬RunnableAt ds k) ∧ lastVisited ds = ds.length - 1) ∧
      ∀ k, k < lastVisited ds → ¬RunnableAt ds k := by
  cases ds with
  | nil =>
    have hnone (k : Nat) : ¬RunnableAt [] k := by simp [RunnableAt]
    exact ⟨.inr ⟨hnone, rfl⟩, fun k _ => hnone k⟩
  | cons d rest =>
    have hspec := walkFrom_selects d rest
    simp only [lastVisited, walk]
    cases hsel : (walkFrom d rest).2 with
    | none =>
      rw [hsel] at hspec
      exact ⟨.inr ⟨hspec, rfl⟩, fun k _ => hspec k⟩
    | some s =>
      rw [hsel] at hspec
      obtain ⟨hrun, hbefore⟩ := hspec
      refine ⟨?_, hbefore⟩
      by_cases hself : RunnableAt (d :: rest) s
      · exact .inl hself
      · have hlast : s = rest.length := hrun.resolve_left hself
        refine .inr ⟨fun k hk => ?_, hlast⟩
        have hlt := hk.lt
        rcases Nat.lt_or_ge k s with h | h
        · exact hbefore k h hk
        · rw [List.length_cons] at hlt
          rw [show k = s by omega] at hk
          exact hself hk

-- ---------------------------------------------------------------------------
-- The whole of xm_sched
-- ---------------------------------------------------------------------------

theorem walk_length (ds : List Domain) : (walk ds).1.length = ds.length := by
  cases ds with
  | nil => rfl
  | cons d rest => exact walkFrom_length d rest

theorem walk_states (ds : List Domain) :
    (walk ds).1.map getDomainState = ds.map getDomainState := by
  have hcons (d : Domain) (rest : List Domain) :
      (walkFrom d rest).1.map getDomainState = (d :: rest).map getDomainState := by
    induction rest generalizing d with
    | nil => rfl
    | cons next rest ih =>
      obtain ⟨hfirst, hnext⟩ : getDomainState (bypass d next).1 = getDomainState d ∧
        getDomainState (bypass d next).2 = getDomainState next := bypass_state
      simp only [walkFrom]
      split
      · simp [hfirst, hnext]
      · simp [ih, hfirst, hnext]
  cases ds with
  | nil => rfl
  | cons d rest => exact hcons d rest

theorem xmSched_current (s : System) (acts : List SyncAct) :
    (xmSched s acts).1.current = lastVisited s.domains := by
  unfold xmSched
  simp only [lastVisited, walk_length]
  split
  · rfl
  · split <;> rfl

theorem xmSched_states (s : System) (acts : List SyncAct) :
    (xmSched s acts).1.domains.map getDomainState =
      (s.domains.map getDomainState).modify (lastVisited s.domains) fun _ => domainActive := by
  have hactive (d : Domain) : getDomainState (setDomainState d domainActive) = domainActive :=
    getDomainState_setDomainState d (by decide)
  have hset (ds : List Domain) (i : Nat) :
      (ds.modify i (setDomainState · domainActive)).map getDomainState =
        (ds.map getDomainState).modify i fun _ => domainActive := by
    refine List.ext_getElem? fun k => ?_
    simp only [List.getElem?_map, List.getElem?_modify]
    by_cases hk : i = k
    · subst hk
      cases ds[i]? <;> simp [hactive]
    · cases ds[k]? <;> simp [hk]
  have hevents (ds : List Domain) (i : Nat) (ev : EventHandling) :
      (ds.modify i ({ · with events := ev })).map getDomainState = ds.map getDomainState := by
    refine List.ext_getElem? fun k => ?_
    simp only [List.getElem?_map, List.getElem?_modify]
    by_cases hk : i = k
    · subst hk
      cases ds[i]? <;> simp [getDomainState]
    · cases ds[k]? <;> simp [hk]
  rw [← walk_states s.domains]
  unfold xmSched
  simp only [lastVisited, walk_length]
  split
  · exact hset _ _
  · split
    · rw [hevents]
      exact hset _ _
    · exact hset _ _

/-- `xm_sched` switches to the first runnable domain, else to the root domain, and
makes it ACTIVE; the other states stay. -/
theorem domain_selected (s : System) (acts : List SyncAct) :
    (RunnableAt s.domains (xmSched s acts).1.current ∨
      (∀ k, ¬RunnableAt s.domains k) ∧ (xmSched s acts).1.current = s.domains.length - 1) ∧
    (∀ k, k < (xmSched s acts).1.current → ¬RunnableAt s.domains k) ∧
    ∀ i d, s.domains[i]? = some d → ∃ d', (xmSched s acts).1.domains[i]? = some d' ∧
      getDomainState d' =
        if i = (xmSched s acts).1.current then domainActive else getDomainState d := by
  rw [xmSched_current]
  obtain ⟨hrun, hbefore⟩ := lastVisited_selects s.domains
  refine ⟨hrun, hbefore, fun i d hd => ?_⟩
  have hstate := congrArg (·[i]?) (xmSched_states s acts)
  simp only [List.getElem?_map, List.getElem?_modify, hd, Option.map_some] at hstate
  obtain ⟨d', hd', hstate'⟩ := Option.map_eq_some_iff.mp hstate
  refine ⟨d', hd', hstate'.trans ?_⟩
  simp only [eq_comm]

end

end Xmertl.Xtratum
