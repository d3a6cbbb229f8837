import Xmertl.Partikle.Running

/-!
# The wait lists

`Waiting` says what the wait lists hold: the threads whose last `scheduling ()`
is in a wait on that object. While a thread runs inside a call, it is `busy`
and on no list.

An early wake-up (a signal, a stale sleep timer) leaves its thread linked. A
timed wait unlinks itself when it goes on, the other waits do not. `early` says
whether `Waiting` allows for linked threads that are awake; where it does, no
such thread may go on from an untimed wait.
-/

namespace Xmertl.Partikle

open IntrusiveList (Lists Models)

variable {T : Type}

-- ---------------------------------------------------------------------------
-- Lists by kind and object
-- ---------------------------------------------------------------------------

def putList (L : Kind → Nat → List T) (κ : Kind) (o : Nat) (l : List T) : Kind → Nat → List T :=
  Function.update L κ (Function.update (L κ) o l)

theorem putList_mem {L : Kind → Nat → List T} : t ∈ putList L κ o l κ' o' ↔
    (κ' = κ ∧ o' = o) ∧ t ∈ l ∨ ¬(κ' = κ ∧ o' = o) ∧ t ∈ L κ' o' := by
  unfold putList
  by_cases hκ : κ' = κ
  · subst hκ
    by_cases ho : o' = o
    · subst ho; simp
    · simp [ho]
  · simp [hκ]

structure Waiting [DecidableEq T] (early : Prop) (busy : Option T) (w : Kind → Lists Nat T)
    (pc : T → Pc T) (state : T → ThreadState) (L : Kind → Nat → List T) : Prop where
  models : ∀ κ, Models (w κ) (L κ)
  notBusy : ∀ {t κ o}, t ∈ L κ o → some t ≠ busy
  waits : ∀ {t κ o}, t ∈ L κ o → (pc t).waits = some (κ, o)
  linked : ∀ {t κ o}, some t ≠ busy → state t = .suspended → (pc t).waits = some (κ, o) →
    t ∈ L κ o
  asleep : ∀ {t κ o}, t ∈ L κ o → early ∨ (pc t).timed = true ∨ state t = .suspended

section
variable [DecidableEq T] {early : Prop} {busy : Option T} {w : Kind → Lists Nat T}
  {pc : T → Pc T} {state state' : T → ThreadState} {L : Kind → Nat → List T} {t : T}

omit [DecidableEq T] in
theorem Models.put (h : ∀ κ, Models (w κ) (L κ)) {w' : Lists Nat T}
    (h' : Models w' (Function.update (L κ) o l)) :
    ∀ κ', Models (Function.update w κ w' κ') (putList L κ o l κ') := by
  intro κ'
  unfold putList
  by_cases hκ : κ' = κ
  · subst hκ; simpa using h'
  · simpa [hκ] using h κ'

theorem Waiting.wakes (h : Waiting early busy w pc state L)
    (hs : ∀ u, state' u = state u ∨
      state' u ≠ .suspended ∧ ∀ κ o, u ∈ L κ o → early ∨ (pc u).timed = true) :
    Waiting early busy w pc state' L where
  models := h.models
  notBusy := h.notBusy
  waits := h.waits
  linked {u κ o} hb hu hw := by
    rcases hs u with he | ⟨hne, -⟩
    · exact h.linked hb (he ▸ hu) hw
    · exact absurd hu hne
  asleep {u κ o} hu := by
    rcases hs u with he | ⟨-, hearly⟩
    · rw [he]
      exact h.asleep hu
    · rcases hearly κ o hu with he | ht
      · exact .inl he
      · exact .inr (.inl ht)

theorem Waiting.pop (h : Waiting early busy w pc state L)
    (hpop : (w κ).popFront o = (some t, l)) (ht : state' t ≠ .suspended)
    (hs : ∀ u, u ≠ t → state' u = state u) :
    ∃ xs, L κ o = t :: xs ∧
      Waiting early busy (Function.update w κ l) pc state' (putList L κ o xs) := by
  cases hl : L κ o with
  | nil => simp [(h.models κ).popFront_nil hl] at hpop
  | cons x xs =>
    obtain ⟨w', hw', hm⟩ := (h.models κ).popFront_cons hl
    rw [hpop] at hw'
    obtain ⟨hx, rfl⟩ := Prod.mk.inj hw'
    obtain rfl := Option.some.inj hx
    have hnd : t ∉ xs := by
      have := (h.models κ).nodup o
      rw [hl] at this
      exact (List.nodup_cons.mp this).1
    have htw : (pc t).waits = some (κ, o) := h.waits (by rw [hl]; exact List.mem_cons_self)
    have hsub {u κ' o'} (hu : u ∈ putList L κ o xs κ' o') : u ∈ L κ' o' := by
      rcases putList_mem.mp hu with ⟨⟨rfl, rfl⟩, hin⟩ | ⟨-, hin⟩
      · rw [hl]
        exact List.mem_cons_of_mem _ hin
      · exact hin
    have hne {u κ' o'} (hu : u ∈ putList L κ o xs κ' o') : u ≠ t := by
      rintro rfl
      rcases putList_mem.mp hu with ⟨-, hu⟩ | ⟨hko, hu⟩
      · exact hnd hu
      · have := h.waits hu
        rw [htw] at this
        simp only [Option.some.injEq, Prod.mk.injEq] at this
        exact hko ⟨this.1.symm, this.2.symm⟩
    refine ⟨xs, rfl, Models.put h.models hm, fun hu => h.notBusy (hsub hu),
      fun hu => h.waits (hsub hu), ?_, ?_⟩
    · intro u κ' o' hb hu hw
      have hut : u ≠ t := by
        rintro rfl
        exact ht hu
      have hmem : u ∈ L κ' o' := h.linked hb (hs u hut ▸ hu) hw
      by_cases hko : κ' = κ ∧ o' = o
      · obtain ⟨rfl, rfl⟩ := hko
        rw [hl] at hmem
        exact putList_mem.mpr (.inl ⟨⟨rfl, rfl⟩, (List.mem_cons.mp hmem).resolve_left hut⟩)
      · exact putList_mem.mpr (.inr ⟨hko, hmem⟩)
    · intro u κ' o' hu
      rw [hs u (hne hu)]
      exact h.asleep (hsub hu)

theorem Waiting.out (h : Waiting early (some t) w pc state L) (hp : p.waits = none)
    (hs : ∀ u, u ≠ t → state' u = state u) :
    Waiting early none w (Function.update pc t p) state' L where
  models := h.models
  notBusy := by simp
  waits {u κ o} hu := by
    have hut : u ≠ t := fun he => h.notBusy hu (congrArg some he)
    simpa [hut] using h.waits hu
  linked {u κ o} _ hu hw := by
    by_cases hut : u = t
    · subst hut
      simp [hp] at hw
    · rw [Function.update_of_ne hut] at hw
      exact h.linked (by simpa using hut) (hs u hut ▸ hu) hw
  asleep {u κ o} hu := by
    have hut : u ≠ t := fun he => h.notBusy hu (congrArg some he)
    rw [Function.update_of_ne hut, hs u hut]
    exact h.asleep hu

theorem Waiting.push (h : Waiting early (some t) w pc state L) (hp : p.waits = some (κ, o))
    (ht : p.timed = true ∨ state' t = .suspended) (hs : ∀ u, u ≠ t → state' u = state u) :
    Waiting early none (Function.update w κ ((w κ).pushFront o t)) (Function.update pc t p) state'
      (putList L κ o (t :: L κ o)) := by
  have hno : ∀ κ' o', t ∉ L κ' o' := fun κ' o' hm => h.notBusy hm rfl
  have hmem {u κ' o'} (hu : u ∈ putList L κ o (t :: L κ o) κ' o') :
      u = t ∧ κ' = κ ∧ o' = o ∨ u ≠ t ∧ u ∈ L κ' o' := by
    rcases putList_mem.mp hu with ⟨⟨rfl, rfl⟩, hu⟩ | ⟨-, hu⟩
    · rcases List.mem_cons.mp hu with rfl | hu
      · exact .inl ⟨rfl, rfl, rfl⟩
      · exact .inr ⟨fun he => hno _ _ (he ▸ hu), hu⟩
    · exact .inr ⟨fun he => hno _ _ (he ▸ hu), hu⟩
  refine ⟨Models.put h.models ((h.models κ).pushFront fun j => hno κ j), by simp, ?_, ?_, ?_⟩
  · intro u κ' o' hu
    rcases hmem hu with ⟨rfl, rfl, rfl⟩ | ⟨hut, hu⟩
    · simpa using hp
    · simpa [hut] using h.waits hu
  · intro u κ' o' _ hu hw
    by_cases hut : u = t
    · subst hut
      simp only [Function.update_self, hp, Option.some.injEq, Prod.mk.injEq] at hw
      obtain ⟨rfl, rfl⟩ := hw
      exact putList_mem.mpr (.inl ⟨⟨rfl, rfl⟩, List.mem_cons_self⟩)
    · rw [Function.update_of_ne hut] at hw
      have hold : u ∈ L κ' o' := h.linked (by simpa using hut) (hs u hut ▸ hu) hw
      by_cases hko : κ' = κ ∧ o' = o
      · obtain ⟨rfl, rfl⟩ := hko
        exact putList_mem.mpr (.inl ⟨⟨rfl, rfl⟩, List.mem_cons_of_mem _ hold⟩)
      · exact putList_mem.mpr (.inr ⟨hko, hold⟩)
  · intro u κ' o' hu
    rcases hmem hu with ⟨rfl, rfl, rfl⟩ | ⟨hut, hu⟩
    · simpa using .inr ht
    · rw [Function.update_of_ne hut, hs u hut]
      exact h.asleep hu

theorem Waiting.enter (h : Waiting early none w pc state L) (ht : ∀ κ o, t ∉ L κ o) :
    Waiting early (some t) w pc state L where
  models := h.models
  notBusy {u κ o} hu he := ht κ o (Option.some.inj he ▸ hu)
  waits := h.waits
  linked _ hu hw := h.linked (by simp) hu hw
  asleep := h.asleep

theorem Waiting.unlink (h : Waiting early none w pc state L) (hp : (pc t).waits = some (κ, o)) :
    Waiting early (some t) (Function.update w κ ((w κ).unlink o t)) pc state
      (putList L κ o ((L κ o).erase t)) := by
  have hm : Models ((w κ).unlink o t) (Function.update (L κ) o ((L κ o).erase t)) := by
    refine (h.models κ).unlink_erase fun j hj => ?_
    have := h.waits hj
    rw [hp] at this
    simp only [Option.some.injEq, Prod.mk.injEq, true_and] at this
    exact this.symm
  have hnd : t ∉ (L κ o).erase t := ((h.models κ).nodup o).not_mem_erase
  have hmem {u κ' o'} (hu : u ∈ putList L κ o ((L κ o).erase t) κ' o') : u ≠ t ∧ u ∈ L κ' o' := by
    rcases putList_mem.mp hu with ⟨⟨rfl, rfl⟩, hin⟩ | ⟨hko, hin⟩
    · exact ⟨fun he => hnd (he ▸ hin), List.mem_of_mem_erase hin⟩
    · refine ⟨?_, hin⟩
      rintro rfl
      have := h.waits hin
      rw [hp] at this
      simp only [Option.some.injEq, Prod.mk.injEq] at this
      exact hko ⟨this.1.symm, this.2.symm⟩
  refine ⟨Models.put h.models hm, fun hu he => (hmem hu).1 (Option.some.inj he),
    fun hu => h.waits (hmem hu).2, ?_, fun hu => h.asleep (hmem hu).2⟩
  intro u κ' o' hb hu hw
  have hut : u ≠ t := by simpa using hb
  have hold : u ∈ L κ' o' := h.linked (by simp) hu hw
  by_cases hko : κ' = κ ∧ o' = o
  · obtain ⟨rfl, rfl⟩ := hko
    exact putList_mem.mpr (.inl ⟨⟨rfl, rfl⟩, (List.mem_erase_of_ne hut).mpr hold⟩)
  · exact putList_mem.mpr (.inr ⟨hko, hold⟩)

theorem Waiting.none_blocked (h : Waiting early busy w pc state L) (hh : (w κ).head o = none)
    (hb : some t ≠ busy) (hp : (pc t).waits = some (κ, o)) : state t ≠ .suspended := by
  intro hs
  have hmem : t ∈ L κ o := h.linked hb hs hp
  rw [(h.models κ).head_eq, List.head?_eq_none_iff] at hh
  simp [hh] at hmem

end

namespace Kernel

variable [DecidableEq T] {k₀ k k' : Kernel T} {w : Scope T} {early : Prop}
  {L : Kind → Nat → List T}

abbrev Waits (early : Prop) (busy : Option T) (k : Kernel T) (L : Kind → Nat → List T) : Prop :=
  Waiting early busy k.lists k.pc k.state L

/-- Suspended in a wait that only a waker of its object may end. -/
def Blocked (k : Kernel T) (t : T) : Prop :=
  k.state t = .suspended ∧ (k.pc t).waits ≠ none ∧ (k.pc t).timed = false

def NoEarlyWake (k : Kernel T) (a : Action T) : Prop := ∀ t ∈ a.targets, ¬k.Blocked t

/-- The step lets a thread go on from an untimed wait that is still on the list. -/
def ResumesLinked (k : Kernel T) (a : Action T) : Prop :=
  (∃ env, a = .resume env) ∧ (k.pc k.cur).timed = false ∧
    ∃ κ o, (k.pc k.cur).waits = some (κ, o) ∧ (k.lists κ).Linked o k.cur

def Calm (early : Prop) (k : Kernel T) (a : Action T) : Prop :=
  early ∧ ¬k.ResumesLinked a ∨ ¬early ∧ k.NoEarlyWake a

theorem Move.blocked (h : Move k₀ w k k') (ht : k'.Blocked t) : k.Blocked t := by
  obtain ⟨hs, hw, htimed⟩ := ht
  rw [h.pc] at hw htimed
  refine ⟨?_, hw, htimed⟩
  rcases h.state t with he | he
  · exact he ▸ hs
  · rw [hs] at he
    cases he

theorem pthreadKill_wakes (k : Kernel T) (t : T) (sig : Fin 32) :
    (k.pthreadKill t sig).lists = k.lists ∧
      ∀ u, (k.pthreadKill t sig).state u = k.state u ∨
        (k.pthreadKill t sig).state u = .ready ∧ u = t := by
  have hstate (u : T) (hu : u ≠ t) : (k.pthreadKill t sig).state u = k.state u := by
    unfold pthreadKill
    simp only
    split
    · rw [activateThread_state, if_neg hu]
      simp [state, Sched.modify_thread, hu]
    · simp [state, Sched.modify_thread, hu]
  constructor
  · unfold pthreadKill
    simp only
    split <;> simp
  · intro u
    rcases (pthreadKill_frame k t sig).state u with he | he
    · exact .inl he
    · by_cases hu : u = t
      · exact .inr ⟨he, hu⟩
      · exact .inl (hstate u hu)

theorem expire_wakes (k : Kernel T) (e : Expiry T) : (k.expire e).lists = k.lists ∧
    ∀ u, (k.expire e).state u = k.state u ∨ (k.expire e).state u = .ready ∧ u = e.target := by
  cases e with
  | wakeup t =>
    unfold expire
    simp only
    split
    · refine ⟨by simp, fun u => ?_⟩
      change (k.activateThread t).state u = _ ∨ (k.activateThread t).state u = _ ∧ u = t
      by_cases hu : u = t
      · rcases (activateThread_frame k t).state u with he | he
        · exact .inl he
        · exact .inr ⟨he, hu⟩
      · exact .inl (by rw [activateThread_state, if_neg hu])
    · exact ⟨rfl, fun _ => .inl rfl⟩
  | kill t sig => exact pthreadKill_wakes k t sig

theorem updateHwtimer_wakes (k : Kernel T) (env : Env T) :
    (k.updateHwtimer env).lists = k.lists ∧
      ∀ u, (k.updateHwtimer env).state u = k.state u ∨
        (k.updateHwtimer env).state u = .ready ∧ ∃ e ∈ env.expired, u = e.target := by
  unfold updateHwtimer
  induction env.expired generalizing k with
  | nil => exact ⟨rfl, fun _ => .inl rfl⟩
  | cons e es ih =>
    obtain ⟨hl, hs⟩ := expire_wakes k e
    obtain ⟨hl', hs'⟩ := ih (k.expire e)
    refine ⟨hl'.trans hl, fun u => ?_⟩
    rcases hs' u with he' | ⟨hr, e', he', hu⟩
    · rcases hs u with he | ⟨hr, hu⟩
      · exact .inl (he'.trans he)
      · exact .inr ⟨he'.trans hr, e, List.mem_cons_self, hu⟩
    · exact .inr ⟨hr, e', List.mem_cons_of_mem _ he', hu⟩

-- ---------------------------------------------------------------------------
-- The lists over one step
-- ---------------------------------------------------------------------------

theorem Waiting.target {busy : Option T} (h : Waits early busy k L)
    (hq : early ∨ ∀ t ∈ w.targets, ¬k.Blocked t) (ht : t ∈ w.targets) (hmem : t ∈ L κ o) :
    early ∨ (k.pc t).timed = true := by
  rcases h.asleep hmem with he | htimed | hs
  · exact .inl he
  · exact .inr htimed
  · rcases hq with he | hq
    · exact .inl he
    · by_contra hno
      simp only [not_or, Bool.not_eq_true] at hno
      exact hq t ht ⟨hs, by simp [h.waits hmem], hno.2⟩

theorem Waits.move (h : Waits early (some k.cur) k L)
    (hq : early ∨ ∀ t ∈ w.targets, ¬k.Blocked t) (hm : Move k₀ w k k') :
    ∃ L', Waits early (some k'.cur) k' L' := by
  cases hm with
  | sem => exact ⟨L, h⟩
  | @wake κ o t l hpop =>
    have hready : ((k.setLists κ l).activateThread t).state t ≠ .suspended := by
      rw [activateThread_state, if_pos rfl]
      split <;> simp
    obtain ⟨xs, -, hxs⟩ := Waiting.pop h hpop hready fun u hu => by
      simp [activateThread_state, hu]
    exact ⟨_, by simpa [Waits] using hxs⟩
  | @kill t sig ht =>
    obtain ⟨hl, hs⟩ := pthreadKill_wakes k t sig
    refine ⟨L, ?_⟩
    rw [Waits, hl, (pthreadKill_frame k t sig).pc, (pthreadKill_frame k t sig).cur]
    refine Waiting.wakes h fun u => ?_
    rcases hs u with he | ⟨hr, rfl⟩
    · exact .inl he
    · exact .inr ⟨by simp [hr], fun κ o => Waiting.target h hq ht⟩
  | yield =>
    refine ⟨L, ?_⟩
    have hstate : ({ k with sched := k.sched.pthreadYield } : Kernel T).state = k.state := by
      funext u
      exact Sched.pthreadYield_state _ _
    rw [Waits, hstate]
    simpa [cur] using h
  | own => exact ⟨L, by simpa [Waits] using h⟩
  | again => exact ⟨L, h⟩
  | countdown => exact ⟨L, h⟩
  | disown => exact ⟨L, by simpa [Waits] using h⟩

theorem Waits.exit (h : Waits early (some k.cur) k L) (ha : Active k)
    (hq : early ∨ ∀ t ∈ w.targets, ¬k.Blocked t) (he : Exit w k k') :
    ∃ L', Waits early none k' L' := by
  cases he with
  | ret => exact ⟨L, by simpa [Waits] using Waiting.out h rfl fun _ _ => rfl⟩
  | scheduling _ hp => exact ⟨L, by simpa [Waits] using Waiting.out h hp fun _ _ => rfl⟩
  | @block κ o p _ hp _ =>
    have hsusp : (k.suspendThread k.cur).state k.cur = .suspended := by
      rw [suspendThread_state, if_pos rfl, ha.ready]
      rfl
    have hpush : Waiting early none (k.insertPthreadList κ o k.cur).lists
        (Function.update k.pc k.cur p) (k.suspendThread k.cur).state
        (putList L κ o (k.cur :: L κ o)) :=
      Waiting.push h hp (.inr hsusp) fun u hu => (suspendThread_state _).trans (if_neg hu)
    exact ⟨_, by simpa [Waits, insertPthreadList] using hpush⟩
  | @sleep κ o env p _ hp htimed ht =>
    let k₂ := (k.insertPthreadList κ o k.cur).armTimer.suspendThread k.cur
    have hpush : Waiting early none k₂.lists (Function.update k.pc k.cur p) k₂.state
        (putList L κ o (k.cur :: L κ o)) :=
      Waiting.push h hp (.inl htimed) fun u hu => (suspendThread_state _).trans (if_neg hu)
    obtain ⟨hl, hs⟩ := updateHwtimer_wakes k₂ env
    have hwake : Waiting early none k₂.lists (Function.update k.pc k.cur p)
        (k₂.updateHwtimer env).state (putList L κ o (k.cur :: L κ o)) := by
      refine hpush.wakes fun u => ?_
      rcases hs u with he | ⟨hr, e, he, rfl⟩
      · exact .inl he
      refine .inr ⟨by simp [hr], fun κ' o' hmem => ?_⟩
      by_cases hu : e.target = k.cur
      · exact .inr (by simpa [hu] using htimed)
      · have hold : e.target ∈ L κ' o' := by
          rcases putList_mem.mp hmem with ⟨⟨rfl, rfl⟩, hin⟩ | ⟨-, hin⟩
          · exact (List.mem_cons.mp hin).resolve_left hu
          · exact hin
        rw [Function.update_of_ne hu]
        exact Waiting.target h hq (ht e he) hold
    have hf : WakeFrame k₂ (k₂.updateHwtimer env) := updateHwtimer_frame k₂ env
    refine ⟨putList L κ o (k.cur :: L κ o), ?_⟩
    change Waiting early none (k₂.updateHwtimer env).lists
      (Function.update (k₂.updateHwtimer env).pc (k₂.updateHwtimer env).cur p)
      (k₂.updateHwtimer env).state _
    have hcur : k₂.cur = k.cur := (suspendThread_rest _).2.2.2.2.2.2.1
    rw [hl, hf.pc, hf.cur, hcur]
    exact hwake
  | suspend =>
    have hout : Waiting early none k.lists
        (Function.update k.pc k.cur (.returning .sleepThread)) (k.suspendThread k.cur).state L :=
      Waiting.out h rfl fun u hu => by rw [suspendThread_state, if_neg hu]
    exact ⟨L, by simpa [Waits] using hout⟩

/-- `m` was taken when the step began and is free now: nobody waits for it any more. -/
def Freed (k₀ k : Kernel T) : Prop :=
  ∀ m, (k₀.mutex m).owner ≠ none → (k.mutex m).owner = none →
    ∀ t, t ≠ k.cur → (k.pc t).waits = some (.mutex, m) → k.state t ≠ .suspended

omit [DecidableEq T] in
theorem Freed.keeps (h : Freed k₀ k) (hmutex : ∀ m, (k'.mutex m).owner = none →
    (k.mutex m).owner = none) (hpc : k'.pc = k.pc) (hcur : k'.cur = k.cur)
    (hs : ∀ t, k'.state t = k.state t ∨ k'.state t = .ready) : Freed k₀ k' := by
  intro m h₀ hm t ht hw hsusp
  rw [hcur] at ht
  rw [hpc] at hw
  refine h m h₀ (hmutex m hm) t ht hw ?_
  rcases hs t with he | he
  · exact he ▸ hsusp
  · rw [hsusp] at he
    cases he

theorem Freed.move (h : Freed k₀ k) (hw : Waits early (some k.cur) k L) (hm : Move k₀ w k k') :
    Freed k₀ k' := by
  cases hm with
  | @own m n =>
    refine h.keeps (fun m' hm' => ?_) (by simp) (by simp) (by simp)
    rw [setOwner_mutex] at hm'
    by_cases he : m' = m
    · subst he; simp at hm'
    · simpa [he] using hm'
  | @again m _ _ ho =>
    refine h.keeps (fun m' hm' => ?_) rfl rfl (fun _ => .inl rfl)
    by_cases he : m' = m
    · subst he; simp [ho] at hm'
    · simpa [he] using hm'
  | @countdown m _ _ _ ho =>
    refine h.keeps (fun m' hm' => ?_) rfl rfl (fun _ => .inl rfl)
    by_cases he : m' = m
    · subst he; simp [ho] at hm'
    · simpa [he] using hm'
  | @disown m _ _ _ _ _ hhead =>
    intro m' h₀ hm' t ht hp
    by_cases he : m' = m
    · subst he
      simp only [clearOwner_rest] at ht hp ⊢
      exact Waiting.none_blocked hw hhead (by simpa using ht) hp
    · rw [clearOwner_mutex, Function.update_of_ne he] at hm'
      simp only [clearOwner_rest] at ht hp ⊢
      exact h m' h₀ hm' t ht hp
  | sem => exact h
  | wake =>
    have hf := activateThread_frame (T := T)
    exact h.keeps (fun m hm => hm) (by simp) (by simp) (hf _ _).state
  | kill =>
    have hf := pthreadKill_frame (T := T)
    exact h.keeps (fun m hm => (hf _ _ _).mutex ▸ hm) (hf _ _ _).pc (hf _ _ _).cur (hf _ _ _).state
  | yield =>
    exact h.keeps (fun m hm => hm) rfl (by simp [cur]) (fun t => .inl (by simp [state]))

structure InCall (k₀ : Kernel T) (w : Scope T) (early : Prop) (k : Kernel T) : Prop where
  active : Active k
  waits : ∃ L, Waits early (some k.cur) k L
  calm : early ∨ ∀ t ∈ w.targets, ¬k.Blocked t
  freed : Freed k₀ k

theorem InCall.moves (h : InCall k₀ w early k) (hm : Moves k₀ w k k') :
    InCall k₀ w early k' := by
  induction hm with
  | refl => exact h
  | tail _ hmove ih =>
    obtain ⟨L, hL⟩ := ih.waits
    refine ⟨ih.active.move hmove, Waits.move hL ih.calm hmove, ?_, ih.freed.move hL hmove⟩
    rcases ih.calm with he | hq
    · exact .inl he
    · exact .inr fun t ht hb => hq t ht (hmove.blocked hb)

omit [DecidableEq T] in
theorem Calm.blocked (h : Calm early k a) : early ∨ ∀ t ∈ (k.scope a).targets, ¬k.Blocked t := by
  rcases h with ⟨he, -⟩ | ⟨-, hq⟩
  · exact .inl he
  · exact .inr hq

theorem SchedOk.inCall_call (hk : SchedOk k) (h : Waits early none k L)
    (hq : Calm early k (.call c env)) (hp : k.pc k.cur = .user) (hi : k.cur ≠ k.sched.idleThread) :
    InCall k (k.scope (.call c env)) early (k.record (.call k.cur c)) := by
  refine ⟨hk.enters hi, ⟨L, ?_⟩, hq.blocked, fun m h₀ hm => absurd hm h₀⟩
  refine Waiting.enter h fun κ o hmem => ?_
  have := h.waits hmem
  simp [hp, Pc.waits] at this

theorem SchedOk.inCall_resume (hk : SchedOk k) (h : Waits early none k L)
    (hq : Calm early k (.resume env)) (hp : k.pc k.cur ≠ .user) :
    InCall k (k.scope (.resume env)) early k.leave := by
  have ha : Active k.leave := hk.leaves hp
  refine ⟨ha, ?_, ?_, ?_⟩
  · by_cases htimed : (k.pc k.cur).timed = true
    · obtain ⟨κ, o, hw, hleave⟩ := k.leave_timed htimed
      rw [hleave]
      exact ⟨_, by simpa [Waits, removePthreadList] using Waiting.unlink h hw⟩
    · simp only [Bool.not_eq_true] at htimed
      rw [k.leave_untimed htimed]
      refine ⟨L, Waiting.enter h fun κ o hmem => ?_⟩
      rcases hq with ⟨-, hq⟩ | ⟨hearly, -⟩
      · refine hq ⟨⟨env, rfl⟩, htimed, κ, o, h.waits hmem, ?_⟩
        exact (h.models κ).linked_iff.mpr hmem
      · rcases h.asleep hmem with he | ht | hs
        · exact hearly he
        · simp [htimed] at ht
        · have := (hk.resuming hp).ready
          rw [hs] at this
          cases this
  · rcases hq.blocked with he | hq
    · exact .inl he
    · refine .inr fun t ht hb => hq t ht ?_
      simpa only [Blocked, leave_rest] using hb
  · intro m h₀ hm
    rw [(leave_rest k).2.2.2.1] at hm
    exact absurd hm h₀

theorem Waits.clockHandler (h : Waits early none k L) (hq : Calm early k (.interrupt env)) :
    Waits early none (k.clockHandler env) L := by
  obtain ⟨hl, hs⟩ := updateHwtimer_wakes k env
  have hf : WakeFrame k (k.updateHwtimer env) := updateHwtimer_frame k env
  change Waiting early none (k.updateHwtimer env).lists (k.updateHwtimer env).pc
    (k.updateHwtimer env).state L
  rw [hl, hf.pc]
  refine Waiting.wakes h fun u => ?_
  rcases hs u with he | ⟨hr, e, he, rfl⟩
  · exact .inl he
  · refine .inr ⟨by simp [hr], fun κ o => Waiting.target h hq.blocked ?_⟩
    exact List.mem_append_left _ (List.mem_map_of_mem he)

variable [Fintype T]

theorem SchedOk.waits_step (hk : SchedOk k) (h : Waits early none k L) (hq : Calm early k a)
    (hs : k.step a = some k') : ∃ L', Waits early none k' L' := by
  cases step_shape hs with
  | call hp hi hm he =>
    have hin := (hk.inCall_call h hq hp hi).moves hm
    obtain ⟨L₁, hL₁⟩ := hin.waits
    exact Waits.exit hL₁ hin.active hin.calm he
  | resume hp hm he =>
    have hin := (hk.inCall_resume h hq hp).moves hm
    obtain ⟨L₁, hL₁⟩ := hin.waits
    exact Waits.exit hL₁ hin.active hin.calm he
  | interrupt => exact ⟨L, Waits.clockHandler h hq⟩

-- ---------------------------------------------------------------------------
-- Wait lists over whole runs
-- ---------------------------------------------------------------------------

/-- Each list is well formed, and holds exactly the threads suspended on its
object and timed waits not yet gone on. -/
def WaitListsOk (k : Kernel T) : Prop :=
  ∃ L : Kind → Nat → List T, (∀ κ, Models (k.lists κ) (L κ)) ∧
    (∀ t κ o, k.state t = .suspended → (k.pc t).waits = some (κ, o) → t ∈ L κ o) ∧
    ∀ t κ o, t ∈ L κ o → (k.pc t).waits = some (κ, o)

/-- A step that frees a mutex, or a broadcast, leaves nobody blocked there. -/
def WakesAll (k : Kernel T) (a : Action T) (k' : Kernel T) : Prop :=
  (∀ m, (k.mutex m).owner ≠ none → (k'.mutex m).owner = none →
    ∀ t, k.state t = .suspended → (k.pc t).waits = some (.mutex, m) → k'.state t = .ready) ∧
  ∀ c env, a = .call (.condBroadcast (some c)) env →
    ∀ t, k.state t = .suspended → (k.pc t).waits = some (.cond, c) → k'.state t = .ready

omit [Fintype T] in
theorem Waits.ok (h : Waits early none k L) : WaitListsOk k :=
  ⟨L, h.models, fun _ _ _ hs hw => h.linked (by simp) hs hw, fun _ _ _ hm => h.waits hm⟩

omit [Fintype T] in
theorem boot_waits (c : Config T) : Waits early none (boot c) fun _ _ => [] where
  models _ := Models.empty
  notBusy := by simp
  waits := by simp
  linked _ _ hw := by simp [boot, Pc.waits] at hw
  asleep := by simp

theorem run_waits (early : Prop) (hr : Runs.Run step (boot c) tr k)
    (hq : ∀ e ∈ tr, Calm early e.1 e.2) :
    ∃ L, Waits early none k L := by
  have hinv : SchedOk k ∧ ∃ L, Waits early none k L := by
    refine hr.invariant (I := fun k => SchedOk k ∧ ∃ L, Waits early none k L)
      ⟨boot_schedOk c, _, boot_waits c⟩ ?_ hq
    rintro k a k' ⟨hk, L, hL⟩ hc hs
    exact ⟨hk.step hs, hk.waits_step hL hc hs⟩
  exact hinv.2

omit [Fintype T] in
theorem InCall.ne_cur (h : InCall k₀ w early k) (hm : Moves k₀ w k k₁)
    (hs : k.state t = .suspended) : t ≠ k₁.cur := by
  rintro rfl
  rw [hm.cur, h.active.ready] at hs
  cases hs

omit [Fintype T] in
theorem InCall.woken (h : InCall k₀ w early k) (hm : Moves k₀ w k k₁) (he : Exit w k₁ k')
    (hs : k.state t = .suspended) (hns : k₁.state t ≠ .suspended) : k'.state t = .ready := by
  have hr : k₁.state t = .ready := by
    rcases hm.state t with h₁ | h₁
    · exact absurd (h₁.trans hs) hns
    · exact h₁
  rcases he.state (h.ne_cur hm hs) with h₁ | h₁
  · exact h₁.trans hr
  · exact h₁

omit [Fintype T] in
theorem InCall.frees (h : InCall k₀ w early k) (hm : Moves k₀ w k k₁) (he : Exit w k₁ k')
    (h₀ : (k₀.mutex m).owner ≠ none) (hfree : (k'.mutex m).owner = none)
    (hs : k.state t = .suspended) (hw : (k.pc t).waits = some (.mutex, m)) :
    k'.state t = .ready := by
  refine h.woken hm he hs ?_
  rw [he.mutex] at hfree
  exact (h.moves hm).freed m h₀ hfree t (h.ne_cur hm hs) (by rw [hm.pc]; exact hw)

theorem InCall.broadcasts (h : InCall k₀ w early k) (hA : (Kind.cond, c) ∈ w.objects)
    (hs : k.state t = .suspended) (hw : (k.pc t).waits = some (.cond, c)) :
    (k.condBroadcastSys (some c)).state t = .ready := by
  have hm : Moves k₀ w k (k.wakeThreads .cond c) := wakeThreads_moves k
  have he : Exit w (k.wakeThreads .cond c) (k.condBroadcastSys (some c)) :=
    .scheduling (by simpa [Pc.objects, LastCall.call, Call.objects] using hA) rfl
      (by simp [Pc.locked]) (by simp [Pc.unlocking])
  obtain ⟨L₁, hL₁⟩ := (h.moves hm).waits
  refine h.woken hm he hs (Waiting.none_blocked hL₁ (wakeThreads_head k) ?_ ?_)
  · simpa using h.ne_cur hm hs
  · rw [hm.pc]
    exact hw

theorem SchedOk.wakesAll (hk : SchedOk k) (h : Waits early none k L) (hq : Calm early k a)
    (hs : k.step a = some k') : WakesAll k a k' := by
  refine ⟨fun m h₀ hfree t hsusp hw => ?_, ?_⟩
  · cases step_shape hs with
    | call hp hi hm he => exact (hk.inCall_call h hq hp hi).frees hm he h₀ hfree hsusp hw
    | resume hp hm he =>
      refine (hk.inCall_resume h hq hp).frees hm he h₀ hfree ?_ ?_
      · rw [(leave_rest k).2.2.2.2.2.2.1]
        exact hsusp
      · rw [(leave_rest k).2.1]
        exact hw
    | interrupt => exact absurd ((updateHwtimer_frame k _).mutex ▸ hfree) h₀
  · rintro c env rfl t hsusp hw
    simp only [Kernel.step, Option.ite_none_right_eq_some, Option.some.injEq] at hs
    obtain ⟨⟨hp, hi⟩, rfl⟩ := hs
    exact (hk.inCall_call h hq hp hi).broadcasts (by simp [scope, Call.objects]) hsusp hw

-- ---------------------------------------------------------------------------
-- An early wake-up that matters
-- ---------------------------------------------------------------------------

omit [Fintype T] in
theorem SchedOk.not_resumesLinked (hk : SchedOk k) (h : Waits False none k L) :
    ¬k.ResumesLinked a := by
  rintro ⟨-, htimed, κ, o, hw, hlinked⟩
  have hmem : k.cur ∈ L κ o := (h.models κ).linked_iff.mp hlinked
  rcases h.asleep hmem with hf | ht | hs
  · exact hf
  · simp [htimed] at ht
  · rcases hk.running with hi | hr
    · rw [hi, hk.idle] at hw
      simp [Pc.waits] at hw
    · rw [hs] at hr
      cases hr

omit [Fintype T] in
/-- `pthread_mutex_lock_sys` leaves the lists alone, or puts its caller on the mutex's. -/
theorem mutexLockSys_lists (k : Kernel T) (env : Env T) (m : Nat) (caller : LockCaller) :
    (k.mutexLockSys env m caller).lists = k.lists ∧
      ((k.mutexLockSys env m caller).pc k.cur).waits = none ∨
    (k.mutexLockSys env m caller).lists =
        Function.update k.lists .mutex ((k.lists .mutex).pushFront m k.cur) ∧
      ((k.mutexLockSys env m caller).pc k.cur).waits = some (.mutex, m) := by
  have hreturn (k : Kernel T) (r : Ret) : (k.lockReturn env m caller r).lists = k.lists ∧
      ((k.lockReturn env m caller r).pc k.cur).waits = none := by
    cases caller <;> simp [lockReturn, Pc.waits]
  have htake (n : Int) : (k.takeMutex env m n caller).lists = k.lists ∧
      ((k.takeMutex env m n caller).pc k.cur).waits = none := by
    unfold takeMutex
    split
    · simp [Pc.waits]
    · simpa using hreturn (k.setOwner m n) .ok
  have hwait (p : Pc T) : (((k.suspendThread k.cur).insertPthreadList .mutex m
      k.cur).scheduling p).pc k.cur = p := by simp [insertPthreadList]
  unfold mutexLockSys
  simp only
  split
  · exact .inl (htake 1)
  · split
    · split
      · exact .inl (hreturn k _)
      · exact .inl (hreturn ((k.record (.acquire k.cur m)).setCounter m _) .ok)
      · exact .inr ⟨rfl, by rw [hwait]; rfl⟩
    · exact .inr ⟨rfl, by rw [hwait]; rfl⟩

theorem WaitListsOk.broken (h : WaitListsOk k) (hl : k.ResumesLinked a)
    (hs : k.step a = some k') : ¬WaitListsOk k' := by
  obtain ⟨L, hm, -, -⟩ := h
  obtain ⟨⟨env, rfl⟩, htimed, κ, o, hw, hlinked⟩ := hl
  rintro ⟨L', hm', -, hw'⟩
  simp only [step, Option.ite_none_left_eq_some, Option.some.injEq] at hs
  obtain ⟨-, rfl⟩ := hs
  -- the thread is still on the list and no longer in the wait
  have hstale (hlist : (k.resume env).lists κ = k.lists κ)
      (hpc : ((k.resume env).pc k.cur).waits ≠ some (κ, o)) : False := by
    rw [← hlist] at hlinked
    exact hpc (hw' _ _ _ ((hm' κ).linked_iff.mp hlinked))
  have hmem : k.cur ∈ L κ o := (hm κ).linked_iff.mp hlinked
  cases hp : k.pc k.cur with
  | semWait s =>
    exact hstale (by simp [resume, hp, semWaitEnd]) (by simp [resume, hp, semWaitEnd, Pc.waits])
  | mutexLock m caller =>
    simp only [hp, Pc.waits, Option.some.injEq, Prod.mk.injEq] at hw
    obtain ⟨rfl, rfl⟩ := hw
    have hres : k.resume env = k.mutexLockSys env m caller := by simp [resume, hp]
    rw [hres] at hm' hstale
    rcases mutexLockSys_lists k env m caller with ⟨hlist, hnone⟩ | ⟨hlist, -⟩
    · exact hstale (by rw [hlist]) (by simp [hnone])
    · have := hm' .mutex
      rw [hlist, Function.update_self] at this
      exact (hm .mutex).not_pushFront hmem this
  | condWait c m =>
    simp only [hp, Pc.waits, Option.some.injEq, Prod.mk.injEq] at hw
    obtain ⟨rfl, rfl⟩ := hw
    have hres : k.resume env = k.mutexLockSys env m (.condWait c) := by simp [resume, hp]
    rw [hres] at hstale
    rcases mutexLockSys_lists k env m (.condWait c) with ⟨hlist, hnone⟩ | ⟨hlist, hsome⟩
    · exact hstale (by rw [hlist]) (by simp [hnone])
    · exact hstale (by simp [hlist]) (by simp [hsome])
  | semTimedwait s abstime => simp [hp, Pc.timed] at htimed
  | condTimedwait c m abstime d => simp [hp, Pc.timed] at htimed
  | _ => simp [hp, Pc.waits] at hw

theorem run_not_resumesLinked (hr : Runs.Run step (boot c) tr k)
    (hq : ∀ e ∈ tr, e.1.NoEarlyWake e.2) : ∀ e ∈ tr, ¬e.1.ResumesLinked e.2 := by
  intro e he
  obtain ⟨tr', hsub, hr'⟩ := hr.toVisited (.pre he)
  obtain ⟨L, hL⟩ := run_waits False hr' fun e he => .inr ⟨id, hq e (hsub.subset he)⟩
  exact (run_schedOk hr').not_resumesLinked hL

/-- The wait lists stay intact as long as no thread goes on from an untimed wait
while it is linked; without early wake-ups none does. -/
theorem waitLists_intact {c : Config T} {tr : List (Kernel T × Action T)} {k : Kernel T}
    (hr : Runs.Run step (boot c) tr k) :
    ((∀ e ∈ tr, ¬e.1.ResumesLinked e.2) ↔
      (∀ x, Runs.Visited tr k x → WaitListsOk x) ∧
        ∀ e ∈ tr, ∀ y, e.1.step e.2 = some y → WakesAll e.1 e.2 y) ∧
    ((∀ e ∈ tr, e.1.NoEarlyWake e.2) → ∀ e ∈ tr, ¬e.1.ResumesLinked e.2) := by
  refine ⟨⟨fun hq => ⟨fun x hx => ?_, fun e he y hy => ?_⟩, ?_⟩, run_not_resumesLinked hr⟩
  · obtain ⟨tr', hsub, hr'⟩ := hr.toVisited hx
    obtain ⟨L, hL⟩ := run_waits True hr' fun e he => .inl ⟨trivial, hq e (hsub.subset he)⟩
    exact Waits.ok hL
  · obtain ⟨tr', hsub, hr'⟩ := hr.toVisited (.pre he)
    obtain ⟨L, hL⟩ := run_waits True hr' fun e he => .inl ⟨trivial, hq e (hsub.subset he)⟩
    exact (run_schedOk hr').wakesAll hL (.inl ⟨trivial, hq e he⟩) hy
  · rintro ⟨hok, -⟩ e he hl
    obtain ⟨y, hy, hvisited⟩ := hr.post_visited he
    exact (hok e.1 (.pre he)).broken hl hy (hok y hvisited)

end Kernel

-- ---------------------------------------------------------------------------
-- A signal to a thread blocked in sem_wait
-- ---------------------------------------------------------------------------

/-- Thread 1 blocks, thread 2 sends it a signal. -/
def signalledWait : List (Action (Fin 3)) :=
  [.call (.semWait (some 0)) {}, .call (.kill (some 1) 10) {}, .call .yield {}, .resume {}]

theorem waitLists_intact_posted : ∃ tr k, Runs.Run Kernel.step (Kernel.boot twoThreads) tr k ∧
    tr.length = 3 ∧ ∀ x, Runs.Visited tr k x → Kernel.WaitListsOk x := by
  have hrun : (Runs.exec Kernel.step (Kernel.boot twoThreads) postedWait).any fun r =>
      decide (r.1.length = 3) && r.1.all fun e => e.2.targets.isEmpty := by decide +kernel
  obtain ⟨tr, k, hr, hk⟩ := Runs.exec_any hrun
  simp only [Bool.and_eq_true, decide_eq_true_eq, List.all_eq_true, List.isEmpty_iff] at hk
  obtain ⟨hlength, htargets⟩ := hk
  have hcalm : ∀ e ∈ tr, e.1.NoEarlyWake e.2 := by
    intro e he t ht
    simp [htargets e he] at ht
  obtain ⟨hiff, hresumes⟩ := Kernel.waitLists_intact hr
  exact ⟨tr, k, hr, hlength, (hiff.mp (hresumes hcalm)).1⟩

/-- The signalled thread leaves `sem_wait_sys` and is still linked. -/
theorem waitLists_broken : ∃ tr k, Runs.Run Kernel.step (Kernel.boot twoThreads) tr k ∧
    ¬Kernel.WaitListsOk k := by
  have hrun : (Runs.exec Kernel.step (Kernel.boot twoThreads) signalledWait).any fun r =>
      decide ((r.2.lists .sem).head 0 = some 1 ∧ r.2.pc 1 = .user) := by decide +kernel
  obtain ⟨tr, k, hr, hk⟩ := Runs.exec_any hrun
  simp only [decide_eq_true_eq] at hk
  obtain ⟨hhead, hpc⟩ := hk
  refine ⟨tr, k, hr, ?_⟩
  rintro ⟨L, hm, -, hw⟩
  have hwaits := hw _ _ _ ((hm .sem).linked_iff.mp (.head hhead))
  simp [hpc, Pc.waits] at hwaits

end Xmertl.Partikle
