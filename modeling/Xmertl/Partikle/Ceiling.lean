import Mathlib.Order.Bounds.Basic
import Xmertl.Partikle.Running

/-!
# The priority ceiling

A thread should run at the least of its own priority number and the ceilings of
the PTHREAD_PRIO_PROTECT mutexes it owns. The lock saves the priority it finds
in the mutex and the last unlock puts it back. That is right exactly where the
ceilings held before the lock and those held after the unlock have one minimum,
as they do when critical sections nest.
-/

namespace Xmertl.Partikle

variable {T : Type}

/-- The priority numbers that bound `t` while it holds the mutexes `S`. -/
def Config.prios (c : Config T) (t : T) (S : Set Nat) : Set Int :=
  insert (c.prio t) ((fun m => (c.attr m).prio) '' S)

theorem Config.prios_insert (c : Config T) :
    c.prios t (insert m S) = insert (c.attr m).prio (c.prios t S) := by
  rw [prios, prios, Set.image_insert_eq, Set.insert_comm]

namespace Kernel

/-- The PTHREAD_PRIO_PROTECT mutexes that `t` owns. -/
def protectMutexes (k : Kernel T) (t : T) : Set Nat :=
  {m | (k.mutex m).owner = some t ∧ (k.mutex m).attr.prioProtection = .protect}

structure CeilingOk (c : Config T) (k : Kernel T) : Prop where
  least : ∀ t, IsLeast (c.prios t (k.protectMutexes t)) (k.prio t)
  base : ∀ t, k.protectMutexes t = ∅ → k.prio t = c.prio t

theorem CeilingOk.of_least {c : Config T} {k : Kernel T}
    (h : ∀ t, IsLeast (c.prios t (k.protectMutexes t)) (k.prio t)) : CeilingOk c k := by
  refine ⟨h, fun t ht => ?_⟩
  have hleast := h t
  rw [ht, Config.prios, Set.image_empty] at hleast
  simpa using hleast.1

/-- The last time `m` was free, just before its owner took it. -/
def lastFree (m : Nat) : List (Kernel T × Action T) → Option (Kernel T)
  | [] => none
  | (k, _) :: past => if (k.mutex m).owner.isNone then some k else lastFree m past

theorem lastFree_mem {past : List (Kernel T × Action T)} (h : lastFree m past = some k) :
    k ∈ past.map Prod.fst := by
  induction past with
  | nil => simp [lastFree] at h
  | cons e past ih =>
    simp only [lastFree] at h
    split at h
    · simp [Option.some.inj h]
    · exact List.mem_cons_of_mem _ (ih h)

variable [DecidableEq T]

/-- The mutexes held when the owner took `m` and those it keeps set the same priority. -/
def Restores (c : Config T) (past : List (Kernel T × Action T)) (k : Kernel T) (a : Action T) :
    Prop :=
  ∀ m, k.Releases a m → (k.mutex m).attr.prioProtection = .protect →
    ∀ k₀ ∈ lastFree m past, ∀ p,
      IsLeast (c.prios k.cur (k₀.protectMutexes k.cur)) p ↔
        IsLeast (c.prios k.cur (k.protectMutexes k.cur \ {m})) p

omit [DecidableEq T] in
theorem Restores.of_nested {c : Config T} {past : List (Kernel T × Action T)} {k : Kernel T}
    (h : ∀ m, k.Releases a m → (k.mutex m).attr.prioProtection = .protect →
      ∀ k₀ ∈ lastFree m past, k₀.protectMutexes k.cur = k.protectMutexes k.cur \ {m}) :
    Restores c past k a := by
  intro m hrel hprot k₀ hk₀ p
  rw [h m hrel hprot k₀ hk₀]

/-- The attributes are the configured ones, and a held mutex has its owner's old priority. -/
structure Saves (c : Config T) (past : List (Kernel T × Action T)) (k : Kernel T) : Prop where
  protection : ∀ m, (k.mutex m).attr.prioProtection = (c.attr m).prioProtection
  ceiling : ∀ m, (k.mutex m).attr.prio = (c.attr m).prio
  saved : ∀ m t, (k.mutex m).owner = some t → (k.mutex m).attr.prioProtection = .protect →
    ∃ k₀, lastFree m past = some k₀ ∧ (k.mutex m).attr.ownerPrio = k₀.prio t

section
variable {c : Config T} {k k' : Kernel T} {past : List (Kernel T × Action T)}

omit [DecidableEq T] in
theorem lastFree_held (h : (k.mutex m).owner = some t) :
    lastFree m ((k, a) :: past) = lastFree m past := by
  simp [lastFree, h]

omit [DecidableEq T] in
theorem lastFree_free (h : (k.mutex m).owner = none) :
    lastFree m ((k, a) :: past) = some k := by
  simp [lastFree, h]

omit [DecidableEq T] in
theorem Saves.congr (h : Saves c past k)
    (hm : ∀ m, (k'.mutex m).owner = (k.mutex m).owner ∧ (k'.mutex m).attr = (k.mutex m).attr) :
    Saves c ((k, a) :: past) k' where
  protection m := by rw [(hm m).2, h.protection]
  ceiling m := by rw [(hm m).2, h.ceiling]
  saved m t ho hp := by
    rw [(hm m).1] at ho
    rw [(hm m).2] at hp ⊢
    rw [lastFree_held ho]
    exact h.saved m t ho hp

theorem Saves.mutexStep (h : Saves c past k) (hs : MutexStep k w k') :
    Saves c ((k, a) :: past) k' := by
  cases hs with
  | same hm => exact h.congr fun m => by simp [hm]
  | @own m n _ ho hm =>
    have hother {m'} (hne : m' ≠ m) : k'.mutex m' = k.mutex m' := by simp [hm, hne]
    have hself : k'.mutex m = (k.mutex m).takenBy k.cur n (k.prio k.cur) := by simp [hm]
    refine ⟨fun m' => ?_, fun m' => ?_, fun m' t ho' hp => ?_⟩
    · by_cases hne : m' = m
      · subst hne
        rw [hself, (Mutex.takenBy_attr _).1, h.protection]
      · rw [hother hne, h.protection]
    · by_cases hne : m' = m
      · subst hne
        rw [hself, (Mutex.takenBy_attr _).2.1, h.ceiling]
      · rw [hother hne, h.ceiling]
    · by_cases hne : m' = m
      · subst hne
        rw [hself, Mutex.takenBy_owner, Option.some.injEq] at ho'
        rw [hself, (Mutex.takenBy_attr _).1] at hp
        subst ho'
        exact ⟨k, lastFree_free ho, by rw [hself, Mutex.takenBy_ownerPrio _ hp]⟩
      · rw [hother hne] at ho' hp ⊢
        rw [lastFree_held ho']
        exact h.saved m' t ho' hp
  | @count m n _ hm =>
    refine h.congr fun m' => ?_
    by_cases hne : m' = m
    · subst hne; simp [hm]
    · simp [hm, hne]
  | @disown m _ _ _ hm =>
    have hattr (m' : Nat) : (k'.mutex m').attr = (k.mutex m').attr := by
      by_cases hne : m' = m
      · subst hne; simp [hm]
      · simp [hm, hne]
    refine ⟨fun m' => by rw [hattr, h.protection], fun m' => by rw [hattr, h.ceiling], ?_⟩
    intro m' t ho hp
    have hne : m' ≠ m := by
      rintro rfl
      simp [hm] at ho
    rw [hm, Function.update_of_ne hne] at ho hp ⊢
    rw [lastFree_held ho]
    exact h.saved m' t ho hp

-- ---------------------------------------------------------------------------
-- One step
-- ---------------------------------------------------------------------------

theorem protectMutexes_own (ho : (k.mutex m).owner = none)
    (hm : k'.mutex = Function.update k.mutex m ((k.mutex m).takenBy k.cur n p)) (t : T) :
    k'.protectMutexes t =
      if t = k.cur ∧ (k.mutex m).attr.prioProtection = .protect then insert m (k.protectMutexes t)
      else k.protectMutexes t := by
  have hfree : m ∉ k.protectMutexes t := fun h => by simp [protectMutexes, ho] at h
  ext m'
  by_cases hne : m' = m
  · subst hne
    split
    · rename_i h
      simp [protectMutexes, hm, h.1, h.2]
    · rename_i h
      refine ⟨fun hp => absurd ?_ h, fun hp => absurd hp hfree⟩
      simp only [protectMutexes, hm, Function.update_self, Set.mem_ofPred_eq, Mutex.takenBy_owner,
        Mutex.takenBy_attr, Option.some.injEq] at hp
      exact ⟨hp.1.symm, hp.2⟩
  · split <;> simp [protectMutexes, hm, hne]

omit [DecidableEq T] in
theorem protectMutexes_count
    (hm : k'.mutex = Function.update k.mutex m { k.mutex m with counter := n }) (t : T) :
    k'.protectMutexes t = k.protectMutexes t := by
  ext m'
  by_cases hne : m' = m
  · subst hne; simp [protectMutexes, hm]
  · simp [protectMutexes, hm, hne]

omit [DecidableEq T] in
theorem protectMutexes_disown
    (hm : k'.mutex = Function.update k.mutex m { k.mutex m with owner := none, counter := 0 })
    (t : T) : k'.protectMutexes t = k.protectMutexes t \ {m} := by
  ext m'
  by_cases hne : m' = m
  · subst hne; simp [protectMutexes, hm]
  · simp [protectMutexes, hm, hne]

theorem CeilingOk.own (h : CeilingOk c k) (hc : ∀ m, (k.mutex m).attr.prio = (c.attr m).prio)
    (ho : (k.mutex m).owner = none)
    (hm : k'.mutex = Function.update k.mutex m ((k.mutex m).takenBy k.cur n (k.prio k.cur)))
    (hp : ∀ t, k'.prio t =
      if t = k.cur ∧ k.RaisesPrio m then (k.mutex m).attr.prio else k.prio t) :
    CeilingOk c k' := by
  refine .of_least fun t => ?_
  rw [protectMutexes_own ho hm, hp]
  by_cases ht : t = k.cur ∧ (k.mutex m).attr.prioProtection = .protect
  · obtain ⟨rfl, hprot⟩ := ht
    have hmin : (if k.cur = k.cur ∧ k.RaisesPrio m then (k.mutex m).attr.prio else k.prio k.cur) =
        min (c.attr m).prio (k.prio k.cur) := by
      rw [← hc]
      by_cases hr : k.prio k.cur > (k.mutex m).attr.prio
      · rw [if_pos ⟨rfl, hprot, hr⟩, min_eq_left (le_of_lt hr)]
      · rw [if_neg fun h => hr h.2.2, min_eq_right (not_lt.mp hr)]
    rw [if_pos ⟨rfl, hprot⟩, Config.prios_insert, hmin]
    exact (h.least k.cur).insert _
  · rw [if_neg ht, if_neg fun hr => ht ⟨hr.1, hr.2.1⟩]
    exact h.least t

theorem prio_disown (hp : ∀ t, k'.prio t =
      if t = k.cur ∧ k.RestoresPrio m then (k.mutex m).attr.ownerPrio else k.prio t)
    (hprot : (k.mutex m).attr.prioProtection = .protect) :
    k'.prio k.cur = (k.mutex m).attr.ownerPrio := by
  rw [hp]
  by_cases hne : (k.mutex m).attr.ownerPrio = k.prio k.cur
  · rw [if_neg fun h => h.2.2 hne, hne]
  · rw [if_pos ⟨rfl, hprot, hne⟩]

theorem CeilingOk.disown (h : CeilingOk c k) (hs : Saves c past k)
    (hpast : ∀ k₀ ∈ past.map Prod.fst, CeilingOk c k₀) (hc : Restores c past k a)
    (hrel : k.Releases a m)
    (hm : k'.mutex = Function.update k.mutex m { k.mutex m with owner := none, counter := 0 })
    (hp : ∀ t, k'.prio t =
      if t = k.cur ∧ k.RestoresPrio m then (k.mutex m).attr.ownerPrio else k.prio t) :
    CeilingOk c k' := by
  refine .of_least fun t => ?_
  rw [protectMutexes_disown hm]
  by_cases ht : t = k.cur ∧ (k.mutex m).attr.prioProtection = .protect
  · obtain ⟨rfl, hprot⟩ := ht
    obtain ⟨k₀, hk₀, hsaved⟩ := hs.saved m _ hrel.2.1 hprot
    rw [prio_disown hp hprot, hsaved, ← hc m hrel hprot k₀ hk₀]
    exact (hpast k₀ (lastFree_mem hk₀)).least k.cur
  · have hnot : m ∉ k.protectMutexes t := by
      rintro ⟨ho, hprot⟩
      rw [hrel.2.1, Option.some.injEq] at ho
      exact ht ⟨ho.symm, hprot⟩
    rw [Set.sdiff_singleton_eq_self hnot, hp, if_neg fun hr => ht ⟨hr.1, hr.2.1⟩]
    exact h.least t

-- ---------------------------------------------------------------------------
-- Whole runs
-- ---------------------------------------------------------------------------

theorem boot_saves (c : Config T) : Saves c [] (boot c) where
  protection _ := rfl
  ceiling _ := rfl
  saved m t ho := by simp [boot] at ho

theorem boot_ceilingOk (c : Config T) : CeilingOk c (boot c) := by
  have hprio (ts : List T) (s : Sched T) (t : T) :
      ((ts.foldl Sched.activateThread s).thread t).schedPriority = (s.thread t).schedPriority := by
    induction ts generalizing s with
    | nil => rfl
    | cons u ts ih => rw [List.foldl_cons, ih, Sched.activateThread_prio]
  refine .of_least fun t => ?_
  have hnone : (boot c).protectMutexes t = ∅ := by
    ext m
    simp [protectMutexes, boot]
  have hbase : (boot c).prio t = c.prio t := hprio _ _ _
  rw [hnone, hbase, Config.prios, Set.image_empty]
  simp

variable [Fintype T]

theorem CeilingOk.step (h : CeilingOk c k) (hs : Saves c past k)
    (hpast : ∀ k₀ ∈ past.map Prod.fst, CeilingOk c k₀) (hc : Restores c past k a)
    (hstep : k.step a = some k') : CeilingOk c k' := by
  cases step_mutex hstep with
  | same hm hp =>
    refine .of_least fun t => ?_
    have hsame : k'.protectMutexes t = k.protectMutexes t := by simp [protectMutexes, hm]
    rw [hsame, hp]
    exact h.least t
  | own n _ ho hm hp => exact h.own hs.ceiling ho hm hp
  | count n _ hm hp =>
    refine .of_least fun t => ?_
    rw [protectMutexes_count hm, hp]
    exact h.least t
  | disown hl ho hlast hm hp => exact h.disown hs hpast hc ⟨hl, ho, hlast⟩ hm hp

theorem run_saves (hr : Runs.Run step (boot c) tr k) : Saves c tr k :=
  hr.history (I := Saves c) (C := fun _ _ _ => True) (boot_saves c)
    (fun _ _ _ _ h _ hs => h.mutexStep (step_mutex hs)) fun _ _ _ => trivial

theorem run_ceilingOk (hr : Runs.Run step (boot c) tr k)
    (hq : ∀ e past, e :: past <:+ tr → Restores c past e.1 e.2) :
    ∀ x, Runs.Visited tr k x → CeilingOk c x := by
  have hinv : Saves c tr k ∧ ∀ x, Runs.Visited tr k x → CeilingOk c x := by
    refine hr.history (I := fun tr k => Saves c tr k ∧ ∀ x, Runs.Visited tr k x → CeilingOk c x)
      (C := Restores c) ⟨boot_saves c, ?_⟩ ?_ hq
    · rintro x (rfl | hx)
      · exact boot_ceilingOk c
      · simp at hx
    · rintro past k a k' ⟨hsaves, hok⟩ hc hstep
      refine ⟨hsaves.mutexStep (step_mutex hstep), ?_⟩
      rintro x (rfl | hx)
      · exact (hok k .self).step hsaves (fun k₀ hk₀ => hok k₀ (.inr hk₀)) hc hstep
      · rcases List.mem_cons.mp hx with rfl | hx
        · exact hok _ .self
        · exact hok x (.inr hx)
  exact hinv.2

omit [Fintype T] in
theorem unlockReturn_mutex (k : Kernel T) (caller : UnlockCaller) :
    (k.unlockReturn env m caller r).mutex = k.mutex := by
  cases caller with
  | unlock => rfl
  | condWait c => rfl
  | condTimedwait c abstime d => exact (updateHwtimer_frame _ _).mutex

theorem mutexUnlockSys_frees (ho : (k.mutex m).owner = some k.cur)
    (hlast : ¬((k.mutex m).attr.type = .recursive ∧ 0 < int32 ((k.mutex m).counter - 1))) :
    ((k.mutexUnlockSys env m caller).mutex m).owner = none := by
  unfold mutexUnlockSys
  simp only [ho, if_neg hlast, ↓reduceIte, releaseMutex]
  split
  · simp [clearOwner_mutex]
  · simp [unlockReturn_mutex, clearOwner_mutex]

theorem Releases.frees (h : k.Releases a m) (hs : k.step a = some k') :
    (k'.mutex m).owner = none := by
  obtain ⟨hl, ho, hlast⟩ := h
  cases a with
  | call call env =>
    simp only [Kernel.step, Option.ite_none_right_eq_some, Option.some.injEq] at hs
    obtain ⟨-, rfl⟩ := hs
    change call.unlocks = some m at hl
    cases call with
    | mutexUnlock m' =>
      obtain rfl := Option.some.inj hl
      exact mutexUnlockSys_frees ho hlast
    | condWait cond m' =>
      cases cond <;> cases m' <;> simp only [Call.unlocks, Option.some.injEq, reduceCtorEq] at hl
      subst hl
      simp only [enter, condWaitSys, record_rest, ho, ↓reduceIte]
      exact mutexUnlockSys_frees ho hlast
    | condTimedwait cond m' abstime =>
      cases cond <;> cases m' <;> cases abstime <;>
        simp only [Call.unlocks, Option.some.injEq, reduceCtorEq] at hl
      subst hl
      simp only [enter, condTimedwaitSys, record_rest, ho, ↓reduceIte]
      exact mutexUnlockSys_frees ho hlast
    | _ => cases hl
  | resume env => cases hl
  | interrupt env => cases hl

theorem Releases.change (h : k.Releases a m) (hs : k.step a = some k') :
    k'.mutex = Function.update k.mutex m { k.mutex m with owner := none, counter := 0 } ∧
    ∀ t, k'.prio t =
      if t = k.cur ∧ k.RestoresPrio m then (k.mutex m).attr.ownerPrio else k.prio t := by
  have hfree : (k'.mutex m).owner = none := h.frees hs
  have ho : (k.mutex m).owner = some k.cur := h.2.1
  have hkept (hsame : k'.mutex m = k.mutex m) : False := by
    rw [hsame, ho] at hfree
    cases hfree
  cases step_mutex hs with
  | same hm => exact (hkept (congrFun hm m)).elim
  | @own m' n _ ho' hm =>
    have hne : m ≠ m' := by
      rintro rfl
      rw [ho] at ho'
      cases ho'
    exact (hkept (by simp [hm, hne])).elim
  | @count m' n _ hm =>
    by_cases hne : m = m'
    · subst hne
      simp [hm, ho] at hfree
    · exact (hkept (by simp [hm, hne])).elim
  | @disown m' _ _ _ hm hp =>
    by_cases hne : m = m'
    · subst hne
      exact ⟨hm, hp⟩
    · exact (hkept (by simp [hm, hne])).elim

/-- Priorities follow the ceilings in a run exactly when every release finds the
minimum its thread's lock found. -/
theorem priority_ceiling {c : Config T} {tr : List (Kernel T × Action T)} {k : Kernel T}
    (hr : Runs.Run step (boot c) tr k) :
    (∀ x, Runs.Visited tr k x → CeilingOk c x) ↔
      ∀ e past, e :: past <:+ tr → Restores c past e.1 e.2 := by
  refine ⟨fun hok e past he => ?_, run_ceilingOk hr⟩
  obtain ⟨hpast, y, hy, hvisited⟩ := hr.of_suffix he
  intro m hrel hprot k₀ hk₀ p
  obtain ⟨hm, hp⟩ := hrel.change hy
  obtain ⟨k₁, hk₁, hsaved⟩ := (run_saves hpast).saved m _ hrel.2.1 hprot
  obtain rfl := Option.some.inj (hk₁.symm.trans hk₀)
  have hbefore := (hok k₁ (Runs.Visited.suffix (.inr (lastFree_mem hk₁)) he)).least e.1.cur
  have hafter := (hok y hvisited).least e.1.cur
  rw [protectMutexes_disown hm, prio_disown hp hprot, hsaved] at hafter
  constructor
  · intro h
    rwa [h.unique hbefore]
  · intro h
    rwa [h.unique hafter]

end

end Kernel

-- ---------------------------------------------------------------------------
-- Critical sections that overlap without nesting
-- ---------------------------------------------------------------------------

/-- Thread 1 at priority number 10, and two mutexes with ceilings 5 and 3. -/
def twoCeilings : Config (Fin 3) :=
  { twoThreads with
    prio := fun t => 10 * t.val
    attr := fun m =>
      { prioProtection := if m < 2 then .protect else .none, prio := if m = 0 then 5 else 3 } }

theorem twoCeilings_lt (hr : Runs.Run Kernel.step (Kernel.boot twoCeilings) tr k)
    (h : (k.mutex m).attr.prioProtection = .protect) : m < 2 := by
  rw [(Kernel.run_saves hr).protection] at h
  by_contra hm
  have hattr : (twoCeilings.attr m).prioProtection = if m < 2 then .protect else .none := rfl
  rw [hattr, if_neg hm] at h
  cases h

/-- Released in the reverse order, each mutex gives back the right priority. -/
theorem priority_ceiling_nested : ∃ tr k, Runs.Run Kernel.step (Kernel.boot twoCeilings) tr k ∧
    tr.length = 8 ∧ ∀ x, Runs.Visited tr k x → Kernel.CeilingOk twoCeilings x := by
  have hrun : (Runs.exec Kernel.step (Kernel.boot twoCeilings)
      [.call (.mutexLock 0) {}, .resume {}, .call (.mutexLock 1) {}, .resume {},
        .call (.mutexUnlock 1) {}, .resume {}, .call (.mutexUnlock 0) {}, .resume {}]).any fun r =>
      decide (r.1.length = 8) && r.1.tails.all fun l =>
        match l with
        | [] => true
        | e :: past => (e.1.scope e.2).unlocks.all fun m => (Kernel.lastFree m past).all fun k₀ =>
          decide (∀ m' < 2, (k₀.mutex m').owner = some e.1.cur ↔
            (e.1.mutex m').owner = some e.1.cur ∧ m' ≠ m) := by decide +kernel
  obtain ⟨tr, k, hr, hk⟩ := Runs.exec_any hrun
  simp only [Bool.and_eq_true, decide_eq_true_eq, List.all_eq_true, List.mem_tails] at hk
  obtain ⟨hlength, htails⟩ := hk
  refine ⟨tr, k, hr, hlength, (Kernel.priority_ceiling hr).mpr fun e past he => ?_⟩
  refine Kernel.Restores.of_nested fun m hrel hprot k₀ hk₀ => ?_
  have hown := htails _ he
  simp only [Option.all_eq_true, decide_eq_true_eq] at hown
  obtain ⟨hpast, -⟩ := hr.of_suffix he
  obtain ⟨tr₀, -, hr₀⟩ := hpast.toVisited (.inr (Kernel.lastFree_mem hk₀))
  ext m'
  have hprot₀ : (k₀.mutex m').attr.prioProtection = (e.1.mutex m').attr.prioProtection := by
    rw [(Kernel.run_saves hr₀).protection, (Kernel.run_saves hpast).protection]
  by_cases hm' : m' < 2
  · simp only [Kernel.protectMutexes, Set.mem_ofPred_eq, Set.mem_sdiff, Set.mem_singleton_iff,
      hprot₀, hown m hrel.1 k₀ hk₀ m' hm']
    exact and_right_comm
  · have hnone : (e.1.mutex m').attr.prioProtection ≠ .protect := fun h =>
      hm' (twoCeilings_lt hpast h)
    simp [Kernel.protectMutexes, hprot₀, hnone]

/-- Released in the order they were locked in, they leave thread 1 at 5. -/
theorem priority_ceiling_overlapping :
    ∃ tr k, Runs.Run Kernel.step (Kernel.boot twoCeilings) tr k ∧
      k.protectMutexes 1 = ∅ ∧ k.prio 1 = 5 ∧ ¬Kernel.CeilingOk twoCeilings k := by
  have hrun : (Runs.exec Kernel.step (Kernel.boot twoCeilings)
      [.call (.mutexLock 0) {}, .resume {}, .call (.mutexLock 1) {}, .resume {},
        .call (.mutexUnlock 0) {}, .resume {}, .call (.mutexUnlock 1) {}, .resume {}]).any fun r =>
      decide (r.2.prio 1 = 5 ∧ ∀ m : Nat, m < 2 → (r.2.mutex m).owner = none) := by decide +kernel
  obtain ⟨tr, k, hr, hk⟩ := Runs.exec_any hrun
  simp only [decide_eq_true_eq] at hk
  obtain ⟨hprio, hfree⟩ := hk
  have hnone : k.protectMutexes 1 = ∅ := by
    refine Set.eq_empty_of_forall_notMem fun m hm => ?_
    have howner : (k.mutex m).owner = some 1 := hm.1
    rw [hfree m (twoCeilings_lt hr hm.2)] at howner
    cases howner
  refine ⟨tr, k, hr, hnone, hprio, fun h => ?_⟩
  have hbase := h.base 1 hnone
  rw [hprio] at hbase
  exact absurd hbase (by decide)

end Xmertl.Partikle
