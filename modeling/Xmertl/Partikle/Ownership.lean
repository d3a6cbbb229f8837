import Xmertl.Partikle.Running

/-!
# Mutex ownership

`held log t m` is how often thread `t` has acquired mutex `m` and not released
it again. `MutexOk` ties it to the owner field and, for a recursive mutex, to
the counter. `pthread_mutex_trylock_sys` leaves the counter of a mutex it takes
at 0; the first unlock still releases it then, but a second acquisition on top
is no longer counted right.
-/

namespace Xmertl.Partikle

variable {T : Type} [DecidableEq T]

def held (log : List (Event T)) (t : T) (m : Nat) : Int :=
  log.count (.acquire t m) - log.count (.release t m)

section
variable {log : List (Event T)} {t u : T} {m n : Nat}

@[simp] theorem held_nil : held ([] : List (Event T)) t m = 0 := rfl

@[simp] theorem held_call : held (.call u c :: log) t m = held log t m := by simp [held]

@[simp] theorem held_ret : held (.ret u c r :: log) t m = held log t m := by simp [held]

theorem held_acquire : held (.acquire t m :: log) t m = held log t m + 1 := by
  simp [held]
  omega

theorem held_release : held (.release t m :: log) t m = held log t m - 1 := by
  simp [held]
  omega

theorem held_acquire_other (h : u ≠ t ∨ n ≠ m) :
    held (.acquire u n :: log) t m = held log t m := by
  have hne : ¬(u = t ∧ n = m) := by
    rintro ⟨rfl, rfl⟩
    rcases h with h | h <;> exact h rfl
  simp [held, hne]

theorem held_release_other (h : u ≠ t ∨ n ≠ m) :
    held (.release u n :: log) t m = held log t m := by
  have hne : ¬(u = t ∧ n = m) := by
    rintro ⟨rfl, rfl⟩
    rcases h with h | h <;> exact h rfl
  simp [held, hne]

end

namespace Kernel

variable {k₀ k k' : Kernel T} {w : Scope T} {m : Nat}

/-- `t` alone holds `m`, and the counter says how often, where it is read. -/
structure HeldBy (k : Kernel T) (m : Nat) (t : T) : Prop where
  pos : 1 ≤ held k.log t m
  others : ∀ u, u ≠ t → held k.log u m = 0
  once : (k.mutex m).attr.type ≠ .recursive → held k.log t m = 1
  counted : (k.mutex m).attr.type = .recursive →
    (k.mutex m).counter = held k.log t m ∨ (k.mutex m).counter = 0 ∧ held k.log t m = 1

structure MutexOk (k : Kernel T) (m : Nat) : Prop where
  free : (k.mutex m).owner = none → (k.mutex m).counter = 0 ∧ ∀ t, held k.log t m = 0
  taken : (k.mutex m).owner = some t → HeldBy k m t
  small : (k.mutex m).counter ≤ 2147483647
  locked : (k.pc t).locked = some m → (k.mutex m).owner = some t

/-- A thread that takes a recursive mutex it owns finds a counter that can count it. -/
def CountsAgain (k : Kernel T) (a : Action T) : Prop :=
  ∀ m, (k.scope a).locks = some m → (k.mutex m).owner = some k.cur →
    (k.mutex m).attr.type = .recursive → 0 < (k.mutex m).counter ∧ (k.mutex m).counter < 2147483647

theorem MutexOk.congr (h : MutexOk k m) (hm : k'.mutex m = k.mutex m)
    (hlog : ∀ t, held k'.log t m = held k.log t m)
    (hpc : ∀ t, (k'.pc t).locked = some m → (k.pc t).locked = some m) : MutexOk k' m where
  free ho := by
    rw [hm] at ho ⊢
    exact ⟨(h.free ho).1, fun t => (hlog t).trans ((h.free ho).2 t)⟩
  taken ho := by
    rw [hm] at ho
    obtain ⟨hpos, hothers, honce, hcounted⟩ := h.taken ho
    refine ⟨?_, fun u hu => (hlog u).trans (hothers u hu), ?_, ?_⟩
    · rwa [hlog]
    · rwa [hm, hlog]
    · rwa [hm, hlog]
  small := hm ▸ h.small
  locked ht := hm ▸ h.locked (hpc _ ht)

theorem MutexOk.own (h : MutexOk k m) (ho : (k.mutex m).owner = none)
    (hn : n = 1 ∨ n = (k.mutex m).counter) : MutexOk (k.setOwner m n) m := by
  obtain ⟨hcounter, hheld⟩ := h.free ho
  have hself : held (.acquire k.cur m :: k.log) k.cur m = 1 := by rw [held_acquire, hheld]; rfl
  rw [hcounter] at hn
  refine ⟨?_, ?_, ?_, ?_⟩
  · simp [setOwner_mutex]
  · intro t ht
    simp only [setOwner_mutex, Function.update_self, Mutex.takenBy_owner, Option.some.injEq] at ht
    subst ht
    refine ⟨?_, fun u hu => ?_, ?_, ?_⟩
    · simp [hself]
    · simp [held_acquire_other (.inl hu.symm), hheld]
    · simp [hself]
    · simp only [setOwner_mutex, Function.update_self, Mutex.takenBy_counter, setOwner_rest, hself]
      intro _
      rcases hn with rfl | rfl
      · exact .inl rfl
      · exact .inr (by simp)
  · simp only [setOwner_mutex, Function.update_self, Mutex.takenBy_counter]
    rcases hn with rfl | rfl <;> decide
  · intro t ht
    have hlocked := h.locked (by simpa using ht)
    rw [ho] at hlocked
    cases hlocked

theorem MutexOk.again (h : MutexOk k m) (ho : (k.mutex m).owner = some k.cur)
    (htype : (k.mutex m).attr.type = .recursive) (hpos : 0 < (k.mutex m).counter)
    (hmax : (k.mutex m).counter < 2147483647) :
    MutexOk ((k.record (.acquire k.cur m)).setCounter m (int32 ((k.mutex m).counter + 1))) m := by
  obtain ⟨-, hothers, -, hcounted⟩ := h.taken ho
  have hcounter : (k.mutex m).counter = held k.log k.cur m := by
    rcases hcounted htype with hc | ⟨hc, -⟩
    · exact hc
    · omega
  rw [int32_eq (by omega) (by omega)]
  refine ⟨by simp [ho], fun ht => ?_, ?_, fun ht => ?_⟩
  · simp only [setCounter_mutex, Function.update_self, record_rest, ho, Option.some.injEq] at ht
    subst ht
    refine ⟨?_, fun u hu => ?_, ?_, ?_⟩
    · simp only [setCounter_rest, record_rest, held_acquire]
      omega
    · simp [held_acquire_other (.inl hu.symm), hothers u hu]
    · simp [htype]
    · simp [held_acquire, hcounter]
  · simp only [setCounter_mutex, Function.update_self, record_rest]
    omega
  · simpa using h.locked ht

theorem MutexOk.countdown (h : MutexOk k m) (ho : (k.mutex m).owner = some k.cur)
    (htype : (k.mutex m).attr.type = .recursive) (hpos : 0 < int32 ((k.mutex m).counter - 1)) :
    MutexOk ((k.record (.release k.cur m)).setCounter m (int32 ((k.mutex m).counter - 1))) m := by
  obtain ⟨hheld, hothers, -, hcounted⟩ := h.taken ho
  have hsmall := h.small
  have hint : int32 ((k.mutex m).counter - 1) = (k.mutex m).counter - 1 := by
    rcases hcounted htype with hc | ⟨hc, -⟩ <;> exact int32_eq (by omega) (by omega)
  rw [hint] at hpos ⊢
  have hcounter : (k.mutex m).counter = held k.log k.cur m := by
    rcases hcounted htype with hc | ⟨hc, -⟩
    · exact hc
    · omega
  refine ⟨by simp [ho], fun ht => ?_, ?_, fun ht => ?_⟩
  · simp only [setCounter_mutex, Function.update_self, record_rest, ho, Option.some.injEq] at ht
    subst ht
    refine ⟨?_, fun u hu => ?_, ?_, ?_⟩
    · simp only [setCounter_rest, record_rest, held_release]
      omega
    · simp [held_release_other (.inl hu.symm), hothers u hu]
    · simp [htype]
    · simp [held_release, hcounter]
  · simp only [setCounter_mutex, Function.update_self, record_rest]
    omega
  · simpa using h.locked ht

theorem HeldBy.last (h : HeldBy k m t) (hsmall : (k.mutex m).counter ≤ 2147483647)
    (hlast : ¬((k.mutex m).attr.type = .recursive ∧ 0 < int32 ((k.mutex m).counter - 1))) :
    held k.log t m = 1 := by
  obtain ⟨hheld, -, honce, hcounted⟩ := h
  by_cases htype : (k.mutex m).attr.type = .recursive
  · rcases hcounted htype with hc | ⟨-, hone⟩
    · have hint : int32 ((k.mutex m).counter - 1) = (k.mutex m).counter - 1 :=
        int32_eq (by omega) (by omega)
      simp only [htype, true_and, hint] at hlast
      omega
    · exact hone
  · exact honce htype

theorem MutexOk.disown (h : MutexOk k m) (hu : k.pc k.cur = .user)
    (ho : (k.mutex m).owner = some k.cur)
    (hlast : ¬((k.mutex m).attr.type = .recursive ∧ 0 < int32 ((k.mutex m).counter - 1))) :
    MutexOk (k.clearOwner m) m := by
  have hheld : HeldBy k m k.cur := h.taken ho
  have hone : held k.log k.cur m = 1 := hheld.last h.small hlast
  refine ⟨fun _ => ⟨by simp [clearOwner_mutex], fun t => ?_⟩, ?_, ?_, fun {t} ht => ?_⟩
  · by_cases ht : t = k.cur
    · simp [ht, held_release, hone]
    · simp [held_release_other (.inl (Ne.symm ht)), hheld.others t ht]
  · simp [clearOwner_mutex]
  · simp [clearOwner_mutex]
  · have hlocked : (k.pc t).locked = some m := by simpa using ht
    have htcur := h.locked hlocked
    rw [ho, Option.some.injEq] at htcur
    rw [← htcur, hu] at hlocked
    simp [Pc.locked] at hlocked

theorem MutexOk.move (h : ∀ m, MutexOk k m) (hm : Move k₀ w k k')
    (hq : ∀ m, w.locks = some m → (k₀.mutex m).owner = some k₀.cur →
      (k₀.mutex m).attr.type = .recursive →
      0 < (k₀.mutex m).counter ∧ (k₀.mutex m).counter < 2147483647) :
    ∀ m, MutexOk k' m := by
  intro m
  cases hm with
  | sem => exact (h m).congr rfl (fun _ => rfl) fun _ => id
  | wake => exact (h m).congr rfl (fun _ => rfl) fun _ => id
  | @kill t sig _ =>
    have hf := pthreadKill_frame k t sig
    exact (h m).congr (congrFun hf.mutex m) (fun t => by rw [hf.log])
      fun t => by rw [hf.pc]; exact id
  | yield => exact (h m).congr rfl (fun _ => rfl) fun _ => id
  | @own m' n _ _ ho hn =>
    by_cases hne : m = m'
    · subst hne
      exact (h m).own ho hn
    · refine (h m).congr (by simp [setOwner_mutex, hne]) (fun t => ?_) fun t => by simp
      simp [held_acquire_other (.inr (Ne.symm hne))]
  | @again m' hl hsame ho htype =>
    by_cases hne : m = m'
    · subst hne
      obtain ⟨hpos, hmax⟩ := hq m hl (by rw [← hsame.mutex, ← hsame.cur]; exact ho)
        (by rw [← hsame.mutex]; exact htype)
      rw [← hsame.mutex] at hpos hmax
      exact (h m).again ho htype hpos hmax
    · refine (h m).congr (by simp [hne]) (fun t => ?_) fun t => id
      simp [held_acquire_other (.inr (Ne.symm hne))]
  | @countdown m' _ _ _ ho htype hpos =>
    by_cases hne : m = m'
    · subst hne
      exact (h m).countdown ho htype hpos
    · refine (h m).congr (by simp [hne]) (fun t => ?_) fun t => id
      simp [held_release_other (.inr (Ne.symm hne))]
  | @disown m' _ hu _ ho hlast _ =>
    by_cases hne : m = m'
    · subst hne
      exact (h m).disown hu ho hlast
    · refine (h m).congr (by simp [clearOwner_mutex, hne]) (fun t => ?_) fun t => by simp
      simp [held_release_other (.inr (Ne.symm hne))]

theorem MutexOk.moves (h : ∀ m, MutexOk k m) (hm : Moves k₀ w k k')
    (hq : ∀ m, w.locks = some m → (k₀.mutex m).owner = some k₀.cur →
      (k₀.mutex m).attr.type = .recursive →
      0 < (k₀.mutex m).counter ∧ (k₀.mutex m).counter < 2147483647) :
    ∀ m, MutexOk k' m := by
  induction hm with
  | refl => exact h
  | tail _ hmove ih => exact MutexOk.move ih hmove hq

theorem MutexOk.exit (h : MutexOk k m) (he : Exit w k k') : MutexOk k' m := by
  have hsched {k₁ : Kernel T} {p : Pc T} (hmutex : k₁.mutex = k.mutex) (hpc : k₁.pc = k.pc)
      (hlog : k₁.log = k.log) (hcur : k₁.cur = k.cur)
      (hp : p.locked = some m → (k.mutex m).owner = some k.cur) : MutexOk (k₁.scheduling p) m := by
    have hk₁ : MutexOk k₁ m :=
      h.congr (congrFun hmutex m) (fun t => by rw [hlog]) fun t => by rw [hpc]; exact id
    refine ⟨hk₁.free, fun ht => ?_, hk₁.small, fun {t} ht => ?_⟩
    · obtain ⟨hpos, hothers, honce, hcounted⟩ := hk₁.taken ht
      exact ⟨hpos, hothers, honce, hcounted⟩
    · by_cases htc : t = k.cur
      · subst htc
        simp only [scheduling_rest, hcur, Function.update_self] at ht
        change (k₁.mutex m).owner = _
        rw [hmutex]
        exact hp ht
      · simp only [scheduling_rest, hcur, Function.update_of_ne htc] at ht
        exact hk₁.locked ht
  cases he with
  | ret =>
    refine h.congr rfl (fun t => by simp) fun t ht => ?_
    by_cases htc : t = k.cur
    · simp [htc, Pc.locked] at ht
    · simpa [htc] using ht
  | scheduling _ _ hp _ => exact hsched rfl rfl rfl rfl (hp m)
  | block _ hw =>
    exact hsched rfl rfl rfl (by simp [insertPthreadList]) (by simp [Pc.locked_of_waits hw])
  | @sleep κ o env p _ hw =>
    have hf :=
      updateHwtimer_frame ((k.insertPthreadList κ o k.cur).armTimer.suspendThread k.cur) env
    exact hsched hf.mutex hf.pc hf.log (hf.cur.trans (suspendThread_rest _).2.2.2.2.2.2.1)
      (by simp [Pc.locked_of_waits hw])
  | suspend => exact hsched rfl rfl rfl (by simp) (by simp [Pc.locked])

theorem MutexOk.called (h : MutexOk k m) : MutexOk (k.record (.call k.cur c)) m :=
  h.congr rfl (fun t => by simp) fun t => id

theorem MutexOk.leave (h : MutexOk k m) : MutexOk k.leave m := by
  refine h.congr (by rw [(leave_rest k).2.2.2.1]) (fun t => by rw [(leave_rest k).2.2.2.2.1]) ?_
  intro t
  rw [(leave_rest k).2.1]
  exact id

variable [Fintype T]

theorem MutexOk.step (h : ∀ m, MutexOk k m) (hq : k.CountsAgain a) (hs : k.step a = some k') :
    ∀ m, MutexOk k' m := by
  intro m
  cases step_shape hs with
  | call _ _ hm he => exact (MutexOk.moves (fun m => (h m).called) hm hq m).exit he
  | resume _ hm he => exact (MutexOk.moves (fun m => (h m).leave) hm hq m).exit he
  | @interrupt env =>
    have hf := updateHwtimer_frame k env
    have hk : MutexOk (k.updateHwtimer env) m :=
      (h m).congr (congrFun hf.mutex m) (fun t => by rw [hf.log]) fun t => by rw [hf.pc]; exact id
    exact hk.congr rfl (fun _ => rfl) fun _ => id

omit [Fintype T] in
theorem boot_mutexOk (c : Config T) (m : Nat) : MutexOk (boot c) m := by
  refine ⟨fun _ => ⟨rfl, fun _ => rfl⟩, ?_, ?_, ?_⟩
  · simp [boot]
  · simp [boot]
  · simp [boot, Pc.locked]

-- ---------------------------------------------------------------------------
-- Returning from a lock call
-- ---------------------------------------------------------------------------

/-- The step lets call `c` of the current thread return `r`. -/
def Returns (k k' : Kernel T) (c : Call T) (r : Ret) : Prop :=
  ∃ l, k'.log = .ret k.cur c r :: l ∧ k.log <:+ l

def NoReturn (k k' : Kernel T) : Prop :=
  ∃ l, k'.log = l ++ k.log ∧ ∀ e ∈ l, ∀ t c r, e ≠ .ret t c r

omit [Fintype T] in
theorem Move.noReturn (h : Move k₀ w k k') : NoReturn k k' := by
  have hone {e : Event T} (hlog : k'.log = e :: k.log) (he : ∀ t c r, e ≠ .ret t c r) :
      NoReturn k k' := ⟨[e], hlog, by simpa using he⟩
  have hnone (hlog : k'.log = k.log) : NoReturn k k' := ⟨[], hlog, by simp⟩
  cases h with
  | own => exact hone (setOwner_rest k).2.2.2.1 (by simp)
  | again => exact hone rfl (by simp)
  | countdown => exact hone rfl (by simp)
  | disown => exact hone (clearOwner_rest k).2.2.2.1 (by simp)
  | kill => exact hnone (pthreadKill_frame _ _ _).log
  | _ => exact hnone rfl

omit [DecidableEq T] [Fintype T] in
theorem NoReturn.trans {k₁ k₂ k₃ : Kernel T} (h : NoReturn k₁ k₂) (h' : NoReturn k₂ k₃) :
    NoReturn k₁ k₃ := by
  obtain ⟨l, hl, hne⟩ := h
  obtain ⟨l', hl', hne'⟩ := h'
  refine ⟨l' ++ l, by rw [hl', hl, List.append_assoc], fun e he => ?_⟩
  rcases List.mem_append.mp he with he | he
  · exact hne' e he
  · exact hne e he

omit [Fintype T] in
theorem Moves.noReturn (h : Moves k₀ w k k') : NoReturn k k' := by
  induction h with
  | refl => exact ⟨[], rfl, by simp⟩
  | tail _ hm ih => exact ih.trans hm.noReturn

omit [DecidableEq T] [Fintype T] in
theorem NoReturn.not_returns (h : NoReturn k k₁) (hlog : k'.log = k₁.log) :
    ¬Returns k k' c r := by
  rintro ⟨l', hret, hsuf⟩
  obtain ⟨l, hl, hne⟩ := h
  rw [hlog, hl] at hret
  cases l with
  | nil =>
    have hlength := hsuf.length_le
    have hlonger := congrArg List.length hret
    simp only [List.nil_append, List.length_cons] at hlonger
    omega
  | cons e l =>
    obtain ⟨he, -⟩ := List.cons.inj hret
    exact hne e List.mem_cons_self _ _ _ he

omit [Fintype T] in
theorem Exit.returns_lock (h : Exit w k₁ k') (hok : MutexOk k₁ m) (hn : NoReturn k k₁)
    (hcur : k₁.cur = k.cur) (hr : Returns k k' c .ok)
    (hc : c = .mutexLock m ∨ c = .mutexTrylock m) :
    (k'.mutex m).owner = some k.cur := by
  cases h with
  | ret _ hlock =>
    obtain ⟨l, hl, -⟩ := hr
    simp only [ret_rest, List.cons.injEq, Event.ret.injEq] at hl
    obtain ⟨⟨-, rfl, rfl⟩, -⟩ := hl
    have hown : (k₁.mutex m).owner = some k₁.cur := by
      rcases hlock m hc rfl with ho | hp
      · exact ho
      · exact hok.locked hp
    simpa [hcur] using hown
  | scheduling => exact absurd hr (hn.not_returns rfl)
  | block => exact absurd hr (hn.not_returns rfl)
  | sleep => exact absurd hr (hn.not_returns (updateHwtimer_frame _ _).log)
  | suspend => exact absurd hr (hn.not_returns rfl)

theorem MutexOk.returns_lock (h : ∀ m, MutexOk k m) (hq : k.CountsAgain a)
    (hs : k.step a = some k') (hr : Returns k k' c .ok)
    (hc : c = .mutexLock m ∨ c = .mutexTrylock m) : (k'.mutex m).owner = some k.cur := by
  cases step_shape hs with
  | @call c' env k₁ _ _ _ hm he =>
    have hn : NoReturn k (k.record (.call k.cur c')) := ⟨[_], rfl, by simp⟩
    exact he.returns_lock (MutexOk.moves (fun m => (h m).called) hm hq m) (hn.trans hm.noReturn)
      hm.cur hr hc
  | resume _ hm he =>
    have hn : NoReturn k k.leave := ⟨[], (leave_rest k).2.2.2.2.1, by simp⟩
    exact he.returns_lock (MutexOk.moves (fun m => (h m).leave) hm hq m) (hn.trans hm.noReturn)
      (hm.cur.trans (leave_rest k).2.2.2.2.2.1) hr hc
  | @interrupt env =>
    have hn : NoReturn k k := ⟨[], rfl, by simp⟩
    exact absurd hr (hn.not_returns (updateHwtimer_frame k env).log)

-- ---------------------------------------------------------------------------
-- Whole runs
-- ---------------------------------------------------------------------------

/-- Who has acquired a mutex and not released it owns it, and is the only one. -/
def Exclusive (k : Kernel T) : Prop :=
  ∀ m t, 0 < held k.log t m →
    (k.mutex m).owner = some t ∧ ∀ u, 0 < held k.log u m → u = t

theorem unlock_not_owner (h : (k.mutex m).owner ≠ some k.cur)
    (hs : k.step (.call (.mutexUnlock m) env) = some k') :
    k'.mutex = k.mutex ∧ k'.lists = k.lists ∧ k'.prio = k.prio := by
  simp only [Kernel.step, Option.ite_none_right_eq_some, Option.some.injEq] at hs
  obtain ⟨-, rfl⟩ := hs
  cases ho : (k.mutex m).owner with
  | none => simp [enter, mutexUnlockSys, ho, unlockReturn]
  | some t =>
    have ht : t ≠ k.cur := by
      rintro rfl
      exact h ho
    simp [enter, mutexUnlockSys, ho, ht, unlockReturn]

omit [Fintype T] in
theorem MutexOk.exclusive (h : ∀ m, MutexOk k m) : Exclusive k := by
  intro m t ht
  cases ho : (k.mutex m).owner with
  | none =>
    rw [((h m).free ho).2 t] at ht
    exact absurd ht (Int.lt_irrefl 0)
  | some v =>
    have hheld : HeldBy k m v := (h m).taken ho
    have hown (u : T) (hu : 0 < held k.log u m) : u = v := by
      by_contra hne
      rw [hheld.others u hne] at hu
      exact Int.lt_irrefl 0 hu
    exact ⟨by rw [hown t ht], fun u hu => (hown u hu).trans (hown t ht).symm⟩

/-- Mutual exclusion, in every run in which a thread that takes a recursive
mutex it owns already finds the counter above 0 and below the greatest `int`. -/
theorem mutex_exclusive {c : Config T} {tr : List (Kernel T × Action T)} {k : Kernel T}
    (hr : Runs.Run step (boot c) tr k) (hq : ∀ e ∈ tr, e.1.CountsAgain e.2) :
    (∀ x, Runs.Visited tr k x → Exclusive x) ∧
    ∀ e ∈ tr, ∀ y, e.1.step e.2 = some y →
      (∀ m call, call = .mutexLock m ∨ call = .mutexTrylock m → Returns e.1 y call .ok →
        (y.mutex m).owner = some e.1.cur) ∧
      ∀ m env, e.2 = .call (.mutexUnlock m) env → (e.1.mutex m).owner ≠ some e.1.cur →
        y.mutex = e.1.mutex ∧ y.lists = e.1.lists ∧ y.prio = e.1.prio := by
  have hok (x : Kernel T) (hx : Runs.Visited tr k x) : ∀ m, MutexOk x m :=
    hr.invariant_visited (I := fun k => ∀ m, MutexOk k m) (C := CountsAgain) (boot_mutexOk c)
      (fun _ _ _ h hq hs => MutexOk.step h hq hs) hq hx
  refine ⟨fun x hx => MutexOk.exclusive (hok x hx), fun e he y hy => ⟨fun m call hc hret => ?_, ?_⟩⟩
  · exact MutexOk.returns_lock (hok e.1 (.pre he)) (hq e he) hy hret hc
  · intro m env ha ho
    rw [ha] at hy
    exact unlock_not_owner ho hy

end Kernel

-- ---------------------------------------------------------------------------
-- A second acquisition after a trylock
-- ---------------------------------------------------------------------------

def twoThreadsRecursive : Config (Fin 3) :=
  { twoThreads with attr := fun _ => { prioProtection := .none, type := .recursive } }

/-- Taking the mutex twice, with `pthread_mutex_lock` each time. -/
theorem mutex_exclusive_locked :
    ∃ tr k, Runs.Run Kernel.step (Kernel.boot twoThreadsRecursive) tr k ∧ tr.length = 3 ∧
      ∀ x, Runs.Visited tr k x → Kernel.Exclusive x := by
  have hrun : (Runs.exec Kernel.step (Kernel.boot twoThreadsRecursive)
      [.call (.mutexLock 0) {}, .call (.mutexLock 0) {}, .call (.mutexUnlock 0) {}]).any fun r =>
      decide (r.1.length = 3) && r.1.all fun e =>
        (e.1.scope e.2).locks.all fun m => decide ((e.1.mutex m).owner = some e.1.cur →
          0 < (e.1.mutex m).counter ∧ (e.1.mutex m).counter < 2147483647) := by decide +kernel
  obtain ⟨tr, k, hr, hk⟩ := Runs.exec_any hrun
  simp only [Bool.and_eq_true, decide_eq_true_eq, List.all_eq_true, Option.all_eq_true] at hk
  obtain ⟨hlength, hsteps⟩ := hk
  exact ⟨tr, k, hr, hlength,
    (Kernel.mutex_exclusive hr fun e he m hm ho _ => hsteps e he m hm ho).1⟩

/-- Thread 1 has acquired the mutex twice and unlocked it once; thread 2 gets it. -/
theorem mutex_not_exclusive :
    ∃ tr k, Runs.Run Kernel.step (Kernel.boot twoThreadsRecursive) tr k ∧
      held k.log 1 0 = 1 ∧ held k.log 2 0 = 1 ∧ ¬Kernel.Exclusive k := by
  have hrun : (Runs.exec Kernel.step (Kernel.boot twoThreadsRecursive)
      [.call (.mutexTrylock 0) {}, .call (.mutexLock 0) {}, .call (.mutexUnlock 0) {},
        .call .sleepThread {}, .call (.mutexLock 0) {}]).any fun r =>
      decide (held r.2.log 1 0 = 1 ∧ held r.2.log 2 0 = 1) := by decide +kernel
  obtain ⟨tr, k, hr, hk⟩ := Runs.exec_any hrun
  simp only [decide_eq_true_eq] at hk
  obtain ⟨h₁, h₂⟩ := hk
  refine ⟨tr, k, hr, h₁, h₂, fun h => ?_⟩
  have := (h 0 1 (by omega)).2 2 (by omega)
  exact absurd this (by decide)

end Xmertl.Partikle
