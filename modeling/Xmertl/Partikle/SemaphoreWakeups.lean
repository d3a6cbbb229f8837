import Xmertl.Partikle.SemaphoreCount
import Xmertl.Partikle.WaitLists

/-!
# Wake-ups by sem_post

A post that finds the value at 0 wakes one waiter and adds its unit only when
it runs again. If the woken waiter has not taken that unit by then, the value
is positive while other waiters sleep on.
-/

namespace Xmertl.Partikle.Kernel

open IntrusiveList (Lists Models)

variable {T : Type} [DecidableEq T] {k k' : Kernel T} {s : Nat} {L L' : Kind → Nat → List T}

def HasSleeper (k : Kernel T) (s : Nat) : Prop :=
  ∃ t, k.state t = .suspended ∧ (k.lists .sem).Linked s t

def NoPoster (k : Kernel T) (s : Nat) : Prop := ∀ t, k.pc t ≠ .semPost s

/-- The running thread is not in a call on `s`. -/
def OutsideSem (k : Kernel T) (s : Nat) : Prop := (.sem, s) ∉ (k.pc k.cur).objects

/-- The last post in progress adds a unit that nobody waits awake for. -/
def PostsPastSleeper (k : Kernel T) (a : Action T) (s : Nat) : Prop :=
  (∃ env, a = .resume env) ∧ k.pc k.cur = .semPost s ∧ (∀ t, t ≠ k.cur → k.pc t ≠ .semPost s) ∧
    0 ≤ (k.sem s).value ∧ k.HasSleeper s

def Takes (k : Kernel T) (a : Action T) (s : Nat) : Prop :=
  (∃ env, a = .call (.semWait (some s)) env ∨ a = .call (.semTrywait (some s)) env) ∨
    (∃ env, a = .resume env) ∧ k.pc k.cur = .semWait s

/-- A wait takes the value below the least `int`, past sleeping waiters. -/
def WrapsPastSleeper (k : Kernel T) (a : Action T) (s : Nat) : Prop :=
  k.Takes a s ∧ (k.sem s).value = -2147483648 ∧ k.NoPoster s ∧ k.HasSleeper s

def LosesWakeup (k : Kernel T) (a : Action T) (s : Nat) : Prop :=
  k.PostsPastSleeper a s ∨ k.WrapsPastSleeper a s

def IntValue (k : Kernel T) (s : Nat) : Prop :=
  -2147483648 ≤ (k.sem s).value ∧ (k.sem s).value ≤ 2147483647

theorem int32_range (x : Int) : -2147483648 ≤ int32 x ∧ int32 x ≤ 2147483647 := by
  unfold int32
  have h₁ := Int.le_bmod (x := x) (m := 4294967296) (by omega)
  have h₂ := Int.bmod_lt (x := x) (m := 4294967296) (by omega)
  omega

-- ---------------------------------------------------------------------------
-- The value stays an int
-- ---------------------------------------------------------------------------

omit [DecidableEq T] in
theorem IntValue.of_eq (h : k.IntValue s) (hs : k'.sem s = k.sem s) : k'.IntValue s := by
  simpa only [IntValue, hs] using h

omit [DecidableEq T] in
theorem IntValue.int32 (k : Kernel T) (x : Int) : (k.setSem s (int32 x)).IntValue s := by
  simpa [IntValue] using int32_range x

theorem IntValue.semWaitSys (h : k.IntValue s) : (k.semWaitSys (some s)).IntValue s := by
  simp only [Kernel.semWaitSys]
  split
  · exact h.of_eq rfl
  · exact IntValue.int32 k _

theorem IntValue.semTrywaitSys (h : k.IntValue s) : (k.semTrywaitSys (some s)).IntValue s := by
  simp only [Kernel.semTrywaitSys]
  split
  · exact h.of_eq rfl
  · exact IntValue.int32 k _

omit [DecidableEq T] in
theorem IntValue.semTimedwaitTake (h : k.IntValue s) : (k.semTimedwaitTake s).IntValue s := by
  unfold Kernel.semTimedwaitTake
  split
  · exact IntValue.int32 k _
  · exact h

theorem IntValue.semTimedwaitSys (h : k.IntValue s) :
    (k.semTimedwaitSys env (some s) abstime).IntValue s := by
  have ht : (k.semTimedwaitTake s).IntValue s := h.semTimedwaitTake
  cases abstime with
  | none => exact h.of_eq rfl
  | some abstime =>
    simp only [Kernel.semTimedwaitSys]
    split
    · exact ht.of_eq rfl
    · split
      · exact ht.of_eq rfl
      · exact ht.of_eq (congrFun (updateHwtimer_frame _ env).sem s)

theorem IntValue.semPostEnd (h : k.IntValue s) : (k.semPostEnd s).IntValue s := by
  unfold Kernel.semPostEnd
  split
  · rename_i hmax
    obtain ⟨hmin, -⟩ := h
    simp only [semValueMax] at hmax
    simp only [IntValue, ret_rest, setSem_sem, Function.update_self]
    omega
  · exact h.of_eq rfl

theorem IntValue.semPostSys (h : k.IntValue s) : (k.semPostSys (some s)).IntValue s := by
  simp only [Kernel.semPostSys]
  split
  · split
    · rename_i hpop
      obtain ⟨l, -, rfl⟩ := removeHeadPthreadList_some hpop
      exact h.of_eq rfl
    · rename_i hpop
      rw [removeHeadPthreadList_none hpop]
      exact h.semPostEnd
  · exact h.semPostEnd

variable [Fintype T]

theorem IntValue.step (h : k.IntValue s) (hs : k.step a = some k') : k'.IntValue s := by
  by_cases hn : (.sem, s) ∈ (k.scope a).objects
  · cases a with
    | call c env =>
      simp only [Kernel.step, Option.ite_none_right_eq_some, Option.some.injEq] at hs
      obtain ⟨-, rfl⟩ := hs
      have hrec : (k.record (.call k.cur c)).IntValue s := h.of_eq rfl
      rcases Call.of_sem hn with rfl | rfl | ⟨abstime, rfl⟩ | rfl
      · exact hrec.semWaitSys
      · exact hrec.semTrywaitSys
      · exact hrec.semTimedwaitSys
      · exact hrec.semPostSys
    | resume env =>
      simp only [Kernel.step, Option.ite_none_left_eq_some, Option.some.injEq] at hs
      obtain ⟨-, rfl⟩ := hs
      unfold resume
      rcases Pc.of_sem hn with hp | ⟨abstime, hp⟩ | hp
      · rw [hp]
        exact IntValue.int32 k _
      · rw [hp]
        have hremove : (k.removePthreadList .sem s k.cur).IntValue s := h.of_eq rfl
        exact hremove.semTimedwaitTake.of_eq rfl
      · rw [hp]
        exact h.semPostEnd
    | interrupt env => simp [scope] at hn
  · exact h.of_eq (step_sem_other hs hn).1

-- ---------------------------------------------------------------------------
-- Sleepers
-- ---------------------------------------------------------------------------

/-- A thread asleep on a list after a step was so before, unless it is the one
that ran. -/
theorem sleeper_before (h : Waits early none k L) (h' : Waits early none k' L')
    (hs : k.step a = some k') (ht : t ≠ k.cur) (hsusp : k'.state t = .suspended)
    (hl : (k'.lists κ).Linked o t) : k.state t = .suspended ∧ (k.lists κ).Linked o t := by
  have hw : (k'.pc t).waits = some (κ, o) := h'.waits ((h'.models κ).linked_iff.mp hl)
  rw [step_pc hs ht] at hw
  have hold : k.state t = .suspended := by
    rcases step_state hs ht with he | he
    · exact he ▸ hsusp
    · rw [hsusp] at he
      cases he
  exact ⟨hold, (h.models κ).linked_iff.mpr (h.linked (by simp) hold hw)⟩

-- ---------------------------------------------------------------------------
-- What a step does to the value
-- ---------------------------------------------------------------------------

/-- The value is not above 0, or has not risen, and the caller does not wait. -/
def Drops (k k' : Kernel T) (s : Nat) : Prop :=
  (k'.sem s).value ≤ 0 ∨
    (k'.sem s).value ≤ (k.sem s).value ∧ (k'.pc k.cur).waits ≠ some (.sem, s)

omit [Fintype T] in
theorem int32_pred (h : -2147483648 < v) (h' : v ≤ 2147483647) : int32 (v - 1) = v - 1 :=
  int32_eq (by omega) (by omega)

omit [Fintype T] in
theorem semWaitEnd_drops (hv : k.IntValue s) (hw : (k.sem s).value ≠ -2147483648) :
    Drops k (k.semWaitEnd s) s := by
  obtain ⟨hmin, hmax⟩ := hv
  right
  simp only [semWaitEnd, ret_rest, setSem_sem, Function.update_self, setSem_rest]
  rw [int32_pred (by omega) hmax]
  exact ⟨by omega, by simp [Pc.waits]⟩

omit [Fintype T] in
theorem semWaitSys_drops (hv : k.IntValue s) (hw : (k.sem s).value ≠ -2147483648) :
    Drops k (k.semWaitSys (some s)) s := by
  simp only [semWaitSys]
  split
  · rename_i h₀
    exact .inl (by simp [insertPthreadList, h₀])
  · exact semWaitEnd_drops hv hw

omit [Fintype T] in
theorem semTrywaitSys_drops (hv : k.IntValue s) (hw : (k.sem s).value ≠ -2147483648) :
    Drops k (k.semTrywaitSys (some s)) s := by
  obtain ⟨hmin, hmax⟩ := hv
  simp only [semTrywaitSys]
  split
  · exact .inr (by simp [Pc.waits])
  · right
    simp only [ret_rest, setSem_sem, Function.update_self, setSem_rest]
    rw [int32_pred (by omega) hmax]
    exact ⟨by omega, by simp [Pc.waits]⟩

omit [Fintype T] [DecidableEq T] in
theorem semTimedwaitTake_value (hv : k.IntValue s) : ((k.semTimedwaitTake s).sem s).value =
    if 0 < (k.sem s).value then (k.sem s).value - 1 else (k.sem s).value := by
  unfold semTimedwaitTake
  split
  · simp only [setSem_sem, Function.update_self]
    exact int32_pred (by omega) hv.2
  · rfl

omit [Fintype T] [DecidableEq T] in
theorem semTimedwaitTake_rest (k : Kernel T) : (k.semTimedwaitTake s).cur = k.cur ∧
    (k.semTimedwaitTake s).lists = k.lists := by
  unfold semTimedwaitTake
  split <;> simp

omit [Fintype T] in
theorem semTimedwaitSys_drops (hv : k.IntValue s) :
    Drops k (k.semTimedwaitSys env (some s) abstime) s := by
  have hval := semTimedwaitTake_value hv
  have hret (abstime : Option Timespec) (r : Ret) :
      Drops k ((k.semTimedwaitTake s).ret (.semTimedwait (some s) abstime) r) s := by
    refine .inr ⟨?_, by simp [semTimedwaitTake_rest, Pc.waits]⟩
    simp only [ret_rest, hval]
    split <;> omega
  cases abstime with
  | none => exact .inr (by simp [semTimedwaitSys, Pc.waits])
  | some abstime =>
    simp only [semTimedwaitSys]
    split
    · exact hret _ _
    · split
      · exact hret _ _
      · rename_i hlow _
        let k₁ := ((k.semTimedwaitTake s).insertPthreadList .sem s
          (k.semTimedwaitTake s).cur).armTimer
        have hf := updateHwtimer_frame (k₁.suspendThread k₁.cur) env
        left
        change (((k₁.suspendThread k₁.cur).updateHwtimer env).sem s).value ≤ 0
        rw [hf.sem]
        change ((k.semTimedwaitTake s).sem s).value ≤ 0
        rw [hval] at hlow ⊢
        split <;> omega

omit [Fintype T] in
theorem semTimedwaitEnd_drops (hv : k.IntValue s) : Drops k (k.semTimedwaitEnd s abstime) s := by
  have hval := semTimedwaitTake_value (k := k.removePthreadList .sem s k.cur) hv
  have hrest := semTimedwaitTake_rest (s := s) (k.removePthreadList .sem s k.cur)
  right
  simp only [semTimedwaitEnd, ret_rest, hval, hrest.1]
  simp only [removePthreadList, setLists_rest, Function.update_self]
  refine ⟨?_, by simp [Pc.waits]⟩
  split <;> omega

omit [Fintype T] in
theorem semPostEnd_value (k : Kernel T) : ((k.semPostEnd s).sem s).value ≤ (k.sem s).value + 1 ∧
    (k.semPostEnd s).pc = Function.update k.pc k.cur .user ∧ (k.semPostEnd s).cur = k.cur := by
  unfold semPostEnd
  split
  · simp
  · exact ⟨by simp only [ret_rest]; omega, by simp, by simp⟩

inductive SemStep (s : Nat) (k : Kernel T) (a : Action T) (k' : Kernel T) : Prop
  | drops : Drops k k' s → k.pc k.cur ≠ .semPost s → SemStep s k a k'
  | wraps : k.Takes a s → (k.sem s).value = -2147483648 → k.pc k.cur ≠ .semPost s →
      (k'.pc k.cur).waits = none → SemStep s k a k'
  | wakes : k'.pc k.cur = .semPost s → SemStep s k a k'
  | posts : (k'.sem s).value ≤ (k.sem s).value + 1 → (k'.pc k.cur).waits = none →
      k.pc k.cur ≠ .semPost s → ((k.sem s).value = 0 → (k.lists .sem).head s = none) →
      SemStep s k a k'
  | ends : (∃ env, a = .resume env) → k.pc k.cur = .semPost s →
      (k'.sem s).value ≤ (k.sem s).value + 1 → (k'.pc k.cur).waits = none → SemStep s k a k'

theorem semStep_call (hv : k.IntValue s) (hp : k.pc k.cur = .user) (hc : (.sem, s) ∈ c.objects) :
    SemStep s k (.call c env) ((k.record (.call k.cur c)).enter env c) := by
  have hne : k.pc k.cur ≠ .semPost s := by simp [hp]
  rcases Call.of_sem hc with rfl | rfl | ⟨abstime, rfl⟩ | rfl
  · by_cases hw : (k.sem s).value = -2147483648
    · refine .wraps (.inl ⟨env, .inl rfl⟩) hw hne ?_
      simp [enter, semWaitSys, semWaitEnd, hw, Pc.waits]
    · exact .drops (semWaitSys_drops (k := k.record (.call k.cur (.semWait (some s)))) hv hw) hne
  · by_cases hw : (k.sem s).value = -2147483648
    · refine .wraps (.inl ⟨env, .inr rfl⟩) hw hne ?_
      simp [enter, semTrywaitSys, hw, Pc.waits]
    · exact .drops (semTrywaitSys_drops (k := k.record (.call k.cur (.semTrywait (some s)))) hv hw)
        hne
  · exact .drops
      (semTimedwaitSys_drops (k := k.record (.call k.cur (.semTimedwait (some s) abstime))) hv) hne
  · have hend := semPostEnd_value (s := s) (k.record (.call k.cur (.semPost (some s))))
    have hposts (h : (k.sem s).value = 0 → (k.lists .sem).head s = none) :
        SemStep s k (.call (.semPost (some s)) env)
          ((k.record (.call k.cur (.semPost (some s)))).semPostEnd s) := by
      refine .posts hend.1 ?_ hne h
      rw [hend.2.1]
      simp [Pc.waits]
    simp only [enter, semPostSys]
    split
    · split
      · rename_i t k₁ hpop
        obtain ⟨l, -, rfl⟩ := removeHeadPthreadList_some hpop
        exact .wakes (by simp)
      · rename_i hpop
        have hfst := congrArg Prod.fst hpop
        have hhead : (k.lists .sem).head s = none := Lists.head_of_popFront hfst
        rw [removeHeadPthreadList_none hpop]
        exact hposts fun _ => hhead
    · rename_i h₀
      exact hposts fun h => absurd h h₀

omit [Fintype T] in
theorem semStep_resume (hv : k.IntValue s) (hp : (.sem, s) ∈ (k.pc k.cur).objects) :
    SemStep s k (.resume env) (k.resume env) := by
  unfold resume
  rcases Pc.of_sem hp with hpc | ⟨abstime, hpc⟩ | hpc
  · rw [hpc]
    by_cases hw : (k.sem s).value = -2147483648
    · exact .wraps (.inr ⟨⟨env, rfl⟩, hpc⟩) hw (by simp [hpc]) (by simp [semWaitEnd, Pc.waits])
    · exact .drops (semWaitEnd_drops hv hw) (by simp [hpc])
  · rw [hpc]
    exact .drops (semTimedwaitEnd_drops hv) (by simp [hpc])
  · rw [hpc]
    have hend := semPostEnd_value (s := s) k
    refine .ends ⟨env, rfl⟩ hpc hend.1 ?_
    rw [hend.2.1]
    simp [Pc.waits]

/-- With no post in progress, a positive value means that nobody sleeps. -/
def Served (k : Kernel T) (s : Nat) : Prop :=
  k.NoPoster s → 0 < (k.sem s).value → ¬k.HasSleeper s

theorem hasSleeper_before (h : Waits early none k L) (h' : Waits early none k' L')
    (hs : k.step a = some k') (hw : (k'.pc k.cur).waits ≠ some (.sem, s))
    (hsl : k'.HasSleeper s) : k.HasSleeper s := by
  obtain ⟨t, hsusp, hl⟩ := hsl
  have ht : t ≠ k.cur := by
    rintro rfl
    exact hw (h'.waits ((h'.models .sem).linked_iff.mp hl))
  exact ⟨t, sleeper_before h h' hs ht hsusp hl⟩

theorem noPoster_before (hs : k.step a = some k') (hp : k.pc k.cur ≠ .semPost s)
    (h : k'.NoPoster s) : k.NoPoster s := by
  intro t
  by_cases ht : t = k.cur
  · rwa [ht]
  · rw [← step_pc hs ht]
    exact h t

theorem Served.semStep (h : Served k s) (hst : SemStep s k a k') (hL : Waits early none k L)
    (hL' : Waits early none k' L') (hs : k.step a = some k') (hlose : ¬k.LosesWakeup a s) :
    Served k' s := by
  intro hposter hpos hsleep
  cases hst with
  | drops hdrop hp =>
    rcases hdrop with hle | ⟨hle, hw⟩
    · omega
    · exact h (noPoster_before hs hp hposter) (by omega) (hasSleeper_before hL hL' hs hw hsleep)
  | wraps htake hmin hp hw =>
    refine hlose (.inr ⟨htake, hmin, noPoster_before hs hp hposter, ?_⟩)
    exact hasSleeper_before hL hL' hs (by simp [hw]) hsleep
  | wakes hp => exact hposter _ hp
  | posts hle hw hp hempty =>
    have hbefore : k.HasSleeper s := hasSleeper_before hL hL' hs (by simp [hw]) hsleep
    by_cases h₀ : (k.sem s).value = 0
    · obtain ⟨t, hsusp, hl⟩ := hbefore
      have hmem : t ∈ L .sem s := (hL.models .sem).linked_iff.mp hl
      exact hL.none_blocked (hempty h₀) (by simp) (hL.waits hmem) hsusp
    · exact h (noPoster_before hs hp hposter) (by omega) hbefore
  | ends hresume hp hle hw =>
    refine hlose (.inl ⟨hresume, hp, fun t ht => ?_, by omega, ?_⟩)
    · rw [← step_pc hs ht]
      exact hposter t
    · exact hasSleeper_before hL hL' hs (by simp [hw]) hsleep

theorem Served.other (h : Served k s) (hn : (.sem, s) ∉ (k.scope a).objects)
    (hL : Waits early none k L) (hL' : Waits early none k' L') (hs : k.step a = some k') :
    Served k' s := by
  intro hposter hpos hsleep
  rw [(step_sem_other hs hn).1] at hpos
  have hp : k.pc k.cur ≠ .semPost s := by
    intro hp
    cases step_shape hs with
    | call hu => simp [hu] at hp
    | resume => exact hn (by simp [scope, hp, Pc.objects])
    | interrupt hu => simp [hu] at hp
  have hw : (k'.pc k.cur).waits ≠ some (.sem, s) :=
    fun hw => hn (step_pc_cur hs (Pc.waits_objects hw))
  exact h (noPoster_before hs hp hposter) hpos (hasSleeper_before hL hL' hs hw hsleep)

theorem Served.step (h : Served k s) (hv : k.IntValue s) (hL : Waits early none k L)
    (hL' : Waits early none k' L') (hs : k.step a = some k') (hlose : ¬k.LosesWakeup a s) :
    Served k' s := by
  by_cases hn : (.sem, s) ∈ (k.scope a).objects
  · refine h.semStep ?_ hL hL' hs hlose
    cases a with
    | call c env =>
      simp only [Kernel.step, Option.ite_none_right_eq_some, Option.some.injEq] at hs
      obtain ⟨⟨hp, -⟩, rfl⟩ := hs
      exact semStep_call hv hp hn
    | resume env =>
      simp only [Kernel.step, Option.ite_none_left_eq_some, Option.some.injEq] at hs
      obtain ⟨-, rfl⟩ := hs
      exact semStep_resume hv hn
    | interrupt env => simp [scope] at hn
  · exact h.other hn hL hL' hs

-- ---------------------------------------------------------------------------
-- Whole runs
-- ---------------------------------------------------------------------------

/-- A lost wake-up, seen by a thread outside the semaphore code. -/
def LostWakeup (k : Kernel T) (s : Nat) : Prop :=
  k.NoPoster s ∧ k.OutsideSem s ∧ 0 < (k.sem s).value ∧ k.HasSleeper s

omit [Fintype T] in
/-- A call that ends with a value above 0 and sleepers, no other post being under way. -/
theorem lostWakeup_of_ret {k₁ : Kernel T} (hpc : k₁.pc = k.pc) (hcur : k₁.cur = k.cur)
    (hstate : k₁.state = k.state) (hlists : k₁.lists = k.lists)
    (hposter : ∀ t, t ≠ k.cur → k.pc t ≠ .semPost s) (hpos : 0 < (k₁.sem s).value)
    (hsleep : k.HasSleeper s) : (k₁.ret c r).LostWakeup s := by
  refine ⟨fun t => ?_, ?_, hpos, ?_⟩
  · by_cases ht : t = k.cur
    · simp [ht, hcur]
    · simpa [ht, hcur, hpc] using hposter t ht
  · simp [OutsideSem, Pc.objects]
  · simpa [HasSleeper, hstate, hlists] using hsleep

theorem LosesWakeup.lost (h : k.LosesWakeup a s) (hs : k.step a = some k') : k'.LostWakeup s := by
  have htake (c : Call T) (k₁ : Kernel T) (hk₁ : k₁.pc = k.pc ∧ k₁.cur = k.cur ∧
      k₁.state = k.state ∧ k₁.lists = k.lists) (hmin : (k.sem s).value = -2147483648)
      (hposter : k.NoPoster s) (hsleep : k.HasSleeper s) :
      ((k₁.setSem s (int32 ((k.sem s).value - 1))).ret c .ok).LostWakeup s := by
    obtain ⟨hpc, hcur, hstate, hlists⟩ := hk₁
    refine lostWakeup_of_ret (k := k) (by simpa using hpc) (by simpa using hcur)
      (by simpa using hstate) (by simpa using hlists) (fun t _ => hposter t) ?_ hsleep
    simp [hmin, int32]
  rcases h with ⟨⟨env, rfl⟩, hp, hposter, hv, hsleep⟩ | ⟨htakes, hmin, hposter, hsleep⟩
  · simp only [Kernel.step, Option.ite_none_left_eq_some, Option.some.injEq] at hs
    obtain ⟨-, rfl⟩ := hs
    simp only [resume, hp, semPostEnd]
    split
    · refine lostWakeup_of_ret (k := k) rfl rfl rfl rfl hposter ?_ hsleep
      simp only [setSem_sem, Function.update_self]
      omega
    · rename_i hmax
      refine lostWakeup_of_ret (k := k) rfl rfl rfl rfl hposter ?_ hsleep
      simp only [semValueMax] at hmax
      omega
  · rcases htakes with ⟨env, rfl | rfl⟩ | ⟨⟨env, rfl⟩, hp⟩
    · simp only [Kernel.step, Option.ite_none_right_eq_some, Option.some.injEq] at hs
      obtain ⟨-, rfl⟩ := hs
      simpa [enter, semWaitSys, semWaitEnd, hmin] using
        htake (.semWait (some s)) (k.record (.call k.cur (.semWait (some s))))
          ⟨rfl, rfl, rfl, rfl⟩ hmin hposter hsleep
    · simp only [Kernel.step, Option.ite_none_right_eq_some, Option.some.injEq] at hs
      obtain ⟨-, rfl⟩ := hs
      simpa [enter, semTrywaitSys, hmin] using
        htake (.semTrywait (some s)) (k.record (.call k.cur (.semTrywait (some s))))
          ⟨rfl, rfl, rfl, rfl⟩ hmin hposter hsleep
    · simp only [Kernel.step, Option.ite_none_left_eq_some, Option.some.injEq] at hs
      obtain ⟨-, rfl⟩ := hs
      simpa [resume, hp, semWaitEnd] using
        htake (.semWait (some s)) k ⟨rfl, rfl, rfl, rfl⟩ hmin hposter hsleep

omit [Fintype T] in
theorem boot_served (c : Config T) : Served (boot c) s ∧ (boot c).IntValue s := by
  refine ⟨fun _ _ hsleep => ?_, ?_⟩
  · obtain ⟨t, -, hl⟩ := hsleep
    have hmem : t ∈ ([] : List T) := (Models.empty).linked_iff.mp hl
    simp at hmem
  · have h₁ := BitVec.le_toInt (c.sem s)
    have h₂ := BitVec.toInt_lt (x := c.sem s)
    simp only [IntValue, boot, semInit]
    omega

/-- Without early wake-ups no wake-up is lost exactly in the runs in which no
last post in progress ends with a unit too many for the threads still asleep,
and no wait wraps the value around past them. -/
theorem semaphore_wakeups {c : Config T} {tr : List (Kernel T × Action T)} {k : Kernel T} (s : Nat)
    (hr : Runs.Run step (boot c) tr k) (hcalm : ∀ e ∈ tr, e.1.NoEarlyWake e.2) :
    (∀ x, Runs.Visited tr k x → ¬x.LostWakeup s) ↔ ∀ e ∈ tr, ¬e.1.LosesWakeup e.2 s := by
  constructor
  · intro h e he hlose
    obtain ⟨y, hy, hvisited⟩ := hr.post_visited he
    exact h y hvisited (hlose.lost hy)
  · rintro hlose x hx ⟨hposter, -, hpos, hsleep⟩
    have hinv : (SchedOk x ∧ ∃ L, Waits False none x L) ∧ Served x s ∧ x.IntValue s := by
      refine hr.invariant_visited
        (I := fun k => (SchedOk k ∧ ∃ L, Waits False none k L) ∧ Served k s ∧ k.IntValue s)
        (C := fun k a => k.NoEarlyWake a ∧ ¬k.LosesWakeup a s)
        ⟨⟨boot_schedOk c, _, boot_waits c⟩, boot_served c⟩ ?_ (fun e he => ⟨hcalm e he, hlose e he⟩)
        hx
      rintro k a k' ⟨⟨hk, L, hL⟩, hserved, hv⟩ ⟨hq, hlose⟩ hs
      obtain ⟨L', hL'⟩ := hk.waits_step hL (.inr ⟨id, hq⟩) hs
      exact ⟨⟨hk.step hs, L', hL'⟩, hserved.step hv hL hL' hs hlose, hv.step hs⟩
    exact hinv.2.1 hposter hpos hsleep

end Xmertl.Partikle.Kernel

namespace Xmertl.Partikle

/-- Thread 2 posts for the blocked thread 1 and adds its unit after it. -/
theorem semaphore_wakeups_posted : ∃ tr k, Runs.Run Kernel.step (Kernel.boot twoThreads) tr k ∧
    tr.length = 5 ∧ ∀ x, Runs.Visited tr k x → ¬x.LostWakeup 0 := by
  have hrun : (Runs.exec Kernel.step (Kernel.boot twoThreads)
      (postedWait ++ [.call .sleepThread {}, .resume {}])).any fun r =>
      decide (r.1.length = 5) && r.1.all fun e => e.2.targets.isEmpty &&
        decide ((e.1.sem 0).value ≠ -2147483648) &&
        (decide (e.1.pc e.1.cur ≠ .semPost 0) || decide ((e.1.sem 0).value < 0)) := by
    decide +kernel
  obtain ⟨tr, k, hr, hk⟩ := Runs.exec_any hrun
  simp only [Bool.and_eq_true, Bool.or_eq_true, decide_eq_true_eq, List.all_eq_true,
    List.isEmpty_iff] at hk
  obtain ⟨hlength, hsteps⟩ := hk
  refine ⟨tr, k, hr, hlength, (Kernel.semaphore_wakeups 0 hr fun e he t ht => ?_).mpr ?_⟩
  · simp [(hsteps e he).1.1] at ht
  · rintro e he (⟨-, hp, -, hv, -⟩ | ⟨-, hmin, -⟩)
    · rcases (hsteps e he).2 with hne | hneg
      · exact hne hp
      · exact absurd hv (Int.not_le.mpr hneg)
    · exact (hsteps e he).1.2 hmin

/-- Thread 1, woken, posts and waits again before thread 2's post adds its unit. -/
theorem semaphore_wakeup_lost : ∃ tr k, Runs.Run Kernel.step (Kernel.boot twoThreads) tr k ∧
    (∀ e ∈ tr, e.1.NoEarlyWake e.2) ∧ k.LostWakeup 0 := by
  have hrun : (Runs.exec Kernel.step (Kernel.boot twoThreads)
      (postedWait ++ [.call (.semPost (some 0)) {}, .call (.semWait (some 0)) {},
        .resume {}])).any fun r =>
      (r.1.all fun e => e.2.targets.isEmpty) &&
        decide ((∀ t, r.2.pc t ≠ .semPost 0) ∧ r.2.pc r.2.cur = .user ∧ 0 < (r.2.sem 0).value ∧
          r.2.state 1 = .suspended ∧ (r.2.lists .sem).head 0 = some 1) := by
    decide +kernel
  obtain ⟨tr, k, hr, hk⟩ := Runs.exec_any hrun
  simp only [Bool.and_eq_true, decide_eq_true_eq, List.all_eq_true, List.isEmpty_iff] at hk
  obtain ⟨htargets, hposter, hpc, hpos, hsusp, hhead⟩ := hk
  refine ⟨tr, k, hr, fun e he t ht => ?_, hposter, ?_, hpos, 1, hsusp, .head hhead⟩
  · simp [htargets e he] at ht
  · simp [Kernel.OutsideSem, hpc, Pc.objects]

end Xmertl.Partikle
