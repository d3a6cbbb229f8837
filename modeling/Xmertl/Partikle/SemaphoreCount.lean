import Mathlib.Data.Fintype.Card
import Xmertl.Partikle.Running

/-!
# Counting semaphore units

`balance s` is what semaphore `s` has given away and still holds, less the
posts started: its value, the successful waits and the posts not yet ended,
less all posts. It never rises, so the waits granted stay within the initial
value and the posts, as long as the value itself stays non-negative.
-/

namespace Xmertl.Partikle

variable {T : Type}

/-- A `sem_wait` or `sem_trywait` that returned 0. -/
def Event.isGrant (s : Nat) : Event T → Bool
  | .ret _ (.semWait s') .ok | .ret _ (.semTrywait s') .ok => s' = some s
  | _ => false

def Event.isPost (s : Nat) : Event T → Bool
  | .call _ (.semPost s') => s' = some s
  | _ => false

def grants (s : Nat) (log : List (Event T)) : Nat := log.countP (Event.isGrant s)

def posts (s : Nat) (log : List (Event T)) : Nat := log.countP (Event.isPost s)

def unit (b : Bool) : Int := if b then 1 else 0

theorem unit_false {b : Bool} (h : ¬b = true) : unit b = 0 := by simp [unit, h]

theorem unit_nonneg (b : Bool) : 0 ≤ unit b := by cases b <;> simp [unit]

theorem isGrant_objects {t : T} (h : (Event.ret t c r).isGrant s = true) :
    (.sem, s) ∈ c.objects := by
  cases c <;> cases r <;> simp_all [Event.isGrant, Call.objects]

theorem isPost_objects {t : T} (h : (Event.call t c).isPost s = true) : (.sem, s) ∈ c.objects := by
  cases c <;> simp_all [Event.isPost, Call.objects]

section
variable [DecidableEq T] [Fintype T]

/-- The threads in the `scheduling ()` of a `sem_post` on `s`. -/
def posters (pc : T → Pc T) (s : Nat) : Finset T := Finset.univ.filter fun t => pc t = .semPost s

theorem posters_mem (pc : T → Pc T) : t ∈ posters pc s ↔ pc t = .semPost s := by simp [posters]

theorem posters_update (pc : T → Pc T) (t : T) (p : Pc T) :
    ((posters (Function.update pc t p) s).card : Int) + unit (pc t = .semPost s) =
      (posters pc s).card + unit (p = .semPost s) := by
  have hrest : (posters (Function.update pc t p) s).erase t = (posters pc s).erase t := by
    ext u
    by_cases h : u = t <;> simp [posters_mem, h]
  have hcard (f : T → Pc T) : ((posters f s).card : Int) =
      ((posters f s).erase t).card + unit (f t = .semPost s) := by
    by_cases h : f t = .semPost s
    · have := Finset.card_erase_add_one ((posters_mem f).mpr h)
      simp only [unit, h, decide_true, if_true]
      omega
    · rw [Finset.erase_eq_of_notMem (by simpa [posters_mem] using h)]
      simp [unit, h]
  rw [hcard (Function.update pc t p), hcard pc, hrest, Function.update_self]
  omega

end

namespace Kernel

variable [DecidableEq T] [Fintype T] {k₀ k k' : Kernel T} {w : Scope T}

def balance (k : Kernel T) (s : Nat) : Int :=
  (k.sem s).value + grants s k.log + (posters k.pc s).card - posts s k.log

theorem balance_congr (hsem : k'.sem s = k.sem s) (hpc : k'.pc = k.pc) (hlog : k'.log = k.log) :
    k'.balance s = k.balance s := by
  simp only [balance, hsem, hpc, hlog]

theorem balance_record (e : Event T) :
    (k.record e).balance s = k.balance s + unit (e.isGrant s) - unit (e.isPost s) := by
  cases hg : e.isGrant s <;> cases hp : e.isPost s <;>
    simp [balance, grants, posts, unit, hg, hp] <;> omega

theorem balance_setSem (v : Int) :
    (k.setSem s v).balance s = k.balance s + v - (k.sem s).value := by
  simp [balance]
  omega

theorem balance_setPc (p : Pc T) : (k.setPc p).balance s =
    k.balance s + unit (p = .semPost s) - unit (k.pc k.cur = .semPost s) := by
  have := posters_update (s := s) k.pc k.cur p
  simp only [balance, setPc]
  omega

theorem balance_ret (c : Call T) (r : Ret) : (k.ret c r).balance s =
    k.balance s + unit ((Event.ret k.cur c r).isGrant s) - unit (k.pc k.cur = .semPost s) := by
  have hpost : (Event.ret k.cur c r).isPost s = false := rfl
  rw [ret, balance_record, balance_setPc, hpost]
  simp [unit]
  omega

theorem balance_scheduling (p : Pc T) : (k.scheduling p).balance s =
    k.balance s + unit (p = .semPost s) - unit (k.pc k.cur = .semPost s) :=
  (balance_setPc p).symm ▸ balance_congr rfl rfl rfl

-- ---------------------------------------------------------------------------
-- Steps on other objects
-- ---------------------------------------------------------------------------

theorem Move.sem_other (h : Move k₀ w k k') (hs : (.sem, s) ∉ w.objects) :
    k'.sem s = k.sem s ∧ k'.balance s = k.balance s := by
  have hevent (e : Event T) (he : e.isGrant s = false ∧ e.isPost s = false) :
      (k.record e).balance s = k.balance s := by
    rw [balance_record, he.1, he.2]
    simp [unit]
  cases h with
  | @sem s' v hs' =>
    have hne : s ≠ s' := by
      rintro rfl
      exact hs hs'
    have hsem : (k.setSem s' v).sem s = k.sem s := by simp [hne]
    exact ⟨hsem, balance_congr hsem rfl rfl⟩
  | wake => exact ⟨rfl, balance_congr rfl rfl rfl⟩
  | @kill t sig _ =>
    have hf := pthreadKill_frame k t sig
    have hsem := congrFun hf.sem s
    exact ⟨hsem, balance_congr hsem hf.pc hf.log⟩
  | yield => exact ⟨rfl, balance_congr rfl rfl rfl⟩
  | @own m =>
    refine ⟨by simp, ?_⟩
    rw [← hevent (.acquire k.cur m) ⟨rfl, rfl⟩]
    exact balance_congr (by simp) (by simp) (by simp)
  | @again m => exact ⟨rfl, hevent (.acquire k.cur m) ⟨rfl, rfl⟩⟩
  | @countdown m => exact ⟨rfl, hevent (.release k.cur m) ⟨rfl, rfl⟩⟩
  | @disown m =>
    refine ⟨by simp, ?_⟩
    rw [← hevent (.release k.cur m) ⟨rfl, rfl⟩]
    exact balance_congr (by simp) (by simp) (by simp)

theorem Moves.sem_other (h : Moves k₀ w k k') (hs : (.sem, s) ∉ w.objects) :
    k'.sem s = k.sem s ∧ k'.balance s = k.balance s := by
  induction h with
  | refl => exact ⟨rfl, rfl⟩
  | tail _ hm ih =>
    obtain ⟨hsem, hb⟩ := hm.sem_other hs
    exact ⟨hsem.trans ih.1, hb.trans ih.2⟩

theorem Exit.sem_other (h : Exit w k k') (hs : (.sem, s) ∉ w.objects)
    (hpc : k.pc k.cur ≠ .semPost s) : k'.sem s = k.sem s ∧ k'.balance s = k.balance s := by
  have hsched {k₁ : Kernel T} {p : Pc T} (hp : p.objects ⊆ w.objects) (hsem : k₁.sem = k.sem)
      (hpcs : k₁.pc = k.pc) (hlog : k₁.log = k.log) (hcur : k₁.cur = k.cur) :
      (k₁.scheduling p).sem s = k.sem s ∧ (k₁.scheduling p).balance s = k.balance s := by
    have hne : p ≠ .semPost s := by
      rintro rfl
      exact hs (hp (by simp [Pc.objects]))
    refine ⟨congrFun hsem s, ?_⟩
    rw [balance_scheduling, hpcs, hcur, balance_congr (congrFun hsem s) hpcs hlog]
    simp [unit, hne, hpc]
  cases h with
  | @ret c r hc =>
    refine ⟨rfl, ?_⟩
    have hg : ¬(Event.ret k.cur c r).isGrant s = true := fun hg => hs (hc (isGrant_objects hg))
    rw [balance_ret, unit_false hg]
    simp [unit, hpc]
  | scheduling hp => exact hsched hp rfl rfl rfl rfl
  | block hp => exact hsched hp rfl rfl rfl (by simp [insertPthreadList])
  | @sleep κ o env p hp =>
    have hf :=
      updateHwtimer_frame ((k.insertPthreadList κ o k.cur).armTimer.suspendThread k.cur) env
    refine hsched hp hf.sem hf.pc hf.log (hf.cur.trans ?_)
    exact (suspendThread_rest _).2.2.2.2.2.2.1
  | suspend =>
    exact hsched (by simp [Pc.objects, LastCall.call, Call.objects]) rfl rfl rfl (by simp)

theorem step_sem_other (hs : k.step a = some k') (hn : (.sem, s) ∉ (k.scope a).objects) :
    k'.sem s = k.sem s ∧ k'.balance s = k.balance s := by
  cases step_shape hs with
  | @call c env k₁ _ hp hi hm he =>
    obtain ⟨hsem₁, hb₁⟩ := hm.sem_other hn
    obtain ⟨hsem, hb⟩ := he.sem_other hn (by rw [hm.pc, hm.cur]; simp [hp])
    have hpost : ¬(Event.call k.cur c).isPost s = true := fun h => hn (isPost_objects h)
    refine ⟨hsem.trans hsem₁, ?_⟩
    rw [hb, hb₁, balance_record, unit_false hpost]
    simp [unit, Event.isGrant]
  | @resume k₁ _ env hp hm he =>
    have hpc : k.pc k.cur ≠ .semPost s := by
      intro h
      exact hn (by simp [scope, h, Pc.objects])
    obtain ⟨hsem₁, hb₁⟩ := hm.sem_other hn
    obtain ⟨hsem, hb⟩ := he.sem_other hn (by rw [hm.pc, hm.cur]; simpa [leave_rest] using hpc)
    have hleave : k.leave.balance s = k.balance s :=
      balance_congr (by rw [(leave_rest k).2.2.1]) (leave_rest k).2.1 (leave_rest k).2.2.2.2.1
    exact ⟨by rw [hsem, hsem₁, (leave_rest k).2.2.1], by rw [hb, hb₁, hleave]⟩
  | @interrupt env =>
    have hf := updateHwtimer_frame k env
    have hsem := congrFun hf.sem s
    exact ⟨hsem, balance_congr hsem hf.pc hf.log⟩

-- ---------------------------------------------------------------------------
-- Steps on the semaphore
-- ---------------------------------------------------------------------------

structure SemOk (v : Int) (k : Kernel T) (s : Nat) : Prop where
  nonneg : 0 ≤ (k.sem s).value
  max : (k.sem s).value ≤ semValueMax
  balance : k.balance s ≤ v

theorem SemOk.of_le (h : SemOk v k s) (hsem : k'.sem s = k.sem s)
    (hb : k'.balance s ≤ k.balance s) : SemOk v k' s :=
  ⟨hsem ▸ h.nonneg, hsem ▸ h.max, hb.trans h.balance⟩

theorem SemOk.take (h : SemOk v k s) (hv : (k.sem s).value ≠ 0) :
    SemOk (v - 1) (k.setSem s (int32 ((k.sem s).value - 1))) s := by
  obtain ⟨hnonneg, hmax, hb⟩ := h
  simp only [semValueMax] at hmax
  have hint : int32 ((k.sem s).value - 1) = (k.sem s).value - 1 := int32_eq (by omega) (by omega)
  refine ⟨?_, ?_, ?_⟩
  · simp only [setSem_sem, Function.update_self, hint]
    omega
  · simp only [setSem_sem, Function.update_self, hint, semValueMax]
    omega
  · rw [balance_setSem, hint]
    omega

theorem SemOk.weaken (h : SemOk v k s) (hv : v ≤ v') : SemOk v' k s :=
  ⟨h.nonneg, h.max, h.balance.trans hv⟩

theorem SemOk.grant (h : SemOk (v - 1) k s) (c : Call T) (r : Ret) : SemOk v (k.ret c r) s := by
  refine ⟨h.nonneg, h.max, ?_⟩
  have hb := h.balance
  have h₁ := unit_nonneg (k.pc k.cur = .semPost s)
  have h₂ : unit ((Event.ret k.cur c r).isGrant s) ≤ 1 := by
    cases (Event.ret k.cur c r).isGrant s <;> simp [unit]
  rw [balance_ret]
  omega

theorem SemOk.ret (h : SemOk v k s) (hg : ∀ t : T, ¬(Event.ret t c r).isGrant s = true) :
    SemOk v (k.ret c r) s := by
  refine h.of_le rfl ?_
  have := unit_nonneg (k.pc k.cur = .semPost s)
  rw [balance_ret, unit_false (hg k.cur)]
  omega

theorem SemOk.scheduling (h : SemOk v k s) (hp : p ≠ .semPost s) : SemOk v (k.scheduling p) s := by
  refine h.of_le rfl ?_
  have := unit_nonneg (k.pc k.cur = .semPost s)
  rw [balance_scheduling, unit_false (by simpa using hp)]
  omega

theorem SemOk.semWaitEnd (h : SemOk v k s) (hv : (k.sem s).value ≠ 0) :
    SemOk v (k.semWaitEnd s) s := (h.take hv).grant _ _

theorem SemOk.semWaitSys (h : SemOk v k s) : SemOk v (k.semWaitSys (some s)) s := by
  simp only [Kernel.semWaitSys]
  split
  · have hblock : SemOk v ((k.suspendThread k.cur).insertPthreadList .sem s k.cur) s :=
      h.of_le rfl (balance_congr rfl rfl rfl).le
    exact hblock.scheduling (by simp)
  · rename_i hv
    exact h.semWaitEnd hv

theorem SemOk.semTrywaitSys (h : SemOk v k s) : SemOk v (k.semTrywaitSys (some s)) s := by
  simp only [Kernel.semTrywaitSys]
  split
  · exact h.ret (by simp [Event.isGrant])
  · rename_i hv
    exact (h.take hv).grant _ _

theorem SemOk.semTimedwaitTake (h : SemOk v k s) : SemOk v (k.semTimedwaitTake s) s := by
  unfold Kernel.semTimedwaitTake
  split
  · rename_i hv
    exact (h.take (by omega)).weaken (by omega)
  · exact h

theorem SemOk.semTimedwaitSys (h : SemOk v k s) :
    SemOk v (k.semTimedwaitSys env (some s) abstime) s := by
  have ht : SemOk v (k.semTimedwaitTake s) s := h.semTimedwaitTake
  cases abstime with
  | none => exact h.ret (by simp [Event.isGrant])
  | some abstime =>
    simp only [Kernel.semTimedwaitSys]
    split
    · exact ht.ret (by simp [Event.isGrant])
    · split
      · exact ht.ret (by simp [Event.isGrant])
      · let k₁ := ((k.semTimedwaitTake s).insertPthreadList .sem s
          (k.semTimedwaitTake s).cur).armTimer
        have hf := updateHwtimer_frame (k₁.suspendThread k₁.cur) env
        have hsleep : SemOk v ((k₁.suspendThread k₁.cur).updateHwtimer env) s :=
          ht.of_le (congrFun hf.sem s) (balance_congr (congrFun hf.sem s) hf.pc hf.log).le
        exact hsleep.scheduling (by simp)

theorem SemOk.semPostEnd (h : SemOk v k s)
    (hb : k.balance s + 1 ≤ v + unit (k.pc k.cur = .semPost s)) : SemOk v (k.semPostEnd s) s := by
  have hg (t : T) (r : Ret) : unit ((Event.ret t (.semPost (some s)) r).isGrant s) = 0 := rfl
  unfold Kernel.semPostEnd
  split
  · rename_i hmax
    have hnonneg := h.nonneg
    refine ⟨?_, ?_, ?_⟩
    · simp only [ret_rest, setSem_sem, Function.update_self]
      omega
    · simp only [ret_rest, setSem_sem, Function.update_self]
      omega
    · rw [balance_ret, balance_setSem, hg]
      simp only [setSem_rest]
      omega
  · exact h.ret fun t => by simp [Event.isGrant]

theorem SemOk.semPostSys (h : SemOk v k s) (hb : k.balance s + 1 ≤ v) :
    SemOk v (k.semPostSys (some s)) s := by
  have h₁ := unit_nonneg (k.pc k.cur = .semPost s)
  have hend : SemOk v (k.semPostEnd s) s := h.semPostEnd (by omega)
  simp only [Kernel.semPostSys]
  split
  · split
    · rename_i t k₁ hpop
      obtain ⟨l, -, rfl⟩ := removeHeadPthreadList_some hpop
      have hwake : ((k.setLists .sem l).activateThread t).balance s = k.balance s :=
        balance_congr rfl rfl rfl
      refine ⟨h.nonneg, h.max, ?_⟩
      rw [balance_scheduling, hwake]
      simp only [activateThread_rest, setLists_rest, decide_true]
      simp only [unit, if_true] at h₁ ⊢
      omega
    · rename_i hpop
      rw [removeHeadPthreadList_none hpop]
      exact hend
  · exact hend

/-- A woken `sem_wait` goes on and finds no unit. -/
def FindsNone (k : Kernel T) (a : Action T) (s : Nat) : Prop :=
  (∃ env, a = .resume env) ∧ k.pc k.cur = .semWait s ∧ (k.sem s).value = 0

theorem SemOk.enter (h : SemOk v k s) (hc : (.sem, s) ∈ c.objects) :
    SemOk v ((k.record (.call k.cur c)).enter env c) s := by
  have hrec (hp : (Event.call k.cur c).isPost s = false) :
      SemOk v (k.record (.call k.cur c)) s := by
    refine h.of_le rfl ?_
    rw [balance_record, hp]
    simp [unit, Event.isGrant]
  rcases Call.of_sem hc with rfl | rfl | ⟨abstime, rfl⟩ | rfl
  · exact (hrec rfl).semWaitSys
  · exact (hrec rfl).semTrywaitSys
  · exact (hrec rfl).semTimedwaitSys
  · have hb : (k.record (.call k.cur (.semPost (some s)))).balance s = k.balance s - 1 := by
      rw [balance_record]
      simp [unit, Event.isGrant, Event.isPost]
    have hb' := h.balance
    have hcount : SemOk v (k.record (.call k.cur (.semPost (some s)))) s :=
      h.of_le rfl (by omega)
    exact hcount.semPostSys (by omega)

theorem SemOk.resume (h : SemOk v k s) (hp : (.sem, s) ∈ (k.pc k.cur).objects)
    (hf : k.pc k.cur = .semWait s → (k.sem s).value ≠ 0) : SemOk v (k.resume env) s := by
  unfold Kernel.resume
  rcases Pc.of_sem hp with hpc | ⟨abstime, hpc⟩ | hpc
  · rw [hpc]
    exact h.semWaitEnd (hf hpc)
  · rw [hpc]
    have hremove : SemOk v (k.removePthreadList .sem s k.cur) s :=
      h.of_le rfl (balance_congr rfl rfl rfl).le
    exact hremove.semTimedwaitTake.ret fun t => by simp [Event.isGrant]
  · rw [hpc]
    have hb := h.balance
    refine h.semPostEnd ?_
    simp only [hpc, unit, decide_true, if_true]
    omega

theorem SemOk.step (h : SemOk v k s) (hf : ¬k.FindsNone a s) (hs : k.step a = some k') :
    SemOk v k' s := by
  by_cases hn : (.sem, s) ∈ (k.scope a).objects
  · cases a with
    | call c env =>
      simp only [Kernel.step, Option.ite_none_right_eq_some, Option.some.injEq] at hs
      obtain ⟨-, rfl⟩ := hs
      exact h.enter hn
    | resume env =>
      simp only [Kernel.step, Option.ite_none_left_eq_some, Option.some.injEq] at hs
      obtain ⟨-, rfl⟩ := hs
      exact h.resume hn fun hp hv => hf ⟨⟨env, rfl⟩, hp, hv⟩
    | interrupt env => simp [scope] at hn
  · obtain ⟨hsem, hb⟩ := step_sem_other hs hn
    exact h.of_le hsem hb.le

theorem boot_semOk (c : Config T) (h : (c.sem s).toNat ≤ 2147483647) :
    SemOk (c.sem s).toNat (boot c) s := by
  have hint : (c.sem s).toInt = (c.sem s).toNat := BitVec.toInt_eq_toNat_of_lt (by omega)
  have hposters : posters (boot c).pc s = ∅ := by
    ext t
    simp [posters_mem, boot]
  refine ⟨?_, ?_, ?_⟩
  · simp only [boot, semInit, hint]
    omega
  · simp only [boot, semInit, hint, semValueMax]
    omega
  · rw [balance, hposters]
    simp [boot, semInit, hint, grants, posts]

theorem SemOk.grants_le (h : SemOk v k s) : (grants s k.log : Int) ≤ v + posts s k.log := by
  obtain ⟨hnonneg, -, hb⟩ := h
  simp only [Kernel.balance] at hb
  omega

theorem FindsNone.negative (h : k.FindsNone a s) (hs : k.step a = some k') :
    (k'.sem s).value < 0 := by
  obtain ⟨⟨env, rfl⟩, hp, hv⟩ := h
  simp only [Kernel.step, Option.ite_none_left_eq_some, Option.some.injEq] at hs
  obtain ⟨-, rfl⟩ := hs
  simp [Kernel.resume, hp, Kernel.semWaitEnd, hv, int32]

/-- Waits never outrun the initial value and the posts, and the value stays
non-negative, exactly in the runs in which every `sem_wait` that goes on after
blocking finds a unit, from an initial value that is an `int`. -/
theorem semaphore_grants {c : Config T} {tr : List (Kernel T × Action T)} {k : Kernel T} (s : Nat)
    (hr : Runs.Run step (boot c) tr k) :
    (∀ x, Runs.Visited tr k x →
      0 ≤ (x.sem s).value ∧ grants s x.log ≤ (c.sem s).toNat + posts s x.log) ↔
    (c.sem s).toNat ≤ 2147483647 ∧ ∀ e ∈ tr, ¬e.1.FindsNone e.2 s := by
  constructor
  · intro h
    refine ⟨?_, fun e he hf => ?_⟩
    · have hboot := (h _ hr.start_visited).1
      simp only [boot, semInit, BitVec.toInt_eq_toNat_cond] at hboot
      split at hboot <;> omega
    · obtain ⟨y, hy, hvisited⟩ := hr.post_visited he
      exact absurd (h y hvisited).1 (Int.not_le.mpr (hf.negative hy))
  · rintro ⟨hinit, hf⟩ x hx
    have hok : SemOk (c.sem s).toNat x s :=
      hr.invariant_visited (I := fun k => SemOk (c.sem s).toNat k s)
        (C := fun k a => ¬k.FindsNone a s) (boot_semOk c hinit)
        (fun _ _ _ h hf hs => h.step hf hs) hf hx
    have := hok.grants_le
    exact ⟨hok.nonneg, by omega⟩

end Kernel

/-- The running thread posts and then takes the unit itself. -/
theorem semaphore_grants_own : ∃ tr k, Runs.Run Kernel.step (Kernel.boot twoThreads) tr k ∧
    tr.length = 2 ∧ ∀ x, Runs.Visited tr k x →
      0 ≤ (x.sem 0).value ∧ grants 0 x.log ≤ (0#32).toNat + posts 0 x.log := by
  have hrun : (Runs.exec Kernel.step (Kernel.boot twoThreads)
      [.call (.semPost (some 0)) {}, .call (.semWait (some 0)) {}]).any fun r =>
      decide (r.1.length = 2) && r.1.all fun e => e.1.pc e.1.cur ≠ .semWait 0 := by decide +kernel
  obtain ⟨tr, k, hr, hk⟩ := Runs.exec_any hrun
  simp only [Bool.and_eq_true, decide_eq_true_eq, List.all_eq_true] at hk
  obtain ⟨hlength, hpc⟩ := hk
  refine ⟨tr, k, hr, hlength, (Kernel.semaphore_grants 0 hr).mpr ⟨by decide, fun e he hf => ?_⟩⟩
  exact hpc e he hf.2.1

/-- The woken thread 1 has the higher priority and takes the unit before the
post has added it; its next wait gets one, too. -/
theorem semaphore_overgrants : ∃ tr k, Runs.Run Kernel.step (Kernel.boot twoThreads) tr k ∧
    ¬(0 ≤ (k.sem 0).value ∧ grants 0 k.log ≤ (0#32).toNat + posts 0 k.log) ∧
    (k.sem 0).value = -2 ∧ grants 0 k.log = 2 ∧ posts 0 k.log = 1 := by
  have hrun : (Runs.exec Kernel.step (Kernel.boot twoThreads)
      (postedWait ++ [.call (.semWait (some 0)) {}])).any fun r =>
      decide ((r.2.sem 0).value = -2 ∧ grants 0 r.2.log = 2 ∧ posts 0 r.2.log = 1) := by
    decide +kernel
  obtain ⟨tr, k, hr, hk⟩ := Runs.exec_any hrun
  simp only [decide_eq_true_eq] at hk
  obtain ⟨hv, hg, hp⟩ := hk
  exact ⟨tr, k, hr, by simp [hv], hv, hg, hp⟩

end Xmertl.Partikle
