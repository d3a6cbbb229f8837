import Xmertl.Partikle.FifoOrder
import Xmertl.Partikle.ThreadSteps
import Xmertl.Partikle.WaitLists

/-!
# What every state of the threads has

A thread whose structure is not in use is FINISHED and on no ready list; the idle thread is
never on one, waits for nothing and makes no call (`Base`). A step keeps this, by calls of
the scheduler that fit its state (`step_goes`), and the thread that runs is not SUSPENDED
(`Running`).
-/

namespace Xmertl.Partikle

open IntrusiveList (Lists)

variable {T : Type}

-- ---------------------------------------------------------------------------
-- The scheduler
-- ---------------------------------------------------------------------------

namespace Sched

attribute [ext] Sched

structure Live (s : Sched T) (created : T → Bool) : Prop extends Filed s where
  idle : s.Out s.idleThread
  idleGone : created s.idleThread = false
  gone : ∀ t, created t = false → t ≠ s.idleThread →
    (s.thread t).state = .finished ∧ ¬s.Linked t

variable [DecidableEq T]

def Calls (P : SchedCall T → Prop) : Sched T → Sched T → Prop :=
  Relation.ReflTransGen fun s s' => ∃ c, P c ∧ s.Fits c ∧ s' = s.call c

section
variable {s s' : Sched T} {created : T → Bool} {c : SchedCall T} {t : T}

@[simp] theorem call_idle : (s.call c).idleThread = s.idleThread := by
  cases c <;> simp [call, createPthreadStruct, deletePthreadStruct, finishThread, scheduling]

theorem Calls.any {P : SchedCall T → Prop} (h : Calls P s s') : Calls (fun _ => True) s s' := by
  induction h with
  | refl => exact .refl
  | tail _ hstep ih =>
    obtain ⟨c, -, hfits, he⟩ := hstep
    exact ih.tail ⟨c, trivial, hfits, he⟩

theorem Live.call (h : Live s created) (hc : s.Fits c)
    (hy : c = .yield → created s.currentThread = true) (ha : c ≠ .activateThread s.idleThread)
    (hn : ∀ t p, c = .createPthread t p → created t = true) : Live (s.call c) created where
  toFiled := h.toFiled.call hc
  idle := by
    rw [call_idle]
    refine h.idle.call h.toFiled (fun he => absurd he ha) fun he hcur => ?_
    have hlive := hy he
    rw [hcur, h.idleGone] at hlive
    cases hlive
  idleGone := by
    rw [call_idle]
    exact h.idleGone
  gone t ht hti := by
    rw [call_idle] at hti
    obtain ⟨hfin, hno⟩ := h.gone t ht hti
    have hout : s.Out t := ⟨hno, by simp [hfin]⟩
    have hstay : (s.call c).Out t := hout.call h.toFiled (fun _ => hfin) fun he hcur => by
      have hlive := hy he
      rw [hcur, ht] at hlive
      cases hlive
    refine ⟨finished_call hfin fun p he => ?_, hstay.1⟩
    have hlive := hn t p he
    rw [ht] at hlive
    cases hlive

omit [DecidableEq T] in
theorem fits_plain {idle : T} (hc : c.Plain idle) : c ≠ .yield ∧ c ≠ .activateThread idle ∧
    ∀ t p, c ≠ .createPthread t p := by
  cases c with
  | activateThread t => exact ⟨nofun, fun he => hc (SchedCall.activateThread.inj he), nofun⟩
  | suspendThread t => exact ⟨nofun, nofun, nofun⟩
  | changeThreadPrio t p => exact ⟨nofun, nofun, nofun⟩
  | signals t p m b => exact ⟨nofun, nofun, nofun⟩
  | _ => exact absurd hc id

omit [DecidableEq T] in
theorem Fits.of_plain {idle : T} (hc : c.Plain idle) : s.Fits c := by
  cases c with
  | activateThread | suspendThread | changeThreadPrio | signals => trivial
  | _ => exact absurd hc id

theorem Live.plainly (h : Live s created) (hs : Plainly s.idleThread s s') :
    Live s' created ∧ Calls (· ≠ .yield) s s' := by
  obtain ⟨cs, hcs, rfl⟩ := hs
  induction cs generalizing s with
  | nil => exact ⟨h, .refl⟩
  | cons c cs ih =>
    have hc := hcs c List.mem_cons_self
    have hplain := fits_plain hc
    have hfits : s.Fits c := .of_plain hc
    have hlive := h.call hfits (fun he => absurd he hplain.1) hplain.2.1
      fun t p he => absurd he (hplain.2.2 t p)
    obtain ⟨hend, hcalls⟩ := ih hlive fun c' hc' => by
      rw [call_idle]
      exact hcs c' (List.mem_cons_of_mem _ hc')
    exact ⟨hend, hcalls.head ⟨c, hplain.1, hfits, rfl⟩⟩

omit [DecidableEq T] in
theorem Live.scheduling_running (h : Live s created) :
    s.scheduling.currentThread = s.idleThread ∨
      created s.scheduling.currentThread = true ∧
        (s.thread s.scheduling.currentThread).state ≠ .suspended := by
  unfold Sched.scheduling
  dsimp only
  cases hh : s.getHeadSs with
  | none => exact .inl rfl
  | some t =>
    obtain ⟨j, -, -, hj, -⟩ := headFrom_some hh
    have hmem : t ∈ s.threadMatrix j := List.mem_of_mem_head? hj
    have hti : t ≠ s.idleThread := fun he => h.idle.1 ⟨j, he ▸ hmem⟩
    refine .inr ⟨?_, (h.linked j t hmem).2.2⟩
    by_contra hc
    exact (h.gone t (Bool.eq_false_iff.mpr hc) hti).2 ⟨j, hmem⟩

end

end Sched

-- ---------------------------------------------------------------------------
-- The wait lists
-- ---------------------------------------------------------------------------

namespace Kernel

variable [DecidableEq T] {k k' : Kernel T} {P : T → Prop}

theorem Move.within (h : Move k₀ w k k') (hw : ∀ κ, (k.lists κ).Within P) :
    ∀ κ, (k'.lists κ).Within P := by
  cases h with
  | @wake κ o t l hpop =>
    intro κ'
    by_cases hκ : κ' = κ
    · subst hκ
      have hrest := (hw κ').popFront (i := o)
      rw [hpop] at hrest
      simpa using hrest.1
    · simpa [hκ] using hw κ'
  | kill => rw [(pthreadKill_wakes _ _ _).1]; exact hw
  | own =>
    unfold setOwner
    dsimp only
    split <;> exact hw
  | disown =>
    unfold clearOwner
    dsimp only
    split <;> exact hw
  | _ => exact hw

theorem Moves.within (h : Moves k₀ w k k') (hw : ∀ κ, (k.lists κ).Within P) :
    ∀ κ, (k'.lists κ).Within P := by
  induction h with
  | refl => exact hw
  | tail _ hm ih => exact hm.within ih

theorem insertPthreadList_within (hw : ∀ κ, (k.lists κ).Within P) (ht : P t) (κ' : Kind) (o : Nat) :
    ∀ κ, ((k.insertPthreadList κ' o t).lists κ).Within P := by
  intro κ
  by_cases hκ : κ = κ'
  · subst hκ
    simpa [insertPthreadList] using (hw κ).pushFront ht
  · simpa [insertPthreadList, hκ] using hw κ

theorem Exit.within (h : Exit w k k') (hw : ∀ κ, (k.lists κ).Within P) (hc : P k.cur) :
    ∀ κ, (k'.lists κ).Within P := by
  cases h with
  | ret => exact hw
  | scheduling => exact hw
  | @block κ o =>
    exact insertPthreadList_within (k := k.suspendThread k.cur) (by simpa using hw) hc κ o
  | @sleep κ o env =>
    have hput := insertPthreadList_within hw hc κ o
    change ∀ κ', ((((k.insertPthreadList κ o k.cur).armTimer.suspendThread k.cur).updateHwtimer
      env).lists κ').Within P
    rw [(updateHwtimer_wakes _ _).1]
    exact hput
  | suspend => exact hw

theorem leave_within (hw : ∀ κ, (k.lists κ).Within P) : ∀ κ, (k.leave.lists κ).Within P := by
  cases ht : (k.pc k.cur).timed with
  | false => rwa [leave_untimed k ht]
  | true =>
    obtain ⟨κ', o, -, hl⟩ := leave_timed k ht
    intro κ
    rw [hl]
    by_cases hκ : κ = κ'
    · subst hκ
      simpa [removePthreadList] using (hw κ).unlink
    · simpa [removePthreadList, hκ] using hw κ

theorem step_within [Fintype T] (hs : k.step a = some k') (hi : k.pc k.sched.idleThread = .user)
    (hw : ∀ κ, (k.lists κ).Within (· ≠ k.sched.idleThread)) :
    ∀ κ, (k'.lists κ).Within (· ≠ k.sched.idleThread) := by
  cases step_shape hs with
  | @call c env k₁ _ _ hc hm he =>
    refine he.within (hm.within hw) ?_
    rw [hm.cur]
    exact hc
  | resume hp hm he =>
    refine he.within (hm.within (leave_within hw)) ?_
    rw [hm.cur, (leave_rest k).2.2.2.2.2.1]
    intro hcur
    rw [hcur] at hp
    exact hp hi
  | @interrupt env =>
    change ∀ κ, ((k.updateHwtimer env).lists κ).Within _
    rw [(updateHwtimer_wakes k env).1]
    exact hw

theorem step_idle [Fintype T] (hs : k.step a = some k') (hi : k.pc k.sched.idleThread = .user) :
    k'.pc k.sched.idleThread = .user := by
  by_cases hc : k.sched.idleThread = k.cur
  · cases step_shape hs with
    | call _ hne _ _ => exact absurd hc.symm hne
    | resume hp _ _ =>
      rw [← hc] at hp
      exact absurd hi hp
    | @interrupt env =>
      have hpc : (k.clockHandler env).pc = k.pc := (updateHwtimer_frame k env).pc
      rw [hpc]
      exact hi
  · rw [step_pc hs hc]
    exact hi

end Kernel

-- ---------------------------------------------------------------------------
-- The threads
-- ---------------------------------------------------------------------------

namespace Threads

structure Base (x : Threads T) : Prop where
  live : x.kernel.sched.Live x.created
  idleUser : x.kernel.pc x.idle = .user ∧ x.pc x.idle = none
  within : ∀ κ, (x.kernel.lists κ).Within (· ≠ x.idle)
  joining : ∀ t, x.joiningThread t ≠ some x.idle

/-- The idle thread runs, or one in use that is not SUSPENDED. -/
def Running (x : Threads T) : Prop :=
  x.cur = x.idle ∨ x.created x.cur = true ∧ (x.thread x.cur).state ≠ .suspended

variable [DecidableEq T]

/-- From `x` to `y` by calls of the scheduler other than `pthread_yield_sys`. -/
structure Goes (x y : Threads T) : Prop where
  base : Base y
  calls : Sched.Calls (· ≠ .yield) x.kernel.sched y.kernel.sched

section
variable {x₀ x y : Threads T} {t : T}

theorem Base.goes (h : Base x) : Goes x x := ⟨h, .refl⟩

@[simp] theorem call_idle {c : SchedCall T} : (x.call c).idle = x.idle := by
  simp [Threads.call, idle]

theorem call_cur {c : SchedCall T} (hc : c ≠ .scheduling) : (x.call c).cur = x.cur := by
  cases c with
  | scheduling => exact absurd rfl hc
  | _ => simp [Threads.call, cur, Kernel.cur, Sched.call, Sched.createPthreadStruct,
      Sched.deletePthreadStruct, Sched.finishThread]

theorem call_cur_ne {c : SchedCall T} (hc : c ≠ .scheduling) (hi : x.cur ≠ x.idle) :
    (x.call c).cur ≠ (x.call c).idle := by
  rw [call_idle, call_cur hc]
  exact hi

theorem Goes.frame (h : Goes x₀ x) (hs : y.kernel.sched = x.kernel.sched)
    (hc : y.created = x.created) (hl : y.kernel.lists = x.kernel.lists)
    (hj : y.joiningThread = x.joiningThread)
    (hu : y.kernel.pc x.idle = .user ∧ y.pc x.idle = none) : Goes x₀ y := by
  have hi : y.idle = x.idle := by rw [idle, idle, hs]
  refine ⟨⟨?_, ?_, ?_, ?_⟩, ?_⟩
  · rw [hs, hc]; exact h.base.live
  · rw [hi]; exact hu
  · rw [hl, hi]; exact h.base.within
  · rw [hj, hi]; exact h.base.joining
  · rw [hs]; exact h.calls

theorem Goes.call (h : Goes x₀ x) {c : SchedCall T} (hc : x.kernel.sched.Fits c) (hy : c ≠ .yield)
    (ha : c ≠ .activateThread x.idle) (hn : ∀ t p, c = .createPthread t p → x.created t = true) :
    Goes x₀ (x.call c) where
  base :=
    { live := h.base.live.call hc (fun he => absurd he hy) ha hn
      idleUser := by rw [call_idle]; exact h.base.idleUser
      within := by rw [call_idle]; exact h.base.within
      joining := by rw [call_idle]; exact h.base.joining }
  calls := h.calls.tail ⟨c, hy, hc, rfl⟩

theorem Goes.activate (h : Goes x₀ x) (ht : t ≠ x.idle) : Goes x₀ (x.call (.activateThread t)) :=
  h.call trivial nofun (fun he => ht (SchedCall.activateThread.inj he)) nofun

theorem Goes.suspend (h : Goes x₀ x) : Goes x₀ (x.call (.suspendThread t)) :=
  h.call trivial nofun nofun nofun

theorem Goes.finish (h : Goes x₀ x) : Goes x₀ (x.call (.finishThread t)) :=
  h.call trivial nofun nofun nofun

theorem Goes.setSignals (h : Goes x₀ x) : Goes x₀ (x.setSignals p m b) :=
  h.call trivial nofun nofun nofun

theorem Goes.ret (h : Goes x₀ x) : Goes x₀ (x.ret r) := by
  refine h.frame rfl rfl rfl rfl ⟨h.base.idleUser.1, ?_⟩
  by_cases hi : x.idle = x.cur
  · simp [Threads.ret, hi]
  · simpa [Threads.ret, hi] using h.base.idleUser.2

theorem Goes.scheduling (h : Goes x₀ x) (hi : x.cur ≠ x.idle) :
    Goes x₀ (x.scheduling p) ∧ Running (x.scheduling p) := by
  have hset : Goes x₀ { x with pc := Function.update x.pc x.cur (some p) } :=
    h.frame rfl rfl rfl rfl
      ⟨h.base.idleUser.1, by simpa [Function.update_of_ne hi.symm] using h.base.idleUser.2⟩
  exact ⟨hset.call trivial nofun nofun nofun, h.base.live.scheduling_running⟩

omit [DecidableEq T] in
theorem Running.frame (h : Running x) (hc : y.cur = x.cur) (hi : y.idle = x.idle)
    (hn : x.created x.cur = true → y.created x.cur = true)
    (hs : (x.thread x.cur).state ≠ .suspended → (y.thread x.cur).state ≠ .suspended) :
    Running y := by
  rw [Running, hc, hi]
  exact h.imp_right fun h => ⟨hn h.1, hs h.2⟩

/-- A structure that is not in use is on no list, whether the idle thread has it or not. -/
theorem Base.not_linked (h : Base x) (ht : x.created t = false) : ¬x.kernel.sched.Linked t := by
  by_cases hti : t = x.idle
  · exact hti ▸ h.live.idle.1
  · exact (h.live.gone t ht hti).2

theorem Goes.create (h : Goes x₀ x) (ht : x.created t = false) (hti : t ≠ x.idle)
    (hs : y.kernel.sched = x.kernel.sched) (hc : y.created = Function.update x.created t true)
    (hl : ∀ κ, (y.kernel.lists κ).Within (· ≠ x.idle))
    (hj : y.joiningThread = Function.update x.joiningThread t none)
    (hu : y.kernel.pc x.idle = .user ∧ y.pc x.idle = none) :
    Goes x₀ (y.call (.createPthread t prio)) := by
  have hi : y.idle = x.idle := by rw [idle, idle, hs]
  have hno : ¬x.kernel.sched.Linked t := h.base.not_linked ht
  have hlive : x.kernel.sched.Live (Function.update x.created t true) :=
    { h.base.live with
      idleGone := (Function.update_of_ne (Ne.symm hti) _ _).trans h.base.live.idleGone
      gone := fun u hu => by
        by_cases hut : u = t
        · simp [hut] at hu
        · rw [Function.update_of_ne hut] at hu
          exact h.base.live.gone u hu }
  have hy : Goes x₀ y := by
    refine ⟨⟨?_, by rw [hi]; exact hu, by rw [hi]; exact hl, fun u => ?_⟩, by rw [hs]; exact h.calls⟩
    · rw [hs, hc]
      exact hlive
    · rw [hi, hj]
      by_cases hut : u = t
      · simp [hut]
      · simpa [hut] using h.base.joining u
  refine hy.call (fun i _ hmem => hno ⟨i, hs ▸ hmem⟩) nofun nofun fun u p he => ?_
  obtain ⟨rfl, -⟩ := SchedCall.createPthread.inj he
  rw [hc, Function.update_self]

theorem Goes.newThread (h : Goes x₀ x) (ht : x.created t = false) (hti : t ≠ x.idle) :
    Goes x₀ (x.newThread t prio d) := by
  refine h.create ht hti rfl rfl (fun κ => (h.base.within κ).update nofun nofun) rfl ?_
  simpa [Function.update_of_ne (Ne.symm hti)] using h.base.idleUser

theorem Goes.delete (h : Goes x₀ x) (hf : (x.thread t).state = .finished) :
    Goes x₀ ({ x with created := Function.update x.created t false }.call (.deletePthread t)) := by
  have hcall : Goes x₀ (x.call (.deletePthread t)) :=
    h.call (fun hr => by rw [Threads.thread] at hf; rw [hf] at hr; cases hr) nofun nofun nofun
  have hlive := hcall.base.live
  refine ⟨⟨{ hlive with idleGone := ?_, gone := fun u hu hui => ?_ }, hcall.base.idleUser,
    hcall.base.within, hcall.base.joining⟩, hcall.calls⟩
  · change Function.update x.created t false _ = false
    rw [Function.update_apply]
    split
    · rfl
    · exact hlive.idleGone
  · change Function.update x.created t false u = false at hu
    by_cases hut : u = t
    · subst hut
      exact ⟨Sched.deletePthreadStruct_state.trans hf, h.base.live.toPlaced.not_removeSs⟩
    · rw [Function.update_of_ne hut] at hu
      exact hlive.gone u hu hui

-- ---------------------------------------------------------------------------
-- Steps
-- ---------------------------------------------------------------------------

def Steps (x y : Threads T) : Prop := Goes x y ∧ Running y

theorem Goes.steps (h : Goes x y) (hr : Running x) (hc : y.cur = x.cur)
    (hn : x.created x.cur = true → y.created x.cur = true)
    (hs : (x.thread x.cur).state ≠ .suspended → (y.thread x.cur).state ≠ .suspended) :
    Steps x y := by
  refine ⟨h, hr.frame hc ?_ hn hs⟩
  have hi : ∀ s, Sched.Calls (· ≠ .yield) x.kernel.sched s → s.idleThread = x.idle := by
    intro s hcalls
    induction hcalls with
    | refl => rfl
    | tail _ hstep ih =>
      obtain ⟨c, -, -, rfl⟩ := hstep
      rw [Sched.call_idle]
      exact ih
  exact hi _ h.calls

omit [DecidableEq T] in
theorem Base.cur_created (hr : Running x) (hi : x.cur ≠ x.idle) : x.created x.cur = true :=
  (hr.resolve_left hi).1

omit [DecidableEq T] in
theorem Base.ne_idle (h : Base x) (ht : x.created t = true) : t ≠ x.idle := by
  rintro rfl
  rw [idle, h.live.idleGone] at ht
  cases ht

theorem Base.ret_steps (h : Base x) (hr : Running x) (r : Ret) : Steps x (x.ret r) :=
  h.goes.ret.steps hr rfl id id

theorem Base.table_steps (h : Base x) (hr : Running x) (n : T → Nat) :
    Steps x { x with topCrTable := n } := by
  have hgoes : Goes x { x with topCrTable := n } := h.goes.frame rfl rfl rfl rfl h.idleUser
  exact hgoes.steps hr rfl id id

theorem createSys_steps (h : Base x) (hr : Running x) (hi : x.cur ≠ x.idle) {o : Option T}
    (hs : x.createSys o attr stack = some y) : Steps x y := by
  unfold createSys at hs
  split at hs
  · exact Option.some.inj hs ▸ h.ret_steps hr _
  · cases o with
    | none => exact Option.some.inj hs ▸ h.ret_steps hr _
    | some t =>
      simp only [Option.ite_none_right_eq_some] at hs
      obtain ⟨⟨ht, hti⟩, hs⟩ := hs
      have hnew : ∃ prio d, (if stack = true then
          some (((x.newThread t prio d).call (.activateThread t)).scheduling .create)
          else some ((x.newThread t prio d).ret (.fail .eagain))) = some y := by
        cases attr with
        | none => exact ⟨_, _, hs⟩
        | some a => exact ⟨_, _, hs⟩
      obtain ⟨prio, d, hs⟩ := hnew
      have hgoes : Goes x (x.newThread t prio d) := h.goes.newThread ht hti
      have htc : x.cur ≠ t := by
        rintro rfl
        rw [Base.cur_created hr hi] at ht
        cases ht
      split at hs
      · obtain rfl := Option.some.inj hs
        have hnew : (x.newThread t prio d).cur ≠ (x.newThread t prio d).idle :=
          call_cur_ne (c := .createPthread t prio) nofun hi
        exact (hgoes.activate hti).scheduling (call_cur_ne nofun hnew)
      · obtain rfl := Option.some.inj hs
        refine hgoes.ret.steps hr rfl (fun hc => ?_) fun hst => ?_
        · exact (Function.update_of_ne htc _ _).trans hc
        · refine (ne_of_eq_of_ne ?_ hst)
          exact Sched.createPthread_state.trans (if_neg htc)

theorem joinLoop_steps (h : Base x) (hr : Running x) (hi : x.cur ≠ x.idle)
    (hs : x.joinLoop t = some y) : Steps x y := by
  unfold joinLoop at hs
  split at hs
  · obtain rfl := Option.some.inj hs
    have hjoin : Goes x { x with joiningThread := Function.update x.joiningThread t (some x.cur) } := by
      refine ⟨{ h with joining := fun u => ?_ }, .refl⟩
      change Function.update x.joiningThread t (some x.cur) u ≠ some x.idle
      by_cases hut : u = t
      · simpa [hut] using hi
      · simpa [hut] using h.joining u
    exact hjoin.suspend.scheduling (call_cur_ne nofun hi)
  · rename_i hf
    split at hs
    · cases hs
    · rename_i htc
      obtain rfl := Option.some.inj hs
      have hdel := (h.goes.delete (not_not.mp hf)).ret (r := .ok)
      refine hdel.steps hr ?_ (fun hc => ?_) fun hst => ?_
      · exact Sched.removeSs_current _ _
      · exact (Function.update_of_ne (Ne.symm htc) _ _).trans hc
      · exact ne_of_eq_of_ne Sched.deletePthreadStruct_state hst

theorem joinSys_steps (h : Base x) (hr : Running x) (hi : x.cur ≠ x.idle) {o : Option T}
    (hs : x.joinSys o = some y) : Steps x y := by
  cases o with
  | none => exact Option.some.inj hs ▸ h.ret_steps hr _
  | some t =>
    simp only [joinSys, Option.ite_none_left_eq_some] at hs
    obtain ⟨-, hs⟩ := hs
    split at hs
    · exact Option.some.inj hs ▸ h.ret_steps hr _
    · exact joinLoop_steps h hr hi hs

theorem detachSys_steps (h : Base x) (hr : Running x) (hi : x.cur ≠ x.idle) {o : Option T}
    (hs : x.detachSys o = some y) : Steps x y := by
  cases o with
  | none => exact Option.some.inj hs ▸ h.ret_steps hr _
  | some t =>
    simp only [detachSys, Option.ite_none_left_eq_some] at hs
    obtain ⟨-, hs⟩ := hs
    split at hs
    · exact Option.some.inj hs ▸ h.ret_steps hr _
    · obtain ⟨j, hj, rfl⟩ := Option.map_eq_some_iff.mp hs
      have hji : j ≠ x.idle := fun he => h.joining x.cur (he ▸ hj)
      have hforget : Goes x { x with
          detachState := Function.update x.detachState t true
          joiningThread := Function.update x.joiningThread x.cur none } := by
        refine ⟨{ h with joining := fun u => ?_ }, .refl⟩
        change Function.update x.joiningThread x.cur none u ≠ some x.idle
        by_cases hu : u = x.cur
        · simp [hu]
        · simpa [hu] using h.joining u
      exact (hforget.activate hji).scheduling (call_cur_ne nofun hi)

theorem setschedparamSys_steps (h : Base x) (hr : Running x) (hi : x.cur ≠ x.idle) {o : Option T}
    (hs : x.setschedparamSys o param = some y) : Steps x y := by
  cases o with
  | none => exact Option.some.inj hs ▸ h.ret_steps hr _
  | some t =>
    simp only [setschedparamSys, Option.ite_none_left_eq_some] at hs
    obtain ⟨-, hs⟩ := hs
    cases param with
    | none => exact Option.some.inj hs ▸ h.ret_steps hr _
    | some p =>
      obtain rfl := Option.some.inj hs
      have hchange : Goes x (x.call (.changeThreadPrio t p)) :=
        h.goes.call trivial nofun nofun nofun
      exact hchange.scheduling (call_cur_ne nofun hi)

theorem exitSys_steps (h : Base x) (hr : Running x) : Steps x x.exitSys := by
  have hgoes : Goes x x.exitSys := by
    refine Goes.finish (h.goes.frame ?_ ?_ ?_ ?_ h.idleUser) <;> rfl
  refine hgoes.steps hr ?_ id fun _ => ?_
  · simp [exitSys, cur, Kernel.cur, Threads.call, Sched.call, Sched.finishThread]
  · refine ne_of_eq_of_ne (Sched.finishThread_state.trans (if_pos rfl)) ?_
    exact fun he => ThreadState.noConfusion he

theorem exitEnd_steps (h : Base x) (hi : x.cur ≠ x.idle) (hs : x.exitEnd = some y) : Steps x y := by
  simp only [exitEnd, Option.ite_none_left_eq_some, Option.some.injEq] at hs
  obtain ⟨-, rfl⟩ := hs
  unfold wakeJoining
  split
  · rename_i j _ hj
    have hji : j ≠ x.idle := fun he => h.joining x.cur (he ▸ hj)
    exact (h.goes.activate hji).scheduling (call_cur_ne nofun hi)
  · exact h.goes.scheduling hi

theorem deleteNpSys_steps (h : Base x) (hi : x.cur ≠ x.idle) (hs : x.deleteNpSys t = some y) :
    Steps x y := by
  simp only [deleteNpSys, Option.ite_none_left_eq_some, Option.some.injEq] at hs
  obtain ⟨-, rfl⟩ := hs
  have hfinish : Goes x (x.call (.finishThread t)) := h.goes.finish
  have hf : ((x.call (.finishThread t)).thread t).state = .finished :=
    Sched.finishThread_state.trans (if_pos rfl)
  exact (hfinish.delete hf).scheduling (call_cur_ne nofun (call_cur_ne (x := x) nofun hi))

theorem suspendForSignal_steps (h : Base x) (hi : x.cur ≠ x.idle) :
    Steps x (x.suspendForSignal mask b p) := by
  exact h.goes.setSignals.suspend.scheduling (call_cur_ne nofun (call_cur_ne (x := x) nofun hi))

theorem setSignals_steps (h : Base x) (hr : Running x) : Steps x (x.setSignals p m b) :=
  h.goes.setSignals.steps hr rfl id (ne_of_eq_of_ne Sched.signals_state)

theorem Steps.trans {z : Threads T} (h : Steps x y) (h' : Steps y z) : Steps x z :=
  ⟨⟨h'.1.base, h.1.calls.trans h'.1.calls⟩, h'.2⟩

theorem takeSignal_steps (h : Base x) (hr : Running x) {set : BitVec 32}
    (hs : x.takeSignal set = some y) :
    Steps x y := by
  obtain ⟨sig, -, rfl⟩ := Option.map_eq_some_iff.mp hs
  exact setSignals_steps h hr

theorem sigwaitSys_steps (h : Base x) (hr : Running x) (hi : x.cur ≠ x.idle) (set : Option (BitVec 32)) :
    Steps x (x.sigwaitSys set) := by
  cases set with
  | none => exact h.ret_steps hr _
  | some set =>
    simp only [sigwaitSys]
    split
    · rename_i hs
      have htake := takeSignal_steps h hr hs
      exact htake.trans (htake.1.base.ret_steps htake.2 _)
    · exact suspendForSignal_steps h hi

theorem sigwaitEnd_steps (h : Base x) (hr : Running x) (set old : BitVec 32) :
    Steps x (x.sigwaitEnd set old) := by
  have hset : Steps x (x.setSignals (x.thread x.cur).sigpending old false) := setSignals_steps h hr
  unfold sigwaitEnd
  dsimp only
  split
  · rename_i hs
    have htake := hset.trans (takeSignal_steps hset.1.base hset.2 hs)
    exact htake.trans (htake.1.base.ret_steps htake.2 _)
  · exact hset.trans (hset.1.base.ret_steps hset.2 _)

theorem resume_steps (h : Base x) (hr : Running x) (hi : x.cur ≠ x.idle)
    (hs : x.resume p = some y) : Steps x y := by
  cases p with
  | create | detach | setschedparam | delete => exact Option.some.inj hs ▸ h.ret_steps hr _
  | join t => exact joinSys_steps (o := some t) h hr hi hs
  | exit =>
    obtain rfl := Option.some.inj hs
    have hexit : Goes x
        { x with exiting := Function.update x.exiting x.cur (x.exiting x.cur - 1) } :=
      h.goes.frame rfl rfl rfl rfl h.idleUser
    exact hexit.ret.steps hr rfl id id
  | sigsuspend old =>
    obtain rfl := Option.some.inj hs
    have hset := setSignals_steps (p := (x.thread x.cur).sigpending) (m := old)
      (b := (x.thread x.cur).activateOnSignal) h hr
    exact hset.trans (hset.1.base.ret_steps hset.2 _)
  | sigwait set old =>
    obtain rfl := Option.some.inj hs
    exact sigwaitEnd_steps h hr set old

-- ---------------------------------------------------------------------------
-- Kernel calls and interrupts
-- ---------------------------------------------------------------------------

variable [Fintype T]

theorem Base.kernel (h : Base x) {k : Kernel T} {a : Action T} (hs : x.kernel.step a = some k)
    (hi : k.sched.idleThread = x.idle) (hlive : k.sched.Live x.created) :
    Base { x with kernel := k } := by
  refine ⟨hlive, ?_, ?_, ?_⟩
  · change k.pc k.sched.idleThread = .user ∧ x.pc k.sched.idleThread = none
    rw [hi]
    exact ⟨Kernel.step_idle hs h.idleUser.1, h.idleUser.2⟩
  · change ∀ κ, (k.lists κ).Within (· ≠ k.sched.idleThread)
    rw [hi]
    exact Kernel.step_within hs h.idleUser.1 h.within
  · change ∀ t, x.joiningThread t ≠ some k.sched.idleThread
    rw [hi]
    exact h.joining

/-- A yield puts the running thread on a list whatever its state. -/
def Yields (x : Threads T) (a : ThreadAction T) (y : Threads T) : Prop :=
  (∃ env, a = .kernel (.call .yield env)) ∧ x.cur ≠ x.idle ∧
    y.kernel.sched = x.kernel.sched.pthreadYield.scheduling

omit [Fintype T] in
theorem Base.woken (h : Base x) (hr : Running x) {k k₁ : Kernel T}
    (hplain : Sched.Plainly x.idle x.kernel.sched k₁.sched) (hf : Kernel.WakeFrame x.kernel k₁)
    (hk : k.sched = k₁.sched) : k.sched.Live x.created ∧
      Sched.Calls (· ≠ .yield) x.kernel.sched k.sched ∧ k.sched.idleThread = x.idle ∧
      Running { x with kernel := k } := by
  obtain ⟨hlive, hcalls⟩ := h.live.plainly hplain
  rw [hk]
  refine ⟨hlive, hcalls, hf.idle, hr.frame ?_ ?_ id fun hst => ?_⟩
  · change k.sched.currentThread = x.kernel.sched.currentThread
    rw [hk]
    exact hf.cur
  · change k.sched.idleThread = x.kernel.sched.idleThread
    rw [hk]
    exact hf.idle
  · change (k.sched.thread x.cur).state ≠ .suspended
    rw [hk]
    rcases hf.state x.cur with he | he
    · exact ne_of_eq_of_ne he hst
    · exact ne_of_eq_of_ne he nofun

theorem kernel_steps (h : Base x) (hr : Running x) {k : Kernel T} {a : Action T}
    (ht : ∀ t ∈ a.targets, x.created t = true) (hs : x.kernel.step a = some k) :
    Steps x { x with kernel := k } ∨ Yields x (.kernel a) { x with kernel := k } ∧
      Base { x with kernel := k } ∧ Running { x with kernel := k } := by
  have hcur : k.sched = x.kernel.sched → Running { x with kernel := k } := fun he =>
    hr.frame (congrArg Sched.currentThread he) (congrArg Sched.idleThread he) id
      fun hst => by change (k.sched.thread x.cur).state ≠ .suspended; rw [he]; exact hst
  have hout := Kernel.step_outcome h.within (fun t hmem => h.ne_idle (ht t hmem)) hs
  cases hout with
  | ends he =>
    refine .inl ?_
    rcases he with ⟨s, hplain, hk⟩ | hk
    · obtain ⟨hlive, hcalls⟩ := h.live.plainly hplain
      have hidle : k.sched.idleThread = x.idle := by
        rw [hk]
        exact hplain.idle.1
      have hend : k.sched.Live x.created := by
        rw [hk]
        exact hlive.call (c := .scheduling) trivial (by simp) (by simp) (by simp)
      refine ⟨⟨h.kernel hs hidle hend, ?_⟩, ?_⟩
      · change Sched.Calls _ _ k.sched
        rw [hk]
        exact hcalls.tail ⟨.scheduling, by simp, trivial, rfl⟩
      · have hrun := hlive.scheduling_running
        change k.sched.currentThread = k.sched.idleThread ∨ x.created k.sched.currentThread = true ∧
          (k.sched.thread k.sched.currentThread).state ≠ .suspended
        rw [hk]
        exact hrun
    · have hbase := h.kernel hs (congrArg Sched.idleThread hk) (hk ▸ h.live)
      exact ⟨⟨hbase, by change Sched.Calls _ _ k.sched; rw [hk]; exact .refl⟩, hcur hk⟩
  | yields hk =>
    rename_i env
    have hi : x.cur ≠ x.idle := by
      simp only [Kernel.step, Option.ite_none_right_eq_some] at hs
      exact hs.1.2
    have hfits : (x.thread x.cur).state ≠ .suspended := (hr.resolve_left hi).2
    have hyield : x.kernel.sched.pthreadYield.Live x.created :=
      h.live.call (c := .yield) hfits (fun _ => (hr.resolve_left hi).1) (by simp)
        (by simp)
    have hend : k.sched.Live x.created := by
      rw [hk]
      exact hyield.call (c := .scheduling) trivial (by simp) (by simp) (by simp)
    have hidle : k.sched.idleThread = x.idle := by
      rw [hk]
      exact Sched.pthreadYield_idle _
    refine .inr ⟨⟨⟨env, rfl⟩, hi, hk⟩, h.kernel hs hidle hend, ?_⟩
    have hrun := hyield.scheduling_running
    change k.sched.currentThread = k.sched.idleThread ∨ x.created k.sched.currentThread = true ∧
      (k.sched.thread k.sched.currentThread).state ≠ .suspended
    rw [hk]
    exact hrun
  | kills hu _ hk =>
    obtain ⟨hlive, hcalls, hidle, hrun⟩ :=
      h.woken hr (Kernel.kill_plainly hu) (Kernel.pthreadKill_frame _ _ _) hk
    exact .inl ⟨⟨h.kernel hs hidle hlive, hcalls⟩, hrun⟩
  | unlocks hk =>
    obtain ⟨hlive, hcalls, hidle, hrun⟩ :=
      h.woken hr (Kernel.wakeAll_plainly (h.within .mutex) _) (Kernel.wakeAll_frame _ _ _ _) hk.2.2.2
    exact .inl ⟨⟨h.kernel hs hidle hlive, hcalls⟩, hrun⟩

theorem syscall_steps (h : Base x) (hr : Running x) (hi : x.cur ≠ x.idle) {a : ThreadAction T}
    (hs : x.syscall a = some y) : Steps x y := by
  have hpop : Steps x x.cleanupPopSys := by
    unfold cleanupPopSys
    split
    · exact h.table_steps hr _
    · exact h.goes.steps hr rfl id id
  cases a with
  | create o attr stack => exact createSys_steps h hr hi hs
  | join o => exact joinSys_steps h hr hi hs
  | detach o => exact detachSys_steps h hr hi hs
  | cancel o =>
    cases o with
    | none => exact Option.some.inj hs ▸ h.ret_steps hr _
    | some t =>
      simp only [syscall, cancelSys, Option.ite_none_left_eq_some, Option.some.injEq,
        Bool.not_eq_false] at hs
      obtain ⟨ht, rfl⟩ := hs
      have hf := Kernel.pthreadKill_frame x.kernel t cancelSignal
      obtain ⟨hlive, hcalls, hidle, hrun⟩ :=
        h.woken hr (Kernel.kill_plainly (h.ne_idle ht)) hf rfl
      have hgoes : Goes x { x with kernel := x.kernel.pthreadKill t cancelSignal } := by
        refine ⟨⟨hlive, ?_, ?_, ?_⟩, hcalls⟩
        · change (x.kernel.pthreadKill t cancelSignal).pc _ = _ ∧ _
          rw [hf.pc, idle, hidle]
          exact h.idleUser
        · change ∀ κ, ((x.kernel.pthreadKill t cancelSignal).lists κ).Within _
          rw [(Kernel.pthreadKill_wakes _ _ _).1, idle, hidle]
          exact h.within
        · rw [idle, hidle]
          exact h.joining
      exact ⟨hgoes.ret, hrun⟩
  | cleanupPush =>
    obtain rfl := Option.some.inj hs
    unfold cleanupPushSys
    split
    · exact h.table_steps hr _
    · exact h.goes.steps hr rfl id id
  | cleanupPop => exact Option.some.inj hs ▸ hpop
  | setschedparam o param => exact setschedparamSys_steps h hr hi hs
  | exit => exact Option.some.inj hs ▸ exitSys_steps h hr
  | cleanupHandler =>
    simp only [syscall, Option.ite_none_right_eq_some, Option.some.injEq] at hs
    exact hs.2 ▸ hpop
  | exitEnd =>
    simp only [syscall, Option.ite_none_right_eq_some] at hs
    exact exitEnd_steps h hi hs.2
  | deleteNp t => exact deleteNpSys_steps h hi hs
  | sigsuspend mask => exact Option.some.inj hs ▸ suspendForSignal_steps h hi
  | sigwait set => exact Option.some.inj hs ▸ sigwaitSys_steps h hr hi set
  | signals p m => exact Option.some.inj hs ▸ setSignals_steps h hr
  | kernel a => cases hs
  | resume => cases hs

theorem step_goes (h : Base x) (hr : Running x) {a : ThreadAction T} (hs : x.step a = some y) :
    Steps x y ∨ Yields x a y ∧ Base y ∧ Running y := by
  have huser (hs : (if x.User ∧ x.cur ≠ x.idle then x.syscall a else none) = some y) :
      Steps x y := by
    simp only [Option.ite_none_right_eq_some] at hs
    exact syscall_steps h hr hs.1.2 hs.2
  cases a with
  | kernel a =>
    simp only [step, Option.ite_none_right_eq_some] at hs
    obtain ⟨⟨-, ht⟩, hs⟩ := hs
    obtain ⟨k, hk, rfl⟩ := Option.map_eq_some_iff.mp hs
    exact kernel_steps h hr ht hk
  | resume =>
    obtain ⟨p, hp, hs⟩ := Option.bind_eq_some_iff.mp hs
    refine .inl (resume_steps h hr ?_ hs)
    rintro hi
    rw [hi, h.idleUser.2] at hp
    cases hp
  | _ => exact .inl (huser hs)

theorem step_base (h : Base x) (hr : Running x) {a : ThreadAction T} (hs : x.step a = some y) :
    Base y ∧ Running y := by
  rcases step_goes h hr hs with h | h
  · exact ⟨h.1.base, h.2⟩
  · exact h.2

-- ---------------------------------------------------------------------------
-- Runs
-- ---------------------------------------------------------------------------

omit [Fintype T] in
theorem bootSched_live {idle mainapp : T} (hm : mainapp ≠ idle) :
    (bootSched idle).Live fun t => decide (t = mainapp) := by
  have hstate : ∀ t, ((bootSched idle).thread t).state ≠ .ready := by
    intro t
    by_cases ht : t = idle <;> simp [bootSched, ht]
  have hno : ∀ t, ¬(bootSched idle).Linked t := fun t ⟨i, hi⟩ => by simp [bootSched] at hi
  exact
    { linked := fun i t ht => absurd ⟨i, ht⟩ (hno t)
      nodup := fun i => List.nodup_nil
      ready := fun t ht => absurd ht (hstate t)
      idle := ⟨hno idle, hstate idle⟩
      idleGone := decide_eq_false (Ne.symm hm)
      gone := fun t _ (hti : t ≠ idle) => ⟨by simp [bootSched, hti], hno t⟩ }

omit [Fintype T] in
theorem boot_base {idle mainapp : T} (hm : mainapp ≠ idle) (sem : Nat → BitVec 32)
    (attr : Nat → MutexAttr) :
    Base (boot idle mainapp sem attr) ∧ Running (boot idle mainapp sem attr) ∧
      Sched.Calls (· ≠ .yield) (bootSched idle) (boot idle mainapp sem attr).kernel.sched := by
  have hlive : (bootSched idle).Live fun t => decide (t = mainapp) := bootSched_live hm
  have hfits : (bootSched idle).Fits (.createPthread mainapp minSchedPriority) :=
    fun i _ hi => by simp [bootSched] at hi
  have hcreate := hlive.call hfits nofun nofun fun t p he => by
    obtain ⟨rfl, -⟩ := SchedCall.createPthread.inj he
    simp
  have hact := hcreate.call (c := .activateThread mainapp) trivial nofun
    (fun he => hm (SchedCall.activateThread.inj he)) nofun
  have hend := hact.call (c := .scheduling) trivial nofun nofun nofun
  refine ⟨⟨hend, ⟨rfl, rfl⟩, fun κ => ⟨nofun, nofun, nofun⟩, nofun⟩, hact.scheduling_running, ?_⟩
  have h₁ : Sched.Calls (· ≠ .yield) (bootSched idle)
      ((bootSched idle).call (.createPthread mainapp minSchedPriority)) :=
    .single ⟨.createPthread mainapp minSchedPriority, nofun, hfits, rfl⟩
  have h₂ := h₁.tail ⟨.activateThread mainapp, nofun, trivial, rfl⟩
  exact h₂.tail ⟨.scheduling, nofun, trivial, rfl⟩

theorem run_base {idle mainapp : T} (hm : mainapp ≠ idle) {sem : Nat → BitVec 32}
    {attr : Nat → MutexAttr} {tr : List (Threads T × ThreadAction T)}
    (hr : Runs.Run step (boot idle mainapp sem attr) tr x) (hv : Runs.Visited tr x y) :
    Base y ∧ Running y :=
  hr.invariant_visited (C := fun _ _ => True) (I := fun x => Base x ∧ Running x)
    ⟨(boot_base hm sem attr).1, (boot_base hm sem attr).2.1⟩ (fun _ _ _ hs _ hstep => step_base hs.1 hs.2 hstep)
    (fun _ _ => trivial) hv

-- ---------------------------------------------------------------------------
-- The scheduler's own runs
-- ---------------------------------------------------------------------------

omit [Fintype T] in
theorem calls_fifo {P : SchedCall T → Prop} {s : Sched T} {f : FifoSched T}
    (h : Sched.Calls P f.sched s) :
    ∃ tr g, Runs.Run FifoSched.step f tr g ∧ g.sched = s := by
  induction h with
  | refl => exact ⟨[], f, .start, rfl⟩
  | tail _ hstep ih =>
    obtain ⟨c, -, hfits, rfl⟩ := hstep
    obtain ⟨tr, g, hr, rfl⟩ := ih
    exact ⟨(g, c) :: tr, g.after c, hr.next (if_pos hfits), rfl⟩

/-- Nothing is READY, and the threads of `l` have finished. -/
def finishedSched (idle : T) (l : List T) : Sched T where
  thread t := if t ∈ l then { state := .finished, ss := none } else {}
  threadMatrix _ := []
  currentThread := idle
  idleThread := idle

omit [Fintype T] in
theorem finishedSched_finish (idle : T) (l : List T) (t : T) :
    (finishedSched idle l).finishThread t = finishedSched idle (t :: l) := by
  have hmatrix : ((finishedSched idle l).removeSs t).threadMatrix = fun _ => [] := by
    unfold Sched.removeSs
    split
    · rfl
    · funext i
      simp [finishedSched]
  refine Sched.ext ?_ hmatrix (Sched.removeSs_current _ _) (Sched.removeSs_idle _ _)
  funext u
  by_cases hut : u = t
  · by_cases hu : u ∈ l <;> simp [Sched.finishThread, Sched.modify_thread, Sched.removeSs_thread,
      finishedSched, hut, hut ▸ hu]
  · simp [Sched.finishThread, Sched.modify_thread, Sched.removeSs_thread, finishedSched, hut]

theorem bootSched_calls (idle : T) :
    Sched.Calls (fun _ => True) (FifoSched.init idle).sched (bootSched idle) := by
  have hall : ∀ l, Sched.Calls (fun _ => True) (finishedSched idle []) (finishedSched idle l) := by
    intro l
    induction l with
    | nil => exact .refl
    | cons t l ih =>
      exact ih.tail ⟨.finishThread t, trivial, trivial, (finishedSched_finish idle l t).symm⟩
  have hstart : finishedSched idle [] = (FifoSched.init idle).sched := by
    simp [finishedSched, FifoSched.init]
  have hend : finishedSched idle (Finset.univ.toList.filter (· ≠ idle)) = bootSched idle := by
    simp [finishedSched, bootSched]
  rw [← hend, ← hstart]
  exact hall _

theorem run_fifo {idle mainapp : T} (hm : mainapp ≠ idle) {sem : Nat → BitVec 32}
    {attr : Nat → MutexAttr} {tr : List (Threads T × ThreadAction T)}
    (hr : Runs.Run step (boot idle mainapp sem attr) tr x) :
    ∃ tr g, Runs.Run FifoSched.step (.init idle) tr g ∧ g.sched = x.kernel.sched := by
  have hboot := (bootSched_calls idle).trans (boot_base hm sem attr).2.2.any
  have hcalls : Sched.Calls (fun _ => True) (FifoSched.init idle).sched x.kernel.sched := by
    induction hr with
    | start => exact hboot
    | @next tr s a s' hr hstep ih =>
      obtain ⟨hbase, hrun⟩ := run_base hm hr .self
      rcases step_goes hbase hrun hstep with h | ⟨⟨-, hi, hsched⟩, -⟩
      · exact ih.trans h.1.calls.any
      · have hyield := ih.tail ⟨.yield, trivial, (hrun.resolve_left hi).2, rfl⟩
        rw [hsched]
        exact hyield.tail ⟨.scheduling, trivial, trivial, rfl⟩
  exact calls_fifo hcalls

end

end Threads

end Xmertl.Partikle
