import Xmertl.Partikle.Deletion

/-!
# Join and detach

`pthread_detach_sys(t)` marks `t` and then wakes the thread that joins the caller, whom it
also makes the caller forget. That is `t`'s joiner where `t` detaches itself.
-/

namespace Xmertl.Partikle.Threads

open Runs

variable {T : Type}

/-- `k` is in the loop of `pthread_join_sys(t)`. -/
def Joining (x : Threads T) (k t : T) : Prop := x.pc k = some (.join t)

def Blocked (x : Threads T) (k t : T) : Prop :=
  x.Joining k t ∧ (x.thread k).state = .suspended

variable [DecidableEq T]

instance (x : Threads T) (k t : T) : Decidable (x.Joining k t) :=
  inferInstanceAs (Decidable (_ = _))

instance (x : Threads T) (k t : T) : Decidable (x.Blocked k t) :=
  inferInstanceAs (Decidable (_ ∧ _))

/-- The step is `k`'s own, or leaves one of the two structures out of use. -/
def Leaves (k t : T) (x : Threads T) (a : ThreadAction T) : Prop :=
  a = .resume ∧ x.cur = k ∨ x.created k = false ∨ x.created t = false

/-- However long it takes, what `k` comes back from `scheduling ()` to is EINVAL. -/
def FailsToJoin [Fintype T] (y : Threads T) (k t : T) : Prop :=
  ∀ tr z, Run step y tr z → (∀ e ∈ tr, ¬Leaves k t e.1 e.2) →
    z.created k = true → z.created t = true →
      z.Joining k t ∧
        (z.cur = k → ∃ z', z.step .resume = some z' ∧ z'.lastRet k = .fail .einval ∧
          z'.pc k = none)

/-- What a detach of `t` is to do. -/
structure DetachesTo [Fintype T] (x : Threads T) (t : T) (y : Threads T) : Prop where
  woken : ∀ k, x.Blocked k t → (y.thread k).state = .ready
  fails : ∀ k, x.Blocked k t → y.FailsToJoin k t
  others : ∀ u, u ≠ t → y.joiningThread u = x.joiningThread u
  alone : (∀ k, ¬x.Joining k t) →
    y = { x with detachState := Function.update x.detachState t true }.scheduling .detach

def DetachesWell [Fintype T] (x : Threads T) (t : T) : Prop :=
  ∃ y, x.step (.detach (some t)) = some y ∧ DetachesTo x t y

-- ---------------------------------------------------------------------------
-- What a step leaves of the other threads
-- ---------------------------------------------------------------------------

/-- A thread in use goes on from where it was unless it runs, and stays detached. -/
structure Stays (x y : Threads T) (u : T) : Prop where
  pc : u ≠ x.cur → y.pc u = x.pc u
  detached : x.detachState u = true → y.detachState u = true

variable {x y z : Threads T} {u : T}

omit [DecidableEq T] in
theorem Stays.of_eq (hp : y.pc = x.pc) (hd : y.detachState = x.detachState) : Stays x y u where
  pc _ := by rw [hp]
  detached h := by rw [hd]; exact h

theorem Stays.call (h : Stays x y u) (c : SchedCall T) : Stays x (y.call c) u := ⟨h.pc, h.detached⟩

theorem Stays.ret (h : Stays x y u) (hc : y.cur = x.cur) (r : Ret) : Stays x (y.ret r) u where
  pc hu := by
    rw [Threads.ret, hc]
    exact (Function.update_of_ne hu ..).trans (h.pc hu)
  detached := h.detached

theorem Stays.scheduling (h : Stays x y u) (hc : y.cur = x.cur) (p : ThreadPc T) :
    Stays x (y.scheduling p) u where
  pc hu := by
    rw [Threads.scheduling, hc]
    exact (Function.update_of_ne hu ..).trans (h.pc hu)
  detached := h.detached

theorem createSys_stays {o : Option T} {attr : Option PthreadAttr} {stack : Bool}
    (hu : x.created u = true) (hs : x.createSys o attr stack = some y) : Stays x y u := by
  unfold createSys at hs
  split at hs
  · cases hs
    exact (Stays.of_eq rfl rfl).ret rfl _
  · cases o with
    | none =>
      cases hs
      exact (Stays.of_eq rfl rfl).ret rfl _
    | some t =>
      dsimp only at hs
      obtain ⟨⟨ht, -⟩, hs⟩ := Option.ite_none_right_eq_some.mp hs
      have hut : u ≠ t := by
        rintro rfl
        rw [hu] at ht
        cases ht
      have hnew (prio : Int) (d : Bool) : Stays x (x.newThread t prio d) u :=
        ⟨fun _ => Function.update_of_ne hut .., (Function.update_of_ne hut ..).trans⟩
      have hall (prio : Int) (d : Bool) (hs : (if stack then
          some (((x.newThread t prio d).call (.activateThread t)).scheduling .create)
          else some ((x.newThread t prio d).ret (.fail .eagain))) = some y) : Stays x y u := by
        split at hs
        · cases hs
          exact ((hnew prio d).call (.activateThread t)).scheduling (call_cur nofun) _
        · cases hs
          exact (hnew prio d).ret rfl _
      cases attr with
      | none => exact hall _ _ hs
      | some a => exact hall _ _ hs

theorem joinSys_stays {o : Option T} (hs : x.joinSys o = some y) : Stays x y u := by
  cases o with
  | none =>
    cases hs
    exact (Stays.of_eq rfl rfl).ret rfl _
  | some t =>
    obtain ⟨-, hs⟩ := Option.ite_none_left_eq_some.mp hs
    split at hs
    · cases hs
      exact (Stays.of_eq rfl rfl).ret rfl _
    · unfold joinLoop at hs
      split at hs
      · cases hs
        have hwait : Stays x
            { x with joiningThread := Function.update x.joiningThread t (some x.cur) } u :=
          .of_eq rfl rfl
        exact (hwait.call (.suspendThread x.cur)).scheduling (call_cur nofun) _
      · obtain ⟨-, hs⟩ := Option.ite_none_left_eq_some.mp hs
        cases hs
        have hgone : Stays x { x with created := Function.update x.created t false } u :=
          .of_eq rfl rfl
        exact (hgone.call (.deletePthread t)).ret (call_cur nofun) _

theorem detachSys_stays {o : Option T} (hs : x.detachSys o = some y) : Stays x y u := by
  cases o with
  | none =>
    cases hs
    exact (Stays.of_eq rfl rfl).ret rfl _
  | some t =>
    obtain ⟨-, hs⟩ := Option.ite_none_left_eq_some.mp hs
    split at hs
    · cases hs
      exact (Stays.of_eq rfl rfl).ret rfl _
    · obtain ⟨j, -, rfl⟩ := Option.map_eq_some_iff.mp hs
      have hmark : Stays x { x with
          detachState := Function.update x.detachState t true
          joiningThread := Function.update x.joiningThread x.cur none } u := by
        refine ⟨fun _ => rfl, fun hd => ?_⟩
        by_cases hut : u = t
        · rw [hut]
          exact Function.update_self ..
        · exact (Function.update_of_ne hut ..).trans hd
      exact (hmark.call (.activateThread j)).scheduling (call_cur nofun) _

theorem cancelSys_stays {o : Option T} (hs : x.cancelSys o = some y) : Stays x y u := by
  cases o with
  | none =>
    cases hs
    exact (Stays.of_eq rfl rfl).ret rfl _
  | some t =>
    obtain ⟨-, hs⟩ := Option.ite_none_left_eq_some.mp hs
    cases hs
    have hkill : Stays x { x with kernel := x.kernel.pthreadKill t cancelSignal } u := .of_eq rfl rfl
    exact hkill.ret (Kernel.pthreadKill_frame ..).cur _

theorem setschedparamSys_stays {o : Option T} {param : Option Int}
    (hs : x.setschedparamSys o param = some y) : Stays x y u := by
  cases o with
  | none =>
    cases hs
    exact (Stays.of_eq rfl rfl).ret rfl _
  | some t =>
    obtain ⟨-, hs⟩ := Option.ite_none_left_eq_some.mp hs
    cases param with
    | none =>
      cases hs
      exact (Stays.of_eq rfl rfl).ret rfl _
    | some prio =>
      cases hs
      have hchange : Stays x (x.call (.changeThreadPrio t prio)) u := .of_eq rfl rfl
      exact hchange.scheduling (call_cur nofun) _

theorem cleanupPushSys_stays : Stays x x.cleanupPushSys u := by
  unfold cleanupPushSys
  split <;> exact .of_eq rfl rfl

theorem cleanupPopSys_stays : Stays x x.cleanupPopSys u := by
  unfold cleanupPopSys
  split <;> exact .of_eq rfl rfl

theorem exitEnd_stays (hs : x.exitEnd = some y) : Stays x y u := by
  obtain ⟨-, hs⟩ := Option.ite_none_left_eq_some.mp hs
  cases hs
  unfold wakeJoining
  split
  next j hd hj =>
    have hwake : Stays x (x.call (.activateThread j)) u := .of_eq rfl rfl
    exact hwake.scheduling (call_cur nofun) _
  next => exact (Stays.of_eq rfl rfl).scheduling rfl _

theorem deleteNpSys_stays {t : T} (hs : x.deleteNpSys t = some y) : Stays x y u := by
  obtain ⟨-, hs⟩ := Option.ite_none_left_eq_some.mp hs
  cases hs
  have hgone : Stays x { x with created := Function.update x.created t false } u := .of_eq rfl rfl
  have hfinish := hgone.call (.finishThread t)
  exact (hfinish.call (.deletePthread t)).scheduling
    ((call_cur (c := .deletePthread t) nofun).trans (call_cur (c := .finishThread t) nofun)) _

theorem suspendForSignal_stays {mask : BitVec 32} {b : Bool} {p : ThreadPc T} :
    Stays x (x.suspendForSignal mask b p) u := by
  have hset : Stays x (x.setSignals (x.thread x.cur).sigpending mask b) u := .of_eq rfl rfl
  have hcur : (x.setSignals (x.thread x.cur).sigpending mask b).cur = x.cur := call_cur nofun
  exact (hset.call (.suspendThread x.cur)).scheduling
    ((call_cur (c := .suspendThread x.cur) nofun).trans hcur) _

theorem takeSignal_stays {set : BitVec 32} (h : Stays x y u) (hc : y.cur = x.cur)
    (hs : y.takeSignal set = some z) (r : Ret) : Stays x (z.ret r) u := by
  obtain ⟨sig, -, rfl⟩ := Option.map_eq_some_iff.mp hs
  have hcur : (y.setSignals ((y.thread y.cur).sigpending.clearBit sig) (y.thread y.cur).sigmask
      (y.thread y.cur).activateOnSignal).cur = y.cur := call_cur nofun
  exact (h.call _).ret (hcur.trans hc) r

theorem sigwaitSys_stays (set : Option (BitVec 32)) : Stays x (x.sigwaitSys set) u := by
  cases set with
  | none => exact (Stays.of_eq rfl rfl).ret rfl _
  | some set =>
    unfold sigwaitSys
    dsimp only
    split
    next x' h => exact takeSignal_stays (.of_eq rfl rfl) rfl h _
    next => exact suspendForSignal_stays

theorem sigwaitEnd_stays (set oldMask : BitVec 32) : Stays x (x.sigwaitEnd set oldMask) u := by
  have hset : Stays x (x.setSignals (x.thread x.cur).sigpending oldMask false) u := .of_eq rfl rfl
  unfold sigwaitEnd
  dsimp only
  split
  next x' h => exact takeSignal_stays hset (call_cur nofun) h _
  next => exact hset.ret (call_cur nofun) _

theorem resume_stays {p : ThreadPc T} (hs : x.resume p = some y) : Stays x y u := by
  cases p with
  | create | detach | setschedparam | delete =>
    cases hs
    exact (Stays.of_eq rfl rfl).ret rfl _
  | join t => exact joinSys_stays (o := some t) hs
  | exit =>
    cases hs
    have hexit : Stays x
        { x with exiting := Function.update x.exiting x.cur (x.exiting x.cur - 1) } u :=
      .of_eq rfl rfl
    exact hexit.ret rfl _
  | sigsuspend oldMask =>
    cases hs
    have hset : Stays x (x.setSignals (x.thread x.cur).sigpending oldMask
      (x.thread x.cur).activateOnSignal) u := .of_eq rfl rfl
    exact hset.ret (call_cur nofun) _
  | sigwait set oldMask =>
    cases hs
    exact sigwaitEnd_stays set oldMask

theorem syscall_stays [Fintype T] {a : ThreadAction T} (hu : x.created u = true)
    (hs : x.syscall a = some y) : Stays x y u := by
  cases a with
  | kernel _ => cases hs
  | resume => cases hs
  | create o attr stack => exact createSys_stays hu hs
  | join o => exact joinSys_stays hs
  | detach o => exact detachSys_stays hs
  | cancel o => exact cancelSys_stays hs
  | cleanupPush =>
    cases hs
    exact cleanupPushSys_stays
  | cleanupPop =>
    cases hs
    exact cleanupPopSys_stays
  | setschedparam o param => exact setschedparamSys_stays hs
  | exit =>
    cases hs
    exact .of_eq rfl rfl
  | cleanupHandler =>
    obtain ⟨-, hs⟩ := Option.ite_none_right_eq_some.mp hs
    cases hs
    exact cleanupPopSys_stays
  | exitEnd =>
    obtain ⟨-, hs⟩ := Option.ite_none_right_eq_some.mp hs
    exact exitEnd_stays hs
  | deleteNp t => exact deleteNpSys_stays hs
  | sigsuspend mask =>
    cases hs
    exact suspendForSignal_stays
  | sigwait set =>
    cases hs
    exact sigwaitSys_stays set
  | signals p m =>
    cases hs
    exact .of_eq rfl rfl

theorem step_stays [Fintype T] {a : ThreadAction T} (hu : x.created u = true)
    (hs : x.step a = some y) : Stays x y u := by
  cases a with
  | kernel a =>
    obtain ⟨-, hs⟩ := Option.ite_none_right_eq_some.mp hs
    obtain ⟨k, -, rfl⟩ := Option.map_eq_some_iff.mp hs
    exact .of_eq rfl rfl
  | resume =>
    obtain ⟨p, -, hs⟩ := Option.bind_eq_some_iff.mp hs
    exact resume_stays hs
  | _ =>
    obtain ⟨-, hs⟩ := Option.ite_none_right_eq_some.mp hs
    exact syscall_stays hu hs

/-- Only its own steps take a thread out of a call, and in a call it can but resume. -/
theorem step_call_pc [Fintype T] {a : ThreadAction T} {p : ThreadPc T} (hp : x.pc u = some p)
    (ha : ¬(a = .resume ∧ x.cur = u)) (hu : x.created u = true) (hs : x.step a = some y) :
    y.pc u = some p := by
  have hne : u ≠ x.cur := by
    rintro rfl
    cases a with
    | kernel a =>
      obtain ⟨⟨hn, -⟩, -⟩ := Option.ite_none_right_eq_some.mp hs
      rw [hp] at hn
      cases hn
    | resume => exact ha ⟨rfl, rfl⟩
    | _ =>
      obtain ⟨⟨⟨-, hn⟩, -⟩, -⟩ := Option.ite_none_right_eq_some.mp hs
      rw [hp] at hn
      cases hn
  exact ((step_stays hu hs).pc hne).trans hp

-- ---------------------------------------------------------------------------
-- The join fails
-- ---------------------------------------------------------------------------

variable [Fintype T] {k t : T}

/-- `k` waits for a thread that has been detached, where both are in use. -/
def Failing (k t : T) (z : Threads T) : Prop :=
  z.created k = true → z.created t = true → z.Joining k t ∧ z.detachState t = true

theorem step_failing {a : ThreadAction T} (h : Failing k t x) (ha : ¬Leaves k t x a)
    (hs : x.step a = some y) : Failing k t y := by
  have hk : x.created k = true := by
    by_contra hk
    exact ha (.inr (.inl (Bool.eq_false_iff.mpr hk)))
  have ht : x.created t = true := by
    by_contra ht
    exact ha (.inr (.inr (Bool.eq_false_iff.mpr ht)))
  obtain ⟨hpc, hd⟩ := h hk ht
  have hpc' : y.Joining k t := step_call_pc hpc (fun hr => ha (.inl hr)) hk hs
  exact fun _ _ => ⟨hpc', (step_stays ht hs).detached hd⟩

theorem failsToJoin_of_failing (h : Failing k t y) : y.FailsToJoin k t := by
  intro tr z hr hl hk ht
  have hz : Failing k t z := hr.invariant h (fun _ _ _ h hc hs => step_failing h hc hs) hl
  obtain ⟨hpc, hd⟩ := hz hk ht
  refine ⟨hpc, ?_⟩
  rintro rfl
  have hjoin : z.joinSys (some t) = some (z.ret (.fail .einval)) := by
    rw [joinSys, if_neg (by simp [ht]), if_pos hd]
  refine ⟨z.ret (.fail .einval), ?_, Function.update_self .., Function.update_self ..⟩
  exact Option.bind_eq_some_iff.mpr ⟨.join t, hpc, hjoin⟩

-- ---------------------------------------------------------------------------
-- The detach
-- ---------------------------------------------------------------------------

theorem step_detach (hu : x.User) (hi : x.cur ≠ x.idle) :
    x.step (.detach (some t)) = x.detachSys (some t) := if_pos ⟨hu, hi⟩

theorem step_detach_iff (hu : x.User) (hi : x.cur ≠ x.idle) (ht : x.created t = true)
    (hd : x.detachState t = false) :
    x.step (.detach (some t)) = some y ↔ ∃ j, x.joiningThread x.cur = some j ∧
      y = ({ x with
        detachState := Function.update x.detachState t true
        joiningThread := Function.update x.joiningThread x.cur none }.call
          (.activateThread j)).scheduling .detach := by
  rw [step_detach hu hi, detachSys, if_neg (by simp [ht]), if_neg (by simp [hd]), Option.map_eq_some_iff]
  exact exists_congr fun j => and_congr_right fun _ => eq_comm

/-- Only a thread that detaches itself meets what a detach is to do, and only where its one
joiner is the one it knows. -/
theorem detachesWell_iff (hu : x.User) (hi : x.cur ≠ x.idle) (ht : x.created t = true)
    (hd : x.detachState t = false) :
    x.DetachesWell t ↔ t = x.cur ∧ (∃ k, x.Joining k t) ∧
      ∃ j, x.joiningThread t = some j ∧ ∀ k, x.Blocked k t → k = j := by
  constructor
  · rintro ⟨y, hy, h⟩
    obtain ⟨j, hj, rfl⟩ := (step_detach_iff hu hi ht hd).mp hy
    have hcur : x.cur = t := by
      by_contra hne
      have hkept := h.others x.cur hne
      rw [hj] at hkept
      exact Option.some_ne_none j (hkept.symm.trans (Function.update_self ..))
    refine ⟨hcur.symm, ?_, j, hcur ▸ hj, fun k hk => ?_⟩
    · by_contra hnone
      have halone := congrArg (fun z => z.joiningThread x.cur) (h.alone (not_exists.mp hnone))
      change Function.update x.joiningThread x.cur none x.cur = x.joiningThread x.cur at halone
      rw [Function.update_self, hj] at halone
      cases halone
    · by_contra hkj
      have hwoken : ((x.kernel.sched.activateThread j).thread k).state = .ready := h.woken k hk
      rw [Sched.activateThread_state, if_neg hkj] at hwoken
      have hsuspended : (x.kernel.sched.thread k).state = .suspended := hk.2
      rw [hsuspended] at hwoken
      cases hwoken
  · rintro ⟨rfl, ⟨k₀, hk₀⟩, j, hj, hone⟩
    have hs := (step_detach_iff hu hi ht hd).mpr ⟨j, hj, rfl⟩
    refine ⟨_, hs, ?_⟩
    rw [step_detach hu hi] at hs
    refine
      { woken := fun k hk => ?_
        fails := fun k hk => failsToJoin_of_failing fun _ _ => ⟨?_, Function.update_self ..⟩
        others := fun u hne => Function.update_of_ne hne ..
        alone := fun hnone => absurd hk₀ (hnone k₀) }
    · have hsuspended : (x.kernel.sched.thread k).state = .suspended := hk.2
      change ((x.kernel.sched.activateThread j).thread k).state = .ready
      rw [Sched.activateThread_state, if_pos (hone k hk), if_neg (by simp [hsuspended])]
    · have hne : k ≠ x.cur := by
        rintro rfl
        have hjoin := hu.2.symm.trans hk.1
        cases hjoin
      exact ((detachSys_stays hs).pc hne).trans hk.1

/-- The main thread joins a thread that then detaches itself. -/
theorem detachesWell_self : ∃ tr x,
    Run step (boot none (some false) (fun _ => 0) fun _ => {}) tr x ∧
      x.Blocked (some false) (some true) ∧ x.DetachesWell (some true) := by
  have hrun : (exec step (boot none (some false) (fun _ => 0) fun _ => {})
      [.create (some (some true)) none true, .kernel (.call .yield {}), .resume,
        .join (some (some true)), .kernel (.resume {})]).any (fun r =>
      decide (r.2.User ∧ r.2.cur ≠ r.2.idle ∧ r.2.created (some true) = true ∧
        r.2.detachState (some true) = false ∧ r.2.Blocked (some false) (some true) ∧
        some true = r.2.cur ∧ r.2.joiningThread (some true) = some (some false) ∧
        ∀ k, r.2.Blocked k (some true) → k = some false)) = true := by decide +kernel
  obtain ⟨tr, x, hr, hp⟩ := exec_any hrun
  obtain ⟨hu, hi, ht, hd, hblocked, hcur, hj, hone⟩ := of_decide_eq_true hp
  exact ⟨tr, x, hr, hblocked, (detachesWell_iff hu hi ht hd).mpr
    ⟨hcur, ⟨some false, hblocked.1⟩, some false, hj, hone⟩⟩

/-- Thread 2 joins the main thread 1, which thread 3 detaches. No thread joins thread 3, and
`activate_thread` gets a null pointer. -/
theorem detach_by_another : ∃ tr x,
    Run step (boot (0 : Fin 4) 1 (fun _ => 0) fun _ => {}) tr x ∧ x.User ∧ x.cur ≠ x.idle ∧
      x.created 1 = true ∧ x.detachState 1 = false ∧ x.Blocked 2 1 ∧ ¬x.DetachesWell 1 := by
  have hrun : (exec step (boot (0 : Fin 4) 1 (fun _ => 0) fun _ => {})
      [.create (some 2) none true, .join (some 1), .resume, .create (some 3) none true]).any (fun r =>
      decide (r.2.User ∧ r.2.cur ≠ r.2.idle ∧ r.2.created 1 = true ∧ r.2.detachState 1 = false ∧
        r.2.Blocked 2 1 ∧ (step r.2 (.detach (some 1))).isNone)) = true := by decide +kernel
  obtain ⟨tr, x, hr, hp⟩ := exec_any hrun
  obtain ⟨hu, hi, ht, hd, hblocked, hnone⟩ := of_decide_eq_true hp
  refine ⟨tr, x, hr, hu, hi, ht, hd, hblocked, ?_⟩
  rintro ⟨y, hy, -⟩
  rw [hy] at hnone
  cases hnone

end Xmertl.Partikle.Threads
