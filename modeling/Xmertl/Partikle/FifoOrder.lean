import Xmertl.Lib.Runs
import Xmertl.Partikle.SchedCalls

/-!
# SCHED_FIFO

Runs of the scheduler's calls, with a note of when each thread became READY or last
yielded, and whether its priority has been changed since. Among threads of one priority
the earlier one should be before the later one.
-/

namespace Xmertl.Partikle

open Runs

/-- `now` counts the calls. -/
structure FifoSched (T : Type) where
  sched : Sched T
  now : Nat
  since : T → Nat
  moved : T → Bool

namespace FifoSched

variable {T : Type} [DecidableEq T]

def init (idle : T) : FifoSched T where
  sched :=
    { thread := fun _ => {}
      threadMatrix := fun _ => []
      currentThread := idle
      idleThread := idle }
  now := 1
  since _ := 0
  moved _ := false

def note (x : FifoSched T) : SchedCall T → (T → Nat) × (T → Bool)
  | .activateThread t =>
    if (x.sched.thread t).state = .suspended then
      (Function.update x.since t x.now, Function.update x.moved t false)
    else (x.since, x.moved)
  | .yield =>
    (Function.update x.since x.sched.currentThread x.now,
      Function.update x.moved x.sched.currentThread false)
  | .changeThreadPrio t _ => (x.since, Function.update x.moved t true)
  | _ => (x.since, x.moved)

def after (x : FifoSched T) (c : SchedCall T) : FifoSched T where
  sched := x.sched.call c
  now := x.now + 1
  since := (x.note c).1
  moved := (x.note c).2

def step (x : FifoSched T) (c : SchedCall T) : Option (FifoSched T) :=
  if x.sched.Fits c then some (x.after c) else none

/-- `t` may be before `u`: it has waited longer, unless it is not to be compared. -/
def Before (x : FifoSched T) (t u : T) : Prop :=
  (x.sched.thread t).schedPriority = (x.sched.thread u).schedPriority →
    x.moved t = false → x.moved u = false → x.since t < x.since u

/-- Each list is in order, and so is the thread that runs next with those behind it. -/
structure Fifo (x : FifoSched T) : Prop where
  order : ∀ i, (x.sched.threadMatrix i).Pairwise x.Before
  dispatch : ∀ i t, x.sched.scheduling.currentThread = t → t ∈ x.sched.threadMatrix i →
    ∀ u ∈ x.sched.threadMatrix i, u ≠ t → x.Before t u

/-- The call makes no thread READY while another one of its priority is on a ready list,
other than one whose priority was changed. -/
def Alone (x : FifoSched T) : SchedCall T → Prop
  | .activateThread t =>
    (x.sched.thread t).state = .suspended →
      ∀ u ∈ x.sched.threadMatrix (prio2ij (x.sched.thread t).schedPriority),
        (x.sched.thread u).schedPriority = (x.sched.thread t).schedPriority → x.moved u = true
  | _ => True

instance (x : FifoSched T) (c : SchedCall T) : Decidable (x.Alone c) :=
  match c with
  | .activateThread _ => inferInstanceAs (Decidable (_ → ∀ u ∈ _, _ → _))
  | .createPthread _ _ | .deletePthread _ | .changeThreadPrio _ _ | .suspendThread _
  | .finishThread _ | .yield | .scheduling | .signals _ _ _ _ => inferInstanceAs (Decidable True)

structure Sound (x : FifoSched T) : Prop where
  filed : x.sched.Filed
  past : ∀ t, x.since t < x.now
  order : ∀ i, (x.sched.threadMatrix i).Pairwise x.Before

-- ---------------------------------------------------------------------------
-- The order of the lists
-- ---------------------------------------------------------------------------

section
variable {x y : FifoSched T} {t u : T} {i : Nat}

omit [DecidableEq T] in
theorem Before.congr (h : x.Before t u)
    (ht : (y.sched.thread t).schedPriority = (x.sched.thread t).schedPriority ∧
      y.since t = x.since t ∧ y.moved t = x.moved t)
    (hu : (y.sched.thread u).schedPriority = (x.sched.thread u).schedPriority ∧
      y.since u = x.since u ∧ y.moved u = x.moved u) : y.Before t u := by
  intro hp hmt hmu
  rw [ht.2.1, hu.2.1]
  exact h (by rw [← ht.1, ← hu.1, hp]) (ht.2.2 ▸ hmt) (hu.2.2 ▸ hmu)

omit [DecidableEq T] in
theorem order_congr {l : List T} (h : l.Pairwise x.Before)
    (hsame : ∀ t ∈ l, (y.sched.thread t).schedPriority = (x.sched.thread t).schedPriority ∧
      y.since t = x.since t ∧ y.moved t = x.moved t) : l.Pairwise y.Before :=
  h.imp_of_mem fun ht hu hb => hb.congr (hsame _ ht) (hsame _ hu)

omit [DecidableEq T] in
theorem Sound.fifo (h : x.Sound) : x.Fifo := by
  refine ⟨h.order, fun i t hcur ht u hu hut => ?_⟩
  have hsome : x.sched.getHeadSs = some t := by
    cases hh : x.sched.getHeadSs with
    | none =>
      have hi : i < 0 + 1024 := by
        have := h.filed.lt ht
        omega
      have hempty := Sched.headFrom_none hh (Nat.zero_le i) hi
      rw [hempty] at ht
      exact absurd ht List.not_mem_nil
    | some t' => rw [← hcur, Sched.scheduling, hh, Option.getD_some]
  obtain ⟨j, -, -, hj, -⟩ := Sched.headFrom_some hsome
  obtain ⟨rest, hl⟩ := List.head?_eq_some_iff.mp hj
  have hij : i = j := by
    have htj : t ∈ x.sched.threadMatrix j := List.mem_of_mem_head? hj
    rw [(h.filed.linked i t ht).2.1, (h.filed.linked j t htj).2.1]
  subst hij
  have horder := h.order i
  rw [hl, List.pairwise_cons] at horder
  rw [hl, List.mem_cons] at hu
  exact horder.1 u (hu.resolve_left hut)

theorem removeSs_matrix (h : x.sched.Placed) :
    (x.sched.removeSs t).threadMatrix i = (x.sched.threadMatrix i).erase t := by
  unfold Sched.removeSs
  split
  · rename_i hss
    refine (List.erase_of_not_mem fun ht => ?_).symm
    simp [(h.linked i t ht).1] at hss
  · rename_i j hss
    by_cases hij : i = j
    · subst hij
      simp
    · simp only [Sched.modify_matrix, Function.update_of_ne hij]
      refine (List.erase_of_not_mem fun ht => hij ?_).symm
      rw [(h.linked i t ht).1] at hss
      exact Option.some.inj hss

theorem Sound.erase (h : x.Sound) (t : T) (i : Nat)
    (hsame : ∀ u, u ≠ t → (y.sched.thread u).schedPriority = (x.sched.thread u).schedPriority ∧
      y.since u = x.since u ∧ y.moved u = x.moved u) :
    ((x.sched.threadMatrix i).erase t).Pairwise y.Before := by
  refine order_congr ((h.order i).sublist List.erase_sublist) fun u hu => hsame u ?_
  exact ((h.filed.nodup i).mem_erase_iff.mp hu).1

theorem Sound.past_note (h : x.Sound) (c : SchedCall T) (t : T) : (x.note c).1 t < x.now + 1 := by
  have hpast := h.past t
  cases c with
  | activateThread u =>
    simp only [note]
    split
    · by_cases htu : t = u
      · subst htu
        simp
      · simpa [htu] using Nat.lt_succ_of_lt hpast
    · exact Nat.lt_succ_of_lt hpast
  | yield =>
    simp only [note]
    by_cases htu : t = x.sched.currentThread
    · subst htu
      simp
    · simpa [htu] using Nat.lt_succ_of_lt hpast
  | _ => exact Nat.lt_succ_of_lt hpast

theorem step_eq {c : SchedCall T} (hs : x.step c = some y) : x.sched.Fits c ∧
    y = x.after c := by
  unfold step at hs
  split at hs
  · rename_i hfits
    exact ⟨hfits, (Option.some.inj hs).symm⟩
  · cases hs

-- ---------------------------------------------------------------------------
-- Each call
-- ---------------------------------------------------------------------------

theorem activate_matrix (ht : (x.sched.thread t).state = .suspended) :
    (x.after (.activateThread t)).sched.threadMatrix i =
      if i = prio2ij (x.sched.thread t).schedPriority then t :: x.sched.threadMatrix i
      else x.sched.threadMatrix i := by
  by_cases hi : i = prio2ij (x.sched.thread t).schedPriority
  · subst hi
    simp [after, Sched.call, Sched.activateThread, ht, Sched.insertSs]
  · simp [after, Sched.call, Sched.activateThread, ht, Sched.insertSs, hi]

theorem change_matrix (h : x.sched.Placed) (p : Int) :
    (x.after (.changeThreadPrio t p)).sched.threadMatrix i =
      if (x.sched.thread t).state = .ready ∧ i = prio2ij p then t :: (x.sched.threadMatrix i).erase t
      else (x.sched.threadMatrix i).erase t := by
  by_cases hr : (x.sched.thread t).state = .ready
  · by_cases hi : i = prio2ij p
    · subst hi
      simp [after, Sched.call, Sched.changeThreadPrio, hr, Sched.insertSs, removeSs_matrix h]
    · simp [after, Sched.call, Sched.changeThreadPrio, hr, Sched.insertSs, removeSs_matrix h, hi]
  · simp [after, Sched.call, Sched.changeThreadPrio, hr, removeSs_matrix h]

theorem yield_matrix (h : x.sched.Placed) : (x.after .yield).sched.threadMatrix i =
    if i = prio2ij (x.sched.thread x.sched.currentThread).schedPriority then
      (x.sched.threadMatrix i).erase x.sched.currentThread ++ [x.sched.currentThread]
    else (x.sched.threadMatrix i).erase x.sched.currentThread := by
  by_cases hi : i = prio2ij (x.sched.thread x.sched.currentThread).schedPriority
  · subst hi
    simp [after, Sched.call, Sched.pthreadYield, Sched.insertSsTail, removeSs_matrix h]
  · simp [after, Sched.call, Sched.pthreadYield, Sched.insertSsTail, removeSs_matrix h, hi]

theorem Sound.activate (h : x.Sound) (ht : (x.sched.thread t).state = .suspended)
    (hc : x.Alone (.activateThread t)) (i : Nat) :
    ((x.after (.activateThread t)).sched.threadMatrix i).Pairwise
      (x.after (.activateThread t)).Before := by
  have hne : ∀ u ∈ x.sched.threadMatrix i, u ≠ t :=
    fun u hu he => (h.filed.linked i u hu).2.2 (he ▸ ht)
  have hrest := order_congr (y := x.after (.activateThread t)) (h.order i) fun u hu =>
    ⟨Sched.activateThread_prio _ _ _, by simp [after, note, ht, hne u hu],
      by simp [after, note, ht, hne u hu]⟩
  rw [activate_matrix ht]
  split
  · rename_i hi
    refine List.pairwise_cons.mpr ⟨fun u hu hp _ hmu => ?_, hrest⟩
    simp only [after, Sched.call, Sched.activateThread_prio] at hp
    have hmoved := hc ht u (hi ▸ hu) hp.symm
    simp [after, note, ht, hne u hu, hmoved] at hmu
  · exact hrest

theorem Sound.change (h : x.Sound) (t : T) (p : Int) (i : Nat) :
    ((x.after (.changeThreadPrio t p)).sched.threadMatrix i).Pairwise
      (x.after (.changeThreadPrio t p)).Before := by
  have hrest := h.erase (y := x.after (.changeThreadPrio t p)) t i fun u hut =>
    ⟨by rw [after, Sched.call, Sched.changeThreadPrio_prio, if_neg hut], rfl,
      by simp [after, note, hut]⟩
  rw [change_matrix h.filed.toPlaced]
  split
  · refine List.pairwise_cons.mpr ⟨fun u _ _ hmt => ?_, hrest⟩
    simp [after, note] at hmt
  · exact hrest

theorem Sound.yield (h : x.Sound) (i : Nat) :
    ((x.after .yield).sched.threadMatrix i).Pairwise (x.after .yield).Before := by
  have hrest := h.erase (y := x.after .yield) x.sched.currentThread i fun u hut =>
    ⟨Sched.pthreadYield_prio _ _, by simp [after, note, hut], by simp [after, note, hut]⟩
  rw [yield_matrix h.filed.toPlaced]
  split
  · refine List.pairwise_append.mpr ⟨hrest, List.pairwise_singleton _ _, fun u hu v hv _ _ _ => ?_⟩
    obtain rfl := List.mem_singleton.mp hv
    have hne : u ≠ x.sched.currentThread := ((h.filed.nodup i).mem_erase_iff.mp hu).1
    simpa [after, note, hne] using h.past u
  · exact hrest

theorem Sound.step (h : x.Sound) {c : SchedCall T} (hs : x.step c = some y) (hc : x.Alone c) :
    y.Sound := by
  obtain ⟨hfits, rfl⟩ := step_eq hs
  refine ⟨h.filed.call hfits, h.past_note c, fun i => ?_⟩
  have hremove : ∀ t, (x.sched.removeSs t).threadMatrix i = (x.sched.threadMatrix i).erase t :=
    fun t => removeSs_matrix h.filed.toPlaced
  cases c with
  | createPthread t p =>
    refine order_congr (h.order i) fun u hu => ?_
    have hut : u ≠ t := fun he => h.filed.not_linked hfits ⟨i, he ▸ hu⟩
    exact ⟨by simp [after, Sched.call, Sched.createPthreadStruct, Sched.modify_thread, hut], rfl, rfl⟩
  | deletePthread t =>
    refine (congrArg (List.Pairwise _) (hremove t)).mpr (h.erase t i fun u hut => ⟨?_, rfl, rfl⟩)
    simp [after, Sched.call, Sched.deletePthreadStruct, Sched.removeSs_thread, hut]
  | changeThreadPrio t p => exact h.change t p i
  | suspendThread t =>
    refine (congrArg (List.Pairwise _) (hremove t)).mpr (h.erase t i fun u _ => ⟨?_, rfl, rfl⟩)
    exact Sched.suspendThread_prio _ _ _
  | activateThread t =>
    by_cases ht : (x.sched.thread t).state = .suspended
    · exact h.activate ht hc i
    · have hstay : x.sched.activateThread t = x.sched := by
        cases hstate : (x.sched.thread t).state with
        | suspended => exact absurd hstate ht
        | _ => simp [Sched.activateThread, hstate]
      refine (congrArg (fun s : Sched T => List.Pairwise _ (s.threadMatrix i)) hstay).mpr ?_
      refine order_congr (h.order i) fun u _ => ⟨Sched.activateThread_prio _ _ _, ?_, ?_⟩
      · simp [after, note, ht]
      · simp [after, note, ht]
  | finishThread t =>
    refine (congrArg (List.Pairwise _) (hremove t)).mpr (h.erase t i fun u hut => ⟨?_, rfl, rfl⟩)
    simp [after, Sched.call, Sched.finishThread, Sched.modify_thread, Sched.removeSs_thread, hut]
  | yield => exact h.yield i
  | scheduling => exact h.order i
  | signals t pending mask b =>
    refine order_congr (h.order i) fun u _ => ⟨?_, rfl, rfl⟩
    by_cases hut : u = t <;> simp [after, Sched.call, Sched.modify_thread, hut]

theorem Sound.step_alone (h : x.Sound) {c : SchedCall T} (hs : x.step c = some y) (hy : y.Fifo) :
    x.Alone c := by
  obtain ⟨-, rfl⟩ := step_eq hs
  cases c with
  | activateThread t =>
    intro ht u hu hp
    by_contra hmoved
    have hne : u ≠ t := fun he => (h.filed.linked _ u hu).2.2 (he ▸ ht)
    have horder := hy.order (prio2ij (x.sched.thread t).schedPriority)
    rw [activate_matrix ht, if_pos rfl, List.pairwise_cons] at horder
    have hbefore := horder.1 u hu (by simp [after, Sched.call, hp]) (by simp [after, note, ht])
      (by simpa [after, note, ht, hne] using hmoved)
    have hpast := h.past u
    simp only [after, note, ht, if_true, Function.update_self, Function.update_of_ne hne] at hbefore
    exact absurd hbefore (Nat.lt_asymm hpast)
  | _ => trivial

omit [DecidableEq T] in
theorem init_sound (idle : T) : (init idle).Sound where
  filed := ⟨⟨fun _ _ ht => absurd ht List.not_mem_nil, fun _ => List.nodup_nil⟩, nofun⟩
  past _ := Nat.one_pos
  order _ := .nil

end

end FifoSched

/-- In every run of the scheduler's calls the lists keep the order in which threads became
READY, and the scheduler follows it, if and only if each thread becomes READY while no other
thread of its priority is on a ready list. -/
theorem fifo_order {T : Type} [DecidableEq T] {idle : T}
    {tr : List (FifoSched T × SchedCall T)} {x : FifoSched T}
    (hr : Run FifoSched.step (.init idle) tr x) :
    (∀ y, Visited tr x y → y.Fifo) ↔ ∀ e ∈ tr, e.1.Alone e.2 := by
  constructor
  · intro hall
    have hsound : x.Sound ∧ ∀ e ∈ tr, e.1.Alone e.2 := by
      induction hr with
      | start => exact ⟨FifoSched.init_sound idle, by simp⟩
      | @next tr s c s' hr hstep ih =>
        obtain ⟨hsound, halone⟩ := ih fun y hy => hall y hy.next
        have hc := hsound.step_alone hstep (hall s' .self)
        refine ⟨hsound.step hstep hc, fun e he => ?_⟩
        rcases List.mem_cons.mp he with rfl | he
        · exact hc
        · exact halone e he
    exact hsound.2
  · intro halone y hy
    exact (hr.invariant_visited (FifoSched.init_sound idle) (fun s c s' h hc hs => h.step hs hc)
      halone hy).fifo

theorem fifo_order_run : ∃ tr x, Run FifoSched.step (.init (none : Option Bool)) tr x ∧
    x.sched.currentThread = some false ∧ ∀ y, Visited tr x y → y.Fifo := by
  have hrun : (exec FifoSched.step (.init (none : Option Bool)) [.createPthread (some true) 7,
      .createPthread (some false) 7, .activateThread (some true), .scheduling,
      .suspendThread (some true), .activateThread (some false), .scheduling]).any fun r =>
      decide ((∀ e ∈ r.1, e.1.Alone e.2) ∧ r.2.sched.currentThread = some false) := by
    decide +kernel
  obtain ⟨tr, x, hr, hx⟩ := exec_any hrun
  simp only [decide_eq_true_eq] at hx
  exact ⟨tr, x, hr, hx.2, (fifo_order hr).mpr hx.1⟩

/-- A thread runs; another one of its priority becomes READY, and runs in its place. -/
theorem fifo_preempted : ∃ tr x, Run FifoSched.step (.init (none : Option Bool)) tr x ∧
    tr.map Prod.snd = [.scheduling, .activateThread (some false), .scheduling,
      .activateThread (some true), .createPthread (some false) 7, .createPthread (some true) 7] ∧
    (x.sched.thread (some true)).state = .ready ∧
    (x.sched.thread (some true)).schedPriority = (x.sched.thread (some false)).schedPriority ∧
    x.moved (some true) = false ∧ x.moved (some false) = false ∧
    x.since (some true) < x.since (some false) ∧ x.sched.currentThread = some false := by
  have hrun : (exec FifoSched.step (.init (none : Option Bool)) [.createPthread (some true) 7,
      .createPthread (some false) 7, .activateThread (some true), .scheduling,
      .activateThread (some false), .scheduling]).any fun r =>
      decide ((r.2.sched.thread (some true)).state = .ready ∧
        (r.2.sched.thread (some true)).schedPriority =
          (r.2.sched.thread (some false)).schedPriority ∧
        r.2.moved (some true) = false ∧ r.2.moved (some false) = false ∧
        r.2.since (some true) < r.2.since (some false) ∧
        r.2.sched.currentThread = some false) := by
    decide +kernel
  obtain ⟨tr, x, hr, hacts, hx⟩ := exec_any_actions hrun
  simp only [decide_eq_true_eq] at hx
  exact ⟨tr, x, hr, hacts, hx⟩

end Xmertl.Partikle
