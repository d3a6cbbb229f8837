import Xmertl.Partikle.Sched

/-!
# The calls of the scheduler

The rest of the kernel reaches the ready structure through the functions of `sched.c` alone.
A `SchedCall` is one of them, so that what a system call does to the scheduler is a list of
`SchedCall`s, and an invariant of the ready structure is proved once for each of them.
-/

namespace Xmertl.Partikle

inductive SchedCall (T : Type)
  /-- `create_pthread_struct`, and the priority that `pthread_create_sys` gives. -/
  | createPthread (thread : T) (prio : Int)
  | deletePthread (thread : T)
  | changeThreadPrio (thread : T) (prio : Int)
  | suspendThread (thread : T)
  | activateThread (thread : T)
  | finishThread (thread : T)
  /-- `pthread_yield_sys` up to its `scheduling ()`. -/
  | yield
  | scheduling
  /-- The fields that `signal.c` changes. -/
  | signals (thread : T) (sigpending sigmask : BitVec 32) (activateOnSignal : Bool)
  deriving DecidableEq

namespace Sched

variable {T : Type}

def Linked (s : Sched T) (t : T) : Prop := ∃ i, t ∈ s.threadMatrix i

variable [DecidableEq T]

/-- The structure is zeroed, SUSPENDED and with the creating thread's signal mask. -/
def createPthreadStruct (s : Sched T) (t : T) : Sched T :=
  s.modify t fun _ => { sigmask := (s.thread s.currentThread).sigmask }

/-- What `delete_pthread_struct` does to the ready structure. -/
def deletePthreadStruct (s : Sched T) (t : T) : Sched T := s.removeSs t

def finishThread (s : Sched T) (t : T) : Sched T :=
  (s.removeSs t).modify t fun th => { th with state := .finished }

def call (s : Sched T) : SchedCall T → Sched T
  | .createPthread t prio =>
    (s.createPthreadStruct t).modify t fun th => { th with schedPriority := prio }
  | .deletePthread t => s.deletePthreadStruct t
  | .changeThreadPrio t prio => s.changeThreadPrio t prio
  | .suspendThread t => s.suspendThread t
  | .activateThread t => s.activateThread t
  | .finishThread t => s.finishThread t
  | .yield => s.pthreadYield
  | .scheduling => s.scheduling
  | .signals t sigpending sigmask activateOnSignal =>
    s.modify t fun th => { th with sigpending, sigmask, activateOnSignal }

def calls (s : Sched T) (cs : List (SchedCall T)) : Sched T := cs.foldl call s

/-- Each linked thread is on the list of its priority, which it notes, and not SUSPENDED. -/
structure Placed (s : Sched T) : Prop where
  linked : ∀ i t, t ∈ s.threadMatrix i → (s.thread t).ss = some i ∧
    i = prio2ij (s.thread t).schedPriority ∧ (s.thread t).state ≠ .suspended
  nodup : ∀ i, (s.threadMatrix i).Nodup

structure Filed (s : Sched T) : Prop extends Placed s where
  ready : ∀ t, (s.thread t).state = .ready → s.Linked t

-- ---------------------------------------------------------------------------
-- The lists
-- ---------------------------------------------------------------------------

section
variable {s : Sched T} {t u : T} {i : Nat} {p : Int}

theorem Placed.mem_removeSs (h : Placed s) :
    u ∈ (s.removeSs t).threadMatrix i ↔ u ≠ t ∧ u ∈ s.threadMatrix i := by
  unfold Sched.removeSs
  split
  · rename_i hss
    refine ⟨fun hu => ⟨?_, hu⟩, fun hu => hu.2⟩
    rintro rfl
    simp [(h.linked i u hu).1] at hss
  · rename_i j hss
    simp only [modify_matrix]
    by_cases hij : i = j
    · subst hij
      rw [Function.update_self, (h.nodup i).mem_erase_iff]
    · rw [Function.update_of_ne hij]
      refine ⟨fun hu => ⟨?_, hu⟩, fun hu => hu.2⟩
      rintro rfl
      rw [(h.linked i u hu).1] at hss
      exact hij (Option.some.inj hss)

theorem mem_insertSs :
    u ∈ (s.insertSs t p).threadMatrix i ↔ u = t ∧ i = prio2ij p ∨ u ∈ s.threadMatrix i := by
  by_cases hi : i = prio2ij p
  · subst hi
    simp [Sched.insertSs]
  · simp [Sched.insertSs, hi]

theorem mem_insertSsTail :
    u ∈ (s.insertSsTail t p).threadMatrix i ↔ u = t ∧ i = prio2ij p ∨ u ∈ s.threadMatrix i := by
  by_cases hi : i = prio2ij p
  · subst hi
    simp [Sched.insertSsTail, or_comm]
  · simp [Sched.insertSsTail, hi]

theorem Placed.removeSs (h : Placed s) : Placed (s.removeSs t) where
  linked j u hu := by
    obtain ⟨hut, hu⟩ := h.mem_removeSs.mp hu
    simpa [removeSs_thread, hut] using h.linked j u hu
  nodup j := by
    unfold Sched.removeSs
    split
    · exact h.nodup j
    · rename_i k _
      by_cases hj : j = k
      · subst hj; simpa using (h.nodup j).erase t
      · simpa [hj] using h.nodup j

theorem Placed.not_removeSs (h : Placed s) : ¬(s.removeSs t).Linked t :=
  fun ⟨_, ht⟩ => (h.mem_removeSs.mp ht).1 rfl

theorem Placed.linked_removeSs (h : Placed s) : (s.removeSs t).Linked u ↔ u ≠ t ∧ s.Linked u :=
  ⟨fun ⟨i, hu⟩ => ⟨(h.mem_removeSs.mp hu).1, i, (h.mem_removeSs.mp hu).2⟩,
    fun ⟨hut, i, hu⟩ => ⟨i, h.mem_removeSs.mpr ⟨hut, hu⟩⟩⟩

theorem linked_modify {f : Thread → Thread} : (s.modify t f).Linked u ↔ s.Linked u := Iff.rfl

theorem linked_insertSs : (s.insertSs t p).Linked u ↔ u = t ∨ s.Linked u := by
  simp only [Linked, mem_insertSs]
  exact ⟨fun ⟨i, hu⟩ => hu.imp And.left fun hu => ⟨i, hu⟩, fun hu => hu.elim
    (fun hu => ⟨_, .inl ⟨hu, rfl⟩⟩) fun ⟨i, hu⟩ => ⟨i, .inr hu⟩⟩

theorem linked_insertSsTail : (s.insertSsTail t p).Linked u ↔ u = t ∨ s.Linked u := by
  simp only [Linked, mem_insertSsTail]
  exact ⟨fun ⟨i, hu⟩ => hu.imp And.left fun hu => ⟨i, hu⟩, fun hu => hu.elim
    (fun hu => ⟨_, .inl ⟨hu, rfl⟩⟩) fun ⟨i, hu⟩ => ⟨i, .inr hu⟩⟩

theorem Placed.modify (h : Placed s) (ht : ¬s.Linked t) {f : Thread → Thread} :
    Placed (s.modify t f) where
  linked i u hu := by
    have hut : u ≠ t := fun he => ht ⟨i, he ▸ hu⟩
    simpa [modify_thread, hut] using h.linked i u hu
  nodup := h.nodup

theorem Placed.insertSs (h : Placed s) (ht : ¬s.Linked t) (hs : (s.thread t).state ≠ .suspended)
    (hp : p = (s.thread t).schedPriority) : Placed (s.insertSs t p) where
  linked i u hu := by
    rw [insertSs_thread]
    rcases mem_insertSs.mp hu with ⟨rfl, rfl⟩ | hu
    · exact ⟨by simp, by simp [hp], by simpa using hs⟩
    · have hut : u ≠ t := fun he => ht ⟨i, he ▸ hu⟩
      simpa [hut] using h.linked i u hu
  nodup i := by
    by_cases hi : i = prio2ij p
    · subst hi
      simpa [Sched.insertSs] using ⟨fun hmem => ht ⟨_, hmem⟩, h.nodup _⟩
    · simpa [Sched.insertSs, hi] using h.nodup i

theorem Placed.insertSsTail (h : Placed s) (ht : ¬s.Linked t)
    (hs : (s.thread t).state ≠ .suspended) (hp : p = (s.thread t).schedPriority) :
    Placed (s.insertSsTail t p) where
  linked i u hu := by
    rw [insertSsTail_thread]
    rcases mem_insertSsTail.mp hu with ⟨rfl, rfl⟩ | hu
    · exact ⟨by simp, by simp [hp], by simpa using hs⟩
    · have hut : u ≠ t := fun he => ht ⟨i, he ▸ hu⟩
      simpa [hut] using h.linked i u hu
  nodup i := by
    by_cases hi : i = prio2ij p
    · subst hi
      have hno : ∀ u ∈ s.threadMatrix (prio2ij p), u ≠ t := fun u hu he => ht ⟨_, he ▸ hu⟩
      simpa [Sched.insertSsTail, List.nodup_append] using ⟨h.nodup _, hno⟩
    · simpa [Sched.insertSsTail, hi] using h.nodup i

-- ---------------------------------------------------------------------------
-- What each call links
-- ---------------------------------------------------------------------------

theorem Placed.linked_suspendThread (h : Placed s) :
    (s.suspendThread t).Linked u ↔ u ≠ t ∧ s.Linked u := h.linked_removeSs

theorem Placed.linked_finishThread (h : Placed s) :
    (s.finishThread t).Linked u ↔ u ≠ t ∧ s.Linked u := h.linked_removeSs

theorem linked_activateThread :
    (s.activateThread t).Linked u ↔ s.Linked u ∨ u = t ∧ (s.thread t).state = .suspended := by
  cases hs : (s.thread t).state <;> simp [Sched.activateThread, hs, linked_modify, linked_insertSs,
    or_comm]

theorem Placed.linked_changeThreadPrio (h : Placed s) : (s.changeThreadPrio t p).Linked u ↔
    u ≠ t ∧ s.Linked u ∨ u = t ∧ (s.thread t).state = .ready := by
  by_cases hr : (s.thread t).state = .ready
  · simp only [Sched.changeThreadPrio, hr, if_true, linked_insertSs, linked_modify,
      h.linked_removeSs, and_true, or_comm]
  · simp only [Sched.changeThreadPrio, hr, if_false, linked_modify, h.linked_removeSs, and_false,
      or_false]

theorem Placed.linked_pthreadYield (h : Placed s) :
    s.pthreadYield.Linked u ↔ s.Linked u ∨ u = s.currentThread := by
  simp only [Sched.pthreadYield, linked_insertSsTail, h.linked_removeSs]
  tauto

theorem finishThread_state : ((s.finishThread t).thread u).state =
    if u = t then .finished else (s.thread u).state := by
  by_cases h : u = t <;> simp [finishThread, modify_thread, removeSs_thread, h]

/-- A new structure is not linked yet, a deleted one not READY; a thread that runs is not
SUSPENDED. -/
def Fits (s : Sched T) : SchedCall T → Prop
  | .createPthread t _ => ∀ i < 1024, t ∉ s.threadMatrix i
  | .deletePthread t => (s.thread t).state ≠ .ready
  | .yield => (s.thread s.currentThread).state ≠ .suspended
  | _ => True

instance (s : Sched T) (c : SchedCall T) : Decidable (s.Fits c) :=
  match c with
  | .createPthread t _ => Nat.decidableBallLT 1024 fun i _ => t ∉ s.threadMatrix i
  | .deletePthread _ => inferInstanceAs (Decidable (_ ≠ _))
  | .yield => inferInstanceAs (Decidable (_ ≠ _))
  | .changeThreadPrio _ _ | .suspendThread _ | .activateThread _ | .finishThread _ | .scheduling
  | .signals _ _ _ _ => inferInstanceAs (Decidable True)

omit [DecidableEq T] in
theorem Placed.lt (h : Placed s) (ht : t ∈ s.threadMatrix i) : i < 1024 := by
  rw [(h.linked i t ht).2.1, prio2ij]
  omega

omit [DecidableEq T] in
theorem Placed.not_linked (h : Placed s) (ht : ∀ i < 1024, t ∉ s.threadMatrix i) : ¬s.Linked t :=
  fun ⟨i, hi⟩ => ht i (h.lt hi) hi

theorem Placed.suspendThread (h : Placed s) : Placed (s.suspendThread t) :=
  h.removeSs.modify h.not_removeSs

theorem Placed.finishThread (h : Placed s) : Placed (s.finishThread t) :=
  h.removeSs.modify h.not_removeSs

theorem Filed.activateThread (h : Filed s) : Filed (s.activateThread t) := by
  by_cases ht : (s.thread t).state = .suspended
  · have hno : ¬s.Linked t := fun ⟨i, hi⟩ => (h.linked i t hi).2.2 ht
    have hne : (s.thread t).state ≠ .finished ∧ (s.thread t).state ≠ .ready := by simp [ht]
    refine ⟨?_, fun u hu => ?_⟩
    · rw [activateThread_eq hne]
      exact (h.modify hno).insertSs hno (by simp [modify_thread]) (by simp [modify_thread])
    · rw [linked_activateThread]
      rw [activateThread_state] at hu
      by_cases hut : u = t
      · exact .inr ⟨hut, ht⟩
      · rw [if_neg hut] at hu
        exact .inl (h.ready u hu)
  · have hstay : s.activateThread t = s := by
      cases hs : (s.thread t).state with
      | suspended => exact absurd hs ht
      | _ => simp [Sched.activateThread, hs]
    rw [hstay]
    exact h

theorem Filed.changeThreadPrio (h : Filed s) : Filed (s.changeThreadPrio t p) := by
  refine ⟨?_, fun u hu => ?_⟩
  · have hm : Placed ((s.removeSs t).modify t fun th => { th with schedPriority := p }) :=
      h.removeSs.modify h.not_removeSs
    simp only [Sched.changeThreadPrio]
    split
    · rename_i hr
      refine hm.insertSs h.not_removeSs ?_ (by simp [modify_thread])
      simp [modify_thread, removeSs_thread, hr]
    · exact hm
  · rw [changeThreadPrio_state] at hu
    rw [h.linked_changeThreadPrio]
    by_cases hut : u = t
    · exact .inr ⟨hut, hut ▸ hu⟩
    · exact .inl ⟨hut, h.ready u hu⟩

theorem Filed.pthreadYield (h : Filed s) (hs : (s.thread s.currentThread).state ≠ .suspended) :
    Filed s.pthreadYield := by
  refine ⟨h.removeSs.insertSsTail h.not_removeSs ?_ ?_, fun u hu => ?_⟩
  · simpa [removeSs_thread] using hs
  · simp [removeSs_thread]
  · rw [h.linked_pthreadYield]
    rw [pthreadYield_state] at hu
    exact .inl (h.ready u hu)

theorem Filed.call (h : Filed s) {c : SchedCall T} (hc : s.Fits c) : Filed (s.call c) := by
  cases c with
  | createPthread t p =>
    have hno : ¬s.Linked t := h.not_linked hc
    have hs : Placed (s.createPthreadStruct t) := h.modify hno
    refine ⟨hs.modify (f := fun th => { th with schedPriority := p }) hno, fun u hu => ?_⟩
    by_cases hut : u = t
    · simp [Sched.call, createPthreadStruct, modify_thread, hut] at hu
    · exact h.ready u (by simpa [Sched.call, createPthreadStruct, modify_thread, hut] using hu)
  | deletePthread t =>
    refine ⟨h.removeSs, fun u hu => h.linked_removeSs.mpr ?_⟩
    have hu' : (s.thread u).state = .ready := by
      by_cases hut : u = t <;> simpa [Sched.call, deletePthreadStruct, removeSs_thread, hut] using hu
    exact ⟨fun hut => hc (hut ▸ hu'), h.ready u hu'⟩
  | changeThreadPrio t p => exact h.changeThreadPrio
  | suspendThread t =>
    refine ⟨h.suspendThread, fun u hu => h.linked_suspendThread.mpr ?_⟩
    simp only [Sched.call, suspendThread_state] at hu
    by_cases hut : u = t
    · rw [if_pos hut] at hu
      split at hu <;> cases hu
    · rw [if_neg hut] at hu
      exact ⟨hut, h.ready u hu⟩
  | activateThread t => exact h.activateThread
  | finishThread t =>
    refine ⟨h.finishThread, fun u hu => h.linked_finishThread.mpr ?_⟩
    simp only [Sched.call, finishThread_state] at hu
    by_cases hut : u = t
    · rw [if_pos hut] at hu
      cases hu
    · rw [if_neg hut] at hu
      exact ⟨hut, h.ready u hu⟩
  | yield => exact h.pthreadYield hc
  | scheduling => exact ⟨⟨h.linked, h.nodup⟩, h.ready⟩
  | signals t pending mask b =>
    have hkeep : ∀ u, ((s.call (.signals t pending mask b)).thread u).ss = (s.thread u).ss ∧
        ((s.call (.signals t pending mask b)).thread u).schedPriority =
          (s.thread u).schedPriority ∧
        ((s.call (.signals t pending mask b)).thread u).state = (s.thread u).state := by
      intro u
      by_cases hut : u = t <;> simp [Sched.call, modify_thread, hut]
    refine ⟨⟨fun i u hu => ?_, h.nodup⟩, fun u hu => h.ready u ((hkeep u).2.2 ▸ hu)⟩
    obtain ⟨hss, hp, hstate⟩ := hkeep u
    rw [hss, hp, hstate]
    exact h.linked i u hu

theorem signals_state {pending mask : BitVec 32} {b : Bool} :
    ((s.call (.signals t pending mask b)).thread u).state = (s.thread u).state := by
  by_cases hut : u = t <;> simp [Sched.call, modify_thread, hut]

theorem createPthread_state : ((s.call (.createPthread t p)).thread u).state =
    if u = t then .suspended else (s.thread u).state := by
  by_cases hut : u = t <;> simp [Sched.call, createPthreadStruct, modify_thread, hut]

theorem deletePthreadStruct_state :
    ((s.deletePthreadStruct t).thread u).state = (s.thread u).state := by
  by_cases hut : u = t <;> simp [deletePthreadStruct, removeSs_thread, hut]

-- ---------------------------------------------------------------------------
-- Linked and READY
-- ---------------------------------------------------------------------------

def OnlyReady (s : Sched T) : Prop := ∀ t, s.Linked t → (s.thread t).state = .ready

theorem OnlyReady.call (h : Filed s) (hr : OnlyReady s) {c : SchedCall T} (hc : s.Fits c)
    (hy : c = .yield → (s.thread s.currentThread).state = .ready) : OnlyReady (s.call c) := by
  intro u hu
  cases c with
  | createPthread t p =>
    have hut : u ≠ t := fun he => h.not_linked hc (he ▸ hu)
    rw [createPthread_state, if_neg hut]
    exact hr u hu
  | deletePthread t =>
    rw [Sched.call, deletePthreadStruct_state]
    exact hr u (h.linked_removeSs.mp hu).2
  | changeThreadPrio t p =>
    rw [Sched.call, changeThreadPrio_state]
    rcases h.linked_changeThreadPrio.mp hu with ⟨-, hu⟩ | ⟨rfl, hready⟩
    · exact hr u hu
    · exact hready
  | suspendThread t =>
    obtain ⟨hut, hu⟩ := h.linked_suspendThread.mp hu
    rw [Sched.call, suspendThread_state, if_neg hut]
    exact hr u hu
  | activateThread t =>
    rw [Sched.call, activateThread_state]
    rcases linked_activateThread.mp hu with hu | ⟨rfl, hs⟩
    · simp [hr u hu]
    · simp [hs]
  | finishThread t =>
    obtain ⟨hut, hu⟩ := h.linked_finishThread.mp hu
    rw [Sched.call, finishThread_state, if_neg hut]
    exact hr u hu
  | yield =>
    rw [Sched.call, pthreadYield_state]
    rcases h.linked_pthreadYield.mp hu with hu | rfl
    · exact hr u hu
    · exact hy rfl
  | scheduling => exact hr u hu
  | signals t pending mask b =>
    rw [signals_state]
    exact hr u hu

/-- A thread that is neither linked nor READY stays so until it is activated or yields. -/
def Out (s : Sched T) (t : T) : Prop := ¬s.Linked t ∧ (s.thread t).state ≠ .ready

theorem Out.call (h : Filed s) (ho : s.Out t) {c : SchedCall T}
    (ha : c = .activateThread t → (s.thread t).state = .finished)
    (hy : c = .yield → s.currentThread ≠ t) : (s.call c).Out t := by
  obtain ⟨hno, hstate⟩ := ho
  cases c with
  | createPthread u p =>
    refine ⟨hno, ?_⟩
    rw [createPthread_state]
    split
    · exact nofun
    · exact hstate
  | deletePthread u =>
    exact ⟨fun hl => hno (h.linked_removeSs.mp hl).2,
      by rw [Sched.call, deletePthreadStruct_state]; exact hstate⟩
  | changeThreadPrio u p =>
    refine ⟨fun hl => ?_, by rw [Sched.call, changeThreadPrio_state]; exact hstate⟩
    rcases h.linked_changeThreadPrio.mp hl with ⟨-, hl⟩ | ⟨rfl, hready⟩
    · exact hno hl
    · exact hstate hready
  | suspendThread u =>
    refine ⟨fun hl => hno (h.linked_suspendThread.mp hl).2, ?_⟩
    rw [Sched.call, suspendThread_state]
    split
    · split <;> exact nofun
    · exact hstate
  | activateThread u =>
    by_cases htu : t = u
    · subst htu
      have hfin := ha rfl
      refine ⟨fun hl => ?_, ?_⟩
      · rcases linked_activateThread.mp hl with hl | ⟨-, hs⟩
        · exact hno hl
        · rw [hfin] at hs
          cases hs
      · simp [Sched.call, activateThread_state, hfin]
    · refine ⟨fun hl => ?_, ?_⟩
      · rcases linked_activateThread.mp hl with hl | ⟨rfl, -⟩
        · exact hno hl
        · exact htu rfl
      · rw [Sched.call, activateThread_state, if_neg htu]
        exact hstate
  | finishThread u =>
    refine ⟨fun hl => hno (h.linked_finishThread.mp hl).2, ?_⟩
    rw [Sched.call, finishThread_state]
    split
    · exact nofun
    · exact hstate
  | yield =>
    refine ⟨fun hl => ?_, by rw [Sched.call, pthreadYield_state]; exact hstate⟩
    rcases h.linked_pthreadYield.mp hl with hl | rfl
    · exact hno hl
    · exact hy rfl rfl
  | scheduling => exact ⟨hno, hstate⟩
  | signals u pending mask b => exact ⟨hno, by rw [signals_state]; exact hstate⟩

theorem finished_call {c : SchedCall T} (hf : (s.thread t).state = .finished)
    (hc : ∀ p, c ≠ .createPthread t p) : ((s.call c).thread t).state = .finished := by
  cases c with
  | createPthread u p =>
    have htu : t ≠ u := fun he => hc p (he ▸ rfl)
    rw [createPthread_state, if_neg htu, hf]
  | deletePthread u => rw [Sched.call, deletePthreadStruct_state, hf]
  | changeThreadPrio u p => rw [Sched.call, changeThreadPrio_state, hf]
  | suspendThread u => simp [Sched.call, suspendThread_state, hf]
  | activateThread u => simp [Sched.call, activateThread_state, hf]
  | finishThread u => simp [Sched.call, finishThread_state, hf]
  | yield => rw [Sched.call, pthreadYield_state, hf]
  | scheduling => exact hf
  | signals u pending mask b => rw [signals_state, hf]

end

end Sched

end Xmertl.Partikle
