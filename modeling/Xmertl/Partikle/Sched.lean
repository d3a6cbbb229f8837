import Mathlib.Data.List.Nodup
import Mathlib.Logic.Function.Basic

/-!
# The PaRTiKle scheduler

The thread fields and statics that `sched.c` works on. `threadMatrix` is the
1024 ready lists of `sched_struct.h` under one index, each as the list its
links thread together; `getHeadSs` finds the first non-empty one, as the two
bitmaps do.

Threads are the elements of a type `T`. A thread record holds the fields the
modelled system calls read.
-/

namespace Xmertl.Partikle

inductive ThreadState
  | ready
  | suspended
  | finished
  deriving DecidableEq

structure Thread where
  state : ThreadState := .suspended
  schedPriority : Int := 0
  /-- `ss_i` and `ss_j`: the list to take the thread off, `none` for -1. -/
  ss : Option Nat := some 0
  sigpending : BitVec 32 := 0
  sigmask : BitVec 32 := 0
  activateOnSignal : Bool := false

structure Sched (T : Type) where
  thread : T → Thread
  threadMatrix : Nat → List T
  currentThread : T
  idleThread : T

def prio2ij (prio : Int) : Nat := (prio % 1024).toNat

namespace Sched

variable {T : Type}

/-- The first of the `n` lists from `i` on that is not empty. -/
def headFrom (m : Nat → List T) : Nat → Nat → Option T
  | 0, _ => none
  | n + 1, i =>
    match m i with
    | t :: _ => some t
    | [] => headFrom m n (i + 1)

def getHeadSs (s : Sched T) : Option T := headFrom s.threadMatrix 1024 0

/-- `scheduling` outside interrupt handlers: the thread that runs next. -/
def scheduling (s : Sched T) : Sched T :=
  { s with currentThread := s.getHeadSs.getD s.idleThread }

@[simp] theorem scheduling_thread (s : Sched T) : s.scheduling.thread = s.thread := rfl
@[simp] theorem scheduling_matrix (s : Sched T) : s.scheduling.threadMatrix = s.threadMatrix := rfl
@[simp] theorem scheduling_idle (s : Sched T) : s.scheduling.idleThread = s.idleThread := rfl

/-- A thread on a ready list is READY, on the list of its priority, and knows
which list that is. -/
structure Wf (s : Sched T) : Prop where
  linked : ∀ i t, t ∈ s.threadMatrix i → (s.thread t).ss = some i ∧
    (s.thread t).state = .ready ∧ i = prio2ij (s.thread t).schedPriority
  nodup : ∀ i, (s.threadMatrix i).Nodup

theorem Wf.not_mem {s : Sched T} (hw : Wf s) (h : (s.thread t).state ≠ .ready) (i : Nat) :
    t ∉ s.threadMatrix i := fun hi => h (hw.linked i t hi).2.1

theorem headFrom_some {m : Nat → List T} (h : headFrom m n i = some t) :
    ∃ j, i ≤ j ∧ j < i + n ∧ (m j).head? = some t ∧ ∀ l, i ≤ l → l < j → m l = [] := by
  induction n generalizing i with
  | zero => simp [headFrom] at h
  | succ n ih =>
    unfold headFrom at h
    split at h
    · rename_i u us hm
      exact ⟨i, Nat.le_refl i, by omega, by simpa [hm] using h, fun l _ _ => by omega⟩
    · rename_i hm
      obtain ⟨j, hij, hjn, hj, hempty⟩ := ih h
      refine ⟨j, by omega, by omega, hj, fun l hil hlj => ?_⟩
      rcases Nat.eq_or_lt_of_le hil with rfl | hil
      · exact hm
      · exact hempty l hil hlj

theorem headFrom_none {m : Nat → List T} (h : headFrom m n i = none) (hij : i ≤ j)
    (hj : j < i + n) : m j = [] := by
  induction n generalizing i with
  | zero => exact absurd hj (Nat.not_lt.mpr hij)
  | succ n ih =>
    unfold headFrom at h
    split at h
    · cases h
    · rename_i hm
      rcases Nat.eq_or_lt_of_le hij with rfl | hij
      · exact hm
      · exact ih h hij (by omega)

theorem Wf.scheduling {s : Sched T} (hw : Wf s) : Wf s.scheduling := ⟨hw.linked, hw.nodup⟩

/-- After `scheduling` the idle thread runs, or a READY thread of the least
priority index. -/
theorem Wf.scheduling_current {s : Sched T} (hw : Wf s) :
    s.scheduling.currentThread = s.idleThread ∨
      (s.thread s.scheduling.currentThread).state = .ready := by
  unfold Sched.scheduling
  cases h : s.getHeadSs with
  | none => exact .inl rfl
  | some t =>
    obtain ⟨j, -, -, hj, -⟩ := headFrom_some h
    exact .inr (hw.linked j t (List.mem_of_mem_head? hj)).2.1

variable [DecidableEq T]

def modify (s : Sched T) (t : T) (f : Thread → Thread) : Sched T :=
  { s with thread := Function.update s.thread t (f (s.thread t)) }

def insertSs (s : Sched T) (t : T) (priority : Int) : Sched T :=
  let i := prio2ij priority
  { s with threadMatrix := Function.update s.threadMatrix i (t :: s.threadMatrix i) }.modify t
    fun th => { th with ss := some i }

def insertSsTail (s : Sched T) (t : T) (priority : Int) : Sched T :=
  let i := prio2ij priority
  { s with threadMatrix := Function.update s.threadMatrix i (s.threadMatrix i ++ [t]) }.modify t
    fun th => { th with ss := some i }

def removeSs (s : Sched T) (t : T) : Sched T :=
  match (s.thread t).ss with
  | none => s
  | some i =>
    { s with threadMatrix := Function.update s.threadMatrix i ((s.threadMatrix i).erase t) }.modify t
      fun th => { th with ss := none }

def changeThreadPrio (s : Sched T) (t : T) (prio : Int) : Sched T :=
  let prevState := (s.thread t).state
  let s := (s.removeSs t).modify t fun th => { th with schedPriority := prio }
  if prevState = .ready then s.insertSs t prio else s

def suspendThread (s : Sched T) (t : T) : Sched T :=
  (s.removeSs t).modify t fun th =>
    { th with state := if th.state = .finished then .finished else .suspended }

def activateThread (s : Sched T) (t : T) : Sched T :=
  if (s.thread t).state ≠ .finished ∧ (s.thread t).state ≠ .ready then
    (s.insertSs t (s.thread t).schedPriority).modify t fun th => { th with state := .ready }
  else s

def pthreadYield (s : Sched T) : Sched T :=
  (s.removeSs s.currentThread).insertSsTail s.currentThread
    (s.thread s.currentThread).schedPriority

-- ---------------------------------------------------------------------------
-- What each operation changes
-- ---------------------------------------------------------------------------

section
variable (s : Sched T) (t u : T) (p : Int)

@[simp] theorem modify_current (f : Thread → Thread) :
    (s.modify t f).currentThread = s.currentThread := rfl
@[simp] theorem modify_idle (f : Thread → Thread) : (s.modify t f).idleThread = s.idleThread := rfl
@[simp] theorem modify_matrix (f : Thread → Thread) :
    (s.modify t f).threadMatrix = s.threadMatrix := rfl

theorem modify_thread (f : Thread → Thread) :
    (s.modify t f).thread u = if u = t then f (s.thread u) else s.thread u := by
  by_cases h : u = t
  · subst h; simp [modify]
  · simp [modify, h]

@[simp] theorem insertSs_current : (s.insertSs t p).currentThread = s.currentThread := rfl
@[simp] theorem insertSs_idle : (s.insertSs t p).idleThread = s.idleThread := rfl
@[simp] theorem insertSsTail_current : (s.insertSsTail t p).currentThread = s.currentThread := rfl
@[simp] theorem insertSsTail_idle : (s.insertSsTail t p).idleThread = s.idleThread := rfl

theorem insertSs_thread : (s.insertSs t p).thread u =
    if u = t then { s.thread u with ss := some (prio2ij p) } else s.thread u := by
  simp [insertSs, modify_thread]

theorem insertSsTail_thread : (s.insertSsTail t p).thread u =
    if u = t then { s.thread u with ss := some (prio2ij p) } else s.thread u := by
  simp [insertSsTail, modify_thread]

@[simp] theorem removeSs_current : (s.removeSs t).currentThread = s.currentThread := by
  unfold removeSs; split <;> rfl

@[simp] theorem removeSs_idle : (s.removeSs t).idleThread = s.idleThread := by
  unfold removeSs; split <;> rfl

theorem removeSs_thread : (s.removeSs t).thread u =
    if u = t then { s.thread u with ss := none } else s.thread u := by
  unfold removeSs
  split
  · rename_i h
    by_cases hu : u = t
    · subst hu; simp [← h]
    · simp [hu]
  · exact modify_thread _ _ _ _

@[simp] theorem suspendThread_current : (s.suspendThread t).currentThread = s.currentThread := by
  simp [suspendThread]

@[simp] theorem suspendThread_idle : (s.suspendThread t).idleThread = s.idleThread := by
  simp [suspendThread]

@[simp] theorem activateThread_current : (s.activateThread t).currentThread = s.currentThread := by
  unfold activateThread; split <;> simp

@[simp] theorem activateThread_idle : (s.activateThread t).idleThread = s.idleThread := by
  unfold activateThread; split <;> simp

@[simp] theorem changeThreadPrio_current :
    (s.changeThreadPrio t p).currentThread = s.currentThread := by
  unfold changeThreadPrio; simp only; split <;> simp

@[simp] theorem changeThreadPrio_idle : (s.changeThreadPrio t p).idleThread = s.idleThread := by
  unfold changeThreadPrio; simp only; split <;> simp

@[simp] theorem pthreadYield_current : s.pthreadYield.currentThread = s.currentThread := by
  simp [pthreadYield]

@[simp] theorem pthreadYield_idle : s.pthreadYield.idleThread = s.idleThread := by
  simp [pthreadYield]

theorem suspendThread_state : ((s.suspendThread t).thread u).state =
    if u = t then if (s.thread u).state = .finished then .finished else .suspended
    else (s.thread u).state := by
  by_cases h : u = t <;> simp [suspendThread, modify_thread, removeSs_thread, h]

@[simp] theorem suspendThread_prio :
    ((s.suspendThread t).thread u).schedPriority = (s.thread u).schedPriority := by
  by_cases h : u = t <;> simp [suspendThread, modify_thread, removeSs_thread, h]

theorem activateThread_state : ((s.activateThread t).thread u).state =
    if u = t then if (s.thread u).state = .finished then .finished else .ready
    else (s.thread u).state := by
  by_cases h : u = t
  · subst h
    cases hs : (s.thread u).state <;>
      simp [activateThread, hs, modify_thread]
  · unfold activateThread
    split <;> simp [modify_thread, insertSs_thread, h]

@[simp] theorem activateThread_prio :
    ((s.activateThread t).thread u).schedPriority = (s.thread u).schedPriority := by
  unfold activateThread
  by_cases h : u = t <;> split <;> simp [modify_thread, insertSs_thread, h]

@[simp] theorem changeThreadPrio_state :
    ((s.changeThreadPrio t p).thread u).state = (s.thread u).state := by
  by_cases h : u = t <;> simp only [changeThreadPrio] <;> split <;>
    simp [modify_thread, insertSs_thread, removeSs_thread, h]

theorem changeThreadPrio_prio : ((s.changeThreadPrio t p).thread u).schedPriority =
    if u = t then p else (s.thread u).schedPriority := by
  by_cases h : u = t <;> simp only [changeThreadPrio] <;> split <;>
    simp [modify_thread, insertSs_thread, removeSs_thread, h]

theorem pthreadYield_thread : s.pthreadYield.thread u =
    if u = s.currentThread then
      { s.thread u with ss := some (prio2ij (s.thread u).schedPriority) }
    else s.thread u := by
  by_cases h : u = s.currentThread
  · subst h; simp [pthreadYield, insertSsTail_thread, removeSs_thread]
  · simp [pthreadYield, insertSsTail_thread, removeSs_thread, h]

@[simp] theorem pthreadYield_state :
    (s.pthreadYield.thread u).state = (s.thread u).state := by
  rw [pthreadYield_thread]; split <;> rfl

@[simp] theorem pthreadYield_prio :
    (s.pthreadYield.thread u).schedPriority = (s.thread u).schedPriority := by
  rw [pthreadYield_thread]; split <;> rfl

end

-- ---------------------------------------------------------------------------
-- The ready structure
-- ---------------------------------------------------------------------------

variable {s : Sched T} {t : T}

theorem Wf.removeSs_linked (hw : Wf s) (h : u ∈ (s.removeSs t).threadMatrix i) :
    u ≠ t ∧ u ∈ s.threadMatrix i := by
  unfold removeSs at h
  split at h
  · rename_i hss
    refine ⟨?_, h⟩
    rintro rfl
    have hi := (hw.linked i u h).1
    simp [hss] at hi
  · rename_i j hss
    simp only [modify_matrix] at h
    by_cases hj : i = j
    · subst hj
      simp only [Function.update_self] at h
      exact ⟨((hw.nodup i).mem_erase_iff.mp h).1, List.mem_of_mem_erase h⟩
    · rw [Function.update_of_ne hj] at h
      refine ⟨?_, h⟩
      rintro rfl
      have hi := (hw.linked i u h).1
      rw [hss] at hi
      exact hj (Option.some.inj hi).symm

theorem Wf.removeSs (hw : Wf s) : Wf (s.removeSs t) where
  linked i u h := by
    obtain ⟨hut, hu⟩ := hw.removeSs_linked h
    simpa [removeSs_thread, hut] using hw.linked i u hu
  nodup i := by
    unfold Sched.removeSs
    split
    · exact hw.nodup i
    · rename_i j _
      by_cases hj : i = j
      · subst hj; simpa using (hw.nodup i).erase t
      · simpa [hj] using hw.nodup i

theorem Wf.modify (hw : Wf s) (ht : ∀ i, t ∉ s.threadMatrix i) : Wf (s.modify t f) where
  linked i u h := by
    have hut : u ≠ t := by
      rintro rfl
      exact ht i h
    simpa [modify_thread, hut] using hw.linked i u h
  nodup := hw.nodup

theorem Wf.modify_fields (hw : Wf s) (hs : (f (s.thread t)).state = (s.thread t).state)
    (hss : (f (s.thread t)).ss = (s.thread t).ss)
    (hp : (f (s.thread t)).schedPriority = (s.thread t).schedPriority) : Wf (s.modify t f) where
  linked i u h := by
    rw [modify_thread]
    split
    · rename_i hu
      subst hu
      rw [hs, hss, hp]
      exact hw.linked i u h
    · exact hw.linked i u h
  nodup := hw.nodup

theorem Wf.insertSs (hw : Wf s) (ht : ∀ i, t ∉ s.threadMatrix i)
    (hr : (s.thread t).state = .ready) (hp : p = (s.thread t).schedPriority) :
    Wf (s.insertSs t p) where
  linked i u h := by
    simp only [Sched.insertSs, modify_matrix] at h
    rw [insertSs_thread]
    by_cases hut : u = t
    · subst hut
      by_cases hi : i = prio2ij p
      · simp [hi, hr, hp]
      · rw [Function.update_of_ne hi] at h
        exact absurd h (ht i)
    · by_cases hi : i = prio2ij p
      · subst hi
        simp only [Function.update_self, List.mem_cons, hut, false_or] at h
        simpa [hut] using hw.linked _ u h
      · rw [Function.update_of_ne hi] at h
        simpa [hut] using hw.linked i u h
  nodup i := by
    simp only [Sched.insertSs, modify_matrix]
    by_cases hi : i = prio2ij p
    · subst hi; simp [ht, hw.nodup]
    · simp [hi, hw.nodup]

theorem Wf.suspendThread (hw : Wf s) : Wf (s.suspendThread t) :=
  hw.removeSs.modify fun _ h => (hw.removeSs_linked h).1 rfl

theorem activateThread_eq (h : (s.thread t).state ≠ .finished ∧ (s.thread t).state ≠ .ready) :
    s.activateThread t =
      (s.modify t fun th => { th with state := .ready }).insertSs t (s.thread t).schedPriority := by
  simp [activateThread, h, Sched.insertSs, Sched.modify]

theorem Wf.activateThread (hw : Wf s) : Wf (s.activateThread t) := by
  by_cases h : (s.thread t).state ≠ .finished ∧ (s.thread t).state ≠ .ready
  · have hno : ∀ i, t ∉ s.threadMatrix i := hw.not_mem h.2
    rw [activateThread_eq h]
    exact (hw.modify hno).insertSs hno (by simp [modify_thread]) (by simp [modify_thread])
  · simpa [Sched.activateThread, h] using hw

theorem Wf.changeThreadPrio (hw : Wf s) : Wf (s.changeThreadPrio t p) := by
  have hno : ∀ i, t ∉ (s.removeSs t).threadMatrix i := fun _ h => (hw.removeSs_linked h).1 rfl
  have hm : Wf ((s.removeSs t).modify t fun th => { th with schedPriority := p }) :=
    hw.removeSs.modify hno
  simp only [Sched.changeThreadPrio]
  split
  · rename_i hr
    exact hm.insertSs hno (by simpa [modify_thread, removeSs_thread] using hr)
      (by simp [modify_thread])
  · exact hm

theorem Wf.pthreadYield (hw : Wf s) (hr : (s.thread s.currentThread).state = .ready) :
    Wf s.pthreadYield where
  linked i u h := by
    rw [pthreadYield_thread]
    simp only [Sched.pthreadYield, insertSsTail, modify_matrix] at h
    by_cases hu : u = s.currentThread
    · subst hu
      by_cases hi : i = prio2ij (s.thread s.currentThread).schedPriority
      · simp [hi, hr]
      · rw [Function.update_of_ne hi] at h
        exact absurd rfl (hw.removeSs_linked h).1
    · have hu' : u ∈ (s.removeSs s.currentThread).threadMatrix i := by
        by_cases hi : i = prio2ij (s.thread s.currentThread).schedPriority
        · subst hi
          simpa [hu] using h
        · rwa [Function.update_of_ne hi] at h
      simpa [hu] using hw.linked i u (hw.removeSs_linked hu').2
  nodup i := by
    have hno : ∀ i, s.currentThread ∉ (s.removeSs s.currentThread).threadMatrix i :=
      fun _ h => (hw.removeSs_linked h).1 rfl
    simp only [Sched.pthreadYield, insertSsTail, modify_matrix]
    by_cases hi : i = prio2ij (s.thread s.currentThread).schedPriority
    · subst hi
      simp only [Function.update_self, List.nodup_append, List.nodup_singleton, List.mem_singleton,
        true_and]
      refine ⟨hw.removeSs.nodup _, ?_⟩
      rintro a ha b rfl rfl
      exact hno _ ha
    · simpa [hi] using hw.removeSs.nodup i

-- ---------------------------------------------------------------------------
-- Which thread runs next
-- ---------------------------------------------------------------------------

omit [DecidableEq T] in
theorem headFrom_first {m : Nat → List T} (hij : i ≤ j) (hjn : j < i + n)
    (hj : (m j).head? = some t) (hempty : ∀ l, i ≤ l → l < j → m l = []) :
    headFrom m n i = some t := by
  induction n generalizing i with
  | zero => omega
  | succ n ih =>
    unfold headFrom
    rcases Nat.eq_or_lt_of_le hij with rfl | hlt
    · split
      · rename_i u us hm
        simpa [hm] using hj
      · rename_i hm
        simp [hm] at hj
    · rw [hempty i (Nat.le_refl i) hlt]
      exact ih hlt (by omega) fun l hl => hempty l (by omega)

theorem changeThreadPrio_head (hr : (s.thread t).state = .ready) :
    ((s.changeThreadPrio t p).threadMatrix (prio2ij p)).head? = some t := by
  simp [Sched.changeThreadPrio, hr, insertSs]

theorem Wf.changeThreadPrio_runs (hw : Wf s) (hr : (s.thread t).state = .ready)
    (hp : ∀ u, u ≠ t → (s.thread u).state = .ready →
      prio2ij p ≤ prio2ij (s.thread u).schedPriority) :
    (s.changeThreadPrio t p).scheduling.currentThread = t := by
  have hlt : prio2ij p < 0 + 1024 := by
    unfold prio2ij
    omega
  have hhead : (s.changeThreadPrio t p).getHeadSs = some t := by
    refine headFrom_first (Nat.zero_le _) hlt (changeThreadPrio_head hr) fun l _ hl => ?_
    refine List.eq_nil_iff_forall_not_mem.mpr fun u hu => ?_
    obtain ⟨-, hready, rfl⟩ := hw.changeThreadPrio.linked l u hu
    rw [changeThreadPrio_state] at hready
    rw [changeThreadPrio_prio] at hl
    by_cases hut : u = t
    · rw [if_pos hut] at hl
      exact absurd hl (Nat.lt_irrefl _)
    · rw [if_neg hut] at hl
      exact absurd hl (Nat.not_lt.mpr (hp u hut hready))
  simp [Sched.scheduling, hhead]

end Sched

end Xmertl.Partikle
