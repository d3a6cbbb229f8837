import Mathlib.Data.Fintype.Option
import Xmertl.Partikle.ThreadBase

/-!
# The end of a thread

`pthread_exit_sys` handler by handler, with `pthread_join_sys` and the cleanup table of
`pthread.c`, over the functions of `sched.c`. A handler is user code: between its start and
its end the thread, and interrupts, make any calls. What a call does is here the functions
of `sched.c` it calls and the lists of mutexes, conditions and semaphores it links the
thread to.

The thread is FINISHED and off the ready structure before its first handler runs, so that
`scheduling ()` does not come back to it, unless a `pthread_yield` has linked it again.
-/

namespace Xmertl.Partikle

open Runs

/-- `struct cleanup_routine`, with the number of its push. -/
structure CleanupRoutine (H : Type) where
  pushed : Nat
  routine : H

/-- A `pthread_exit_sys` that the thread is in, or a handler that one has called. -/
inductive ExitFrame (H : Type)
  | exiting
  | handler (cr : CleanupRoutine H)

/-- `crTable` has the top first, `frames` the innermost call. `ran` are the handlers that
`pthread_exit_sys` has called, the last one first. -/
structure Exits (T H : Type) where
  sched : Sched T
  mainappThread : T
  created : T → Bool
  /-- Linked to the list of a mutex, a condition or a semaphore. -/
  onList : T → Bool
  detachState : T → Bool
  joiningThread : T → Option T
  crTable : T → List (CleanupRoutine H)
  frames : T → List (ExitFrame H)
  ran : T → List Nat
  pushes : Nat

inductive ExitAction (T H : Type)
  /-- A function of `sched.c`, by the code the current thread is in or by an interrupt. -/
  | call (c : SchedCall T)
  | create (thread : T) (prio : Int)
  | delete (thread : T)
  | insertList
  | removeList (thread : T)
  | cleanupPush (routine : H)
  | cleanupPop
  | join (thread : T)
  | detach (thread : T)
  /-- `pthread_exit_sys` up to its loop. -/
  | exit
  /-- The loop calls the next handler. -/
  | cleanupHandler
  | handlerEnd
  /-- What follows the loop. -/
  | exitEnd

namespace Exits

variable {T H : Type}

def cur (x : Exits T H) : T := x.sched.currentThread

variable [DecidableEq T]

def call (x : Exits T H) (c : SchedCall T) : Exits T H := { x with sched := x.sched.call c }

/-- The memory it gets is zeroed. -/
def createPthreadStruct (x : Exits T H) (t : T) (prio : Int) : Exits T H :=
  { x with
    created := Function.update x.created t true
    onList := Function.update x.onList t false
    detachState := Function.update x.detachState t false
    joiningThread := Function.update x.joiningThread t none
    crTable := Function.update x.crTable t []
    frames := Function.update x.frames t []
    ran := Function.update x.ran t [] }.call (.createPthread t prio)

def deletePthreadStruct (x : Exits T H) (t : T) : Exits T H :=
  { x with created := Function.update x.created t false }.call (.deletePthread t)

def cleanupPushSys (x : Exits T H) (routine : H) : Exits T H :=
  if (x.crTable x.cur).length < maxCleanupHandlers then
    { x with
      crTable := Function.update x.crTable x.cur (⟨x.pushes, routine⟩ :: x.crTable x.cur)
      pushes := x.pushes + 1 }
  else x

/-- Where it executes the routine, that is user code which follows. -/
def cleanupPopSys (x : Exits T H) : Exits T H :=
  { x with crTable := Function.update x.crTable x.cur (x.crTable x.cur).tail }

/-- The loop of `pthread_join_sys` with its test, and the test of the state it is back to. -/
def joinSys (x : Exits T H) (t : T) : Option (Exits T H) :=
  if x.created t = false then none
  else if x.detachState t = true then some x
  else if (x.sched.thread t).state ≠ .finished then
    some (({ x with joiningThread := Function.update x.joiningThread t (some x.cur) }.call
      (.suspendThread x.cur)).call .scheduling)
  else some (x.deletePthreadStruct t)

/-- It activates the thread that joins the current one, which must be there. -/
def detachSys (x : Exits T H) (t : T) : Option (Exits T H) :=
  if x.created t = false then none
  else if x.detachState t = true then some x
  else
    match x.joiningThread x.cur with
    | none => none
    | some j =>
      some (({ x with
        detachState := Function.update x.detachState t true
        joiningThread := Function.update x.joiningThread x.cur none }.call
          (.activateThread j)).call .scheduling)

def exitSys (x : Exits T H) : Exits T H :=
  { x with frames := Function.update x.frames x.cur (.exiting :: x.frames x.cur) }.call
    (.finishThread x.cur)

def cleanupHandler (x : Exits T H) : Option (Exits T H) :=
  match x.frames x.cur, x.crTable x.cur with
  | .exiting :: _, cr :: crs =>
    some { x with
      crTable := Function.update x.crTable x.cur crs
      frames := Function.update x.frames x.cur (.handler cr :: x.frames x.cur)
      ran := Function.update x.ran x.cur (cr.pushed :: x.ran x.cur) }
  | _, _ => none

def handlerEnd (x : Exits T H) : Option (Exits T H) :=
  match x.frames x.cur with
  | .handler _ :: fs => some { x with frames := Function.update x.frames x.cur fs }
  | _ => none

def wakeJoining (x : Exits T H) : Exits T H :=
  match x.detachState x.cur, x.joiningThread x.cur with
  | false, some j => x.call (.activateThread j)
  | _, _ => x

/-- Where the main thread exits, so does the system. -/
def exitEnd (x : Exits T H) : Option (Exits T H) :=
  match x.frames x.cur, x.crTable x.cur with
  | .exiting :: fs, [] =>
    if x.cur = x.mainappThread then none
    else some ({ x with frames := Function.update x.frames x.cur fs }.wakeJoining.call .scheduling)
  | _, _ => none

def own (x : Exits T H) : ExitAction T H → Option (Exits T H)
  | .insertList => some { x with onList := Function.update x.onList x.cur true }
  | .cleanupPush routine => some (x.cleanupPushSys routine)
  | .cleanupPop => some x.cleanupPopSys
  | .join t => x.joinSys t
  | .detach t => x.detachSys t
  | .exit => some x.exitSys
  | .cleanupHandler => x.cleanupHandler
  | .handlerEnd => x.handlerEnd
  | .exitEnd => x.exitEnd
  | .call _ | .create _ _ | .delete _ | .removeList _ => none

def step (x : Exits T H) : ExitAction T H → Option (Exits T H)
  | .call (.createPthread _ _) | .call (.deletePthread _) => none
  | .call c => if x.sched.Fits c then some (x.call c) else none
  | .create t prio =>
    if x.created t = false ∧ t ≠ x.cur ∧ t ≠ x.sched.idleThread ∧
        x.sched.Fits (.createPthread t prio) then
      some (x.createPthreadStruct t prio)
    else none
  | .delete t =>
    if x.sched.Fits (.deletePthread t) then some (x.deletePthreadStruct t) else none
  | .removeList t => some { x with onList := Function.update x.onList t false }
  | a => if x.created x.cur = true then x.own a else none

def boot (idle mainapp : T) : Exits T H where
  sched := (Threads.bootSched idle).calls
    [.createPthread mainapp minSchedPriority, .activateThread mainapp, .scheduling]
  mainappThread := mainapp
  created := fun t => decide (t = mainapp)
  onList := fun _ => false
  detachState := fun _ => false
  joiningThread := fun _ => none
  crTable := fun _ => []
  frames := fun _ => []
  ran := fun _ => []
  pushes := 0

-- ---------------------------------------------------------------------------
-- What an exit should be
-- ---------------------------------------------------------------------------

section
omit [DecidableEq T]

/-- `t` has not come to the end of its `pthread_exit_sys`: a handler has not, or the joining
thread has not been activated. -/
def Unfinished (x : Exits T H) (t : T) : Prop := x.frames t ≠ []

def Waiting (x : Exits T H) (t : T) : Prop := x.created t = true ∧ x.onList t = true

def Held (x : Exits T H) (t : T) : Prop := x.Waiting t ∨ x.sched.Linked t

def Complete (x : Exits T H) : Prop := ∀ t, x.Unfinished t → t = x.cur ∨ x.Held t

end

/-- The handlers of a run's exits run once each and the last pushed first, an exit's end
finds none left and activates the joining thread, and no exit is left half-way. -/
structure ExitsWell (tr : List (Exits T H × ExitAction T H)) (x : Exits T H) : Prop where
  once : ∀ s, Visited tr x s → ∀ t, (s.ran t).Nodup
  lifo : ∀ e ∈ tr, ∀ y, step e.1 .cleanupHandler = some y → e.2 = .cleanupHandler →
    ∃ n, y.ran e.1.cur = n :: e.1.ran e.1.cur ∧ ∀ cr ∈ y.crTable e.1.cur, cr.pushed < n
  joined : ∀ e ∈ tr, ∀ y, step e.1 .exitEnd = some y → e.2 = .exitEnd →
    e.1.crTable e.1.cur = [] ∧ ∀ j, e.1.detachState e.1.cur = false →
      e.1.joiningThread e.1.cur = some j → (y.sched.thread j).state ≠ .suspended
  complete : ∀ s, Visited tr x s → s.Complete

/-- The condition on a step: no `scheduling ()` leaves the current thread half-way, unless
it is linked or waits; and nobody takes another such thread off the ready structure, off
its list, or deletes it. -/
def Keeps (x : Exits T H) : ExitAction T H → Prop
  | .call .scheduling => x.Unfinished x.cur → x.Held x.cur
  | .call (.changeThreadPrio t _) | .call (.suspendThread t) | .call (.finishThread t) =>
    x.Unfinished t → t = x.cur ∨ x.Waiting t
  | .delete t => x.Unfinished t → t = x.cur
  | .removeList t => x.Unfinished t → t = x.cur ∨ x.sched.Linked t
  | .join t =>
    x.detachState t = false →
      if (x.sched.thread t).state = .finished then x.Unfinished t → t = x.cur
      else x.Unfinished x.cur → x.Waiting x.cur
  | .detach t => x.detachState t = false → x.Unfinished x.cur → x.Held x.cur
  | .exitEnd => (x.frames x.cur).tail ≠ [] → x.Held x.cur
  | .call _ | .create _ _ | .insertList | .cleanupPush _ | .cleanupPop | .exit | .cleanupHandler
  | .handlerEnd => True

-- ---------------------------------------------------------------------------
-- What the calls that can fail do
-- ---------------------------------------------------------------------------

section
variable {x y : Exits T H} {t u : T}

theorem joinSys_cases (hs : x.joinSys t = some y) : x.detachState t = true ∧ y = x ∨
    x.detachState t = false ∧
      ((x.sched.thread t).state ≠ .finished ∧
        y = ({ x with joiningThread := Function.update x.joiningThread t (some x.cur) }.call
          (.suspendThread x.cur)).call .scheduling ∨
      (x.sched.thread t).state = .finished ∧ y = x.deletePthreadStruct t) := by
  unfold joinSys at hs
  split at hs
  · cases hs
  · split at hs
    next hd => exact .inl ⟨hd, (Option.some.inj hs).symm⟩
    next hd =>
      refine .inr ⟨Bool.eq_false_iff.mpr hd, ?_⟩
      split at hs
      next hf => exact .inl ⟨hf, (Option.some.inj hs).symm⟩
      next hf => exact .inr ⟨not_not.mp hf, (Option.some.inj hs).symm⟩

theorem detachSys_cases (hs : x.detachSys t = some y) : x.detachState t = true ∧ y = x ∨
    x.detachState t = false ∧ ∃ j, x.joiningThread x.cur = some j ∧
      y = ({ x with
        detachState := Function.update x.detachState t true
        joiningThread := Function.update x.joiningThread x.cur none }.call
          (.activateThread j)).call .scheduling := by
  unfold detachSys at hs
  split at hs
  · cases hs
  · split at hs
    next hd => exact .inl ⟨hd, (Option.some.inj hs).symm⟩
    next hd =>
      refine .inr ⟨Bool.eq_false_iff.mpr hd, ?_⟩
      split at hs
      · cases hs
      next j hj => exact ⟨j, hj, (Option.some.inj hs).symm⟩

theorem cleanupHandler_cases (hs : x.cleanupHandler = some y) : ∃ fs cr crs,
    x.frames x.cur = .exiting :: fs ∧ x.crTable x.cur = cr :: crs ∧
      y = { x with
        crTable := Function.update x.crTable x.cur crs
        frames := Function.update x.frames x.cur (.handler cr :: x.frames x.cur)
        ran := Function.update x.ran x.cur (cr.pushed :: x.ran x.cur) } := by
  unfold cleanupHandler at hs
  split at hs
  next fs cr crs hf hc => exact ⟨fs, cr, crs, hf, hc, (Option.some.inj hs).symm⟩
  · cases hs

theorem handlerEnd_cases (hs : x.handlerEnd = some y) : ∃ cr fs,
    x.frames x.cur = .handler cr :: fs ∧
      y = { x with frames := Function.update x.frames x.cur fs } := by
  unfold handlerEnd at hs
  split at hs
  next cr fs hf => exact ⟨cr, fs, hf, (Option.some.inj hs).symm⟩
  · cases hs

theorem exitEnd_cases (hs : x.exitEnd = some y) : ∃ fs, x.frames x.cur = .exiting :: fs ∧
    x.crTable x.cur = [] ∧
      y = { x with frames := Function.update x.frames x.cur fs }.wakeJoining.call .scheduling := by
  unfold exitEnd at hs
  split at hs
  next fs hf hc =>
    split at hs
    · cases hs
    · exact ⟨fs, hf, hc, (Option.some.inj hs).symm⟩
  · cases hs

theorem unfinished_of_update {l : List (ExitFrame H)} (hut : u ≠ t)
    (hu : Function.update x.frames t l u ≠ []) : x.Unfinished u :=
  fun hnil => hu ((Function.update_of_ne hut ..).trans hnil)

theorem unfinished_of_pop {f : ExitFrame H} {fs : List (ExitFrame H)}
    (hf : x.frames x.cur = f :: fs)
    (ht : Function.update x.frames x.cur fs t ≠ []) : x.Unfinished t := by
  intro hnil
  by_cases htc : t = x.cur
  · rw [htc, hf] at hnil
    cases hnil
  · exact unfinished_of_update htc ht hnil

theorem step_call {c : SchedCall T} (hs : x.step (.call c) = some y) :
    x.sched.Fits c ∧ y = x.call c ∧ ∀ t p, c ≠ .createPthread t p := by
  cases c with
  | createPthread t p => cases hs
  | deletePthread t => cases hs
  | _ =>
    simp only [step, Option.ite_none_right_eq_some] at hs
    exact ⟨hs.1, (Option.some.inj hs.2).symm, fun _ _ he => by cases he⟩

-- ---------------------------------------------------------------------------
-- The ready structure
-- ---------------------------------------------------------------------------

/-- A thread in its exit is FINISHED, and not the idle thread. -/
structure Sane (x : Exits T H) : Prop where
  filed : x.sched.Filed
  idle : x.created x.sched.idleThread = false
  exiting : ∀ t, x.Unfinished t → (x.sched.thread t).state = .finished ∧ t ≠ x.sched.idleThread

omit [DecidableEq T] in
theorem Sane.frame (h : Sane x) (hs : y.sched = x.sched) (hc : y.created = x.created)
    (hf : ∀ t, y.Unfinished t → x.Unfinished t) : Sane y := by
  refine ⟨?_, ?_, fun t ht => ?_⟩
  · rw [hs]
    exact h.filed
  · rw [hs, hc]
    exact h.idle
  · rw [hs]
    exact h.exiting t (hf t ht)

theorem Sane.call (h : Sane x) {c : SchedCall T} (hc : x.sched.Fits c)
    (hn : ∀ t p, c ≠ .createPthread t p) : Sane (x.call c) where
  filed := h.filed.call hc
  idle := by
    rw [Exits.call, Sched.call_idle]
    exact h.idle
  exiting t ht := by
    rw [Exits.call, Sched.call_idle]
    obtain ⟨hf, hi⟩ := h.exiting t ht
    exact ⟨Sched.finished_call hf (hn t), hi⟩

theorem Sane.create (h : Sane x) {prio : Int} (hi : t ≠ x.sched.idleThread)
    (hf : x.sched.Fits (.createPthread t prio)) : Sane (x.createPthreadStruct t prio) where
  filed := h.filed.call hf
  idle := by
    have hidle : Function.update x.created t true x.sched.idleThread = false := by
      rw [Function.update_of_ne (Ne.symm hi)]
      exact h.idle
    rw [createPthreadStruct, Exits.call, Sched.call_idle]
    exact hidle
  exiting u hu := by
    have hut : u ≠ t := by
      rintro rfl
      exact hu (Function.update_self ..)
    obtain ⟨hfin, hui⟩ := h.exiting u (unfinished_of_update hut hu)
    rw [createPthreadStruct, Exits.call, Sched.call_idle]
    exact ⟨Sched.finished_call hfin fun p he => hut (SchedCall.createPthread.inj he).1.symm, hui⟩

theorem Sane.delete (h : Sane x) (hf : x.sched.Fits (.deletePthread t)) :
    Sane (x.deletePthreadStruct t) := by
  have hdel : Sane { x with created := Function.update x.created t false } := by
    refine ⟨h.filed, ?_, h.exiting⟩
    by_cases hi : x.sched.idleThread = t
    · exact hi ▸ Function.update_self ..
    · exact (Function.update_of_ne hi ..).trans h.idle
  exact hdel.call hf fun _ _ he => by cases he

theorem own_of_step {a : ExitAction T H} (hs : x.step a = some y)
    (ha : ∀ c t p, a ≠ .call c ∧ a ≠ .create t p ∧ a ≠ .delete t ∧ a ≠ .removeList t) :
    x.created x.cur = true ∧ x.own a = some y := by
  cases a with
  | call c => exact absurd rfl (ha c x.cur 0).1
  | create t p => exact absurd rfl (ha .yield t p).2.1
  | delete t => exact absurd rfl (ha .yield t 0).2.2.1
  | removeList t => exact absurd rfl (ha .yield t 0).2.2.2
  | _ => exact Option.ite_none_right_eq_some.mp hs

theorem Sane.wakeJoining (h : Sane x) : Sane x.wakeJoining := by
  unfold Exits.wakeJoining
  split
  next j _ _ => exact h.call (c := .activateThread j) trivial fun _ _ he => by cases he
  next => exact h

theorem Sane.scheduling (h : Sane x) : Sane (x.call .scheduling) :=
  h.call (c := .scheduling) trivial fun _ _ he => by cases he

theorem step_sane (h : Sane x) {a : ExitAction T H} (hs : x.step a = some y) : Sane y := by
  have hown := own_of_step hs
  cases a with
  | call c =>
    obtain ⟨hfits, rfl, hn⟩ := step_call hs
    exact h.call hfits hn
  | create t p =>
    obtain ⟨⟨-, -, hi, hf⟩, hs⟩ := Option.ite_none_right_eq_some.mp hs
    obtain rfl := Option.some.inj hs
    exact h.create hi hf
  | delete t =>
    obtain ⟨hf, hs⟩ := Option.ite_none_right_eq_some.mp hs
    obtain rfl := Option.some.inj hs
    exact h.delete hf
  | removeList t =>
    obtain rfl := Option.some.inj hs
    exact h.frame rfl rfl fun _ hu => hu
  | insertList =>
    obtain ⟨-, hs⟩ := hown (by simp)
    obtain rfl := Option.some.inj hs
    exact h.frame rfl rfl fun _ hu => hu
  | cleanupPush routine =>
    obtain ⟨-, hs⟩ := hown (by simp)
    obtain rfl := Option.some.inj hs
    unfold cleanupPushSys
    split
    · exact h.frame rfl rfl fun _ hu => hu
    · exact h
  | cleanupPop =>
    obtain ⟨-, hs⟩ := hown (by simp)
    obtain rfl := Option.some.inj hs
    exact h.frame rfl rfl fun _ hu => hu
  | join t =>
    obtain ⟨-, hs⟩ := hown (by simp)
    rcases joinSys_cases hs with ⟨-, rfl⟩ | ⟨-, ⟨-, rfl⟩ | ⟨hf, rfl⟩⟩
    · exact h
    · have hj : Sane { x with
          joiningThread := Function.update x.joiningThread t (some x.cur) } :=
        h.frame rfl rfl fun _ hu => hu
      have hsus := hj.call (c := .suspendThread x.cur) trivial fun _ _ he => by cases he
      exact hsus.scheduling
    · have hready : (x.sched.thread t).state ≠ .ready := by
        rw [hf]
        exact fun he => by cases he
      exact h.delete hready
  | detach t =>
    obtain ⟨-, hs⟩ := hown (by simp)
    rcases detachSys_cases hs with ⟨-, rfl⟩ | ⟨-, j, -, rfl⟩
    · exact h
    · have hd : Sane { x with
          detachState := Function.update x.detachState t true
          joiningThread := Function.update x.joiningThread x.cur none } :=
        h.frame rfl rfl fun _ hu => hu
      have hact := hd.call (c := .activateThread j) trivial fun _ _ he => by cases he
      exact hact.scheduling
  | exit =>
    obtain ⟨hcur, hs⟩ := hown (by simp)
    obtain rfl := Option.some.inj hs
    have hi : x.cur ≠ x.sched.idleThread := by
      intro he
      rw [he, h.idle] at hcur
      cases hcur
    refine ⟨h.filed.call (c := .finishThread x.cur) trivial, ?_, fun t ht => ?_⟩
    · rw [exitSys, Exits.call, Sched.call_idle]
      exact h.idle
    · rw [exitSys, Exits.call, Sched.call_idle]
      by_cases htc : t = x.cur
      · subst htc
        exact ⟨by simp [Sched.call, Sched.finishThread_state], hi⟩
      · obtain ⟨hfin, hti⟩ := h.exiting t (unfinished_of_update htc ht)
        exact ⟨Sched.finished_call (c := .finishThread x.cur) hfin (fun _ he => by cases he), hti⟩
  | cleanupHandler =>
    obtain ⟨-, hs⟩ := hown (by simp)
    obtain ⟨fs, cr, crs, hf, -, rfl⟩ := cleanupHandler_cases hs
    refine h.frame rfl rfl fun t ht hnil => ?_
    by_cases htc : t = x.cur
    · rw [htc, hf] at hnil
      cases hnil
    · exact ht ((Function.update_of_ne htc ..).trans hnil)
  | handlerEnd =>
    obtain ⟨-, hs⟩ := hown (by simp)
    obtain ⟨cr, fs, hf, rfl⟩ := handlerEnd_cases hs
    exact h.frame rfl rfl fun t ht => unfinished_of_pop hf ht
  | exitEnd =>
    obtain ⟨-, hs⟩ := hown (by simp)
    obtain ⟨fs, hf, -, rfl⟩ := exitEnd_cases hs
    have hpop : Sane { x with frames := Function.update x.frames x.cur fs } :=
      h.frame rfl rfl fun t ht => unfinished_of_pop hf ht
    exact hpop.wakeJoining.scheduling

-- ---------------------------------------------------------------------------
-- The cleanup table
-- ---------------------------------------------------------------------------

/-- The entries of a table are in the order of their pushes, and none of them has run. -/
structure Entries (pushes : Nat) (crTable : List (CleanupRoutine H)) (ran : List Nat) : Prop where
  recent : crTable.Pairwise fun a b => b.pushed < a.pushed
  pushed : ∀ cr ∈ crTable, cr.pushed < pushes
  once : ran.Nodup
  gone : ∀ n ∈ ran, n < pushes ∧ ∀ cr ∈ crTable, cr.pushed ≠ n

def Tables (x : Exits T H) : Prop := ∀ t, Entries x.pushes (x.crTable t) (x.ran t)

section
omit [DecidableEq T]
variable {pushes : Nat} {crs : List (CleanupRoutine H)} {ran : List Nat} {cr : CleanupRoutine H}

theorem Entries.nil (pushes : Nat) : Entries (H := H) pushes [] [] where
  recent := List.Pairwise.nil
  pushed _ hcr := absurd hcr List.not_mem_nil
  once := List.nodup_nil
  gone _ hn := absurd hn List.not_mem_nil

theorem Entries.mono (h : Entries pushes crs ran) : Entries (pushes + 1) crs ran where
  recent := h.recent
  pushed cr hcr := Nat.lt_succ_of_lt (h.pushed cr hcr)
  once := h.once
  gone n hn := ⟨Nat.lt_succ_of_lt (h.gone n hn).1, (h.gone n hn).2⟩

theorem Entries.push (h : Entries pushes crs ran) (routine : H) :
    Entries (pushes + 1) (⟨pushes, routine⟩ :: crs) ran where
  recent := List.pairwise_cons.mpr ⟨h.pushed, h.recent⟩
  pushed cr hcr := by
    rcases List.mem_cons.mp hcr with rfl | hcr
    · exact Nat.lt_succ_self _
    · exact Nat.lt_succ_of_lt (h.pushed cr hcr)
  once := h.once
  gone n hn := by
    obtain ⟨hlt, hne⟩ := h.gone n hn
    refine ⟨Nat.lt_succ_of_lt hlt, fun cr hcr => ?_⟩
    rcases List.mem_cons.mp hcr with rfl | hcr
    · exact Nat.ne_of_gt hlt
    · exact hne cr hcr

theorem Entries.tail (h : Entries pushes crs ran) : Entries pushes crs.tail ran where
  recent := h.recent.tail
  pushed cr hcr := h.pushed cr (List.mem_of_mem_tail hcr)
  once := h.once
  gone n hn := ⟨(h.gone n hn).1, fun cr hcr => (h.gone n hn).2 cr (List.mem_of_mem_tail hcr)⟩

theorem Entries.run (h : Entries pushes (cr :: crs) ran) :
    Entries pushes crs (cr.pushed :: ran) where
  recent := h.recent.tail
  pushed c hc := h.pushed c (List.mem_cons_of_mem _ hc)
  once := by
    refine List.nodup_cons.mpr ⟨fun hmem => ?_, h.once⟩
    exact (h.gone _ hmem).2 cr List.mem_cons_self rfl
  gone n hn := by
    rcases List.mem_cons.mp hn with rfl | hn
    · have hlt := (List.pairwise_cons.mp h.recent).1
      exact ⟨h.pushed cr List.mem_cons_self, fun c hc => Nat.ne_of_lt (hlt c hc)⟩
    · exact ⟨(h.gone n hn).1, fun c hc => (h.gone n hn).2 c (List.mem_cons_of_mem _ hc)⟩

theorem Tables.frame (h : Tables x) (hp : y.pushes = x.pushes) (hc : y.crTable = x.crTable)
    (hr : y.ran = x.ran) : Tables y := fun t => by
  rw [hp, hc, hr]
  exact h t

end

theorem Tables.update (h : Tables x) {crs : List (CleanupRoutine H)} {ran : List Nat}
    (he : Entries y.pushes crs ran) (hp : x.pushes ≤ y.pushes ∧ y.pushes ≤ x.pushes + 1)
    (hc : y.crTable = Function.update x.crTable t crs) (hr : y.ran = Function.update x.ran t ran) :
    Tables y := by
  intro u
  rw [hc, hr]
  by_cases hu : u = t
  · subst hu
    rw [Function.update_self, Function.update_self]
    exact he
  · rw [Function.update_of_ne hu, Function.update_of_ne hu]
    rcases Nat.lt_or_ge x.pushes y.pushes with hlt | hge
    · have hsucc : y.pushes = x.pushes + 1 := Nat.le_antisymm hp.2 hlt
      rw [hsucc]
      exact (h u).mono
    · rw [Nat.le_antisymm hge hp.1]
      exact h u

theorem step_tables (h : Tables x) {a : ExitAction T H} (hs : x.step a = some y) : Tables y := by
  have hown := own_of_step hs
  cases a with
  | call c =>
    obtain ⟨-, rfl, -⟩ := step_call hs
    exact h.frame rfl rfl rfl
  | create t p =>
    obtain ⟨-, hs⟩ := Option.ite_none_right_eq_some.mp hs
    obtain rfl := Option.some.inj hs
    exact h.update (.nil x.pushes) ⟨Nat.le_refl _, Nat.le_succ _⟩ rfl rfl
  | delete t =>
    obtain ⟨-, hs⟩ := Option.ite_none_right_eq_some.mp hs
    obtain rfl := Option.some.inj hs
    exact h.frame rfl rfl rfl
  | removeList t =>
    obtain rfl := Option.some.inj hs
    exact h.frame rfl rfl rfl
  | insertList =>
    obtain ⟨-, hs⟩ := hown (by simp)
    obtain rfl := Option.some.inj hs
    exact h.frame rfl rfl rfl
  | cleanupPush routine =>
    obtain ⟨-, hs⟩ := hown (by simp)
    obtain rfl := Option.some.inj hs
    unfold cleanupPushSys
    split
    · exact h.update ((h x.cur).push routine) ⟨Nat.le_succ _, Nat.le_refl _⟩ rfl
        (Function.update_eq_self ..).symm
    · exact h
  | cleanupPop =>
    obtain ⟨-, hs⟩ := hown (by simp)
    obtain rfl := Option.some.inj hs
    exact h.update (h x.cur).tail ⟨Nat.le_refl _, Nat.le_succ _⟩ rfl
      (Function.update_eq_self ..).symm
  | join t =>
    obtain ⟨-, hs⟩ := hown (by simp)
    rcases joinSys_cases hs with ⟨-, rfl⟩ | ⟨-, ⟨-, rfl⟩ | ⟨-, rfl⟩⟩
    · exact h
    · exact h.frame rfl rfl rfl
    · exact h.frame rfl rfl rfl
  | detach t =>
    obtain ⟨-, hs⟩ := hown (by simp)
    rcases detachSys_cases hs with ⟨-, rfl⟩ | ⟨-, j, -, rfl⟩
    · exact h
    · exact h.frame rfl rfl rfl
  | exit =>
    obtain ⟨-, hs⟩ := hown (by simp)
    obtain rfl := Option.some.inj hs
    exact h.frame rfl rfl rfl
  | cleanupHandler =>
    obtain ⟨-, hs⟩ := hown (by simp)
    obtain ⟨fs, cr, crs, -, hc, rfl⟩ := cleanupHandler_cases hs
    have he := h x.cur
    rw [hc] at he
    exact h.update he.run ⟨Nat.le_refl _, Nat.le_succ _⟩ rfl rfl
  | handlerEnd =>
    obtain ⟨-, hs⟩ := hown (by simp)
    obtain ⟨cr, fs, -, rfl⟩ := handlerEnd_cases hs
    exact h.frame rfl rfl rfl
  | exitEnd =>
    obtain ⟨-, hs⟩ := hown (by simp)
    obtain ⟨fs, -, -, rfl⟩ := exitEnd_cases hs
    have hwake : Tables ({ x with frames := Function.update x.frames x.cur fs }.wakeJoining) := by
      unfold wakeJoining
      split
      · exact h.frame rfl rfl rfl
      · exact h.frame rfl rfl rfl
    exact hwake.frame rfl rfl rfl

theorem cleanupHandler_last (h : Tables x) (hs : x.step .cleanupHandler = some y) :
    ∃ n, y.ran x.cur = n :: x.ran x.cur ∧ ∀ cr ∈ y.crTable x.cur, cr.pushed < n := by
  obtain ⟨-, hs⟩ := own_of_step hs (by simp)
  obtain ⟨fs, cr, crs, -, hc, rfl⟩ := cleanupHandler_cases hs
  have he := h x.cur
  rw [hc] at he
  refine ⟨cr.pushed, Function.update_self .., ?_⟩
  dsimp only
  rw [Function.update_self]
  exact (List.pairwise_cons.mp he.recent).1

theorem exitEnd_joined (hs : x.step .exitEnd = some y) : x.crTable x.cur = [] ∧
    ∀ j, x.detachState x.cur = false → x.joiningThread x.cur = some j →
      (y.sched.thread j).state ≠ .suspended := by
  obtain ⟨-, hs⟩ := own_of_step hs (by simp)
  obtain ⟨fs, -, hc, rfl⟩ := exitEnd_cases hs
  refine ⟨hc, fun j hd hj => ?_⟩
  have hwake : ({ x with frames := Function.update x.frames x.cur fs }).wakeJoining =
      { x with frames := Function.update x.frames x.cur fs }.call (.activateThread j) := by
    unfold wakeJoining
    have hd' : ({ x with frames := Function.update x.frames x.cur fs }).detachState x.cur = false :=
      hd
    have hj' : ({ x with frames := Function.update x.frames x.cur fs }).joiningThread x.cur =
      some j := hj
    simp only [cur] at hd' hj' ⊢
    rw [hd', hj']
  rw [hwake]
  simp only [Exits.call, Sched.call, Sched.scheduling_thread, Sched.activateThread_state, if_true]
  split <;> exact fun he => by cases he

-- ---------------------------------------------------------------------------
-- Who is left half-way
-- ---------------------------------------------------------------------------

section
omit [DecidableEq T]

theorem Complete.keep (h : Complete x) (hcur : y.cur = x.cur)
    (hf : ∀ u, u ≠ x.cur → y.Unfinished u → x.Unfinished u)
    (hheld : ∀ u, u ≠ x.cur → y.Unfinished u → x.Held u → y.Held u) : Complete y := by
  intro u hu
  by_cases huc : u = x.cur
  · exact .inl (huc.trans hcur.symm)
  · exact .inr (hheld u huc hu ((h u (hf u huc hu)).resolve_left huc))

theorem Complete.drop_iff (h : Complete x) (hcur : y.cur = x.cur) (hf : y.frames = x.frames)
    (hheld : ∀ u, u ≠ t → x.Held u → y.Held u) :
    Complete y ↔ (x.Unfinished t → t = x.cur ∨ y.Held t) := by
  have hunf (u : T) : y.Unfinished u ↔ x.Unfinished u := by rw [Unfinished, hf, Unfinished]
  constructor
  · intro hy ht
    have hdone := hy t ((hunf t).mpr ht)
    rwa [hcur] at hdone
  · intro ht u hu
    rw [hcur]
    by_cases hut : u = t
    · exact hut ▸ ht (hut ▸ (hunf u).mp hu)
    · exact (h u ((hunf u).mp hu)).imp_right (hheld u hut)

theorem Complete.leave_iff (h : Complete x)
    (hf : ∀ u, u ≠ x.cur → y.Unfinished u → x.Unfinished u)
    (hheld : ∀ u, u ≠ x.cur → x.Held u → y.Held u)
    (hcur : y.Unfinished x.cur → y.cur = x.cur → y.Held x.cur) :
    Complete y ↔ (y.Unfinished x.cur → y.Held x.cur) := by
  constructor
  · intro hy hu
    rcases hy x.cur hu with he | hheld
    · exact hcur hu he.symm
    · exact hheld
  · intro hc u hu
    by_cases huc : u = x.cur
    · exact .inr (huc ▸ hc (huc ▸ hu))
    · exact .inr (hheld u huc ((h u (hf u huc hu)).resolve_left huc))

end

theorem scheduling_cur (hi : u ≠ x.sched.idleThread) (hc : (x.call .scheduling).cur = u) :
    x.sched.Linked u := by
  have hrun : x.sched.getHeadSs.getD x.sched.idleThread = u := hc
  cases hh : x.sched.getHeadSs with
  | none =>
    rw [hh] at hrun
    exact absurd hrun.symm hi
  | some v =>
    rw [hh] at hrun
    obtain rfl : v = u := hrun
    obtain ⟨j, -, -, hj, -⟩ := Sched.headFrom_some hh
    exact ⟨j, List.mem_of_mem_head? hj⟩

theorem unlink_iff (hs : Sane x) (h : Complete x) {c : SchedCall T}
    (hcur : (x.sched.call c).currentThread = x.sched.currentThread)
    (hother : ∀ u, u ≠ t → x.sched.Linked u → (x.sched.call c).Linked u)
    (hgone : (x.sched.thread t).state = .finished → ¬(x.sched.call c).Linked t) :
    Complete (x.call c) ↔ (x.Unfinished t → t = x.cur ∨ x.Waiting t) := by
  rw [h.drop_iff (y := x.call c) (t := t) hcur rfl fun u hu => Or.imp_right (hother u hu)]
  refine forall_congr' fun ht => or_congr_right ?_
  exact or_iff_left (hgone (hs.exiting t ht).1)

theorem delete_iff (hs : Sane x) (h : Complete x) :
    Complete (x.deletePthreadStruct t) ↔ (x.Unfinished t → t = x.cur) := by
  have hlinked (u : T) : (x.deletePthreadStruct t).sched.Linked u ↔ u ≠ t ∧ x.sched.Linked u :=
    hs.filed.linked_removeSs
  have hcur : (x.deletePthreadStruct t).cur = x.cur := Sched.removeSs_current ..
  have hcreated (u : T) : (x.deletePthreadStruct t).created u = Function.update x.created t false u :=
    rfl
  rw [h.drop_iff (y := x.deletePthreadStruct t) (t := t) hcur rfl fun u hu => Or.imp
    (fun hw => ⟨by rw [hcreated, Function.update_of_ne hu]; exact hw.1, hw.2⟩)
    (fun hl => (hlinked u).mpr ⟨hu, hl⟩)]
  refine forall_congr' fun _ => or_iff_left ?_
  rintro (hw | hl)
  · have hc := hw.1
    rw [hcreated, Function.update_self] at hc
    cases hc
  · exact ((hlinked t).mp hl).1 rfl

theorem activate_held (j : T) :
    (x.Held u → (x.call (.activateThread j)).Held u) ∧
      ((x.sched.thread u).state = .finished → (x.call (.activateThread j)).Held u → x.Held u) := by
  have hlinked : (x.call (.activateThread j)).sched.Linked u ↔
      x.sched.Linked u ∨ u = j ∧ (x.sched.thread j).state = .suspended :=
    Sched.linked_activateThread
  refine ⟨Or.imp_right fun hl => hlinked.mpr (.inl hl), fun hf => Or.imp_right fun hl => ?_⟩
  rcases hlinked.mp hl with hl | ⟨rfl, hsus⟩
  · exact hl
  · rw [hf] at hsus
    cases hsus

theorem wakeJoining_held : (x.Held u → x.wakeJoining.Held u) ∧
    ((x.sched.thread u).state = .finished → x.wakeJoining.Held u → x.Held u) := by
  unfold wakeJoining
  split
  next j _ _ => exact activate_held j
  next => exact ⟨id, fun _ => id⟩

theorem wakeJoining_frame : x.wakeJoining.frames = x.frames ∧
    x.wakeJoining.sched.idleThread = x.sched.idleThread := by
  unfold wakeJoining
  split
  next j _ _ => exact ⟨rfl, Sched.call_idle⟩
  next => exact ⟨rfl, rfl⟩

theorem scheduled_iff {z : Exits T H} (hs : Sane x) (h : Complete x) (hu : x.Unfinished x.cur ∨
      z.frames = x.frames) (hi : z.sched.idleThread = x.sched.idleThread)
    (hf : ∀ u, u ≠ x.cur → z.Unfinished u → x.Unfinished u)
    (hheld : ∀ u, x.Held u → z.Held u)
    (hback : (x.sched.thread x.cur).state = .finished → z.Held x.cur → x.Held x.cur) :
    Complete (z.call .scheduling) ↔ (z.Unfinished x.cur → x.Held x.cur) := by
  have hexit (hz : z.Unfinished x.cur) : x.Unfinished x.cur := by
    rcases hu with hu | hfr
    · exact hu
    · rwa [Unfinished, ← hfr]
  rw [h.leave_iff (y := z.call .scheduling) hf (fun u _ => hheld u) fun hz hc => ?_]
  · exact forall_congr' fun hz =>
      ⟨hback (hs.exiting x.cur (hexit hz)).1, hheld x.cur⟩
  · have hidle : x.cur ≠ z.sched.idleThread := by
      rw [hi]
      exact (hs.exiting x.cur (hexit hz)).2
    exact .inr (scheduling_cur hidle hc)

theorem join_iff (hs : Sane x) (h : Complete x) (t : T) :
    Complete (({ x with joiningThread := Function.update x.joiningThread t (some x.cur) }.call
      (.suspendThread x.cur)).call .scheduling) ↔ (x.Unfinished x.cur → x.Waiting x.cur) := by
  have hlinked (u : T) : (x.sched.call (.suspendThread x.cur)).Linked u ↔
      u ≠ x.cur ∧ x.sched.Linked u := hs.filed.linked_suspendThread
  have hno : ¬(x.sched.call (.suspendThread x.cur)).Linked x.cur :=
    fun hl => ((hlinked x.cur).mp hl).1 rfl
  refine (h.leave_iff ?_ ?_ ?_).trans ?_
  · exact fun _ _ hu => hu
  · exact fun u huc hu => hu.imp_right fun hl => (hlinked u).mpr ⟨huc, hl⟩
  · intro hu hc
    have hidle : x.cur ≠ (x.sched.call (.suspendThread x.cur)).idleThread := by
      rw [Sched.call_idle]
      exact (hs.exiting x.cur hu).2
    exact .inr (scheduling_cur (x := x.call (.suspendThread x.cur)) hidle hc)
  · exact forall_congr' fun _ => or_iff_left hno

theorem exitEnd_iff (hs : Sane x) (h : Complete x) {fs : List (ExitFrame H)}
    (hf : x.frames x.cur = .exiting :: fs) :
    Complete ({ x with frames := Function.update x.frames x.cur fs }.wakeJoining.call .scheduling) ↔
      x.Keeps .exitEnd := by
  have hframe := wakeJoining_frame (x := { x with frames := Function.update x.frames x.cur fs })
  have hheld (u : T) := wakeJoining_held (x := { x with frames := Function.update x.frames x.cur fs })
    (u := u)
  have hin : x.Unfinished x.cur := by
    intro hnil
    rw [hf] at hnil
    cases hnil
  rw [scheduled_iff hs h (.inl hin) hframe.2 (fun u huc hu hnil => hu ?_) (fun u => (hheld u).1)
    (hheld x.cur).2]
  · rw [Unfinished, hframe.1, Keeps, hf]
    exact imp_congr_left (not_congr (Eq.congr_left (Function.update_self ..)))
  · rw [hframe.1]
    exact (Function.update_of_ne huc ..).trans hnil

theorem call_complete_iff (hs : Sane x) (h : Complete x) {c : SchedCall T}
    (hn : ∀ t p, c ≠ .createPthread t p) (hd : ∀ t, c ≠ .deletePthread t) :
    Complete (x.call c) ↔ x.Keeps (.call c) := by
  have hfiled := hs.filed
  cases c with
  | createPthread t p => exact absurd rfl (hn t p)
  | deletePthread t => exact absurd rfl (hd t)
  | scheduling =>
    exact scheduled_iff hs h (.inr rfl) rfl (fun _ _ hu => hu) (fun _ hu => hu) fun _ hu => hu
  | changeThreadPrio t p =>
    have hlinked (u : T) : (x.sched.call (.changeThreadPrio t p)).Linked u ↔
        u ≠ t ∧ x.sched.Linked u ∨ u = t ∧ (x.sched.thread t).state = .ready :=
      hfiled.linked_changeThreadPrio
    refine unlink_iff hs h (Sched.changeThreadPrio_current ..)
      (fun u hu hl => (hlinked u).mpr (.inl ⟨hu, hl⟩)) fun hf hl => ?_
    rcases (hlinked t).mp hl with ⟨hne, -⟩ | ⟨-, hready⟩
    · exact hne rfl
    · rw [hf] at hready
      cases hready
  | suspendThread t =>
    have hlinked (u : T) : (x.sched.call (.suspendThread t)).Linked u ↔ u ≠ t ∧ x.sched.Linked u :=
      hfiled.linked_suspendThread
    exact unlink_iff hs h (Sched.suspendThread_current ..)
      (fun u hu hl => (hlinked u).mpr ⟨hu, hl⟩) fun _ hl => ((hlinked t).mp hl).1 rfl
  | finishThread t =>
    have hlinked (u : T) : (x.sched.call (.finishThread t)).Linked u ↔ u ≠ t ∧ x.sched.Linked u :=
      hfiled.linked_finishThread
    exact unlink_iff hs h (Sched.removeSs_current ..)
      (fun u hu hl => (hlinked u).mpr ⟨hu, hl⟩) fun _ hl => ((hlinked t).mp hl).1 rfl
  | activateThread t =>
    refine iff_of_true (h.keep (Sched.activateThread_current ..) (fun _ _ hu => hu)
      fun u _ _ hu => (activate_held t).1 hu) trivial
  | yield =>
    refine iff_of_true (h.keep (Sched.pthreadYield_current ..) (fun _ _ hu => hu)
      fun u _ _ hu => ?_) trivial
    exact hu.imp_right fun hl => hfiled.linked_pthreadYield.mpr (.inl hl)
  | signals t p m b =>
    exact iff_of_true (h.keep rfl (fun _ _ hu => hu) fun u _ _ hu => hu) trivial

theorem create_complete (h : Complete x) {prio : Int} :
    Complete (x.createPthreadStruct t prio) := by
  have hother {u : T} (hu : (x.createPthreadStruct t prio).Unfinished u) : u ≠ t := by
    rintro rfl
    exact hu (Function.update_self ..)
  refine h.keep rfl (fun u _ hu hnil => hu ?_) fun u _ hu hheld => ?_
  · exact (Function.update_of_ne (hother hu) ..).trans hnil
  · have hut := hother hu
    refine hheld.imp_left fun hw => ⟨?_, ?_⟩
    · exact (Function.update_of_ne hut ..).trans hw.1
    · exact (Function.update_of_ne hut ..).trans hw.2

omit [DecidableEq T] in
theorem keeps_join (hd : x.detachState t = false) : x.Keeps (.join t) ↔
    if (x.sched.thread t).state = .finished then x.Unfinished t → t = x.cur
    else x.Unfinished x.cur → x.Waiting x.cur :=
  forall_prop_of_true hd

theorem step_complete_iff (hs : Sane x) (h : Complete x) {a : ExitAction T H}
    (hstep : x.step a = some y) : Complete y ↔ x.Keeps a := by
  have hown := own_of_step hstep
  cases a with
  | call c =>
    have hd (t : T) : c ≠ .deletePthread t := by
      rintro rfl
      cases hstep
    obtain ⟨-, rfl, hn⟩ := step_call hstep
    exact call_complete_iff hs h hn hd
  | create t p =>
    obtain ⟨-, hstep⟩ := Option.ite_none_right_eq_some.mp hstep
    obtain rfl := Option.some.inj hstep
    exact iff_of_true (create_complete h) trivial
  | delete t =>
    obtain ⟨-, hstep⟩ := Option.ite_none_right_eq_some.mp hstep
    obtain rfl := Option.some.inj hstep
    exact delete_iff hs h
  | removeList t =>
    obtain rfl := Option.some.inj hstep
    rw [h.drop_iff (y := { x with onList := Function.update x.onList t false }) (t := t) rfl rfl
      fun u hu => Or.imp_left fun hw => ⟨hw.1, (Function.update_of_ne hu ..).trans hw.2⟩]
    refine forall_congr' fun _ => or_congr_right (or_iff_right fun hw => ?_)
    have hoff := (Function.update_self t false x.onList).symm.trans hw.2
    cases hoff
  | insertList =>
    obtain ⟨-, hstep⟩ := hown (by simp)
    obtain rfl := Option.some.inj hstep
    refine iff_of_true (h.keep rfl (fun _ _ hu => hu) fun u huc _ => Or.imp_left fun hw => ?_) trivial
    exact ⟨hw.1, (Function.update_of_ne huc ..).trans hw.2⟩
  | cleanupPush routine =>
    obtain ⟨-, hstep⟩ := hown (by simp)
    obtain rfl := Option.some.inj hstep
    refine iff_of_true ?_ trivial
    unfold cleanupPushSys
    split
    · exact h.keep rfl (fun _ _ hu => hu) fun _ _ _ hu => hu
    · exact h
  | cleanupPop =>
    obtain ⟨-, hstep⟩ := hown (by simp)
    obtain rfl := Option.some.inj hstep
    exact iff_of_true (h.keep rfl (fun _ _ hu => hu) fun _ _ _ hu => hu) trivial
  | join t =>
    obtain ⟨-, hstep⟩ := hown (by simp)
    rcases joinSys_cases hstep with ⟨hd, rfl⟩ | ⟨hd, ⟨hf, rfl⟩ | ⟨hf, rfl⟩⟩
    · refine iff_of_true h fun hd' => ?_
      rw [hd] at hd'
      cases hd'
    · rw [keeps_join hd, if_neg hf]
      exact join_iff hs h t
    · rw [keeps_join hd, if_pos hf]
      exact delete_iff hs h
  | detach t =>
    obtain ⟨-, hstep⟩ := hown (by simp)
    rcases detachSys_cases hstep with ⟨hd, rfl⟩ | ⟨hd, j, -, rfl⟩
    · refine iff_of_true h fun hd' => ?_
      rw [hd] at hd'
      cases hd'
    · refine Iff.trans ?_ (forall_prop_of_true hd).symm
      have hidle : (x.sched.call (.activateThread j)).idleThread = x.sched.idleThread :=
        Sched.call_idle
      exact scheduled_iff hs h (.inr rfl) hidle (fun _ _ hu => hu)
        (fun u hu => (activate_held j).1 hu) fun hf hu => (activate_held j).2 hf hu
  | exit =>
    obtain ⟨-, hstep⟩ := hown (by simp)
    obtain rfl := Option.some.inj hstep
    have hlinked (u : T) : (x.sched.call (.finishThread x.cur)).Linked u ↔
        u ≠ x.cur ∧ x.sched.Linked u := hs.filed.linked_finishThread
    refine iff_of_true (h.keep (Sched.removeSs_current ..) (fun u huc hu hnil => hu ?_)
      fun u huc _ => Or.imp_right fun hl => (hlinked u).mpr ⟨huc, hl⟩) trivial
    exact (Function.update_of_ne huc ..).trans hnil
  | cleanupHandler =>
    obtain ⟨-, hstep⟩ := hown (by simp)
    obtain ⟨fs, cr, crs, -, -, rfl⟩ := cleanupHandler_cases hstep
    exact iff_of_true (h.keep rfl (fun u huc hu => unfinished_of_update huc hu)
      fun _ _ _ hu => hu) trivial
  | handlerEnd =>
    obtain ⟨-, hstep⟩ := hown (by simp)
    obtain ⟨cr, fs, hf, rfl⟩ := handlerEnd_cases hstep
    exact iff_of_true (h.keep rfl (fun u _ hu => unfinished_of_pop hf hu) fun _ _ _ hu => hu) trivial
  | exitEnd =>
    obtain ⟨-, hstep⟩ := hown (by simp)
    obtain ⟨fs, hf, -, rfl⟩ := exitEnd_cases hstep
    exact exitEnd_iff hs h hf

-- ---------------------------------------------------------------------------
-- Runs
-- ---------------------------------------------------------------------------

theorem boot_sane {idle mainapp : T} (hm : mainapp ≠ idle) :
    Sane (boot (H := H) idle mainapp) where
  filed := (Threads.boot_base hm (fun _ => 0) fun _ => {}).1.live.toFiled
  idle := (Threads.boot_base hm (fun _ => 0) fun _ => {}).1.live.idleGone
  exiting _ ht := absurd rfl ht

theorem exits_well_iff {idle mainapp : T} (hm : mainapp ≠ idle)
    {tr : List (Exits T H × ExitAction T H)} (hr : Run step (boot idle mainapp) tr x) :
    ExitsWell tr x ↔ ∀ e ∈ tr, e.1.Keeps e.2 := by
  have hsane := boot_sane (H := H) hm
  have htables : Tables (boot (H := H) idle mainapp) := fun _ => .nil 0
  have hall (s : Exits T H) (hv : Visited tr x s) : s.Tables :=
    hr.invariant_visited (C := fun _ _ => True) (I := Tables) htables
      (fun _ _ _ h _ hstep => step_tables h hstep) (fun _ _ => trivial) hv
  have hcomplete : (∀ s, Visited tr x s → s.Complete) ↔ ∀ e ∈ tr, e.1.Keeps e.2 :=
    hr.visited_iff hsane (fun _ _ _ h hstep => step_sane h hstep) (fun _ ht => absurd rfl ht)
      fun _ _ _ hs h hstep => step_complete_iff hs h hstep
  refine ⟨fun h => hcomplete.mp h.complete, fun h => ?_⟩
  exact
    { once := fun s hv t => (hall s hv t).once
      lifo := fun e he y hy _ => cleanupHandler_last (hall e.1 (.pre he)) hy
      joined := fun e _ y hy _ => exitEnd_joined hy
      complete := hcomplete.mpr h }

/-- No `scheduling ()` before the exit the current thread is in is over. -/
def Calm (x : Exits T H) : ExitAction T H → Prop
  | .call .scheduling | .join _ | .detach _ => ¬x.Unfinished x.cur
  | .exitEnd => (x.frames x.cur).tail = []
  | .call _ | .create _ _ | .delete _ | .removeList _ | .insertList | .cleanupPush _ | .cleanupPop
  | .exit | .cleanupHandler | .handlerEnd => True

omit [DecidableEq T] in
theorem Keeps.of_calm (ha : ∀ t, x.Unfinished t → t = x.cur) {a : ExitAction T H}
    (hc : x.Calm a) : x.Keeps a := by
  cases a with
  | call c =>
    cases c with
    | scheduling => exact fun hu => absurd hu hc
    | changeThreadPrio t p => exact fun hu => .inl (ha t hu)
    | suspendThread t => exact fun hu => .inl (ha t hu)
    | finishThread t => exact fun hu => .inl (ha t hu)
    | _ => trivial
  | delete t => exact ha t
  | removeList t => exact fun hu => .inl (ha t hu)
  | join t =>
    intro _
    split
    · exact ha t
    · exact fun hu => absurd hu hc
  | detach t => exact fun _ hu => absurd hu hc
  | exitEnd => exact fun hne => absurd hc hne
  | _ => trivial

omit [DecidableEq T] in
instance (x : Exits T H) (t : T) : Decidable (x.Unfinished t) :=
  inferInstanceAs (Decidable (_ ≠ []))

instance (x : Exits T H) : DecidablePred x.Calm
  | .call .scheduling | .join _ | .detach _ => inferInstanceAs (Decidable (¬x.Unfinished x.cur))
  | .exitEnd => inferInstanceAs (Decidable (_ = []))
  | .call (.createPthread _ _) | .call (.deletePthread _) | .call (.changeThreadPrio _ _)
  | .call (.suspendThread _) | .call (.activateThread _) | .call (.finishThread _) | .call .yield
  | .call (.signals _ _ _ _) | .create _ _ | .delete _ | .removeList _ | .insertList
  | .cleanupPush _ | .cleanupPop | .exit | .cleanupHandler | .handlerEnd => .isTrue trivial

end

/-- The main thread joins a thread whose two handlers run one after the other. -/
theorem exits_well_two : ∃ tr x,
    Run step (boot (H := Unit) none (some false)) tr x ∧ x.ran (some true) = [0, 1] ∧
      ExitsWell tr x := by
  have hrun : (exec step (boot (H := Unit) none (some false))
      [.create (some true) 5, .call (.activateThread (some true)), .join (some true),
        .cleanupPush (), .cleanupPush (), .exit, .cleanupHandler, .handlerEnd, .cleanupHandler,
        .handlerEnd, .exitEnd, .join (some true)]).any (fun r =>
      decide (r.2.ran (some true) = [0, 1] ∧
        ∀ e ∈ r.1, (∀ t, e.1.Unfinished t → t = e.1.cur) ∧ e.1.Calm e.2)) = true := by
    decide +kernel
  obtain ⟨tr, x, hr, hp⟩ := exec_any hrun
  obtain ⟨hran, hcalm⟩ := of_decide_eq_true hp
  exact ⟨tr, x, hr, hran, (exits_well_iff (by decide) hr).mpr fun e he =>
    .of_calm (hcalm e he).1 (hcalm e he).2⟩

/-- In its handler the thread changes its own priority: `scheduling ()` leaves it for good,
and the main thread, which joins it, too. -/
theorem handler_left : ∃ tr x, Run step (boot (H := Unit) none (some false)) tr x ∧
    ¬ExitsWell tr x := by
  have hrun : (exec step (boot (H := Unit) none (some false))
      [.create (some true) 5, .call (.activateThread (some true)), .join (some true),
        .cleanupPush (), .exit, .cleanupHandler, .call (.changeThreadPrio (some true) 6),
        .call .scheduling]).any (fun r =>
      decide (r.2.Unfinished (some true) ∧ some true ≠ r.2.cur ∧ r.2.onList (some true) = false ∧
        r.2.sched.Fits (.createPthread (some true) 0))) = true := by decide +kernel
  obtain ⟨tr, x, hr, hp⟩ := exec_any hrun
  obtain ⟨hu, hcur, hlist, hfits⟩ := of_decide_eq_true hp
  have hsane : Sane x := hr.invariant (C := fun _ _ => True) (boot_sane (by decide))
    (fun _ _ _ h _ hstep => step_sane h hstep) fun _ _ => trivial
  refine ⟨tr, x, hr, fun hwell => ?_⟩
  rcases hwell.complete x .self (some true) hu with he | hw | hl
  · exact hcur he
  · rw [hw.2] at hlist
    cases hlist
  · exact hsane.filed.not_linked hfits hl

end Exits

end Xmertl.Partikle
