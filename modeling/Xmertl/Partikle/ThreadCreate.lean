import Xmertl.Partikle.SchedCalls
import Xmertl.Partikle.Threads
import Xmertl.Partikle.TimerTable

/-!
# Creating a thread

`pthread_create_sys` with what it acquires: the thread structure, its place in the thread
list, its sleep timer and its stack. A thread is the address of its structure. What
`malloc_ex` gives is an input. Of the ways out with -1, the first two leave the
interrupts off, and the last one keeps what was acquired.
-/

namespace Xmertl.Partikle

def schedFifo : Int := 0

def stackSize : Int := 16 * 1024

structure CreateAttr where
  stackSize : Int
  stackAddr : Int
  policy : Int
  schedPriority : Int
  detachstate : Int

structure StackInfo where
  stackSize : Int
  stackBottom : Int

/-- The fields of `pthread_struct` that the scheduler does not use. -/
structure PthreadStruct where
  stackInfo : StackInfo
  stack : Int
  detachState : Bool
  policy : Int

/-- `flags` says whether interrupts are on, `live` are the blocks of `memory_pool`. -/
structure Creation where
  flags : Bool
  live : List Int
  threadList : List Int
  timers : TimerTable Int
  sched : Sched Int
  pthread : Int → PthreadStruct

/-- What `malloc_ex` gives for the structure and for the stack. -/
structure Allocs where
  pthread : Option Int
  stack : Option Int

namespace Creation

def hwCli (x : Creation) : Creation := { x with flags := false }

def hwRestoreFlags (x : Creation) (flags : Bool) : Creation := { x with flags }

/-- On success the structure is zeroed and linked; the timer's index may be -1. -/
def createPthreadStruct (x : Creation) (malloc : Option Int) : Option Int × Creation :=
  match malloc with
  | none => (none, x)
  | some thread =>
    (some thread, { x with
      live := thread :: x.live
      threadList := thread :: x.threadList
      timers := x.timers.createThread thread
      sched := x.sched.createPthreadStruct thread
      pthread := Function.update x.pthread thread ⟨⟨0, 0⟩, 0, false, 0⟩ })

def configure (x : Creation) (thread : Int) (attr : Option CreateAttr) : Creation :=
  let (prio, pthread) : Int × PthreadStruct := match attr with
    | some attr => (attr.schedPriority,
        ⟨⟨attr.stackSize, attr.stackAddr⟩, 0, attr.detachstate ≠ 0, attr.policy⟩)
    | none => (minSchedPriority, ⟨⟨Partikle.stackSize, 0⟩, 0, false, schedFifo⟩)
  { x with
    sched := x.sched.modify thread fun th => { th with schedPriority := prio }
    pthread := Function.update x.pthread thread pthread }

def allocStack (x : Creation) (thread : Int) (malloc : Option Int) : Creation × Int :=
  let p := x.pthread thread
  match malloc with
  | none => (x, -1)
  | some stackBottom =>
    ({ x with
      live := stackBottom :: x.live
      pthread := Function.update x.pthread thread
        { p with stackInfo := { p.stackInfo with stackBottom } } }, 0)

/-- `setup_stack` puts four words on it. -/
def setupStack (x : Creation) (thread : Int) : Creation :=
  let p := x.pthread thread
  let stack := p.stackInfo.stackBottom + p.stackInfo.stackSize / 4 * 4 - 16
  { x with pthread := Function.update x.pthread thread { p with stack } }

/-- The end: the thread is activated, and `scheduling ()` is called. -/
def startThread (x : Creation) (thread : Int) (flags : Bool) : Creation :=
  let x := { x.setupStack thread with sched := x.sched.activateThread thread }.hwRestoreFlags flags
  { x with sched := x.sched.scheduling }

def refuses (attr : CreateAttr) : Bool :=
  attr.policy ≠ schedFifo || attr.schedPriority > minSchedPriority ||
    attr.schedPriority < maxSchedPriority

/-- Returns the state, up to its `scheduling ()`, the result and what `*thread` is then. -/
def pthreadCreateSys (x : Creation) (attr : Option CreateAttr) (allocs : Allocs) :
    Creation × Ret × Option Int :=
  let flags := x.flags
  let x := x.hwCli
  if attr.any refuses then (x, .fail .einval, none)
  else
    match x.createPthreadStruct allocs.pthread with
    | (none, x) => (x.hwRestoreFlags flags, .fail .eagain, none)
    | (some thread, x) =>
      let x := x.configure thread attr
      if (x.pthread thread).stackInfo.stackBottom = 0 then
        let (x, r) := x.allocStack thread allocs.stack
        if r < 0 then (x.hwRestoreFlags flags, .fail .eagain, some thread)
        else (x.startThread thread flags, .ok, some thread)
      else (x.startThread thread flags, .ok, some thread)

-- ---------------------------------------------------------------------------
-- What a call should do
-- ---------------------------------------------------------------------------

structure Unchanged (x y : Creation) : Prop where
  flags : y.flags = x.flags
  threadList : y.threadList = x.threadList
  timers : y.timers = x.timers
  ready : y.sched.threadMatrix = x.sched.threadMatrix
  live : y.live = x.live

/-- The timer of `thread` is in the table and its own: it was nobody's. -/
structure OwnTimer (x y : Creation) (thread : Int) : Prop where
  inTable : InTable (y.timers.sleepKtimer thread)
  owner : (y.timers.timerArray (y.timers.sleepKtimer thread)).owner = thread
  inUse : (y.timers.timerArray (y.timers.sleepKtimer thread)).inUse = true
  fresh : (x.timers.timerArray (y.timers.sleepKtimer thread)).inUse = false

def Atomic (x : Creation) (attr : Option CreateAttr) (allocs : Allocs) : Prop :=
  match x.pthreadCreateSys attr allocs with
  | (y, .fail _, _) => Unchanged x y
  | (y, .ok, thread) => ∃ t, thread = some t ∧ OwnTimer x y t

def needsStack (attr : Option CreateAttr) : Bool := attr.all fun a => a.stackAddr = 0

/-- The condition: a refusal finds the interrupts off; and where there is a structure,
there are a free timer and, if one is to be allocated, a stack. -/
def Provided (x : Creation) (attr : Option CreateAttr) (allocs : Allocs) : Prop :=
  if attr.any refuses then x.flags = false
  else allocs.pthread.isSome → x.timers.HasFree ∧ (needsStack attr → allocs.stack.isSome)

-- ---------------------------------------------------------------------------
-- The parts of a call
-- ---------------------------------------------------------------------------

section
variable {x y : Creation} {thread : Int} {attr : Option CreateAttr} {allocs : Allocs} {flags : Bool}

/-- The structure is linked, and its timer is the one that was looked for. -/
structure Acquired (x y : Creation) (thread : Int) : Prop where
  threadList : y.threadList = thread :: x.threadList
  timers : y.timers = x.timers.createThread thread

theorem acquired_iff_hasFree (h : Acquired x y thread) : OwnTimer x y thread ↔ x.timers.HasFree := by
  have htimers := h.timers
  rw [TimerTable.createThread] at htimers
  rcases x.timers.allocKtimer_cases .monotonic thread .wakeup with
    ⟨timerid, hin, hfree, halloc⟩ | ⟨hnone, halloc⟩
  · rw [halloc] at htimers
    have hindex : y.timers.sleepKtimer thread = timerid := by
      rw [htimers]
      exact Function.update_self ..
    have hself : y.timers.timerArray timerid =
        { owner := thread, inUse := true, readClock := .monotonic, action := .wakeup } := by
      rw [htimers]
      exact Function.update_self ..
    have hlt : timerid < maxTimers := Int.ofNat_lt.mp hin.2
    refine ⟨fun _ => ⟨timerid, hlt, hfree⟩, fun _ => ⟨?_, ?_, ?_, ?_⟩⟩
    · rw [hindex]
      exact hin
    · rw [hindex, hself]
    · rw [hindex, hself]
    · rw [hindex]
      exact hfree
  · rw [halloc] at htimers
    have hindex : y.timers.sleepKtimer thread = -1 := by
      rw [htimers]
      exact Function.update_self ..
    refine ⟨fun hown => ?_, fun hfree => absurd hfree hnone⟩
    have hin := hown.inTable
    rw [hindex] at hin
    exact absurd hin.1 (by decide)

theorem Acquired.not_unchanged (h : Acquired x y thread) : ¬Unchanged x y := by
  intro hu
  have hlist := h.threadList.symm.trans hu.threadList
  exact List.cons_ne_self _ _ hlist

theorem hwCli_acquired (x : Creation) (thread : Int) :
    ∃ y, x.hwCli.createPthreadStruct (some thread) = (some thread, y) ∧ Acquired x y thread :=
  ⟨_, rfl, rfl, rfl⟩

theorem Acquired.configure (h : Acquired x y thread) (attr : Option CreateAttr) :
    Acquired x (y.configure thread attr) thread := ⟨h.threadList, h.timers⟩

theorem Acquired.allocStack (h : Acquired x y thread) (malloc : Option Int) :
    Acquired x (y.allocStack thread malloc).1 thread := by
  cases malloc with
  | none => exact h
  | some stackBottom => exact ⟨h.threadList, h.timers⟩

theorem Acquired.startThread (h : Acquired x y thread) (flags : Bool) :
    Acquired x (y.startThread thread flags) thread := ⟨h.threadList, h.timers⟩

theorem configure_stackBottom (x : Creation) (thread : Int) (attr : Option CreateAttr) :
    ((x.configure thread attr).pthread thread).stackInfo.stackBottom = 0 ↔ needsStack attr = true := by
  cases attr <;> simp [configure, needsStack]

theorem allocStack_result (x : Creation) (thread : Int) (malloc : Option Int) :
    (x.allocStack thread malloc).2 < 0 ↔ malloc = none := by
  cases malloc <;> simp [allocStack]

-- ---------------------------------------------------------------------------
-- The whole call
-- ---------------------------------------------------------------------------

theorem atomic_of_refused (h : attr.any refuses = true) : Atomic x attr allocs ↔ x.flags = false := by
  unfold Atomic pthreadCreateSys
  rw [if_pos h]
  exact ⟨fun hu => hu.flags.symm, fun hf => ⟨hf.symm, rfl, rfl, rfl, rfl⟩⟩

theorem atomic_of_none (h : attr.any refuses = false) (hp : allocs.pthread = none) :
    Atomic x attr allocs := by
  unfold Atomic pthreadCreateSys
  rw [if_neg (by rw [h]; decide), hp]
  exact ⟨rfl, rfl, rfl, rfl, rfl⟩

theorem atomic_of_some (h : attr.any refuses = false) (hp : allocs.pthread = some thread) :
    Atomic x attr allocs ↔
      x.timers.HasFree ∧ (needsStack attr → allocs.stack.isSome) := by
  obtain ⟨y, hy, hacquired⟩ := hwCli_acquired x thread
  have hconf := hacquired.configure attr
  unfold Atomic pthreadCreateSys
  rw [if_neg (by rw [h]; decide), hp, hy]
  dsimp only
  by_cases hstack : needsStack attr = true
  · rw [if_pos ((configure_stackBottom y thread attr).mpr hstack)]
    cases hs : allocs.stack with
    | none =>
      have hneg := (allocStack_result (y.configure thread attr) thread none).mpr rfl
      rw [if_pos hneg]
      have hacq := hconf.allocStack none
      refine ⟨fun hu => absurd hu ?_, fun hp => absurd (hp.2 hstack) (by decide)⟩
      have hrestored : Acquired x
          (((y.configure thread attr).allocStack thread none).1.hwRestoreFlags x.flags) thread :=
        ⟨hacq.threadList, hacq.timers⟩
      exact hrestored.not_unchanged
    | some stackBottom =>
      have hpos := mt (allocStack_result (y.configure thread attr) thread (some stackBottom)).mp
        (Option.some_ne_none _)
      rw [if_neg hpos]
      have hown := acquired_iff_hasFree ((hconf.allocStack (some stackBottom)).startThread x.flags)
      constructor
      · rintro ⟨t, ht, ho⟩
        obtain rfl := Option.some.inj ht
        exact ⟨hown.mp ho, fun _ => rfl⟩
      · exact fun hprov => ⟨thread, rfl, hown.mpr hprov.1⟩
  · rw [if_neg (mt (configure_stackBottom y thread attr).mp hstack)]
    have hown := acquired_iff_hasFree (hconf.startThread x.flags)
    constructor
    · rintro ⟨t, ht, ho⟩
      obtain rfl := Option.some.inj ht
      exact ⟨hown.mp ho, fun hneeds => absurd hneeds hstack⟩
    · exact fun hprov => ⟨thread, rfl, hown.mpr hprov.1⟩

theorem create_atomic_iff (x : Creation) (attr : Option CreateAttr) (allocs : Allocs) :
    Atomic x attr allocs ↔ Provided x attr allocs := by
  unfold Provided
  cases hr : attr.any refuses with
  | true =>
    rw [if_pos rfl]
    exact atomic_of_refused hr
  | false =>
    rw [if_neg Bool.false_ne_true]
    cases hp : allocs.pthread with
    | none => exact ⟨fun _ hsome => absurd hsome (by decide), fun _ => atomic_of_none hr hp⟩
    | some thread =>
      rw [atomic_of_some hr hp]
      exact ⟨fun h _ => h, fun h => h rfl⟩

end

/-- Interrupts on, no thread but the one at 1 and, but for the first `n`, free timers. -/
def bare (n : Nat) : Creation where
  flags := true
  live := [1]
  threadList := [1]
  timers :=
    { timerArray := fun id => { owner := 1, inUse := decide (id < n) }
      timerHeap := { array := fun _ => none, nelem := 0 }
      sleepKtimer := fun _ => 0
      asleep := fun _ => false
      finished := fun _ => false
      interval := none }
  sched :=
    { thread := fun _ => {}
      threadMatrix := fun _ => []
      currentThread := 1
      idleThread := 1 }
  pthread := fun _ => ⟨⟨0, 0⟩, 0, false, 0⟩

/-- No stack for a thread that has been linked; interrupts left off by a refusal; and a
thread with no timer of the table. -/
theorem create_not_atomic :
    ¬Atomic (bare 1) none ⟨some 2, none⟩ ∧
    ¬Atomic (bare 1) (some ⟨16384, 0, 1, 5, 0⟩) ⟨some 2, some 3⟩ ∧
    ¬Atomic (bare 32) none ⟨some 2, some 3⟩ := by
  refine ⟨fun h => ?_, fun h => ?_, fun h => ?_⟩
  · have hlist : [2, 1] = [(1 : Int)] := h.threadList
    exact absurd hlist (by decide)
  · have hflags : false = true := h.flags
    exact absurd hflags (by decide)
  · obtain ⟨t, ht, hown⟩ := h
    obtain rfl : 2 = t := Option.some.inj ht
    exact absurd hown.inTable (by decide +kernel)

end Creation

end Xmertl.Partikle
