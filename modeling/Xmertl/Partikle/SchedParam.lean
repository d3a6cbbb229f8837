import Xmertl.Partikle.SchedCalls
import Xmertl.Partikle.Threads

/-!
# Scheduling parameters

`pthread_getschedparam_sys` and `pthread_setschedparam_sys` of `pthread.c`, with
all of `struct sched_param`. The priority that the scheduler works with is the
field `sched_priority`, which `Sched` holds; the policy that is read back is in
`thread_flags`.
-/

namespace Xmertl.Partikle

def pthreadMagicNumber : BitVec 32 := 0xA5A55A5A

/-- The fields of `struct sched_param` that the scheduler does not read. -/
structure RestParam where
  policy : Int := 0
  deadline : Int := 0
  period : Int := 0
  deriving DecidableEq

structure SchedParam extends RestParam where
  schedPriority : Int
  deriving DecidableEq

/-- The bits of the policy in `thread_flags`, in SET_THREAD_POLICY. -/
def policyBits (policy : Int) : Fin 16 := ⟨(policy % 16).toNat, by omega⟩

/-- The threads with their parameters; `policy` is what GET_THREAD_POLICY gives. -/
structure SchedParams (T : Type) where
  sched : Sched T
  magicNumber : T → BitVec 32
  policy : T → Fin 16
  rest : T → RestParam

namespace SchedParams

variable {T : Type}

def schedParam (x : SchedParams T) (t : T) : SchedParam where
  toRestParam := x.rest t
  schedPriority := (x.sched.thread t).schedPriority

/-- With what it writes through `policy` and `param`, where these are not NULL. -/
def pthreadGetschedparamSys (x : SchedParams T) (thread : Option T) (policy param : Bool) :
    Ret × Option (Fin 16) × Option SchedParam :=
  match thread with
  | none => (.fail .esrch, none, none)
  | some t =>
    if x.magicNumber t ≠ pthreadMagicNumber then (.fail .esrch, none, none)
    else
      (.ok, if policy then some (x.policy t) else none,
        if param then some (x.schedParam t) else none)

variable [DecidableEq T]

def setThreadPolicy (x : SchedParams T) (t : T) (policy : Int) : SchedParams T :=
  { x with policy := Function.update x.policy t (policyBits policy) }

def setSchedParam (x : SchedParams T) (t : T) (param : SchedParam) : SchedParams T :=
  { x with
    sched := x.sched.modify t fun th => { th with schedPriority := param.schedPriority }
    rest := Function.update x.rest t param.toRestParam }

def changeThreadPrio (x : SchedParams T) (t : T) (prio : Int) : SchedParams T :=
  { x with sched := x.sched.changeThreadPrio t prio }

/-- Up to the return of its `scheduling ()`. -/
def pthreadSetschedparamSys (x : SchedParams T) (thread : Option T) (policy : Int)
    (param : Option SchedParam) : SchedParams T × Ret :=
  match thread with
  | none => (x, .fail .esrch)
  | some t =>
    if x.magicNumber t ≠ pthreadMagicNumber then (x, .fail .esrch)
    else
      let x := x.setThreadPolicy t policy
      match param with
      | none => (x, .fail .einval)
      | some param =>
        let x := x.setSchedParam t param
        let x := x.changeThreadPrio t (x.sched.thread t).schedPriority
        ({ x with sched := x.sched.scheduling }, .ok)

structure Same (x y : SchedParams T) : Prop where
  policy : y.policy = x.policy
  param : ∀ t, y.schedParam t = x.schedParam t
  matrix : y.sched.threadMatrix = x.sched.threadMatrix

omit [DecidableEq T] in
/-- The priority that is read back is supported, and the thread is on the ready list of
just that priority if it is on one; it is if it is READY. -/
structure QueuedAs (y : SchedParams T) (t : T) (prio : Int) : Prop where
  stored : (y.pthreadGetschedparamSys (some t) true true).2.2.map SchedParam.schedPriority = some prio
  supported : maxSchedPriority ≤ prio ∧ prio ≤ minSchedPriority
  index : ∀ i, t ∈ y.sched.threadMatrix i → (i : Int) = prio
  queued : (y.sched.thread t).state = .ready → y.sched.Linked t

/-- What `pthread_setschedparam_sys` is asked for, `r` being its outcome. -/
structure SetsParam (x : SchedParams T) (thread : Option T) (r : SchedParams T × Ret) : Prop where
  fails : r.2 ≠ .ok → Same x r.1
  succeeds : r.2 = .ok → ∃ t prio, thread = some t ∧ QueuedAs r.1 t prio

/-- The thread is none, or the parameters are there with a supported priority, or they are
missing and the policy is the one the thread has. -/
def Sensible (x : SchedParams T) (thread : Option T) (policy : Int) (param : Option SchedParam) :
    Prop :=
  ∀ t, thread = some t → x.magicNumber t = pthreadMagicNumber →
    match param with
    | none => policyBits policy = x.policy t
    | some param => maxSchedPriority ≤ param.schedPriority ∧ param.schedPriority ≤ minSchedPriority

section
variable {x y : SchedParams T} {t : T} {policy : Int}

omit [DecidableEq T] in
theorem getschedparam_param (hm : y.magicNumber t = pthreadMagicNumber) :
    (y.pthreadGetschedparamSys (some t) true true).2.2 = some (y.schedParam t) := by
  simp [pthreadGetschedparamSys, hm]

theorem changeThreadPrio_modify (s : Sched T) (t : T) (p : Int) :
    (s.modify t fun th => { th with schedPriority := p }).changeThreadPrio t p =
      s.changeThreadPrio t p := by
  have hss : ((s.modify t fun th => { th with schedPriority := p }).thread t).ss =
      (s.thread t).ss := by simp [Sched.modify_thread]
  have hstate : ((s.modify t fun th => { th with schedPriority := p }).thread t).state =
      (s.thread t).state := by simp [Sched.modify_thread]
  have hremove : ((s.modify t fun th => { th with schedPriority := p }).removeSs t).modify t
      (fun th => { th with schedPriority := p }) =
      (s.removeSs t).modify t fun th => { th with schedPriority := p } := by
    unfold Sched.removeSs
    rw [hss]
    cases (s.thread t).ss with
    | none => simp [Sched.modify]
    | some i => simp [Sched.modify]
  simp only [Sched.changeThreadPrio, hstate, hremove]

theorem queuedAs_of_filed (hf : x.sched.Filed) (hm : x.magicNumber t = pthreadMagicNumber)
    {prio : Int} (hp : maxSchedPriority ≤ prio ∧ prio ≤ minSchedPriority)
    (hsched : y.sched = (x.sched.changeThreadPrio t prio).scheduling)
    (hmagic : y.magicNumber = x.magicNumber) : QueuedAs y t prio := by
  have hfiled : (x.sched.changeThreadPrio t prio).Filed := hf.changeThreadPrio
  have hprio : (y.sched.thread t).schedPriority = prio := by
    rw [hsched, Sched.scheduling_thread, Sched.changeThreadPrio_prio, if_pos rfl]
  refine ⟨?_, hp, fun i hi => ?_, fun hr => ?_⟩
  · rw [getschedparam_param (by rw [hmagic, hm]), Option.map_some, schedParam, hprio]
  · rw [hsched, Sched.scheduling_matrix] at hi
    have hindex := (hfiled.linked i t hi).2.1
    rw [← Sched.scheduling_thread, ← hsched, hprio] at hindex
    simp only [maxSchedPriority, minSchedPriority] at hp
    rw [hindex, prio2ij]
    omega
  · rw [hsched] at hr ⊢
    exact hfiled.ready t hr

theorem setschedparam_param (hm : x.magicNumber t = pthreadMagicNumber) (policy : Int)
    (param : SchedParam) : ∃ y, x.pthreadSetschedparamSys (some t) policy (some param) = (y, .ok) ∧
      y.sched = (x.sched.changeThreadPrio t param.schedPriority).scheduling ∧
      y.magicNumber = x.magicNumber := by
  have hvalid : ¬x.magicNumber t ≠ pthreadMagicNumber := not_not.mpr hm
  unfold pthreadSetschedparamSys
  simp only [if_neg hvalid]
  refine ⟨_, rfl, ?_, rfl⟩
  simp only [changeThreadPrio, setSchedParam, setThreadPolicy]
  rw [Sched.modify_thread, if_pos rfl, changeThreadPrio_modify]

/-- For a ready structure in order: the call does what it is for exactly when its
arguments are sensible. -/
theorem pthreadSetschedparamSys_sound (x : SchedParams T) (hf : x.sched.Filed) (thread : Option T)
    (policy : Int) (param : Option SchedParam) :
    SetsParam x thread (x.pthreadSetschedparamSys thread policy param) ↔
      Sensible x thread policy param := by
  cases thread with
  | none =>
    refine ⟨fun _ t ht => (Option.some_ne_none t ht.symm).elim, fun _ => ⟨fun _ => ?_, fun h => ?_⟩⟩
    · exact ⟨rfl, fun _ => rfl, rfl⟩
    · cases h
  | some t =>
    by_cases hm : x.magicNumber t = pthreadMagicNumber
    case neg =>
      have hcall : x.pthreadSetschedparamSys (some t) policy param = (x, .fail .esrch) := by
        simp [pthreadSetschedparamSys, hm]
      rw [hcall]
      refine ⟨fun _ u hu hmu => ?_, fun _ => ⟨fun _ => ⟨rfl, fun _ => rfl, rfl⟩, fun h => ?_⟩⟩
      · obtain rfl := Option.some.inj hu
        exact absurd hmu hm
      · cases h
    have hsensible : Sensible x (some t) policy param ↔
        match param with
        | none => policyBits policy = x.policy t
        | some param =>
          maxSchedPriority ≤ param.schedPriority ∧ param.schedPriority ≤ minSchedPriority := by
      constructor
      · intro h
        exact h t rfl hm
      · rintro h u hu -
        obtain rfl := Option.some.inj hu
        exact h
    rw [hsensible]
    cases param with
    | none =>
      have hcall : x.pthreadSetschedparamSys (some t) policy none =
          (x.setThreadPolicy t policy, .fail .einval) := by simp [pthreadSetschedparamSys, hm]
      rw [hcall]
      constructor
      · intro h
        have hsame := congrFun (h.fails (by simp)).policy t
        simpa [setThreadPolicy] using hsame
      · intro hbits
        refine ⟨fun _ => ⟨?_, fun _ => rfl, rfl⟩, fun h => by cases h⟩
        simp [setThreadPolicy, hbits]
    | some param =>
      obtain ⟨y, hcall, hsched, hmagic⟩ := setschedparam_param hm policy param
      rw [hcall]
      constructor
      · intro h
        obtain ⟨u, prio, hu, hq⟩ := h.succeeds rfl
        obtain rfl := Option.some.inj hu
        have hstored := hq.stored
        rw [getschedparam_param (by rw [hmagic, hm]), Option.map_some, Option.some.injEq, schedParam,
          hsched, Sched.scheduling_thread, Sched.changeThreadPrio_prio, if_pos rfl] at hstored
        have hprio : param.schedPriority = prio := hstored
        have hp : maxSchedPriority ≤ param.schedPriority ∧ param.schedPriority ≤ minSchedPriority := by
          rw [hprio]
          exact hq.supported
        exact hp
      · intro hp
        exact ⟨fun h => absurd rfl h, fun _ => ⟨t, _, rfl, queuedAs_of_filed hf hm hp hsched hmagic⟩⟩

end

end SchedParams

-- ---------------------------------------------------------------------------
-- A missing parameter, and a priority out of range
-- ---------------------------------------------------------------------------

/-- Thread 1 runs at priority 5, on its list. -/
def oneReady : SchedParams (Fin 2) where
  sched :=
    { thread := fun t => if t = 1 then { state := .ready, schedPriority := 5, ss := some 5 } else {}
      threadMatrix := fun i => if i = 5 then [1] else []
      currentThread := 1
      idleThread := 0 }
  magicNumber _ := pthreadMagicNumber
  policy _ := 0
  rest _ := {}

theorem oneReady_filed : oneReady.sched.Filed := by
  have hmem (i : Nat) (t : Fin 2) (ht : t ∈ oneReady.sched.threadMatrix i) : i = 5 ∧ t = 1 := by
    by_cases hi : i = 5
    · simpa [oneReady, hi] using ht
    · simp [oneReady, hi] at ht
  refine ⟨⟨fun i t ht => ?_, fun i => ?_⟩, fun t ht => ?_⟩
  · obtain ⟨rfl, rfl⟩ := hmem i t ht
    exact ⟨rfl, rfl, by decide⟩
  · by_cases hi : i = 5 <;> simp [oneReady, hi]
  · have ht1 : t = 1 := by
      by_contra hne
      simp [oneReady, hne] at ht
    exact ⟨5, by simp [oneReady, ht1]⟩

theorem pthreadSetschedparamSys_sound_ready : SchedParams.SetsParam oneReady (some 1)
    (oneReady.pthreadSetschedparamSys (some 1) 0 (some { schedPriority := 7 })) :=
  (SchedParams.pthreadSetschedparamSys_sound oneReady oneReady_filed (some 1) 0
    (some { schedPriority := 7 })).mpr fun _ _ _ => ⟨by decide, by decide⟩

/-- A call without parameters fails and has changed the policy; priority 1029 is stored,
and the thread is on the list of priority 5. -/
theorem setschedparam_changes :
    (oneReady.pthreadSetschedparamSys (some 1) 3 none).2 = .fail .einval ∧
    (oneReady.pthreadSetschedparamSys (some 1) 3 none).1.policy 1 = 3 ∧
    ¬SchedParams.SetsParam oneReady (some 1) (oneReady.pthreadSetschedparamSys (some 1) 3 none) ∧
    (oneReady.pthreadSetschedparamSys (some 1) 0 (some { schedPriority := 1029 })).2 = .ok ∧
    ((oneReady.pthreadSetschedparamSys (some 1) 0 (some { schedPriority := 1029 })).1.schedParam
      1).schedPriority = 1029 ∧
    1 ∈ (oneReady.pthreadSetschedparamSys (some 1) 0
      (some { schedPriority := 1029 })).1.sched.threadMatrix 5 ∧
    ¬SchedParams.SetsParam oneReady (some 1)
      (oneReady.pthreadSetschedparamSys (some 1) 0 (some { schedPriority := 1029 })) := by
  have hpolicy : (oneReady.pthreadSetschedparamSys (some 1) 3 none).1.policy 1 = 3 := by decide
  have hqueued : 1 ∈ (oneReady.pthreadSetschedparamSys (some 1) 0
      (some { schedPriority := 1029 })).1.sched.threadMatrix 5 := by decide
  refine ⟨by decide, hpolicy, fun h => ?_, by decide, by decide, hqueued, fun h => ?_⟩
  · have hsame := congrFun (h.fails (by decide)).policy 1
    rw [hpolicy] at hsame
    exact absurd hsame (by decide)
  · obtain ⟨t, prio, ht, hq⟩ := h.succeeds (by decide)
    obtain rfl := Option.some.inj ht
    have hstored := hq.stored
    have hindex := hq.index 5 hqueued
    rw [← hindex] at hstored
    exact absurd hstored (by decide)

end Xmertl.Partikle
