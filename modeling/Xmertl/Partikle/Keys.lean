import Mathlib.Data.List.FinRange
import Xmertl.Lib.Runs

/-!
# Thread-specific data

The key calls of `pthread.c`: one table of keys for all threads, and in each thread a table of
values. A destructor is code of the user, which may make any of these calls: from its call on
a deletion is two steps, with whatever happens between them.
-/

namespace Xmertl.Partikle

open Runs

/-- MAX_PTHREAD_KEYS is 10. -/
abbrev Key := Fin 10

/-- A pointer is `none` where it is NULL. -/
structure CommonKey (F : Type) where
  inUse : Bool := false
  destructor : Option F := none

/-- `T` are the threads, `V` what values point to and `F` the destructors. `deleting` are the
keys whose destructors a thread has called and not returned from, the last one first. -/
structure Keys (T V F : Type) where
  commonKeyStruct : Key → CommonKey F := fun _ => {}
  tsd : T → Key → Option V := fun _ _ => none
  deleting : T → List Key := fun _ => []

inductive KeyCall (T V F : Type)
  | create (destructor : Option F)
  | setspecific (current : T) (key : Int) (value : Option V)
  | getspecific (current : T) (key : Int)
  | delete (current : T) (key : Int)
  /-- The destructor that the thread called last returns. -/
  | deleted (current : T)
  | createThread (thread : T)

def keyIndex (key : Int) : Option Key :=
  if h : key < 0 ∨ key > 9 then none else some ⟨key.toNat, by omega⟩

section
variable {T V F : Type}

namespace Keys

def checkKey (x : Keys T V F) (key : Int) : Option Key :=
  (keyIndex key).filter fun (k : Key) => (x.commonKeyStruct k).inUse

def findFree (x : Keys T V F) : Option Key :=
  (List.finRange 10).find? fun (k : Key) => !(x.commonKeyStruct k).inUse

def setKey (x : Keys T V F) (k : Key) (s : CommonKey F) : Keys T V F :=
  { x with commonKeyStruct := Function.update x.commonKeyStruct k s }

/-- With the key, or -1. -/
def pthreadKeyCreateSys (x : Keys T V F) (destructor : Option F) : Keys T V F × Int :=
  match x.findFree with
  | none => (x, -1)
  | some k => (x.setKey k { inUse := true, destructor }, k)

def pthreadGetspecificSys (x : Keys T V F) (current : T) (key : Int) : Option V :=
  match x.checkKey key with
  | none => none
  | some k => x.tsd current k

def release (x : Keys T V F) (k : Key) : Keys T V F := x.setKey k {}

variable [DecidableEq T]

def pthreadSetspecificSys (x : Keys T V F) (current : T) (key : Int) (value : Option V) :
    Keys T V F × Int :=
  match x.checkKey key with
  | none => (x, -1)
  | some k =>
    ({ x with
      tsd := Function.update x.tsd current (Function.update (x.tsd current) k value) }, 0)

/-- With the value for the destructor, where that is called. -/
def pthreadKeyDeleteSys (x : Keys T V F) (current : T) (key : Int) :
    Keys T V F × Option (F × Option V) :=
  match x.checkKey key with
  | none => (x, none)
  | some k =>
    match (x.commonKeyStruct k).destructor with
    | none => (x.release k, none)
    | some f =>
      ({ x with deleting := Function.update x.deleting current (k :: x.deleting current) },
        some (f, x.tsd current k))

/-- `pthread_key_delete_sys` from the return of the destructor on. -/
def pthreadKeyDeleted (x : Keys T V F) (current : T) : Option (Keys T V F) :=
  match x.deleting current with
  | [] => none
  | k :: rest => some { x.release k with deleting := Function.update x.deleting current rest }

/-- The zeroing by `create_pthread_struct`. -/
def createPthreadStruct (x : Keys T V F) (thread : T) : Keys T V F :=
  { x with
    tsd := Function.update x.tsd thread fun _ => none
    deleting := Function.update x.deleting thread [] }

def step (x : Keys T V F) : KeyCall T V F → Option (Keys T V F)
  | .create destructor => some (x.pthreadKeyCreateSys destructor).1
  | .setspecific current key value => some (x.pthreadSetspecificSys current key value).1
  | .getspecific _ _ => some x
  | .delete current key => some (x.pthreadKeyDeleteSys current key).1
  | .deleted current => x.pthreadKeyDeleted current
  | .createThread thread => some (x.createPthreadStruct thread)

def deletes (x : Keys T V F) : KeyCall T V F → Option Key
  | .delete _ key => (x.checkKey key).filter fun k => (x.commonKeyStruct k).destructor.isNone
  | .deleted current => (x.deleting current).head?
  | .create _ | .setspecific _ _ _ | .getspecific _ _ | .createThread _ => none

/-- What a thread has stored under a key since this was created, by the calls so far, the last
one first. There is nothing under a key that has been deleted. -/
def stored : List (Keys T V F × KeyCall T V F) → T → Key → Option V
  | [], _, _ => none
  | (x, c) :: past, t, k =>
    match c with
    | .create _ => if x.findFree = some k then none else stored past t k
    | .setspecific current key value =>
      if current = t ∧ x.checkKey key = some k then value else stored past t k
    | .createThread thread => if thread = t then none else stored past t k
    | .getspecific _ _ | .delete _ _ | .deleted _ =>
      if x.deletes c = some k then none else stored past t k

/-- `pthread_getspecific_sys` gives every thread what it has stored. -/
def Right (past : List (Keys T V F × KeyCall T V F)) (x : Keys T V F) : Prop :=
  ∀ t key, x.pthreadGetspecificSys t key = (keyIndex key).bind (stored past t)

/-- The condition on a call: a new key is one under which no thread has a value left. -/
def Fresh (x : Keys T V F) : KeyCall T V F → Prop
  | .create _ => ∀ k, x.findFree = some k → ∀ t, x.tsd t k = none
  | .setspecific _ _ _ | .getspecific _ _ | .delete _ _ | .deleted _ | .createThread _ => True

variable {x y : Keys T V F} {past : List (Keys T V F × KeyCall T V F)} {c : KeyCall T V F}
  {t : T} {k : Key} {key : Int}

-- ---------------------------------------------------------------------------
-- Values
-- ---------------------------------------------------------------------------

def value (x : Keys T V F) (t : T) (k : Key) : Option V :=
  if (x.commonKeyStruct k).inUse then x.tsd t k else none

omit [DecidableEq T] in
theorem getspecific_eq (x : Keys T V F) (t : T) (key : Int) :
    x.pthreadGetspecificSys t key = (keyIndex key).bind (x.value t) := by
  rw [pthreadGetspecificSys, checkKey]
  cases keyIndex key with
  | none => rfl
  | some k =>
    rw [Option.bind_some, value, Option.filter_some]
    cases (x.commonKeyStruct k).inUse with
    | false => rfl
    | true => rfl

theorem keyIndex_natCast (k : Key) : keyIndex (k : Nat) = some k := by
  have h : ¬((k : Nat) < (0 : Int) ∨ ((k : Nat) : Int) > 9) := by omega
  rw [keyIndex, dif_neg h]
  rfl

theorem right_iff : Right past x ↔ ∀ t k, x.value t k = stored past t k := by
  constructor
  · intro h t k
    have hk := h t (k : Nat)
    rw [getspecific_eq, keyIndex_natCast, Option.bind_some, Option.bind_some] at hk
    exact hk
  · intro h t key
    rw [getspecific_eq, funext (h t)]

omit [DecidableEq T] in
theorem checkKey_some : x.checkKey key = some k ↔
    keyIndex key = some k ∧ (x.commonKeyStruct k).inUse = true := by
  rw [checkKey, Option.filter_eq_some_iff]

omit [DecidableEq T] in
theorem value_setKey (s : CommonKey F) (j : Key) : (x.setKey k s).value t j =
    if j = k then if s.inUse then x.tsd t j else none else x.value t j := by
  by_cases hj : j = k
  · subst hj
    simp [value, setKey]
  · simp [value, setKey, hj]

omit [DecidableEq T] in
theorem value_release (j : Key) : (x.release k).value t j = if j = k then none else x.value t j := by
  rw [release, value_setKey]
  rfl

-- ---------------------------------------------------------------------------
-- Calls
-- ---------------------------------------------------------------------------

theorem create_right_iff (hx : Right past x) (destructor : Option F) :
    Right ((x, .create destructor) :: past) (x.pthreadKeyCreateSys destructor).1 ↔
      x.Fresh (.create destructor) := by
  rw [right_iff] at hx ⊢
  rw [pthreadKeyCreateSys, Fresh]
  cases hfree : x.findFree with
  | none =>
    refine ⟨fun _ => nofun, fun _ t k => ?_⟩
    rw [stored, hfree, if_neg nofun]
    exact hx t k
  | some k =>
    dsimp only
    constructor
    · rintro h j hj t
      obtain rfl := Option.some.inj hj
      have hk := h t k
      rw [value_setKey, if_pos rfl, if_pos rfl, stored, if_pos hfree] at hk
      exact hk
    · intro hfresh t j
      rw [value_setKey, stored, hfree]
      by_cases hj : j = k
      · rw [if_pos hj, if_pos rfl, if_pos (hj ▸ rfl), hj]
        exact hfresh k rfl t
      · rw [if_neg hj, if_neg fun h => hj (Option.some.inj h).symm]
        exact hx t j

theorem value_setspecific (hin : (x.commonKeyStruct k).inUse = true) (u t : T) (v : Option V)
    (j : Key) :
    value { x with tsd := Function.update x.tsd u (Function.update (x.tsd u) k v) } t j =
      if u = t ∧ k = j then v else x.value t j := by
  by_cases hu : u = t
  · subst hu
    by_cases hk : k = j
    · subst hk
      simp [value, hin]
    · simp [value, hk, Ne.symm hk]
  · simp [value, hu, Ne.symm hu]

theorem setspecific_right (hx : Right past x) (u : T) (key : Int) (v : Option V) :
    Right ((x, .setspecific u key v) :: past) (x.pthreadSetspecificSys u key v).1 := by
  rw [right_iff] at hx ⊢
  intro t j
  rw [pthreadSetspecificSys, stored]
  cases hcheck : x.checkKey key with
  | none =>
    simp only [reduceCtorEq, and_false, if_false]
    exact hx t j
  | some k =>
    rw [value_setspecific (checkKey_some.mp hcheck).2, hx t j]
    simp only [Option.some.injEq]

theorem right_of_deletes (hx : Right past x)
    (hstored : ∀ t k, stored ((x, c) :: past) t k =
      if x.deletes c = some k then none else stored past t k)
    (hy : ∀ t k, y.value t k = if x.deletes c = some k then none else x.value t k) :
    Right ((x, c) :: past) y := by
  rw [right_iff] at hx ⊢
  intro t k
  rw [hstored, hy, hx]

theorem delete_right (hx : Right past x) (u : T) (key : Int) :
    Right ((x, .delete u key) :: past) (x.pthreadKeyDeleteSys u key).1 := by
  refine right_of_deletes hx (fun _ _ => rfl) fun t j => ?_
  rw [pthreadKeyDeleteSys, deletes]
  cases x.checkKey key with
  | none => rw [Option.filter_none, if_neg nofun]
  | some k =>
    rw [Option.filter_some]
    cases hf : (x.commonKeyStruct k).destructor with
    | none =>
      simp only [hf, Option.isNone_none, if_pos, Option.some.injEq]
      rw [value_release]
      simp only [eq_comm]
    | some f =>
      simp only [hf, Option.isNone_some, Bool.false_eq_true, if_false, reduceCtorEq]
      rfl

theorem deleted_right (hx : Right past x) {u : T} (hs : x.pthreadKeyDeleted u = some y) :
    Right ((x, .deleted u) :: past) y := by
  refine right_of_deletes hx (fun _ _ => rfl) fun t j => ?_
  rw [pthreadKeyDeleted] at hs
  rw [deletes]
  cases hk : x.deleting u with
  | nil =>
    rw [hk] at hs
    contradiction
  | cons k rest =>
    rw [hk] at hs
    obtain rfl := Option.some.inj hs
    rw [List.head?_cons]
    have hvalue := value_release (x := x) (k := k) (t := t) j
    simp only [Option.some.injEq, eq_comm (a := k)]
    exact hvalue

theorem createThread_right (hx : Right past x) (u : T) :
    Right ((x, .createThread u) :: past) (x.createPthreadStruct u) := by
  rw [right_iff] at hx ⊢
  intro t k
  rw [stored, ← hx t k, value, value, createPthreadStruct]
  dsimp only
  by_cases ht : t = u
  · rw [if_pos ht.symm, ht, Function.update_self, ite_self]
  · rw [if_neg (Ne.symm ht), Function.update_of_ne ht]

theorem right_step_iff (hx : Right past x) (hs : x.step c = some y) :
    Right ((x, c) :: past) y ↔ x.Fresh c := by
  cases c with
  | create destructor => exact Option.some.inj hs ▸ create_right_iff hx destructor
  | setspecific u key v =>
    exact iff_of_true (Option.some.inj hs ▸ setspecific_right hx u key v) trivial
  | getspecific u key =>
    obtain rfl := Option.some.inj hs
    exact iff_of_true (right_of_deletes hx (fun _ _ => rfl) fun _ _ => (if_neg nofun).symm) trivial
  | delete u key => exact iff_of_true (Option.some.inj hs ▸ delete_right hx u key) trivial
  | deleted u => exact iff_of_true (deleted_right hx hs) trivial
  | createThread u =>
    exact iff_of_true (Option.some.inj hs ▸ createThread_right hx u) trivial

-- ---------------------------------------------------------------------------
-- Runs
-- ---------------------------------------------------------------------------

theorem start_right : Right [] ({} : Keys T V F) := right_iff.mpr fun _ _ => rfl

/-- At every point of a run each thread gets what it has stored under a key since this was
created, if and only if no key is created under which a thread still has an earlier value. -/
theorem getspecific_iff {tr : List (Keys T V F × KeyCall T V F)} (hr : Run step {} tr x) :
    (∀ past y, past <:+ tr → Run step {} past y → Right past y) ↔ ∀ e ∈ tr, e.1.Fresh e.2 := by
  constructor
  · rintro h ⟨y, c⟩ he
    obtain ⟨later, past, rfl⟩ := List.append_of_mem he
    have hsub : (y, c) :: past <:+ later ++ (y, c) :: past := List.suffix_append ..
    obtain ⟨hpast, z, hs, -⟩ := hr.of_suffix hsub
    have hright := h past y ((List.suffix_cons _ _).trans hsub) hpast
    exact (right_step_iff hright hs).mp (h _ z hsub (hpast.next hs))
  · intro h past y hsub hpast
    refine hpast.history (I := Right) (C := fun _ x c => x.Fresh c) start_right
      (fun _ _ _ _ hx hc hs => (right_step_iff hx hs).mpr hc) fun e _ he => ?_
    exact h e (hsub.subset (he.subset List.mem_cons_self))

end Keys

end

theorem getspecific_own_values : ∃ tr x, Run Keys.step ({} : Keys Bool Nat Unit) tr x ∧
    x.pthreadGetspecificSys true 0 = some 7 ∧ x.pthreadGetspecificSys false 0 = none ∧
    ((∀ past y, past <:+ tr → Run Keys.step {} past y → Keys.Right past y) ↔
      ∀ e ∈ tr, e.1.Fresh e.2) := by
  have h : ((exec Keys.step ({} : Keys Bool Nat Unit)
      [.create (some ()), .setspecific true 0 (some 5), .setspecific true 0 (some 7),
        .create none]).any fun r => decide (r.2.pthreadGetspecificSys true 0 = some 7 ∧
          r.2.pthreadGetspecificSys false 0 = none)) = true := by
    decide
  obtain ⟨tr, x, hr, hx⟩ := exec_any h
  obtain ⟨htrue, hfalse⟩ := of_decide_eq_true hx
  exact ⟨tr, x, hr, htrue, hfalse, Keys.getspecific_iff hr⟩

/-- A key is deleted and created again: the value stored under it before is there. -/
theorem getspecific_stale : ∃ tr x, Run Keys.step ({} : Keys Bool Nat Unit) tr x ∧
    x.pthreadGetspecificSys true 0 = some 7 ∧ Keys.stored tr true 0 = none := by
  have h : ((exec Keys.step ({} : Keys Bool Nat Unit)
      [.create none, .setspecific true 0 (some 7), .delete false 0, .create none]).any fun r =>
      decide (r.2.pthreadGetspecificSys true 0 = some 7 ∧ Keys.stored r.1 true 0 = none)) =
      true := by
    decide
  obtain ⟨tr, x, hr, hx⟩ := exec_any h
  obtain ⟨hvalue, hstored⟩ := of_decide_eq_true hx
  exact ⟨tr, x, hr, hvalue, hstored⟩

end Xmertl.Partikle
