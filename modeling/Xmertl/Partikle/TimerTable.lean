import Mathlib.Data.Int.ConditionallyCompleteOrder
import Mathlib.Data.Int.Interval
import Xmertl.Lib.Runs
import Xmertl.Partikle.Ktimer

/-!
# The timer table and its heap

The heap holds the timers that are armed, as long as no call arms a timer that
already is. `sleep_for` does: a sleep that a signal ends leaves its timer armed,
and the next sleep inserts it once more. Indices below the table are not looked
for either, and `alloc_ktimer` gives one when the table is full.
-/

namespace Xmertl.Partikle

open Runs

section
variable {T : Type}

def armedIn (timerArray : Int → Ktimer T) : Set Int := { id | InTable id ∧ (timerArray id).armed }

structure TimerTable.Agrees (x : TimerTable T) : Prop where
  contains : x.timerHeap.Contains (armedIn x.timerArray)
  inUse : ∀ id ∈ armedIn x.timerArray, (x.timerArray id).inUse

/-- The timer is in the table, and to arm it does not arm it twice. -/
def TimerTable.MayArm (x : TimerTable T) (id : Int) : Prop :=
  InTable id ∧ ((x.timerArray id).inUse → ¬(x.timerArray id).armed)

def TimerTable.HasFree (x : TimerTable T) : Prop :=
  ∃ timerid < maxTimers, (x.timerArray timerid).inUse = false

def TimerTable.Keeps (x : TimerTable T) : TimerCall T → Prop
  | .arm id _ _ _ => x.MayArm id
  | .sleep current _ _ => x.MayArm (x.sleepKtimer current)
  | .exitThread current => InTable (x.sleepKtimer current)
  | .free id | .disarm id => InTable id
  | .create _ _ _ => x.HasFree
  | .delete timerid | .settime timerid _ _ _ => 0 ≤ timerid
  | .createThread _ | .alloc _ _ _ | .wake _ | .update _ _ _ => True

instance (x : TimerTable T) (id : Int) : Decidable (x.MayArm id) :=
  inferInstanceAs (Decidable (_ ∧ (_ → ¬_)))

instance (x : TimerTable T) : Decidable x.HasFree :=
  inferInstanceAs (Decidable (∃ timerid < maxTimers, _))

instance (x : TimerTable T) : DecidablePred x.Keeps
  | .arm id _ _ _ => inferInstanceAs (Decidable (x.MayArm id))
  | .sleep current _ _ => inferInstanceAs (Decidable (x.MayArm (x.sleepKtimer current)))
  | .exitThread current => inferInstanceAs (Decidable (InTable (x.sleepKtimer current)))
  | .free id | .disarm id => inferInstanceAs (Decidable (InTable id))
  | .create _ _ _ => inferInstanceAs (Decidable x.HasFree)
  | .delete timerid | .settime timerid _ _ _ => inferInstanceAs (Decidable (0 ≤ timerid))
  | .createThread _ | .alloc _ _ _ | .wake _ | .update _ _ _ => .isTrue trivial

variable {x : TimerTable T} {timerArray : Int → Ktimer T} {k : Ktimer T} {s : Set Int}
  {id timerid : Int}

-- ---------------------------------------------------------------------------
-- The armed timers
-- ---------------------------------------------------------------------------

theorem mem_armedIn : id ∈ armedIn timerArray ↔ InTable id ∧ (timerArray id).armed := Iff.rfl

theorem armedIn_update (hid : InTable id) : armedIn (Function.update timerArray id k) =
    if k.armed then insert id (armedIn timerArray) else armedIn timerArray \ {id} := by
  ext j
  by_cases hj : j = id
  · subst hj
    cases hk : k.armed with
    | true => simp [mem_armedIn, hk, hid]
    | false => simp [mem_armedIn, hk]
  · cases hk : k.armed with
    | true => simp [mem_armedIn, hj]
    | false => simp [mem_armedIn, hj]

theorem armedIn_update_same (h : k.armed = (timerArray id).armed) :
    armedIn (Function.update timerArray id k) = armedIn timerArray := by
  ext j
  by_cases hj : j = id
  · subst hj
    simp [mem_armedIn, h]
  · simp [mem_armedIn, hj]

theorem armedIn_subset (timerArray : Int → Ktimer T) : armedIn timerArray ⊆ Set.Ico 0 maxTimers :=
  fun _ hid => hid.1

theorem ncard_table : (Set.Ico (0 : Int) maxTimers).ncard = maxTimers := by
  rw [← Finset.coe_Ico, Set.ncard_coe_finset]
  decide

theorem TimerTable.Agrees.nelem_le (hx : x.Agrees) : x.timerHeap.nelem ≤ maxTimers := by
  rw [hx.contains.nelem_eq, ← ncard_table]
  exact Set.ncard_le_ncard (armedIn_subset _) (Set.finite_Ico _ _)

theorem TimerTable.Agrees.nelem_bound (hx : x.Agrees) : x.timerHeap.nelem < heapMaxNelem :=
  Nat.lt_succ_of_le hx.nelem_le

theorem TimerTable.Agrees.nelem_lt (hx : x.Agrees) (hid : InTable id)
    (ha : ¬(x.timerArray id).armed) : x.timerHeap.nelem + 1 < heapMaxNelem := by
  have hnot : id ∉ armedIn x.timerArray := fun h => ha h.2
  have hsub : armedIn x.timerArray ⊂ Set.Ico 0 maxTimers :=
    (armedIn_subset _).ssubset_of_mem_notMem hid hnot
  have hlt := Set.ncard_lt_ncard hsub (Set.finite_Ico _ _)
  rw [ncard_table, ← hx.contains.nelem_eq] at hlt
  exact Nat.succ_lt_succ hlt

theorem TimerTable.Agrees.set {h : Heap Int} (hx : x.Agrees)
    (hs : h.Contains (armedIn (Function.update x.timerArray id k))) (hk : k.armed → k.inUse) :
    (TimerTable.set { x with timerHeap := h } id k).Agrees := by
  refine ⟨hs, fun j hj => ?_⟩
  obtain ⟨hin, harmed⟩ := mem_armedIn.mp hj
  by_cases hji : j = id
  · subst hji
    simp only [TimerTable.set, Function.update_self] at harmed ⊢
    exact hk harmed
  · simp only [TimerTable.set, Function.update_of_ne hji] at harmed ⊢
    exact hx.inUse j ⟨hin, harmed⟩

theorem TimerTable.Agrees.set_same (hx : x.Agrees) (ha : k.armed = (x.timerArray id).armed)
    (hu : (x.timerArray id).inUse → k.inUse) (hid : InTable id) : (x.set id k).Agrees := by
  refine hx.set (h := x.timerHeap) ?_ fun hk => hu (hx.inUse id ⟨hid, ha ▸ hk⟩)
  rw [armedIn_update_same ha]
  exact hx.contains

theorem TimerTable.deref_of_inTable (hid : InTable id) : x.deref id = some (x.timerArray id) := by
  simp [TimerTable.deref, hid]

-- ---------------------------------------------------------------------------
-- The functions on timers
-- ---------------------------------------------------------------------------

theorem TimerTable.initTime_agrees (x : TimerTable T) : x.initTime.Agrees := by
  have hnone : armedIn x.initTime.timerArray = ∅ := by
    ext id
    simp [mem_armedIn, TimerTable.initTime]
  refine ⟨?_, by simp [hnone]⟩
  rw [hnone, Heap.Contains, Set.image_empty]
  exact HeapOrder.Holds.empty _

theorem TimerTable.remove_spec (hx : x.Agrees) (id : Int) :
    ∃ h, x.remove id = some { x with timerHeap := h } ∧
      h.Contains (armedIn x.timerArray \ {id}) := by
  by_cases hid : id ∈ armedIn x.timerArray
  · obtain ⟨h, hrun, -, hs⟩ :=
      heapRemoveElement_present x.timerValue hx.contains hid hx.nelem_bound
    exact ⟨h, by simp [TimerTable.remove, hrun], hs⟩
  · have hrun := heapRemoveElement_absent x.timerValue hx.contains hid hx.nelem_bound
    refine ⟨x.timerHeap, by simp [TimerTable.remove, hrun], ?_⟩
    rw [Set.sdiff_singleton_eq_self hid]
    exact hx.contains

theorem TimerTable.freeKtimer_spec (hx : x.Agrees) (hid : InTable id) :
    ∃ y, x.freeKtimer id = some y ∧ y.Agrees := by
  obtain ⟨h, hrun, hs⟩ := TimerTable.remove_spec hx id
  let k := { x.timerArray id with inUse := false, armed := false, abstime := false }
  refine ⟨TimerTable.set { x with timerHeap := h } id k, ?_, hx.set ?_ fun hk => ?_⟩
  · simp only [TimerTable.freeKtimer, hrun, Option.bind_eq_bind, Option.bind_some,
      TimerTable.deref_of_inTable hid, Option.pure_def, k]
  · rw [armedIn_update hid]
    exact hs
  · simp [k] at hk

theorem TimerTable.disarmTimer_spec (hx : x.Agrees) (hid : InTable id) :
    ∃ h, x.disarmTimer id = some (TimerTable.set { x with timerHeap := h } id
        { x.timerArray id with armed := false }) ∧
      (TimerTable.set { x with timerHeap := h } id
        { x.timerArray id with armed := false }).Agrees := by
  obtain ⟨h, hrun, hs⟩ := TimerTable.remove_spec hx id
  refine ⟨h, ?_, hx.set ?_ fun hk => by simp at hk⟩
  · simp only [TimerTable.disarmTimer, hrun, Option.bind_eq_bind, Option.bind_some,
      TimerTable.deref_of_inTable hid, Option.pure_def]
  · rw [armedIn_update hid]
    exact hs

theorem TimerTable.Agrees.not_armed (hx : x.Agrees) (hid : InTable id)
    (hu : (x.timerArray id).inUse = false) : (x.timerArray id).armed = false := by
  cases ha : (x.timerArray id).armed with
  | false => rfl
  | true =>
    have hused := hx.inUse id ⟨hid, ha⟩
    rw [hu] at hused
    contradiction

variable (x) in
theorem TimerTable.allocKtimer_cases (clockid : Clock) (thread : T) (act : KtimerAction) :
    (∃ timerid : Nat, InTable timerid ∧ (x.timerArray timerid).inUse = false ∧
      x.allocKtimer clockid thread act = (x.set timerid
        { owner := thread, inUse := true, readClock := clockid, action := act }, (timerid : Int))) ∨
    (¬x.HasFree ∧ x.allocKtimer clockid thread act = (x, -1)) := by
  unfold TimerTable.allocKtimer
  split
  · rename_i hnone
    refine .inr ⟨?_, rfl⟩
    rintro ⟨timerid, hlt, hu⟩
    have hused := List.find?_eq_none.mp hnone timerid (List.mem_range.mpr hlt)
    simp [hu] at hused
  · rename_i timerid hsome
    have hu := List.find?_some hsome
    have hlt := List.mem_range.mp (List.mem_of_find?_eq_some hsome)
    exact .inl ⟨timerid, ⟨by omega, by omega⟩, by simpa using hu, rfl⟩

theorem TimerTable.allocKtimer_agrees (hx : x.Agrees) (clockid : Clock) (thread : T)
    (act : KtimerAction) : (x.allocKtimer clockid thread act).1.Agrees := by
  rcases x.allocKtimer_cases clockid thread act with ⟨timerid, hid, hu, heq⟩ | ⟨-, heq⟩
  · rw [heq]
    exact hx.set_same (hx.not_armed hid hu).symm (fun _ => rfl) hid
  · rw [heq]
    exact hx

theorem TimerTable.insert_spec (h : x.timerHeap.Contains s) (hid : id ∉ s)
    (hn : x.timerHeap.nelem + 1 < heapMaxNelem) :
    ∃ h', x.insert id = some { x with timerHeap := h' } ∧ h'.Contains (Insert.insert id s) ∧
      (x.timerHeap.IsOrdered x.timerValue → h'.IsOrdered x.timerValue) := by
  obtain ⟨h', hrun, -, hs, ho⟩ := heapInsert_spec x.timerValue h hid hn
  exact ⟨h', by simp [TimerTable.insert, hrun], hs, ho⟩

theorem TimerTable.armTimer_spec (hx : x.Agrees) (hid : x.MayArm id) (value interval : Int)
    (now : Readings T) : ∃ y r, x.armTimer id value interval now = some (y, r) ∧ y.Agrees := by
  rw [TimerTable.armTimer, TimerTable.deref_of_inTable hid.1, Option.bind_eq_bind,
    Option.bind_some]
  by_cases hu : (x.timerArray id).inUse
  · have ha := hid.2 hu
    have hnot : id ∉ armedIn x.timerArray := fun h => ha h.2
    let k := { x.timerArray id with
      timerValue := if (x.timerArray id).abstime then value
        else value + now (x.timerArray id).readClock (x.timerArray id).owner
      armed := true
      timerInterval := interval }
    obtain ⟨h, hrun, hs, -⟩ := TimerTable.insert_spec (x := x.set id k) hx.contains hnot
      (hx.nelem_lt hid.1 ha)
    refine ⟨TimerTable.set { x with timerHeap := h } id k, 0, ?_, hx.set ?_ fun _ => hu⟩
    · have huse : ¬(!(x.timerArray id).inUse) = true := by simp [hu]
      simp only [k] at hrun
      rw [if_neg huse]
      dsimp only
      rw [hrun]
      rfl
    · rw [armedIn_update hid.1, if_pos rfl]
      exact hs
  · exact ⟨x, -1, by simp [hu], hx⟩

theorem TimerTable.sleepFor_spec (hx : x.Agrees) [DecidableEq T] (current : T)
    (hid : x.MayArm (x.sleepKtimer current)) (d : Int) (now : Readings T) :
    ∃ y, x.sleepFor current d now = some y ∧ y.Agrees := by
  obtain ⟨y, r, hrun, hy⟩ := TimerTable.armTimer_spec hx hid d 0 now
  exact ⟨{ y with asleep := Function.update y.asleep current true },
    by simp [TimerTable.sleepFor, hrun], ⟨hy.contains, hy.inUse⟩⟩

theorem TimerTable.timerCreateSys_spec (hx : x.Agrees) (hf : x.HasFree) (current : T)
    (clockid : Clock) (signo : Option Int) :
    ∃ y, x.timerCreateSys current clockid signo = some y ∧ y.Agrees := by
  have hy := TimerTable.allocKtimer_agrees hx clockid current .kill
  rcases x.allocKtimer_cases clockid current .kill with ⟨timerid, hid, -, heq⟩ | ⟨hnot, -⟩
  · rw [TimerTable.timerCreateSys, heq]
    rw [heq] at hy
    have hlt : ¬(timerid : Int) ≥ maxTimers := not_le.mpr hid.2
    simp only [if_neg hlt, TimerTable.deref_of_inTable hid, Option.bind_eq_bind, Option.bind_some]
    exact ⟨_, rfl, hy.set_same rfl (fun h => h) hid⟩
  · exact absurd hf hnot

theorem TimerTable.timerDeleteSys_spec (hx : x.Agrees) (hid : 0 ≤ timerid) :
    ∃ y, x.timerDeleteSys timerid = some y ∧ y.Agrees := by
  rw [TimerTable.timerDeleteSys]
  split
  · exact ⟨x, rfl, hx⟩
  · rename_i hlt
    have hin : InTable timerid := ⟨hid, not_le.mp hlt⟩
    rw [TimerTable.deref_of_inTable hin, Option.bind_eq_bind, Option.bind_some]
    split
    · exact ⟨x, rfl, hx⟩
    · exact TimerTable.freeKtimer_spec hx hin

theorem TimerTable.settimeDisarmed_spec (hx : x.Agrees) (hid : InTable timerid)
    (ha : ¬(x.timerArray timerid).armed) (abstime : Bool) (value : Option Itimerspec)
    (now : Readings T) :
    ∃ y, x.settimeDisarmed timerid abstime value now = some y ∧ y.Agrees := by
  have hy : (x.set timerid { x.timerArray timerid with abstime }).Agrees :=
    hx.set_same rfl (fun h => h) hid
  rw [TimerTable.settimeDisarmed, TimerTable.deref_of_inTable hid, Option.bind_eq_bind,
    Option.bind_some]
  cases value with
  | none => exact ⟨_, rfl, hy⟩
  | some value =>
    dsimp only
    split
    · have hmay : (x.set timerid { x.timerArray timerid with abstime }).MayArm timerid :=
        ⟨hid, fun _ => by simpa [TimerTable.set] using ha⟩
      obtain ⟨z, r, harm, hz⟩ := TimerTable.armTimer_spec hy hmay value.itValue.nsecs
        value.itInterval.nsecs now
      exact ⟨z, by rw [harm]; rfl, hz⟩
    · exact ⟨_, rfl, hy⟩

theorem TimerTable.timerSettimeSys_spec (hx : x.Agrees) (hid : 0 ≤ timerid) (abstime : Bool)
    (value : Option Itimerspec) (now : Readings T) :
    ∃ y, x.timerSettimeSys timerid abstime value now = some y ∧ y.Agrees := by
  rw [TimerTable.timerSettimeSys]
  split
  · exact ⟨x, rfl, hx⟩
  rename_i hlt
  have hin : InTable timerid := ⟨hid, not_le.mp hlt⟩
  rw [TimerTable.deref_of_inTable hin, Option.bind_eq_bind, Option.bind_some]
  split
  · exact ⟨x, rfl, hx⟩
  split
  · obtain ⟨h, hrun, hy⟩ := TimerTable.disarmTimer_spec hx hin
    rw [hrun, Option.bind_eq_bind, Option.bind_some]
    exact TimerTable.settimeDisarmed_spec hy hin (by simp [TimerTable.set]) abstime value now
  · rename_i ha
    exact TimerTable.settimeDisarmed_spec hx hin ha abstime value now

theorem TimerTable.createThread_agrees [DecidableEq T] (hx : x.Agrees) (thread : T) :
    (x.createThread thread).Agrees := by
  have hy := TimerTable.allocKtimer_agrees hx .monotonic thread .wakeup
  exact ⟨hy.contains, hy.inUse⟩

theorem TimerTable.exitThread_spec [DecidableEq T] (hx : x.Agrees) (current : T)
    (hid : InTable (x.sleepKtimer current)) : ∃ y, x.exitThread current = some y ∧ y.Agrees := by
  obtain ⟨y, hrun, hy⟩ := TimerTable.freeKtimer_spec hx hid
  exact ⟨{ y with finished := Function.update y.finished current true },
    by simp [TimerTable.exitThread, hrun], ⟨hy.contains, hy.inUse⟩⟩

-- ---------------------------------------------------------------------------
-- The loop of `update_hwtimer`
-- ---------------------------------------------------------------------------

theorem TimerTable.Agrees.min_cases (hx : x.Agrees) :
    (heapMin x.timerHeap = some none ∧ armedIn x.timerArray = ∅) ∨
    ∃ id ∈ armedIn x.timerArray, heapMin x.timerHeap = some (some id) ∧
      x.timerHeap.array 1 = some id := by
  by_cases hpos : 0 < x.timerHeap.nelem
  · obtain ⟨id, hid, harray⟩ := hx.contains.timer (le_refl 1) hpos
    refine .inr ⟨id, hid, ?_, harray⟩
    have hone : 1 < heapConf.size := lt_of_le_of_lt hpos hx.nelem_bound
    rw [heapMin, if_pos hpos, Heap.get_of_lt _ hone, harray]
  · refine .inl ⟨by rw [heapMin, if_neg hpos], ?_⟩
    rwa [hx.contains.nonempty_iff, Set.not_nonempty_iff_eq_empty] at hpos

def TimerTable.next (x : TimerTable T) (k : Ktimer T) (ctime : Int) : Ktimer T :=
  if k.timerInterval > 0 ∧ !x.finished k.owner then
    { k with timerValue := k.timerInterval + ctime }
  else { k with armed := false }

theorem TimerTable.next_armed (x : TimerTable T) (k : Ktimer T) (ctime : Int) :
    (x.next k ctime).armed =
      if k.timerInterval > 0 ∧ !x.finished k.owner then k.armed else false := by
  unfold TimerTable.next
  split <;> rfl

theorem TimerTable.set_timerValue {j : Int} (hj : j ≠ id) (k : Ktimer T) :
    (x.set id k).timerValue j = x.timerValue j :=
  congrArg Ktimer.timerValue (Function.update_of_ne hj ..)

theorem TimerTable.rearm_spec (hx : x.Agrees) (hid : id ∈ armedIn x.timerArray)
    (hfirst : x.timerHeap.array 1 = some id) (hk : k = x.timerArray id) (ctime : Int) :
    ∃ h, x.rearm k ctime id =
        some (TimerTable.set { x with timerHeap := h } id (x.next k ctime)) ∧
      h.Contains (armedIn (Function.update x.timerArray id (x.next k ctime))) ∧
      (x.timerHeap.IsOrdered x.timerValue → h.IsOrdered (x.set id (x.next k ctime)).timerValue) := by
  have hpos : 0 < x.timerHeap.nelem := hx.contains.nonempty_iff.mpr ⟨id, hid⟩
  obtain ⟨h, m, hrun, hm, -, hnelem, hs, ho⟩ :=
    heapRemoveMin_spec x.timerValue hx.contains hx.nelem_bound hpos
  obtain rfl : id = m := Option.some.inj (hfirst.symm.trans hm)
  have ho' : ∀ k, x.timerHeap.IsOrdered x.timerValue → h.IsOrdered (x.set id k).timerValue :=
    fun k hord => (ho hord).congr hs fun j hj => TimerTable.set_timerValue hj.2 k
  rw [TimerTable.rearm, hrun, Option.bind_eq_bind, Option.bind_some, armedIn_update hid.1,
    TimerTable.next_armed, TimerTable.next]
  dsimp only
  split
  · have hroom : h.nelem + 1 < heapMaxNelem := by
      rw [hnelem, Nat.sub_add_cancel hpos]
      exact hx.nelem_bound
    obtain ⟨h', hins, hs', hord⟩ := TimerTable.insert_spec (x := TimerTable.set
      { x with timerHeap := h } id { k with timerValue := k.timerInterval + ctime }) hs
      (by simp : id ∉ armedIn x.timerArray \ {id}) hroom
    refine ⟨h', hins, ?_, fun hx => hord (ho' _ hx)⟩
    rw [hk, if_pos hid.2]
    rwa [Set.insert_sdiff_singleton] at hs'
  · exact ⟨h, rfl, by simpa using hs, ho' _⟩

def TimerTable.ctime (x : TimerTable T) (now : Readings T) (id : Int) : Int :=
  now (x.timerArray id).readClock (x.timerArray id).owner

def TimerTable.Due (x : TimerTable T) (now : Readings T) (id : Int) : Prop :=
  x.timerValue id ≤ x.ctime now id

instance (x : TimerTable T) (now : Readings T) (id : Int) : Decidable (x.Due now id) :=
  inferInstanceAs (Decidable (_ ≤ _))

variable [DecidableEq T]

@[simp] theorem TimerTable.act_timerArray (x : TimerTable T) (k : Ktimer T) :
    (x.act k).timerArray = x.timerArray := by
  unfold TimerTable.act
  split <;> rfl

@[simp] theorem TimerTable.act_timerHeap (x : TimerTable T) (k : Ktimer T) :
    (x.act k).timerHeap = x.timerHeap := by
  unfold TimerTable.act
  split <;> rfl

@[simp] theorem TimerTable.act_finished (x : TimerTable T) (k : Ktimer T) :
    (x.act k).finished = x.finished := by
  unfold TimerTable.act
  split <;> rfl

@[simp] theorem TimerTable.act_sleepKtimer (x : TimerTable T) (k : Ktimer T) :
    (x.act k).sleepKtimer = x.sleepKtimer := by
  unfold TimerTable.act
  split <;> rfl

theorem TimerTable.act_timerValue (x : TimerTable T) (k : Ktimer T) :
    (x.act k).timerValue = x.timerValue := by
  funext id
  rw [TimerTable.timerValue, TimerTable.timerValue, TimerTable.act_timerArray]

theorem TimerTable.Agrees.act (hx : x.Agrees) (k : Ktimer T) : (x.act k).Agrees :=
  ⟨by simpa using hx.contains, by simpa using hx.inUse⟩

/-- After a round, in which the timer has expired and `h` was left. -/
def TimerTable.expire (x : TimerTable T) (ctime : Int) (id : Int) (h : Heap Int) : TimerTable T :=
  TimerTable.set { x.act (x.timerArray id) with timerHeap := h } id
    (x.next (x.timerArray id) ctime)

theorem TimerTable.expire_timerArray (x : TimerTable T) (ctime : Int) (h : Heap Int) :
    (x.expire ctime id h).timerArray =
      Function.update x.timerArray id (x.next (x.timerArray id) ctime) := by
  rw [TimerTable.expire, TimerTable.set, TimerTable.act_timerArray]

theorem updateLoop_some (now : Nat → Readings T) (rounds n : Nat) (acted : List Int)
    (hid : InTable id) (hmin : heapMin x.timerHeap = some (some id)) :
    TimerTable.updateLoop now (rounds + 1) n x acted =
      if x.Due (now n) id then
        ((x.act (x.timerArray id)).rearm (x.timerArray id) (x.ctime (now n) id) id).bind
          fun y => TimerTable.updateLoop now rounds (n + 1) y (acted ++ [id])
      else some (x, acted, .first (x.timerValue id - x.ctime (now n) id)) := by
  rw [TimerTable.updateLoop, hmin, Option.bind_eq_bind, Option.bind_some]
  dsimp only
  rw [TimerTable.deref_of_inTable hid]
  rfl

theorem updateLoop_round (hx : x.Agrees) (now : Nat → Readings T) (n : Nat) :
    (armedIn x.timerArray = ∅ ∧ ∀ rounds acted,
      TimerTable.updateLoop now (rounds + 1) n x acted = some (x, acted, .empty)) ∨
    ∃ id ∈ armedIn x.timerArray, x.timerHeap.array 1 = some id ∧
      (¬x.Due (now n) id → ∀ rounds acted, TimerTable.updateLoop now (rounds + 1) n x acted =
        some (x, acted, .first (x.timerValue id - x.ctime (now n) id))) ∧
      (x.Due (now n) id → ∃ h,
        (∀ rounds acted, TimerTable.updateLoop now (rounds + 1) n x acted =
          TimerTable.updateLoop now rounds (n + 1) (x.expire (x.ctime (now n) id) id h)
            (acted ++ [id])) ∧
        (x.expire (x.ctime (now n) id) id h).Agrees ∧
        (x.timerHeap.IsOrdered x.timerValue →
          h.IsOrdered (x.expire (x.ctime (now n) id) id h).timerValue)) := by
  rcases hx.min_cases with ⟨hmin, hnone⟩ | ⟨id, hid, hmin, hfirst⟩
  · exact .inl ⟨hnone, fun rounds acted => by rw [TimerTable.updateLoop, hmin]; rfl⟩
  refine .inr ⟨id, hid, hfirst, fun hdue rounds acted => ?_, fun hdue => ?_⟩
  · rw [updateLoop_some now rounds n acted hid.1 hmin, if_neg hdue]
  have hact := hx.act (x.timerArray id)
  have hid' : id ∈ armedIn (x.act (x.timerArray id)).timerArray := by
    rwa [TimerTable.act_timerArray]
  obtain ⟨h, hrun, hs, ho⟩ := TimerTable.rearm_spec (k := x.timerArray id) hact hid'
    (by rwa [TimerTable.act_timerHeap]) (by rw [TimerTable.act_timerArray]) (x.ctime (now n) id)
  have hnext : (x.act (x.timerArray id)).next = x.next := by
    funext k ctime
    rw [TimerTable.next, TimerTable.next, TimerTable.act_finished]
  rw [hnext] at hrun hs ho
  refine ⟨h, fun rounds acted => ?_, hact.set hs fun harmed => ?_, fun hord => ho ?_⟩
  · rw [updateLoop_some now rounds n acted hid.1 hmin, if_pos hdue, hrun]
    rfl
  · have hused := hx.inUse id hid
    rw [TimerTable.next]
    split
    · exact hused
    · exact hused
  · rwa [TimerTable.act_timerHeap, TimerTable.act_timerValue]

theorem updateLoop_agrees (now : Nat → Readings T) (rounds : Nat) (hx : x.Agrees) (n : Nat)
    (acted : List Int) :
    ∃ r, TimerTable.updateLoop now rounds n x acted = some r ∧ r.1.Agrees := by
  induction rounds generalizing x n acted with
  | zero => exact ⟨_, rfl, hx⟩
  | succ rounds ih =>
    rcases updateLoop_round hx now n with ⟨-, hrun⟩ | ⟨id, -, -, hstop, hgo⟩
    · exact ⟨_, hrun rounds acted, hx⟩
    · by_cases hdue : x.Due (now n) id
      · obtain ⟨h, hround, hy, -⟩ := hgo hdue
        rw [hround]
        exact ih hy (n + 1) (acted ++ [id])
      · exact ⟨_, hstop hdue rounds acted, hx⟩

omit [DecidableEq T] in
theorem TimerTable.program_agrees (hx : x.Agrees) (dev : Hwtimer) (left : LoopEnd) :
    (x.program dev left).Agrees := by
  cases left <;> exact ⟨hx.contains, hx.inUse⟩

theorem TimerTable.updateHwtimer_spec (hx : x.Agrees) (dev : Hwtimer) (rounds : Nat)
    (now : Nat → Readings T) : ∃ r, x.updateHwtimer dev rounds now = some r ∧ r.1.Agrees := by
  obtain ⟨⟨y, acted, left⟩, hrun, hy⟩ := updateLoop_agrees now rounds hx 0 []
  exact ⟨(y.program dev left, acted, left), by rw [TimerTable.updateHwtimer, hrun]; rfl,
    TimerTable.program_agrees hy dev left⟩

-- ---------------------------------------------------------------------------
-- Runs
-- ---------------------------------------------------------------------------

theorem TimerTable.Agrees.call {a : TimerCall T} (hx : x.Agrees) (ha : x.Keeps a) :
    ∃ y, x.call a = some y ∧ y.Agrees := by
  cases a with
  | createThread thread => exact ⟨_, rfl, TimerTable.createThread_agrees hx thread⟩
  | exitThread current => exact TimerTable.exitThread_spec hx current ha
  | alloc clockid thread act => exact ⟨_, rfl, TimerTable.allocKtimer_agrees hx clockid thread act⟩
  | free id => exact TimerTable.freeKtimer_spec hx ha
  | arm id value interval now =>
    obtain ⟨y, r, hrun, hy⟩ := TimerTable.armTimer_spec hx ha value interval now
    exact ⟨y, by rw [TimerTable.call, hrun]; rfl, hy⟩
  | disarm id =>
    obtain ⟨h, hrun, hy⟩ := TimerTable.disarmTimer_spec hx ha
    exact ⟨_, hrun, hy⟩
  | sleep current d now => exact TimerTable.sleepFor_spec hx current ha d now
  | wake thread => exact ⟨_, rfl, hx.contains, hx.inUse⟩
  | create current clockid signo => exact TimerTable.timerCreateSys_spec hx ha current clockid signo
  | delete timerid => exact TimerTable.timerDeleteSys_spec hx ha
  | settime timerid abstime value now =>
    exact TimerTable.timerSettimeSys_spec hx ha abstime value now
  | update dev now rounds =>
    obtain ⟨r, hrun, hy⟩ := TimerTable.updateHwtimer_spec hx dev rounds now
    exact ⟨r.1, by rw [TimerTable.call, hrun]; rfl, hy⟩

theorem TimerTable.Agrees.step {a : TimerCall T} {y : TimerTable T} (hx : x.Agrees)
    (ha : x.Keeps a) (h : x.step a = some y) : y.Agrees := by
  rw [TimerTable.step] at h
  split at h
  · contradiction
  · obtain ⟨z, hrun, hz⟩ := hx.call ha
    obtain rfl := Option.some.inj (hrun.symm.trans h)
    exact hz

theorem TimerTable.Agrees.of_run {tr : List (TimerTable T × TimerCall T)} {x₀ : TimerTable T}
    (hr : Run TimerTable.step x₀.initTime tr x) (hc : ∀ e ∈ tr, e.1.Keeps e.2) : x.Agrees :=
  hr.invariant (I := TimerTable.Agrees) (C := TimerTable.Keeps) x₀.initTime_agrees
    (fun _ _ _ hs ha hstep => hs.step ha hstep) hc

/-- In a run of calls that meet their condition, the heap holds the armed timers, each
once, and the next such call stays inside the table and the heap. -/
theorem timerHeap_agrees {tr : List (TimerTable T × TimerCall T)} {x₀ y : TimerTable T}
    (hr : Run TimerTable.step x₀.initTime tr x) (hx : Visited tr x y)
    (hc : ∀ e ∈ tr, e.1.Keeps e.2) :
    y.timerHeap.Contains { id | InTable id ∧ (y.timerArray id).armed } ∧
      y.timerHeap.nelem ≤ maxTimers ∧ ∀ a, y.Keeps a → ∃ z, y.call a = some z := by
  have hy : y.Agrees := hr.invariant_visited (I := TimerTable.Agrees) (C := TimerTable.Keeps)
    x₀.initTime_agrees (fun _ _ _ hs ha hstep => hs.step ha hstep) hc hx
  refine ⟨hy.contains, hy.nelem_le, fun a ha => ?_⟩
  obtain ⟨z, hrun, -⟩ := hy.call ha
  exact ⟨z, hrun⟩

end

def oneSleeper : TimerTable Unit where
  timerArray := fun _ => { owner := () }
  timerHeap := { array := fun _ => none, nelem := 0 }
  sleepKtimer := fun _ => 0
  asleep := fun _ => false
  finished := fun _ => false
  interval := none

def testTimer : Hwtimer := { getMinInterval := 10, getMaxInterval := 1000 }

/-- A thread sleeps until its timer fires, and sleeps again. -/
theorem timerHeap_agrees_run : ∃ (tr : List (TimerTable Unit × TimerCall Unit)) (x : TimerTable Unit),
    Run TimerTable.step oneSleeper.initTime tr x ∧ x.timerHeap.nelem = 1 ∧
      x.timerHeap.Contains { id | InTable id ∧ (x.timerArray id).armed } := by
  have hrun : (exec TimerTable.step oneSleeper.initTime
      [.createThread (), .sleep () 100 fun _ _ => 0, .update testTimer (fun _ _ _ => 0) 4,
        .update testTimer (fun _ _ _ => 100) 4, .sleep () 100 fun _ _ => 100]).any
      fun r => decide ((∀ e ∈ r.1, e.1.Keeps e.2) ∧ r.2.timerHeap.nelem = 1) := by decide +kernel
  obtain ⟨tr, x, hr, hx⟩ := exec_any hrun
  simp only [decide_eq_true_eq] at hx
  exact ⟨tr, x, hr, hx.2, (timerHeap_agrees hr .self hx.1).1⟩

/-- A sleep that is ended by a signal leaves its timer armed, and the next sleep puts
it into the heap a second time. -/
theorem timerHeap_twice : ∃ (tr : List (TimerTable Unit × TimerCall Unit)) (x : TimerTable Unit),
    Run TimerTable.step oneSleeper.initTime tr x ∧ 2 ≤ x.timerHeap.nelem ∧
      x.timerHeap.array 1 = some 0 ∧ x.timerHeap.array 2 = some 0 := by
  have hrun : (exec TimerTable.step oneSleeper.initTime
      [.createThread (), .sleep () 100 fun _ _ => 0, .update testTimer (fun _ _ _ => 0) 4,
        .wake (), .sleep () 100 fun _ _ => 50, .update testTimer (fun _ _ _ => 50) 4]).any
      fun r => decide (2 ≤ r.2.timerHeap.nelem ∧ r.2.timerHeap.array 1 = some 0 ∧
        r.2.timerHeap.array 2 = some 0) := by decide +kernel
  obtain ⟨tr, x, hr, hx⟩ := exec_any hrun
  simp only [decide_eq_true_eq] at hx
  exact ⟨tr, x, hr, hx⟩

end Xmertl.Partikle
