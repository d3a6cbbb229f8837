import Xmertl.Partikle.TimerTable

/-!
# Due timers

`update_hwtimer` looks at the timer with the least expiry and compares that with
the timer's own clock. The clocks have nothing to do with each other, so that a
timer that is not due can stand before one that is, and the time left to the first
timer need not be the least. Here the clocks stand still during the call.
-/

namespace Xmertl.Partikle

open Runs

section
variable {T : Type}

def TimerTable.remaining (x : TimerTable T) (now : Readings T) (id : Int) : Int :=
  x.timerValue id - x.ctime now id

/-- What `update_hwtimer` is to do, with the timers in `acted` acted on. -/
structure TimerTable.Updated (x : TimerTable T) (dev : Hwtimer) (now : Readings T)
    (y : TimerTable T) (acted : List Int) : Prop where
  later : ∀ id ∈ armedIn y.timerArray, ¬y.Due now id
  ran : ∀ id ∈ armedIn x.timerArray, x.Due now id → id ∈ acted
  disarmed : ∀ id ∈ acted, ¬0 < (x.timerArray id).timerInterval → id ∉ armedIn y.timerArray
  rearmed : ∀ id ∈ acted, 0 < (x.timerArray id).timerInterval →
    id ∈ armedIn y.timerArray ∧ y.ctime now id < y.timerValue id
  programmed : (armedIn y.timerArray).Nonempty → ∃ id ∈ armedIn y.timerArray,
    (∀ j ∈ armedIn y.timerArray, y.remaining now id ≤ y.remaining now j) ∧
      y.interval = some (dev.clamp (y.remaining now id))

def TimerTable.Stays (x : TimerTable T) (now : Readings T) (id : Int) : Prop :=
  id ∈ armedIn x.timerArray ∧ (x.Due now id → 0 < (x.timerArray id).timerInterval)

def TimerTable.nextValue (x : TimerTable T) (now : Readings T) (id : Int) : Int :=
  if x.Due now id then (x.timerArray id).timerInterval + x.ctime now id else x.timerValue id

def TimerTable.nextRemaining (x : TimerTable T) (now : Readings T) (id : Int) : Int :=
  x.nextValue now id - x.ctime now id

def TimerTable.IsFirst (x : TimerTable T) (now : Readings T) (id : Int) : Prop :=
  x.Stays now id ∧ ∀ j, x.Stays now j → x.nextValue now id ≤ x.nextValue now j

/-- The device gets the same interval as for the least time left. -/
def TimerTable.IsSoonest (x : TimerTable T) (dev : Hwtimer) (now : Readings T) (id : Int) : Prop :=
  ∃ m, x.Stays now m ∧ (∀ j, x.Stays now j → x.nextRemaining now m ≤ x.nextRemaining now j) ∧
    dev.clamp (x.nextRemaining now id) = dev.clamp (x.nextRemaining now m)

/-- No due timer that is periodic belongs to a thread that has finished. -/
def TimerTable.OwnersLive (x : TimerTable T) (now : Readings T) : Prop :=
  ∀ id ∈ armedIn x.timerArray, x.Due now id → 0 < (x.timerArray id).timerInterval →
    x.finished (x.timerArray id).owner = false

/-- The due timers come before all that stay, and the first of these is the soonest. -/
structure TimerTable.SoonestFirst (x : TimerTable T) (dev : Hwtimer) (now : Readings T) : Prop where
  live : x.OwnersLive now
  before : ∀ id ∈ armedIn x.timerArray, x.Due now id → ∀ j, x.Stays now j → j ≠ id →
    x.timerValue id < x.nextValue now j
  first : ∀ id, x.IsFirst now id → x.IsSoonest dev now id

/-- The same where timers with one expiry can stand in either order. -/
structure TimerTable.SoonestFirstOrTied (x : TimerTable T) (dev : Hwtimer) (now : Readings T) :
    Prop where
  live : x.OwnersLive now
  before : ∀ id ∈ armedIn x.timerArray, x.Due now id → ∀ j, x.Stays now j → j ≠ id →
    x.timerValue id ≤ x.nextValue now j
  first : (∃ id, x.Stays now id) → ∃ id, x.IsFirst now id ∧ x.IsSoonest dev now id

/-- From `x`, the timers in `acted` have been acted on. -/
structure TimerTable.Fired (x : TimerTable T) (now : Readings T) (acted : List Int)
    (y : TimerTable T) : Prop where
  agrees : y.Agrees
  ordered : y.timerHeap.IsOrdered y.timerValue
  due : ∀ id ∈ acted, id ∈ armedIn x.timerArray ∧ x.Due now id
  timerArray : ∀ id, y.timerArray id =
    if id ∈ acted then x.next (x.timerArray id) (x.ctime now id) else x.timerArray id
  finished : y.finished = x.finished
  order : ∀ k ∈ acted, ∀ j ∈ armedIn y.timerArray, x.Stays now j → j ≠ k →
    x.timerValue k ≤ x.nextValue now j

variable {x y : TimerTable T} {now : Readings T} {acted : List Int} {id : Int}

-- ---------------------------------------------------------------------------
-- Timers that have fired
-- ---------------------------------------------------------------------------

theorem TimerTable.Fired.start (hx : x.Agrees) (ho : x.timerHeap.IsOrdered x.timerValue) :
    x.Fired now [] x where
  agrees := hx
  ordered := ho
  due := by simp
  timerArray := by simp
  finished := rfl
  order := by simp

theorem TimerTable.due_congr (h : y.timerArray id = x.timerArray id) :
    y.Due now id ↔ x.Due now id := by
  simp only [TimerTable.Due, TimerTable.timerValue, TimerTable.ctime, h]

theorem TimerTable.next_clock (x : TimerTable T) (k : Ktimer T) (ctime : Int) :
    (x.next k ctime).readClock = k.readClock ∧ (x.next k ctime).owner = k.owner := by
  unfold TimerTable.next
  split <;> exact ⟨rfl, rfl⟩

theorem TimerTable.Fired.ctime_eq (hy : x.Fired now acted y) (id : Int) :
    y.ctime now id = x.ctime now id := by
  rw [TimerTable.ctime, TimerTable.ctime, hy.timerArray]
  split
  · obtain ⟨hclock, howner⟩ := x.next_clock (x.timerArray id) (x.ctime now id)
    rw [hclock, howner]
  · rfl

theorem TimerTable.Fired.other (hy : x.Fired now acted y) (hid : id ∉ acted) :
    y.timerArray id = x.timerArray id := by
  rw [hy.timerArray, if_neg hid]

theorem TimerTable.Fired.due_iff (hy : x.Fired now acted y) (hid : id ∉ acted) :
    y.Due now id ↔ x.Due now id :=
  TimerTable.due_congr (hy.other hid)

theorem TimerTable.Fired.rearmed (hy : x.Fired now acted y) (hid : id ∈ acted)
    (ha : id ∈ armedIn y.timerArray) :
    0 < (x.timerArray id).timerInterval ∧
      y.timerValue id = (x.timerArray id).timerInterval + x.ctime now id := by
  have harmed := ha.2
  rw [hy.timerArray, if_pos hid, TimerTable.next] at harmed
  rw [TimerTable.timerValue, hy.timerArray, if_pos hid, TimerTable.next]
  split
  · rename_i hre
    exact ⟨hre.1, rfl⟩
  · rename_i hre
    rw [if_neg hre] at harmed
    contradiction

theorem TimerTable.Fired.not_due (hy : x.Fired now acted y) (hid : id ∈ acted)
    (ha : id ∈ armedIn y.timerArray) : y.ctime now id < y.timerValue id := by
  obtain ⟨hpos, hvalue⟩ := hy.rearmed hid ha
  rw [hvalue, hy.ctime_eq]
  exact Int.lt_add_of_pos_left _ hpos

theorem TimerTable.Fired.armed (hy : x.Fired now acted y) (ha : id ∈ armedIn y.timerArray) :
    id ∈ armedIn x.timerArray := by
  by_cases hid : id ∈ acted
  · exact (hy.due id hid).1
  · refine ⟨ha.1, ?_⟩
    rw [← hy.other hid]
    exact ha.2

theorem TimerTable.Fired.stays (hy : x.Fired now acted y) (ha : id ∈ armedIn y.timerArray)
    (hdue : ¬y.Due now id) : x.Stays now id ∧ y.timerValue id = x.nextValue now id := by
  by_cases hid : id ∈ acted
  · obtain ⟨hpos, hvalue⟩ := hy.rearmed hid ha
    refine ⟨⟨hy.armed ha, fun _ => hpos⟩, ?_⟩
    rw [hvalue, TimerTable.nextValue, if_pos (hy.due id hid).2]
  · have hnot : ¬x.Due now id := fun h => hdue ((hy.due_iff hid).mpr h)
    refine ⟨⟨hy.armed ha, fun h => absurd h hnot⟩, ?_⟩
    rw [TimerTable.nextValue, if_neg hnot, TimerTable.timerValue, TimerTable.timerValue,
      hy.other hid]

-- ---------------------------------------------------------------------------
-- The loop with standing clocks
-- ---------------------------------------------------------------------------

variable [DecidableEq T]

def TimerTable.dueTimers (x : TimerTable T) (now : Readings T) : Set Int :=
  { id | id ∈ armedIn x.timerArray ∧ x.Due now id }

omit [DecidableEq T] in
theorem TimerTable.dueTimers_finite (x : TimerTable T) (now : Readings T) :
    (x.dueTimers now).Finite :=
  (Set.finite_Ico _ _).subset fun _ hid => armedIn_subset _ hid.1

theorem TimerTable.Fired.step {h : Heap Int} (hy : x.Fired now acted y)
    (hid : id ∈ armedIn y.timerArray) (hfirst : y.timerHeap.array 1 = some id)
    (hdue : y.Due now id) (hz : (y.expire (y.ctime now id) id h).Agrees)
    (ho : h.IsOrdered (y.expire (y.ctime now id) id h).timerValue) :
    x.Fired now (acted ++ [id]) (y.expire (y.ctime now id) id h) := by
  have hnot : id ∉ acted := fun h => absurd hdue (not_le.mpr (hy.not_due h hid))
  have hx : id ∈ armedIn x.timerArray ∧ x.Due now id := ⟨hy.armed hid, (hy.due_iff hnot).mp hdue⟩
  have harray : ∀ j, (y.expire (y.ctime now id) id h).timerArray j =
      if j ∈ acted ++ [id] then x.next (x.timerArray j) (x.ctime now j) else x.timerArray j := by
    intro j
    rw [TimerTable.expire_timerArray]
    by_cases hj : j = id
    · subst hj
      rw [Function.update_self, if_pos (by simp), hy.other hnot, hy.ctime_eq, TimerTable.next,
        TimerTable.next, hy.finished]
    · rw [Function.update_of_ne hj, hy.timerArray]
      simp [hj]
  refine ⟨hz, ho, fun j hj => ?_, harray, ?_, fun k hk j hj hstays hjk => ?_⟩
  · rcases List.mem_append.mp hj with hj | hj
    · exact hy.due j hj
    · obtain rfl := List.mem_singleton.mp hj
      exact hx
  · rw [← hy.finished]
    exact TimerTable.act_finished ..
  · have hj' : j ∈ armedIn y.timerArray := by
      rw [TimerTable.expire_timerArray, armedIn_update hid.1] at hj
      split at hj
      · rcases hj with rfl | hj
        · exact hid
        · exact hj
      · exact hj.1
    rcases List.mem_append.mp hk with hk | hk
    · exact hy.order k hk j hj' hstays hjk
    obtain rfl := List.mem_singleton.mp hk
    have hle := hy.ordered.first hy.agrees.contains hfirst hj'
    rw [TimerTable.timerValue, hy.other hnot] at hle
    refine hle.trans ?_
    by_cases hdj : y.Due now j
    · have hja : j ∉ acted := fun h => absurd hdj (not_le.mpr (hy.not_due h hj'))
      have hdj' := (hy.due_iff hja).mp hdj
      have hpos := hstays.2 hdj'
      rw [TimerTable.nextValue, if_pos hdj', TimerTable.timerValue, hy.other hja]
      have hle' : (x.timerArray j).timerValue ≤ x.ctime now j := hdj'
      omega
    · exact (hy.stays hj' hdj).2.le

theorem TimerTable.Fired.fewer_due {ctime : Int} {h : Heap Int}
    (hz : x.Fired now (acted ++ [id]) (y.expire ctime id h)) (hid : id ∈ armedIn y.timerArray)
    (hdue : y.Due now id) :
    ((y.expire ctime id h).dueTimers now).ncard < (y.dueTimers now).ncard := by
  have hsub : (y.expire ctime id h).dueTimers now ⊆ y.dueTimers now \ {id} := by
    rintro j ⟨hj, hdj⟩
    have hja : j ∉ acted ++ [id] := fun h => absurd hdj (not_le.mpr (hz.not_due h hj))
    rw [List.mem_append, not_or, List.mem_singleton] at hja
    have hsame : (y.expire ctime id h).timerArray j = y.timerArray j := by
      rw [TimerTable.expire_timerArray, Function.update_of_ne hja.2]
    exact ⟨⟨⟨hj.1, hsame ▸ hj.2⟩, (TimerTable.due_congr hsame).mp hdj⟩, hja.2⟩
  have hfin := y.dueTimers_finite now
  have hmem : id ∈ y.dueTimers now := ⟨hid, hdue⟩
  exact (Set.ncard_le_ncard hsub hfin.sdiff).trans_lt
    (Set.ncard_sdiff_singleton_lt_of_mem hmem hfin)

def TimerTable.Left (y : TimerTable T) (now : Readings T) : LoopEnd → Prop
  | .empty => armedIn y.timerArray = ∅
  | .first nextTime => ∃ id ∈ armedIn y.timerArray, y.timerHeap.array 1 = some id ∧
      ¬y.Due now id ∧ nextTime = y.remaining now id
  | .running => False

theorem updateLoop_fired (n i : Nat) (hy : x.Fired now acted y)
    (hn : (y.dueTimers now).ncard < n) :
    ∃ z acted' left, x.Fired now acted' z ∧ z.Left now left ∧ ∀ rounds ≥ n,
      TimerTable.updateLoop (fun _ => now) rounds i y acted = some (z, acted', left) := by
  induction n generalizing y acted i with
  | zero => omega
  | succ n ih =>
    have hsucc : ∀ rounds ≥ n + 1, ∃ rounds', rounds = rounds' + 1 ∧ n ≤ rounds' :=
      fun rounds hr => ⟨rounds - 1, by omega, by omega⟩
    rcases updateLoop_round hy.agrees (fun _ => now) i with
      ⟨hnone, hrun⟩ | ⟨id, hid, hfirst, hstop, hgo⟩
    · refine ⟨y, acted, .empty, hy, hnone, fun rounds hr => ?_⟩
      obtain ⟨rounds', rfl, -⟩ := hsucc rounds hr
      exact hrun rounds' acted
    by_cases hdue : y.Due now id
    case neg =>
      refine ⟨y, acted, .first (y.remaining now id), hy, ⟨id, hid, hfirst, hdue, rfl⟩,
        fun rounds hr => ?_⟩
      obtain ⟨rounds', rfl, -⟩ := hsucc rounds hr
      exact hstop hdue rounds' acted
    obtain ⟨h, hround, hz, ho⟩ := hgo hdue
    have hstep := hy.step hid hfirst hdue hz (ho hy.ordered)
    have hfewer := hstep.fewer_due hid hdue
    obtain ⟨z, acted', left, hz', hleft, hrun⟩ := ih (i + 1) hstep (by omega)
    refine ⟨z, acted', left, hz', hleft, fun rounds hr => ?_⟩
    obtain ⟨rounds', rfl, hr'⟩ := hsucc rounds hr
    exact (hround rounds' acted).trans (hrun rounds' hr')

-- ---------------------------------------------------------------------------
-- When nothing is missed
-- ---------------------------------------------------------------------------

variable {z : TimerTable T} {dev : Hwtimer} {left : LoopEnd}

omit [DecidableEq T]

theorem TimerTable.Fired.all_due (hy : x.Fired now acted y) (hleft : y.Left now left)
    (hbefore : ∀ id ∈ armedIn x.timerArray, x.Due now id → ∀ j, x.Stays now j → j ≠ id →
      x.timerValue id < x.nextValue now j) (hid : id ∈ armedIn x.timerArray)
    (hdue : x.Due now id) : id ∈ acted := by
  by_contra hnot
  have hsame := hy.other hnot
  have hidy : id ∈ armedIn y.timerArray := ⟨hid.1, hsame ▸ hid.2⟩
  have hduey : y.Due now id := (hy.due_iff hnot).mpr hdue
  cases left with
  | empty => exact Set.eq_empty_iff_forall_notMem.mp hleft id hidy
  | running => exact hleft
  | first nextTime =>
    obtain ⟨m, hm, hfirst, hnotdue, -⟩ := hleft
    obtain ⟨hstays, hvalue⟩ := hy.stays hm hnotdue
    have hne : m ≠ id := fun h => hnotdue (h ▸ hduey)
    have hlt := hbefore id hid hdue m hstays hne
    have hle := hy.ordered.first hy.agrees.contains hfirst hidy
    rw [hvalue, TimerTable.timerValue, hsame] at hle
    exact absurd hlt (not_lt.mpr hle)

theorem TimerTable.Fired.armed_iff (hy : x.Fired now acted y)
    (hall : ∀ id ∈ armedIn x.timerArray, x.Due now id → id ∈ acted) (hlive : x.OwnersLive now)
    (id : Int) : id ∈ armedIn y.timerArray ↔ x.Stays now id := by
  constructor
  · intro ha
    refine ⟨hy.armed ha, fun hdue => ?_⟩
    exact (hy.rearmed (hall id (hy.armed ha) hdue) ha).1
  · rintro ⟨ha, hper⟩
    refine ⟨ha.1, ?_⟩
    rw [hy.timerArray]
    split
    · rename_i hid
      have hpos := hper (hy.due id hid).2
      have howner := hlive id ha (hy.due id hid).2 hpos
      rw [TimerTable.next, if_pos ⟨hpos, by simp [howner]⟩]
      exact ha.2
    · exact ha.2

theorem TimerTable.Fired.later (hy : x.Fired now acted y)
    (hall : ∀ id ∈ armedIn x.timerArray, x.Due now id → id ∈ acted)
    (ha : id ∈ armedIn y.timerArray) : ¬y.Due now id := by
  intro hdue
  by_cases hid : id ∈ acted
  · exact absurd hdue (not_le.mpr (hy.not_due hid ha))
  · exact hid (hall id (hy.armed ha) ((hy.due_iff hid).mp hdue))

theorem TimerTable.Fired.remaining_eq (hy : x.Fired now acted y)
    (ha : id ∈ armedIn y.timerArray) (hdue : ¬y.Due now id) :
    y.remaining now id = x.nextRemaining now id := by
  rw [TimerTable.remaining, TimerTable.nextRemaining, (hy.stays ha hdue).2, hy.ctime_eq]

theorem TimerTable.Fired.left_first (hy : x.Fired now acted y) (hleft : y.Left now left)
    (hall : ∀ id ∈ armedIn x.timerArray, x.Due now id → id ∈ acted) (hlive : x.OwnersLive now)
    (hany : (armedIn y.timerArray).Nonempty) : ∃ id ∈ armedIn y.timerArray,
      x.IsFirst now id ∧ left = .first (x.nextRemaining now id) := by
  cases left with
  | empty => exact absurd hleft hany.ne_empty
  | running => exact hleft.elim
  | first nextTime =>
    obtain ⟨id, ha, hfirst, hdue, rfl⟩ := hleft
    refine ⟨id, ha, ⟨(hy.stays ha hdue).1, fun j hj => ?_⟩, by rw [hy.remaining_eq ha hdue]⟩
    have hja := (hy.armed_iff hall hlive j).mpr hj
    rw [← (hy.stays ha hdue).2, ← (hy.stays hja (hy.later hall hja)).2]
    exact hy.ordered.first hy.agrees.contains hfirst hja

@[simp] theorem TimerTable.program_timerArray (y : TimerTable T) (dev : Hwtimer)
    (left : LoopEnd) : (y.program dev left).timerArray = y.timerArray := by
  cases left <;> rfl

theorem TimerTable.program_due (y : TimerTable T) (dev : Hwtimer) (left : LoopEnd) :
    (y.program dev left).Due now id ↔ y.Due now id :=
  TimerTable.due_congr (by rw [TimerTable.program_timerArray])

theorem TimerTable.program_remaining (y : TimerTable T) (dev : Hwtimer) (left : LoopEnd) :
    (y.program dev left).remaining now = y.remaining now := by
  cases left <;> rfl

theorem TimerTable.Fired.updated (hy : x.Fired now acted y) (hleft : y.Left now left)
    (hx : x.SoonestFirst dev now) : x.Updated dev now (y.program dev left) acted := by
  have hall : ∀ id ∈ armedIn x.timerArray, x.Due now id → id ∈ acted :=
    fun id hid hdue => hy.all_due hleft hx.before hid hdue
  have hiff := hy.armed_iff hall hx.live
  refine ⟨?_, hall, ?_, ?_, ?_⟩
  · intro id ha
    rw [TimerTable.program_timerArray] at ha
    rw [TimerTable.program_due]
    exact hy.later hall ha
  · intro id hid hpos ha
    rw [TimerTable.program_timerArray] at ha
    exact hpos (hy.rearmed hid ha).1
  · intro id hid hpos
    have ha := (hiff id).mpr ⟨(hy.due id hid).1, fun _ => hpos⟩
    have hlt := hy.not_due hid ha
    refine ⟨by rwa [TimerTable.program_timerArray], ?_⟩
    rw [← Int.not_le] at hlt ⊢
    exact fun hdue => hlt ((y.program_due dev left).mp hdue)
  · rw [TimerTable.program_timerArray, TimerTable.program_remaining]
    intro hany
    obtain ⟨id, -, hfirst, rfl⟩ := hy.left_first hleft hall hx.live hany
    obtain ⟨m, hm, hleast, hclamp⟩ := hx.first id hfirst
    have hma := (hiff m).mpr hm
    refine ⟨m, hma, fun j hj => ?_, ?_⟩
    · rw [hy.remaining_eq hma (hy.later hall hma), hy.remaining_eq hj (hy.later hall hj)]
      exact hleast j ((hiff j).mp hj)
    · rw [hy.remaining_eq hma (hy.later hall hma), ← hclamp]
      rfl

theorem TimerTable.Fired.soonest (hy : x.Fired now acted y) (hleft : y.Left now left)
    (hz : x.Updated dev now (y.program dev left) acted) : x.SoonestFirstOrTied dev now := by
  have hlive : x.OwnersLive now := by
    intro id hid hdue hpos
    have ha := (hz.rearmed id (hz.ran id hid hdue) hpos).1.2
    rw [TimerTable.program_timerArray, hy.timerArray, if_pos (hz.ran id hid hdue),
      TimerTable.next_armed] at ha
    split at ha
    · rename_i hre
      simpa using hre.2
    · contradiction
  have hiff := hy.armed_iff hz.ran hlive
  refine ⟨hlive, fun id hid hdue j hj hne => ?_, fun ⟨j, hj⟩ => ?_⟩
  · exact hy.order id (hz.ran id hid hdue) j ((hiff j).mpr hj) hj hne
  · have hany : (armedIn y.timerArray).Nonempty := ⟨j, (hiff j).mpr hj⟩
    obtain ⟨id, -, hfirst, rfl⟩ := hy.left_first hleft hz.ran hlive hany
    obtain ⟨m, hm, hleast, hinterval⟩ := hz.programmed (by rwa [TimerTable.program_timerArray])
    rw [TimerTable.program_timerArray, TimerTable.program_remaining] at *
    refine ⟨id, hfirst, m, (hiff m).mp hm, fun i hi => ?_, ?_⟩
    · have hia := (hiff i).mpr hi
      have hle := hleast i hia
      rwa [hy.remaining_eq hm (hy.later hz.ran hm),
        hy.remaining_eq hia (hy.later hz.ran hia)] at hle
    · rw [← hy.remaining_eq hm (hy.later hz.ran hm)]
      exact Option.some.inj hinterval

variable [DecidableEq T]

/-- While the clocks stand still, `update_hwtimer` returns; it misses nothing when the
due timers come before all that stay and the first of these is the soonest, and only
then, but for timers with the same expiry. -/
theorem updateHwtimer_misses_none (hx : x.Agrees) (ho : x.timerHeap.IsOrdered x.timerValue)
    (dev : Hwtimer) (now : Readings T) : ∃ y acted left n, left ≠ .running ∧
      (∀ rounds ≥ n, x.updateHwtimer dev rounds (fun _ => now) = some (y, acted, left)) ∧
      (x.SoonestFirst dev now → x.Updated dev now y acted) ∧
      (x.Updated dev now y acted → x.SoonestFirstOrTied dev now) := by
  obtain ⟨y, acted, left, hy, hleft, hrun⟩ :=
    updateLoop_fired ((x.dueTimers now).ncard + 1) 0 (.start hx ho) (Nat.lt_succ_self _)
  refine ⟨y.program dev left, acted, left, (x.dueTimers now).ncard + 1, ?_, fun rounds hr => ?_,
    hy.updated hleft, hy.soonest hleft⟩
  · rintro rfl
    exact hleft
  · rw [TimerTable.updateHwtimer, hrun rounds hr]
    rfl

end

theorem TimerTable.soonestFirst_of_all_due {T : Type} {x : TimerTable T} {now : Readings T}
    (dev : Hwtimer) (h : ∀ timerid < maxTimers, (x.timerArray timerid).armed →
      x.Due now timerid ∧ ¬0 < (x.timerArray timerid).timerInterval) : x.SoonestFirst dev now := by
  have hshot : ∀ id ∈ armedIn x.timerArray,
      x.Due now id ∧ ¬0 < (x.timerArray id).timerInterval := by
    rintro id ⟨⟨hpos, hlt⟩, ha⟩
    obtain ⟨timerid, rfl⟩ := Int.eq_ofNat_of_zero_le hpos
    exact h timerid (Int.ofNat_lt.mp hlt) ha
  have hnone : ∀ id, ¬x.Stays now id := fun id hid => (hshot id hid.1).2 (hid.2 (hshot id hid.1).1)
  exact ⟨fun id hid _ hpos => absurd hpos (hshot id hid).2,
    fun _ _ _ j hj => absurd hj (hnone j), fun id hid => absurd hid.1 (hnone id)⟩

/-- A thread's sleep is over. -/
theorem updateHwtimer_misses_none_run :
    ∃ (tr : List (TimerTable Unit × TimerCall Unit)) (x y : TimerTable Unit) (acted : List Int),
      Run TimerTable.step oneSleeper.initTime tr x ∧ 0 ∈ armedIn x.timerArray ∧
      (∃ rounds left, x.updateHwtimer testTimer rounds (fun _ _ _ => 100) = some (y, acted, left) ∧
        left ≠ .running) ∧ x.Updated testTimer (fun _ _ => 100) y acted := by
  have hrun : (exec TimerTable.step oneSleeper.initTime
      [.createThread (), .sleep () 100 fun _ _ => 0]).any fun r => decide
        ((∀ e ∈ r.1, e.1.Keeps e.2) ∧ r.2.timerHeap.nelem = 1 ∧ (r.2.timerArray 0).armed ∧
          ∀ timerid < maxTimers, (r.2.timerArray timerid).armed →
            r.2.Due (fun _ _ => 100) timerid ∧ ¬0 < (r.2.timerArray timerid).timerInterval) := by
    decide +kernel
  obtain ⟨tr, x, hr, hx⟩ := exec_any hrun
  simp only [decide_eq_true_eq] at hx
  obtain ⟨hc, hnelem, harmed, hdue⟩ := hx
  have hagrees : x.Agrees := .of_run hr hc
  have hordered : x.timerHeap.IsOrdered x.timerValue := fun i hi hin => by omega
  obtain ⟨y, acted, left, n, hleft, hupdate, hmisses, -⟩ :=
    updateHwtimer_misses_none hagrees hordered testTimer fun _ _ => 100
  exact ⟨tr, x, y, acted, hr, ⟨⟨le_refl 0, by decide⟩, harmed⟩, ⟨n, left, hupdate n le_rfl, hleft⟩,
    hmisses (TimerTable.soonestFirst_of_all_due testTimer hdue)⟩

/-- The clocks of a system that has run for 50 ns, by its own clock. -/
def shortlyAfterStart : Readings Unit
  | .realtime, _ => 2000
  | .monotonic, _ | .threadCputime, _ => 50

/-- A realtime timer is due and a sleep, by the monotonic clock, is not: the timer is missed. -/
theorem updateHwtimer_misses : ∃ (tr : List (TimerTable Unit × TimerCall Unit))
    (x y : TimerTable Unit) (acted : List Int) (left : LoopEnd),
      Run TimerTable.step oneSleeper.initTime tr x ∧
      x.updateHwtimer testTimer 4 (fun _ => shortlyAfterStart) = some (y, acted, left) ∧
      left ≠ .running ∧ 1 ∈ armedIn x.timerArray ∧ x.Due shortlyAfterStart 1 ∧ 1 ∉ acted ∧
      1 ∈ armedIn y.timerArray ∧ y.Due shortlyAfterStart 1 := by
  have hrun : (exec TimerTable.step oneSleeper.initTime
      [.createThread (), .create () .realtime none,
        .settime 1 false (some ⟨⟨0, 0⟩, ⟨0, 10⟩⟩) fun clock _ =>
          if clock = .realtime then 1000 else 0,
        .sleep () 100 fun _ _ => 0]).any fun r =>
      (r.2.updateHwtimer testTimer 4 fun _ => shortlyAfterStart).any fun u => decide
        (u.2.2 ≠ .running ∧ (r.2.timerArray 1).armed ∧ r.2.Due shortlyAfterStart 1 ∧ 1 ∉ u.2.1 ∧
          (u.1.timerArray 1).armed ∧ u.1.Due shortlyAfterStart 1) := by decide +kernel
  obtain ⟨tr, x, hr, hx⟩ := exec_any hrun
  obtain ⟨⟨y, acted, left⟩, hupdate, hy⟩ := Option.any_eq_true .. |>.mp hx
  simp only [decide_eq_true_eq] at hy
  obtain ⟨hleft, harmed, hdue, hacted, hyarmed, hydue⟩ := hy
  have hin : InTable 1 := by decide
  exact ⟨tr, x, y, acted, left, hr, hupdate, hleft, ⟨hin, harmed⟩, hdue, hacted, ⟨hin, hyarmed⟩,
    hydue⟩

end Xmertl.Partikle
