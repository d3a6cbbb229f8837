import Mathlib.Data.Vector.Basic
import Xmertl.Partikle.Threads

/-!
# Cleanup handlers that nest

`pthread_cleanup_push_sys` and `pthread_cleanup_pop_sys` on the tables of the threads. `R` is
`struct cleanup_routine`, a routine with its argument. A routine that a pop executes runs
after the pop: its own calls are calls that follow.
-/

namespace Xmertl.Partikle

inductive CleanupCall (R : Type)
  | push (cr : R)
  | pop (execute : Bool)
  deriving DecidableEq

/-- What a pop takes off the table, and what it runs. -/
structure Popped (R : Type) where
  removed : Option R
  ran : Option R
  deriving DecidableEq

structure CleanupTable (R : Type) where
  cleanupRoutineTable : Vector R maxCleanupHandlers
  topCrTable : Nat
  le : topCrTable ≤ maxCleanupHandlers

namespace CleanupTable

variable {R : Type}

def pthreadCleanupPushSys (t : CleanupTable R) (cr : R) : CleanupTable R :=
  if h : t.topCrTable < maxCleanupHandlers then
    { cleanupRoutineTable := t.cleanupRoutineTable.set t.topCrTable cr h
      topCrTable := t.topCrTable + 1
      le := h }
  else t

theorem pred_lt (t : CleanupTable R) (h : 0 < t.topCrTable) :
    t.topCrTable - 1 < maxCleanupHandlers :=
  Nat.lt_of_lt_of_le (Nat.sub_lt h Nat.one_pos) t.le

def pthreadCleanupPopSys (t : CleanupTable R) (execute : Bool) : CleanupTable R × Popped R :=
  if h : 0 < t.topCrTable then
    let cr := t.cleanupRoutineTable.get ⟨t.topCrTable - 1, t.pred_lt h⟩
    ({ t with topCrTable := t.topCrTable - 1, le := (t.pred_lt h).le },
      { removed := some cr, ran := if execute then some cr else none })
  else (t, { removed := none, ran := none })

def call (t : CleanupTable R) : CleanupCall R → CleanupTable R × List (Popped R)
  | .push cr => (t.pthreadCleanupPushSys cr, [])
  | .pop execute => ((t.pthreadCleanupPopSys execute).1, [(t.pthreadCleanupPopSys execute).2])

def run (t : CleanupTable R) : List (CleanupCall R) → CleanupTable R × List (Popped R)
  | [] => (t, [])
  | c :: cs => (((t.call c).1.run cs).1, (t.call c).2 ++ ((t.call c).1.run cs).2)

def stack (t : CleanupTable R) : List R :=
  (t.cleanupRoutineTable.toList.take t.topCrTable).reverse

-- ---------------------------------------------------------------------------
-- The table is a stack with room for eight
-- ---------------------------------------------------------------------------

variable {t : CleanupTable R} {cr : R} {s : List R}

@[simp] theorem length_stack : t.stack.length = t.topCrTable := by
  simp [stack, t.le]

theorem push_stack (h : t.topCrTable < maxCleanupHandlers) :
    (t.pthreadCleanupPushSys cr).stack = cr :: t.stack := by
  have hlen : t.topCrTable < t.cleanupRoutineTable.toList.length := by simpa using h
  have htake : (t.cleanupRoutineTable.toList.set t.topCrTable cr).take (t.topCrTable + 1) =
      t.cleanupRoutineTable.toList.take t.topCrTable ++ [cr] := by
    rw [List.take_add_one, List.getElem?_set_self hlen, List.take_set_of_le (Nat.le_refl _)]
    rfl
  rw [pthreadCleanupPushSys, dif_pos h]
  simp [stack, Vector.toList_set, htake]

theorem pop_stack (h : t.stack = cr :: s) (execute : Bool) :
    (t.pthreadCleanupPopSys execute).1.stack = s ∧
      (t.pthreadCleanupPopSys execute).2 = ⟨some cr, if execute then some cr else none⟩ := by
  have hlen : t.topCrTable = s.length + 1 := by rw [← length_stack, h, List.length_cons]
  have hpos : 0 < t.topCrTable := by omega
  have htop : t.topCrTable - 1 < t.cleanupRoutineTable.toList.length := by
    simpa using t.pred_lt hpos
  have htake : t.cleanupRoutineTable.toList.take t.topCrTable =
      t.cleanupRoutineTable.toList.take (t.topCrTable - 1) ++
        [t.cleanupRoutineTable.toList[t.topCrTable - 1]] := by
    conv_lhs => rw [show t.topCrTable = t.topCrTable - 1 + 1 by omega]
    rw [List.take_add_one, List.getElem?_eq_getElem htop]
    rfl
  rw [stack, htake, List.reverse_append] at h
  obtain ⟨hcr, hs⟩ := List.cons.inj h
  rw [pthreadCleanupPopSys, dif_pos hpos]
  refine ⟨hs, ?_⟩
  have hget : t.cleanupRoutineTable.get ⟨t.topCrTable - 1, t.pred_lt hpos⟩ = cr := by
    rw [← hcr]
    rfl
  rw [hget]

@[simp] theorem push_top : (t.pthreadCleanupPushSys cr).topCrTable =
    if t.topCrTable < maxCleanupHandlers then t.topCrTable + 1 else t.topCrTable := by
  unfold pthreadCleanupPushSys
  split <;> rfl

@[simp] theorem pop_top (execute : Bool) :
    (t.pthreadCleanupPopSys execute).1.topCrTable = t.topCrTable - 1 := by
  unfold pthreadCleanupPopSys
  split
  · rfl
  · dsimp only
    omega

theorem run_append (cs ds : List (CleanupCall R)) : t.run (cs ++ ds) =
    (((t.run cs).1.run ds).1, (t.run cs).2 ++ ((t.run cs).1.run ds).2) := by
  induction cs generalizing t with
  | nil => rfl
  | cons c cs ih => simp [run, ih, List.append_assoc]

end CleanupTable

-- ---------------------------------------------------------------------------
-- Well-nested calls
-- ---------------------------------------------------------------------------

/-- A well-nested sequence: `nest` is a push, the sequence up to its pop, that pop, and the
sequence after it. -/
inductive Nesting (R : Type)
  | done
  | nest (cr : R) (body : Nesting R) (execute : Bool) (rest : Nesting R)

namespace Nesting

variable {R : Type}

def calls : Nesting R → List (CleanupCall R)
  | done => []
  | nest cr body execute rest => .push cr :: (body.calls ++ .pop execute :: rest.calls)

def depth : Nesting R → Nat
  | done => 0
  | nest _ body _ rest => max (body.depth + 1) rest.depth

def pops : Nesting R → List (Popped R)
  | done => []
  | nest cr body execute rest =>
    body.pops ++ ⟨some cr, if execute then some cr else none⟩ :: rest.pops

end Nesting

end Xmertl.Partikle

namespace Xmertl.Partikle.CleanupTable

variable {R : Type} {t : CleanupTable R}

theorem run_nest (t : CleanupTable R) (cr : R) (body : Nesting R) (execute : Bool)
    (rest : Nesting R) : t.run (Nesting.nest cr body execute rest).calls =
      let b := (t.pthreadCleanupPushSys cr).run body.calls
      let p := b.1.pthreadCleanupPopSys execute
      ((p.1.run rest.calls).1, b.2 ++ p.2 :: (p.1.run rest.calls).2) := by
  simp [Nesting.calls, run, call, run_append]

theorem run_fits (n : Nesting R) (h : t.topCrTable + n.depth ≤ maxCleanupHandlers) :
    (t.run n.calls).1.stack = t.stack ∧ (t.run n.calls).2 = n.pops := by
  induction n generalizing t with
  | done => exact ⟨rfl, rfl⟩
  | nest cr body execute rest ihbody ihrest =>
    have hdepth : body.depth + 1 ≤ (Nesting.nest cr body execute rest).depth := le_max_left ..
    have hafter : rest.depth ≤ (Nesting.nest cr body execute rest).depth := le_max_right ..
    have hroom : t.topCrTable < maxCleanupHandlers := by omega
    obtain ⟨hstack, hpops⟩ := ihbody (t := t.pthreadCleanupPushSys cr) (by
      rw [push_top, if_pos hroom]
      omega)
    rw [push_stack hroom] at hstack
    obtain ⟨hback, hpop⟩ := pop_stack hstack execute
    have htop := congrArg List.length hback
    rw [length_stack, length_stack] at htop
    obtain ⟨hend, hrest⟩ := ihrest (t := ((t.pthreadCleanupPushSys cr).run
      body.calls).1.pthreadCleanupPopSys execute |>.1) (by omega)
    rw [run_nest]
    refine ⟨hend.trans hback, ?_⟩
    dsimp only
    rw [hpops, hpop, hrest, Nesting.pops]

def missing (ps : List (Popped R)) : Nat := ps.countP fun p => p.removed.isNone

theorem missing_append (ps qs : List (Popped R)) (p : Popped R) :
    missing (ps ++ p :: qs) = missing ps + missing [p] + missing qs := by
  simp only [missing, List.countP_append, List.countP_cons, List.countP_nil]
  omega

theorem missing_pops (n : Nesting R) : missing n.pops = 0 := by
  induction n with
  | done => rfl
  | nest cr body execute rest ihbody ihrest =>
    rw [Nesting.pops, missing_append, ihbody, ihrest]
    rfl

theorem pop_missing (t : CleanupTable R) (execute : Bool) :
    (t.pthreadCleanupPopSys execute).1.topCrTable + 1 =
      t.topCrTable + missing [(t.pthreadCleanupPopSys execute).2] := by
  unfold pthreadCleanupPopSys missing
  split
  · simp
    omega
  · simp

/-- A push on a full table is dropped, and its pop takes another's entry or finds none. -/
theorem run_top (n : Nesting R) :
    (t.run n.calls).1.topCrTable ≤ t.topCrTable + missing (t.run n.calls).2 ∧
      (maxCleanupHandlers < t.topCrTable + n.depth →
        (t.run n.calls).1.topCrTable < t.topCrTable + missing (t.run n.calls).2) := by
  induction n generalizing t with
  | done =>
    refine ⟨Nat.le_add_right .., fun h => ?_⟩
    exact absurd t.le (Nat.not_le.mpr h)
  | nest cr body execute rest ihbody ihrest =>
    obtain ⟨hbody, hbodyLt⟩ := ihbody (t := t.pthreadCleanupPushSys cr)
    have hpop := pop_missing ((t.pthreadCleanupPushSys cr).run body.calls).1 execute
    obtain ⟨hrest, hrestLt⟩ := ihrest (t := ((t.pthreadCleanupPushSys cr).run
      body.calls).1.pthreadCleanupPopSys execute |>.1)
    have hdepth : (Nesting.nest cr body execute rest).depth = max (body.depth + 1) rest.depth := rfl
    have hle := t.le
    rw [run_nest, hdepth]
    dsimp only
    rw [missing_append]
    by_cases hroom : t.topCrTable < maxCleanupHandlers
    · rw [push_top, if_pos hroom] at hbody hbodyLt
      omega
    · rw [push_top, if_neg hroom] at hbody hbodyLt
      omega

theorem push_counts {T : Type} [DecidableEq T] {x : Threads T}
    (h : t.topCrTable = x.topCrTable x.cur) (cr : R) :
    (t.pthreadCleanupPushSys cr).topCrTable = x.cleanupPushSys.topCrTable x.cur := by
  rw [push_top, h]
  unfold Threads.cleanupPushSys
  split <;> simp

theorem pop_counts {T : Type} [DecidableEq T] {x : Threads T}
    (h : t.topCrTable = x.topCrTable x.cur) (execute : Bool) :
    (t.pthreadCleanupPopSys execute).1.topCrTable = x.cleanupPopSys.topCrTable x.cur := by
  rw [pop_top, h]
  unfold Threads.cleanupPopSys
  split
  · simp
  · omega

end Xmertl.Partikle.CleanupTable

-- ---------------------------------------------------------------------------
-- The threads
-- ---------------------------------------------------------------------------

namespace Xmertl.Partikle

variable {T R : Type} [DecidableEq T]

/-- The part of a history that is `t`'s. -/
def ofThread {B : Type} (t : T) (l : List (T × B)) : List B :=
  (l.filter fun e => e.1 = t).map Prod.snd

/-- Calls by any threads, each on the table of the thread that runs, with what the pops did. -/
def cleanupRun (x : T → CleanupTable R) :
    List (T × CleanupCall R) → (T → CleanupTable R) × List (T × Popped R)
  | [] => (x, [])
  | (t, c) :: cs =>
    let r := cleanupRun (Function.update x t ((x t).call c).1) cs
    (r.1, ((x t).call c).2.map (fun p => (t, p)) ++ r.2)

theorem ofThread_cons {B : Type} (t u : T) (b : B) (l : List (T × B)) :
    ofThread t ((u, b) :: l) = if u = t then b :: ofThread t l else ofThread t l := by
  by_cases h : u = t <;> simp [ofThread, h]

theorem ofThread_append {B : Type} (t u : T) (bs : List B) (l : List (T × B)) :
    ofThread t (bs.map (fun b => (u, b)) ++ l) =
      if u = t then bs ++ ofThread t l else ofThread t l := by
  by_cases h : u = t <;> simp [ofThread, h, List.filter_map, Function.comp_def]

theorem cleanupRun_of (x : T → CleanupTable R) (cs : List (T × CleanupCall R)) (t : T) :
    (x t).run (ofThread t cs) = ((cleanupRun x cs).1 t, ofThread t (cleanupRun x cs).2) := by
  induction cs generalizing x with
  | nil => rfl
  | cons e cs ih =>
    obtain ⟨u, c⟩ := e
    have hrest := ih (Function.update x u ((x u).call c).1)
    rw [ofThread_cons, cleanupRun]
    dsimp only
    rw [ofThread_append]
    by_cases h : u = t
    · subst h
      rw [Function.update_self] at hrest
      simp [CleanupTable.run, hrest]
    · rw [Function.update_of_ne (Ne.symm h)] at hrest
      simp [h, hrest]

/-- Each pop of `t` takes off, and runs, what its own push put there, and in the end `t` has
the handlers it had. -/
structure Nests (x : T → CleanupTable R) (cs : List (T × CleanupCall R)) (t : T)
    (n : Nesting R) : Prop where
  pops : ofThread t (cleanupRun x cs).2 = n.pops
  stack : ((cleanupRun x cs).1 t).stack = (x t).stack

instance [DecidableEq R] (x : T → CleanupTable R) (cs : List (T × CleanupCall R)) (t : T)
    (n : Nesting R) : Decidable (Nests x cs t n) :=
  decidable_of_iff (ofThread t (cleanupRun x cs).2 = n.pops ∧
    ((cleanupRun x cs).1 t).stack = (x t).stack) ⟨fun h => ⟨h.1, h.2⟩, fun h => ⟨h.1, h.2⟩⟩

theorem nests_iff (x : T → CleanupTable R) {cs : List (T × CleanupCall R)} {t : T} {n : Nesting R}
    (h : ofThread t cs = n.calls) :
    Nests x cs t n ↔ (x t).topCrTable + n.depth ≤ maxCleanupHandlers := by
  have hrun := cleanupRun_of x cs t
  rw [h] at hrun
  constructor
  · rintro ⟨hpops, hstack⟩
    by_contra hdeep
    have hlt := (CleanupTable.run_top (t := x t) n).2 (Nat.lt_of_not_le hdeep)
    have htop := congrArg List.length hstack
    rw [CleanupTable.length_stack, CleanupTable.length_stack] at htop
    rw [hrun] at hlt
    dsimp only at hlt
    rw [hpops, CleanupTable.missing_pops, htop] at hlt
    omega
  · intro hfits
    obtain ⟨hstack, hpops⟩ := CleanupTable.run_fits n hfits
    rw [hrun] at hstack hpops
    exact ⟨hpops, hstack⟩

def noHandlers : CleanupTable Nat := ⟨Vector.replicate _ 0, 0, Nat.zero_le _⟩

/-- Two handlers of one thread, another thread's call between. -/
theorem nests_two : Nests (fun _ : Bool => noHandlers)
    [(true, .push 1), (false, .push 7), (true, .push 2), (true, .pop true), (true, .pop false)]
    true (.nest 1 (.nest 2 .done true .done) false .done) :=
  (nests_iff _ (by decide)).mpr (by decide)

/-- `n` handlers, each inside the one before. -/
def nested : Nat → Nesting Nat
  | 0 => .done
  | n + 1 => .nest (n + 1) (nested n) true .done

/-- The innermost of nine pops runs the handler of the push around its own. -/
theorem nests_nine : ¬Nests (fun _ : Unit => noHandlers) ((nested 9).calls.map fun c => ((), c)) ()
    (nested 9) := by
  decide +kernel

end Xmertl.Partikle
