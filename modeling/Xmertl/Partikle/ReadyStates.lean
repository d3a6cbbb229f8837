import Mathlib.Data.Fintype.Option
import Xmertl.Partikle.ThreadBase

/-!
# The ready structure and the threads' states

A thread other than the idle thread should be on a ready list exactly when it is READY. Every
call of the scheduler keeps this but `pthread_yield_sys`, which puts the thread that runs on
a list whatever its state: a thread that has finished still runs its cleanup handlers, and
these may yield.
-/

namespace Xmertl.Partikle

open Runs

namespace Sched

variable {T : Type} [DecidableEq T] {s s' : Sched T}

theorem OnlyReady.calls (h : Filed s) (hr : OnlyReady s) (hs : Calls (· ≠ .yield) s s') :
    Filed s' ∧ OnlyReady s' := by
  induction hs with
  | refl => exact ⟨h, hr⟩
  | tail _ hstep ih =>
    obtain ⟨c, hc, hfits, rfl⟩ := hstep
    exact ⟨ih.1.call hfits, ih.2.call ih.1 hfits fun he => absurd he hc⟩

end Sched

def ThreadAction.yields {T : Type} : ThreadAction T → Bool
  | .kernel (.call .yield _) => true
  | _ => false

namespace Threads

variable {T : Type}

structure Matched (x : Threads T) : Prop where
  ready : ∀ t, t ≠ x.idle → (x.kernel.sched.Linked t ↔ (x.thread t).state = .ready)
  idle : ¬x.kernel.sched.Linked x.idle

/-- If the step is a yield, the thread that makes it is READY. -/
def YieldsReady (x : Threads T) (a : ThreadAction T) : Prop :=
  a.yields = true → (x.thread x.cur).state = .ready

instance (x : Threads T) (a : ThreadAction T) : Decidable (YieldsReady x a) :=
  inferInstanceAs (Decidable (_ → _))

section
variable {x y : Threads T}

theorem Base.matched (h : Base x) (hr : x.kernel.sched.OnlyReady) : Matched x where
  ready t _ := ⟨hr t, h.live.ready t⟩
  idle := h.live.idle.1

variable [DecidableEq T] [Fintype T]

theorem step_yield {env : Env T} (hs : x.step (.kernel (.call .yield env)) = some y) :
    x.cur ≠ x.idle ∧ y.kernel.sched = x.kernel.sched.pthreadYield.scheduling := by
  simp only [step, Kernel.step, Option.ite_none_right_eq_some, Option.map_eq_some_iff] at hs
  obtain ⟨-, k, ⟨⟨-, hi⟩, hk⟩, rfl⟩ := hs
  obtain rfl := Option.some.inj hk
  exact ⟨hi, rfl⟩

theorem Matched.yields (h : Matched y) {a : ThreadAction T} (hs : x.step a = some y) :
    YieldsReady x a := by
  intro hy
  unfold ThreadAction.yields at hy
  split at hy
  · obtain ⟨hi, hsched⟩ := step_yield hs
    have hidle : y.idle = x.idle := by
      rw [Threads.idle, hsched]
      exact Sched.pthreadYield_idle _
    have hlinked : y.kernel.sched.Linked x.cur := by
      rw [hsched]
      exact ⟨_, Sched.mem_insertSsTail.mpr (.inl ⟨rfl, rfl⟩)⟩
    have hready := (h.ready x.cur (by rw [hidle]; exact hi)).mp hlinked
    rw [thread, hsched] at hready
    exact (Sched.pthreadYield_state _ _).symm.trans hready
  · cases hy

theorem step_onlyReady (h : Base x) (hr : Running x) (ho : x.kernel.sched.OnlyReady)
    {a : ThreadAction T} (hc : YieldsReady x a) (hs : x.step a = some y) :
    y.kernel.sched.OnlyReady := by
  rcases step_goes h hr hs with hgo | ⟨⟨⟨env, rfl⟩, hi, hsched⟩, -⟩
  · exact (ho.calls h.live.toFiled hgo.1.calls).2
  · have hstate : (x.thread x.cur).state = .ready := hc rfl
    rw [hsched]
    exact ho.call (c := .yield) h.live.toFiled (fun hsus => by
      rw [show (x.kernel.sched.thread x.kernel.sched.currentThread).state = .ready from hstate] at hsus
      cases hsus) fun _ => hstate

omit [Fintype T] in
theorem boot_onlyReady {idle mainapp : T} (hm : mainapp ≠ idle) (sem : Nat → BitVec 32)
    (attr : Nat → MutexAttr) : (boot idle mainapp sem attr).kernel.sched.OnlyReady := by
  have hnone : (bootSched idle).OnlyReady := fun t ⟨i, hi⟩ => by simp [bootSched] at hi
  exact (hnone.calls (bootSched_live hm).toFiled (boot_base hm sem attr).2.2).2

end

/-- Threads and lists agree in every state of a run if and only if only READY threads yield. -/
theorem ready_matched [DecidableEq T] [Fintype T] {idle mainapp : T} (hm : mainapp ≠ idle)
    {sem : Nat → BitVec 32} {attr : Nat → MutexAttr} {tr : List (Threads T × ThreadAction T)}
    {x : Threads T} (hr : Run step (boot idle mainapp sem attr) tr x) :
    (∀ y, Visited tr x y → Matched y) ↔ ∀ e ∈ tr, YieldsReady e.1 e.2 := by
  refine ⟨fun h e he => ?_, fun hc y hv => ?_⟩
  · obtain ⟨y, hs, hv⟩ := hr.post_visited he
    exact (h y hv).yields hs
  · have hboot := boot_base hm sem attr
    have hstart : Base (boot idle mainapp sem attr) ∧ Running (boot idle mainapp sem attr) :=
      ⟨hboot.1, hboot.2.1⟩
    have hall : (Base y ∧ Running y) ∧ y.kernel.sched.OnlyReady := by
      refine hr.invariant_visited (C := YieldsReady)
        (I := fun x => (Base x ∧ Running x) ∧ x.kernel.sched.OnlyReady)
        ⟨hstart, boot_onlyReady hm sem attr⟩ (fun s a s' hs hc hstep => ⟨?_, ?_⟩) hc hv
      · exact step_base hs.1.1 hs.1.2 hstep
      · exact step_onlyReady hs.1.1 hs.1.2 hs.2 hc hstep
    exact hall.1.1.matched hall.2

/-- A thread yields, exits with a cleanup handler and is joined. -/
theorem ready_matched_run : ∃ tr x,
    Run step (boot (none : Option Bool) (some false) (fun _ => 0) fun _ => {}) tr x ∧
      (x.thread (some true)).state = .finished ∧ x.cur = some false ∧
      ∀ y, Visited tr x y → Matched y := by
  have hrun : (exec step (boot (none : Option Bool) (some false) (fun _ => 0) fun _ => {})
      [.create (some (some true)) (some { schedPriority := 5 }) true, .kernel (.call .yield {}),
        .kernel (.resume {}), .cleanupPush, .exit, .cleanupHandler, .exitEnd, .resume,
        .join (some (some true))]).any fun r =>
      decide ((∀ e ∈ r.1, YieldsReady e.1 e.2) ∧ (r.2.thread (some true)).state = .finished ∧
        r.2.cur = some false) := by
    decide +kernel
  obtain ⟨tr, x, hr, hx⟩ := exec_any hrun
  simp only [decide_eq_true_eq] at hx
  exact ⟨tr, x, hr, hx.2.1, hx.2.2, (ready_matched (Option.some_ne_none false) hr).mpr hx.1⟩

/-- The thread's cleanup handler yields: FINISHED, it is on a list and runs again. -/
theorem finished_linked : ∃ tr x,
    Run step (boot (none : Option Bool) (some false) (fun _ => 0) fun _ => {}) tr x ∧
      tr.map Prod.snd = [.kernel (.call .yield {}), .cleanupHandler, .exit, .cleanupPush,
        .create (some (some true)) (some { schedPriority := 5 }) true] ∧
      (x.thread (some true)).state = .finished ∧ x.kernel.sched.Linked (some true) ∧
      x.cur = some true := by
  have hrun : (exec step (boot (none : Option Bool) (some false) (fun _ => 0) fun _ => {})
      [.create (some (some true)) (some { schedPriority := 5 }) true, .cleanupPush, .exit,
        .cleanupHandler, .kernel (.call .yield {})]).any fun r =>
      decide ((r.2.thread (some true)).state = .finished ∧
        some true ∈ r.2.kernel.sched.threadMatrix 5 ∧ r.2.cur = some true) := by
    decide +kernel
  obtain ⟨tr, x, hr, hacts, hx⟩ := exec_any_actions hrun
  simp only [decide_eq_true_eq] at hx
  exact ⟨tr, x, hr, hacts, hx.1, ⟨5, hx.2.1⟩, hx.2.2⟩

end Threads

end Xmertl.Partikle
