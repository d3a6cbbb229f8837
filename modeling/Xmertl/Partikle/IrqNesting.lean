import Xmertl.Lib.Runs
import Xmertl.Partikle.Highest

/-!
# Nested interrupts

`do_irq` of `irqs_xm.c` and the `scheduling ()` that its handlers and the threads call. Each
thread has a stack of the interrupts that were taken on it. `irq_nesting_counter` is read and
written back by `do_irq`; XtratuM enters `do_irq` with events disabled, so that nothing comes
between when it counts up, but a handler may have enabled them when it counts down.
-/

namespace Xmertl.Partikle

open Runs

def outsideIrqs : BitVec 32 := 0x7fffffff

def schedPending : BitVec 32 := 0x80000000

inductive IrqFrame
  /-- A new thread, with the stack of `setup_stack`. -/
  | startup
  /-- `scheduling`, after its `context_switch`; with the flags it has saved. -/
  | switched (flags : Bool)
  /-- `do_irq`, in the handler of its interrupt. -/
  | handler
  /-- `do_irq`, with the counter read to be counted down. -/
  | loaded (v : BitVec 32)
  /-- `do_irq`, with the counter written. -/
  | stored
  /-- `do_irq`, about to call `scheduling`. -/
  | calling
  | returning
  deriving DecidableEq

def IrqFrame.inProgress : IrqFrame → Bool
  | .handler | .loaded _ => true
  | .startup | .switched _ | .stored | .calling | .returning => false

/-- `asked` notes a call of `scheduling` in an interrupt, until the scheduler runs. -/
structure Irqs (T : Type) where
  sched : Sched T
  irqNestingCounter : BitVec 32
  enabled : Bool
  frames : T → List IrqFrame
  asked : Bool

inductive IrqAction (T : Type)
  | irq
  | load
  | store
  | test
  | call
  | ret
  /-- By a thread or a handler. -/
  | scheduling
  | sti
  | cli
  | sched (c : SchedCall T)

namespace Irqs

variable {T : Type}

def cur (x : Irqs T) : T := x.sched.currentThread

def stack (x : Irqs T) : List IrqFrame := x.frames x.cur

def depth (x : Irqs T) : Nat := x.stack.countP IrqFrame.inProgress

def Free (x : Irqs T) : Prop := x.stack = [] ∨ x.stack.head? = some .handler

instance (x : Irqs T) : Decidable x.Free := inferInstanceAs (Decidable (_ ∨ _))

variable [DecidableEq T]

def put (x : Irqs T) (l : List IrqFrame) : Irqs T :=
  { x with frames := Function.update x.frames x.cur l }

/-- The thread switched to goes on in its `scheduling`, or starts. -/
def contextSwitch (x : Irqs T) (new : T) : Irqs T :=
  let frames := Function.update x.frames x.cur (.switched x.enabled :: x.stack)
  match frames new with
  | .switched flags :: rest =>
    { x with
      frames := Function.update frames new rest
      enabled := flags
      irqNestingCounter := 0 }
  | l => { x with frames := Function.update frames new l.tail, enabled := true }

def scheduling (x : Irqs T) : Irqs T :=
  if x.irqNestingCounter &&& outsideIrqs ≠ 0 then
    { x with
      irqNestingCounter := x.irqNestingCounter ||| schedPending
      asked := x.asked || decide (0 < x.depth) }
  else
    let new := x.sched.scheduling.currentThread
    if new ≠ x.cur then { x.contextSwitch new with sched := x.sched.scheduling, asked := false }
    else { x with irqNestingCounter := 0, asked := false }

/-- The idle thread is never made READY, and no structure in use is taken or given back. -/
def Allowed (x : Irqs T) : SchedCall T → Prop
  | .scheduling => False
  | .activateThread t => t ≠ x.sched.idleThread
  | .createPthread t _ | .deletePthread t => t ≠ x.sched.idleThread ∧ t ≠ x.cur
  | .changeThreadPrio _ _ | .suspendThread _ | .finishThread _ | .yield | .signals _ _ _ _ => True

instance (x : Irqs T) (c : SchedCall T) : Decidable (x.Allowed c) :=
  match c with
  | .scheduling => inferInstanceAs (Decidable False)
  | .activateThread _ => inferInstanceAs (Decidable (_ ≠ _))
  | .createPthread _ _ | .deletePthread _ => inferInstanceAs (Decidable (_ ≠ _ ∧ _ ≠ _))
  | .changeThreadPrio _ _ | .suspendThread _ | .finishThread _ | .yield | .signals _ _ _ _ =>
    inferInstanceAs (Decidable True)

def after (x : Irqs T) (c : SchedCall T) : Irqs T :=
  { x with
    sched := x.sched.call c
    frames :=
      match c with
      | .createPthread t _ => Function.update x.frames t [.startup]
      | _ => x.frames }

def step (x : Irqs T) : IrqAction T → Option (Irqs T)
  | .irq =>
    if x.enabled then
      some { x.put (.handler :: x.stack) with
        irqNestingCounter := x.irqNestingCounter + 1
        enabled := false }
    else none
  | .load =>
    match x.stack with
    | .handler :: rest => some (x.put (.loaded x.irqNestingCounter :: rest))
    | _ => none
  | .store =>
    match x.stack with
    | .loaded v :: rest => some { x.put (.stored :: rest) with irqNestingCounter := v - 1 }
    | _ => none
  | .test =>
    match x.stack with
    | .stored :: rest =>
      some (x.put ((if x.irqNestingCounter = schedPending then .calling else .returning) :: rest))
    | _ => none
  | .call =>
    match x.stack with
    | .calling :: rest => some (x.put (.returning :: rest)).scheduling
    | _ => none
  | .ret =>
    -- XtratuM enables the events again
    match x.stack with
    | .returning :: rest => some { x.put rest with enabled := true }
    | _ => none
  | .scheduling => if x.Free then some x.scheduling else none
  | .sti => if x.Free then some { x with enabled := true } else none
  | .cli => if x.Free then some { x with enabled := false } else none
  | .sched c => if x.Free ∧ x.sched.Fits c ∧ x.Allowed c then some (x.after c) else none

def start (idle : T) : Irqs T where
  sched := (FifoSched.init idle).sched
  irqNestingCounter := 0
  enabled := true
  frames := fun t => if t = idle then [] else [.startup]
  asked := false

end Irqs

/-- A READY thread of the least number runs, or none is READY. -/
def Sched.Best {T : Type} (s : Sched T) : Prop :=
  s.Top ∧ (s.currentThread ≠ s.idleThread → (s.thread s.currentThread).state = .ready)

namespace Irqs

variable {T : Type}

/-- `do_irq` has counted down, and its test finds that the scheduler is to run. -/
def Finishing (x : Irqs T) : Prop :=
  x.depth = 0 ∧ (x.stack.head? = some .stored ∧ x.irqNestingCounter = schedPending ∨
    x.stack.head? = some .calling ∧ x.irqNestingCounter &&& outsideIrqs = 0)

/-- What has been asked for waits for the outermost interrupt alone. -/
def Waits (x : Irqs T) : Prop := x.asked = true → 0 < x.depth ∨ x.Finishing

/-- From `x` to `y`. -/
structure Defers (x y : Irqs T) : Prop where
  switch : y.cur ≠ x.cur → x.irqNestingCounter &&& outsideIrqs = 0 ∧ x.depth = 0
  served : x.asked = true → y.asked = false → x.Finishing ∧ y.sched.Best

/-- The condition: the counter is written back as it was read, there are less than 2^31
interrupts, and the ready lists get READY threads and their priorities only. -/
def Sound (x : Irqs T) : IrqAction T → Prop
  | .irq => x.depth + 1 < 2 ^ 31
  | .store => x.stack.head? = some (.loaded x.irqNestingCounter)
  | .sched .yield => (x.sched.thread x.cur).state = .ready
  | .sched (.createPthread _ prio) | .sched (.changeThreadPrio _ prio) => PrioOk prio
  | _ => True

instance (x : Irqs T) (a : IrqAction T) : Decidable (x.Sound a) :=
  match a with
  | .irq => inferInstanceAs (Decidable (_ < _))
  | .store => inferInstanceAs (Decidable (_ = _))
  | .sched .yield => inferInstanceAs (Decidable (_ = _))
  | .sched (.createPthread _ prio) | .sched (.changeThreadPrio _ prio) =>
    inferInstanceAs (Decidable (PrioOk prio))
  | .load | .test | .call | .ret | .scheduling | .sti | .cli | .sched (.deletePthread _)
  | .sched (.suspendThread _) | .sched (.activateThread _) | .sched (.finishThread _)
  | .sched .scheduling | .sched (.signals _ _ _ _) => inferInstanceAs (Decidable True)

/-- What holds whenever code of a thread or of `do_irq` runs. -/
structure Core (x : Irqs T) : Prop where
  counter : x.irqNestingCounter.toNat % 2 ^ 31 = x.depth
  flag : x.asked = true → x.irqNestingCounter.msb = true
  others : ∀ t, t ≠ x.cur → (x.frames t).countP IrqFrame.inProgress = 0
  filed : x.sched.Filed
  ready : x.sched.OnlyReady
  idle : x.sched.Out x.sched.idleThread
  prio : ∀ t, PrioOk (x.sched.thread t).schedPriority

structure Inv (x : Irqs T) : Prop extends Core x where
  waits : x.asked = true → x.depth = 0 →
    x.stack.head? = some .stored ∨ x.stack.head? = some .calling

-- ---------------------------------------------------------------------------
-- The counter
-- ---------------------------------------------------------------------------

theorem and_outsideIrqs {c : BitVec 32} : c &&& outsideIrqs = 0 ↔ c.toNat % 2 ^ 31 = 0 := by
  rw [← BitVec.toNat_inj, BitVec.toNat_and]
  exact Eq.congr_left (Nat.and_two_pow_sub_one_eq_mod c.toNat 31)

theorem or_schedPending (c : BitVec 32) : (c ||| schedPending).toNat % 2 ^ 31 = c.toNat % 2 ^ 31 := by
  rw [BitVec.toNat_or, Nat.or_mod_two_pow]
  exact Nat.or_zero _

theorem msb_or_schedPending (c : BitVec 32) : (c ||| schedPending).msb = true := by
  rw [BitVec.msb_or, show schedPending.msb = true from rfl, Bool.or_true]

theorem eq_schedPending {c : BitVec 32} (hmsb : c.msb = true) (hlow : c.toNat % 2 ^ 31 = 0) :
    c = schedPending := by
  rw [BitVec.msb_eq_decide, decide_eq_true_iff] at hmsb
  have hlt := c.isLt
  apply BitVec.eq_of_toNat_eq
  change c.toNat = 2 ^ 31
  omega

-- ---------------------------------------------------------------------------
-- The stacks
-- ---------------------------------------------------------------------------

section
variable [DecidableEq T] {x y : Irqs T} {l : List IrqFrame} {t : T} {c : SchedCall T}

@[simp] theorem put_stack : (x.put l).stack = l := Function.update_self _ _ _

@[simp] theorem put_depth : (x.put l).depth = l.countP IrqFrame.inProgress := by
  rw [depth, put_stack]

theorem put_frames (ht : t ≠ x.cur) : (x.put l).frames t = x.frames t :=
  Function.update_of_ne ht _ _

omit [DecidableEq T] in
theorem Core.local (h : x.Core) (hsched : y.sched = x.sched)
    (hframes : ∀ t, t ≠ x.cur → y.frames t = x.frames t)
    (hcounter : y.irqNestingCounter.toNat % 2 ^ 31 = y.depth)
    (hflag : y.asked = true → y.irqNestingCounter.msb = true) : y.Core where
  counter := hcounter
  flag := hflag
  others t ht := by
    rw [cur, hsched] at ht
    rw [hframes t ht]
    exact h.others t ht
  filed := hsched ▸ h.filed
  ready := hsched ▸ h.ready
  idle := hsched ▸ h.idle
  prio := hsched ▸ h.prio

theorem Core.put (h : x.Core) (hdepth : (x.put l).depth = x.depth) : (x.put l).Core :=
  h.local rfl (fun _ ht => put_frames ht) (h.counter.trans hdepth.symm) h.flag

omit [DecidableEq T] in
theorem Inv.finishing (h : x.Inv) (ha : x.asked = true) (hd : x.depth = 0) : x.Finishing := by
  have hlow : x.irqNestingCounter.toNat % 2 ^ 31 = 0 := h.counter.trans hd
  refine ⟨hd, ?_⟩
  rcases h.waits ha hd with hs | hc
  · exact .inl ⟨hs, eq_schedPending (h.flag ha) hlow⟩
  · exact .inr ⟨hc, and_outsideIrqs.mpr hlow⟩

omit [DecidableEq T] in
theorem Inv.toWaits (h : x.Inv) : x.Waits := by
  intro ha
  rcases Nat.eq_zero_or_pos x.depth with hd | hd
  · exact .inr (h.finishing ha hd)
  · exact .inl hd

-- ---------------------------------------------------------------------------
-- The scheduler
-- ---------------------------------------------------------------------------

omit [DecidableEq T] in
theorem Core.best (h : x.Core) : x.sched.scheduling.Best := by
  refine ⟨Sched.scheduling_top h.filed h.idle.1 h.prio, fun hne => ?_⟩
  rw [Sched.scheduling] at hne ⊢
  cases hh : x.sched.getHeadSs with
  | none =>
    rw [hh] at hne
    exact absurd rfl hne
  | some t =>
    obtain ⟨i, -, -, hi, -⟩ := Sched.headFrom_some hh
    exact h.ready t ⟨i, List.mem_of_mem_head? hi⟩

theorem contextSwitch_spec (new : T) (hd : x.depth = 0)
    (h : ∀ t, t ≠ x.cur → (x.frames t).countP IrqFrame.inProgress = 0) :
    (∀ t, ((x.contextSwitch new).frames t).countP IrqFrame.inProgress = 0) ∧
      ((x.contextSwitch new).irqNestingCounter = 0 ∨
        (x.contextSwitch new).irqNestingCounter = x.irqNestingCounter) := by
  have hsaved (t : T) :
      (Function.update x.frames x.cur (.switched x.enabled :: x.stack) t).countP
        IrqFrame.inProgress = 0 := by
    by_cases ht : t = x.cur
    · rw [ht, Function.update_self]
      exact hd
    · rw [Function.update_of_ne ht]
      exact h t ht
  have hnew (l : List IrqFrame) (hl : l.countP IrqFrame.inProgress = 0) (t : T) :
      (Function.update (Function.update x.frames x.cur (.switched x.enabled :: x.stack)) new l
        t).countP IrqFrame.inProgress = 0 := by
    by_cases ht : t = new
    · rw [ht, Function.update_self]
      exact hl
    · rw [Function.update_of_ne ht]
      exact hsaved t
  have htop := hsaved new
  rw [contextSwitch]
  split
  next flags rest hs =>
    rw [hs] at htop
    exact ⟨hnew rest htop, .inl rfl⟩
  next l hs =>
    refine ⟨hnew _ ?_, .inr rfl⟩
    exact Nat.le_zero.mp (htop ▸ (List.tail_sublist _).countP_le)

theorem Core.dispatch (h : x.Core) (hlow : x.irqNestingCounter &&& outsideIrqs = 0) :
    x.scheduling.Inv ∧ x.scheduling.sched = x.sched.scheduling ∧ x.scheduling.asked = false := by
  have hzero := and_outsideIrqs.mp hlow
  have hd : x.depth = 0 := h.counter.symm.trans hzero
  rw [scheduling, if_neg (fun hn => hn hlow)]
  dsimp only
  split
  next hne =>
    obtain ⟨hframes, hcounter⟩ := contextSwitch_spec x.sched.scheduling.currentThread hd h.others
    refine ⟨⟨⟨?_, nofun, fun t _ => hframes t, ⟨⟨h.filed.linked, h.filed.nodup⟩, h.filed.ready⟩,
      h.ready, h.idle, h.prio⟩, nofun⟩, rfl, rfl⟩
    refine Eq.trans ?_ (hframes x.sched.scheduling.currentThread).symm
    rcases hcounter with hc | hc
    · exact congrArg (fun c : BitVec 32 => c.toNat % 2 ^ 31) hc
    · exact (congrArg (fun c : BitVec 32 => c.toNat % 2 ^ 31) hc).trans hzero
  next heq =>
    refine ⟨⟨h.local rfl (fun _ _ => rfl) hd.symm nofun, nofun⟩, ?_, rfl⟩
    have hcur : x.sched.scheduling.currentThread = x.sched.currentThread := not_not.mp heq
    rw [Sched.scheduling] at hcur ⊢
    dsimp only at hcur
    rw [hcur]

theorem Core.scheduling_inv (h : x.Core) : x.scheduling.Inv := by
  by_cases hlow : x.irqNestingCounter &&& outsideIrqs = 0
  · exact (h.dispatch hlow).1
  · have hd : x.depth ≠ 0 := fun hd => hlow (and_outsideIrqs.mpr (h.counter.trans hd))
    rw [scheduling, if_pos hlow]
    refine ⟨h.local rfl (fun _ _ => rfl) ?_ fun _ => msb_or_schedPending _, fun _ hz => ?_⟩
    · exact (or_schedPending _).trans h.counter
    · exact absurd hz hd

theorem Core.scheduling_defers (h : x.Core) :
    (x.scheduling.cur ≠ x.cur → x.irqNestingCounter &&& outsideIrqs = 0 ∧ x.depth = 0) ∧
      (x.asked = true → x.scheduling.asked = false → x.depth = 0 ∧ x.scheduling.sched.Best) := by
  by_cases hlow : x.irqNestingCounter &&& outsideIrqs = 0
  · have hd : x.depth = 0 := h.counter.symm.trans (and_outsideIrqs.mp hlow)
    refine ⟨fun _ => ⟨hlow, hd⟩, fun _ _ => ⟨hd, ?_⟩⟩
    rw [(h.dispatch hlow).2.1]
    exact h.best
  · rw [scheduling, if_pos hlow]
    refine ⟨fun hne => absurd rfl hne, fun ha hn => ?_⟩
    dsimp only at hn
    rw [ha, Bool.true_or] at hn
    exact nomatch hn

-- ---------------------------------------------------------------------------
-- Steps
-- ---------------------------------------------------------------------------

omit [DecidableEq T] in
theorem Defers.of_same (hcur : y.cur = x.cur) (hasked : y.asked = x.asked) : x.Defers y where
  switch hne := absurd hcur hne
  served ha hn := by
    rw [hasked, ha] at hn
    exact nomatch hn

theorem irq_step (h : x.Inv) (hd : x.depth + 1 < 2 ^ 31) (hs : x.step .irq = some y) :
    y.Inv ∧ x.Defers y := by
  obtain ⟨-, hs⟩ := Option.ite_none_right_eq_some.mp hs
  obtain rfl := Option.some.inj hs
  have hlow := h.counter
  have hlt := x.irqNestingCounter.isLt
  have hdepth : (x.put (.handler :: x.stack)).depth = x.depth + 1 := by
    rw [put_depth, List.countP_cons_of_pos rfl]
    rfl
  have hnat : (x.irqNestingCounter + 1).toNat = x.irqNestingCounter.toNat + 1 := by
    rw [BitVec.toNat_add]
    change (x.irqNestingCounter.toNat + 1) % 2 ^ 32 = _
    omega
  refine ⟨⟨h.local rfl (fun _ ht => put_frames ht) ?_ fun ha => ?_, fun _ hz => ?_⟩, .of_same rfl rfl⟩
  · refine Eq.trans ?_ hdepth.symm
    dsimp only
    omega
  · have hmsb := h.flag ha
    rw [BitVec.msb_eq_decide, decide_eq_true_iff] at hmsb ⊢
    dsimp only
    omega
  · exact absurd (hdepth.symm.trans hz) (Nat.succ_ne_zero _)

theorem load_step (h : x.Inv) (hs : x.step .load = some y) : y.Inv ∧ x.Defers y := by
  rw [step] at hs
  split at hs
  next rest hstack =>
    obtain rfl := Option.some.inj hs
    have hdepth : x.depth = rest.countP IrqFrame.inProgress + 1 := by
      rw [depth, hstack, List.countP_cons_of_pos rfl]
    have hdepth' : (x.put (.loaded x.irqNestingCounter :: rest)).depth = x.depth := by
      rw [hdepth, put_depth, List.countP_cons_of_pos rfl]
    refine ⟨⟨h.put hdepth', fun _ hz => ?_⟩, .of_same rfl rfl⟩
    rw [hdepth', hdepth] at hz
    exact absurd hz (Nat.succ_ne_zero _)
  next => exact nomatch hs

theorem store_step (h : x.Inv) (hc : x.stack.head? = some (.loaded x.irqNestingCounter))
    (hs : x.step .store = some y) : y.Inv ∧ x.Defers y := by
  rw [step] at hs
  split at hs
  next v rest hstack =>
    obtain rfl := Option.some.inj hs
    have hv : v = x.irqNestingCounter := by
      rw [hstack, List.head?_cons] at hc
      exact IrqFrame.loaded.inj (Option.some.inj hc)
    subst hv
    have hlow := h.counter
    have hlt := x.irqNestingCounter.isLt
    have hdepth : x.depth = rest.countP IrqFrame.inProgress + 1 := by
      rw [depth, hstack, List.countP_cons_of_pos rfl]
    have hnat : (x.irqNestingCounter - 1).toNat = x.irqNestingCounter.toNat - 1 := by
      rw [BitVec.toNat_sub]
      change (2 ^ 32 - 1 + x.irqNestingCounter.toNat) % 2 ^ 32 = _
      omega
    have hdepth' : (x.put (.stored :: rest)).depth = rest.countP IrqFrame.inProgress := by
      rw [put_depth, List.countP_cons_of_neg (by decide)]
    have hhead : (x.put (.stored :: rest)).stack.head? = some .stored := by
      rw [put_stack, List.head?_cons]
    refine ⟨⟨h.local rfl (fun _ ht => put_frames ht) ?_ fun ha => ?_, fun _ _ => .inl hhead⟩,
      .of_same rfl rfl⟩
    · refine Eq.trans ?_ hdepth'.symm
      dsimp only
      omega
    · have hmsb := h.flag ha
      rw [BitVec.msb_eq_decide, decide_eq_true_iff] at hmsb ⊢
      dsimp only
      omega
  next => exact nomatch hs

theorem test_step (h : x.Inv) (hs : x.step .test = some y) : y.Inv ∧ x.Defers y := by
  rw [step] at hs
  split at hs
  next rest hstack =>
    obtain rfl := Option.some.inj hs
    have hdepth : x.depth = rest.countP IrqFrame.inProgress := by
      rw [depth, hstack, List.countP_cons_of_neg (by decide)]
    have hdepth' (f : IrqFrame) (hf : f.inProgress = false) : (x.put (f :: rest)).depth = x.depth := by
      rw [hdepth, put_depth, List.countP_cons_of_neg (by rw [hf]; exact Bool.false_ne_true)]
    split
    next hp =>
      refine ⟨⟨h.put (hdepth' _ rfl), fun _ _ => .inr ?_⟩, .of_same rfl rfl⟩
      exact congrArg List.head? put_stack
    next hp =>
      refine ⟨⟨h.put (hdepth' _ rfl), fun ha hz => ?_⟩, .of_same rfl rfl⟩
      have hlow := h.counter.trans ((hdepth' _ rfl).symm.trans hz)
      exact absurd (eq_schedPending (h.flag ha) hlow) hp
  next => exact nomatch hs

theorem ret_step (h : x.Inv) (hs : x.step .ret = some y) : y.Inv ∧ x.Defers y := by
  rw [step] at hs
  split at hs
  next rest hstack =>
    obtain rfl := Option.some.inj hs
    have hdepth : (x.put rest).depth = x.depth := by
      rw [put_depth, depth, hstack, List.countP_cons_of_neg (by decide)]
    refine ⟨⟨h.local rfl (fun _ ht => put_frames ht) (h.counter.trans hdepth.symm) h.flag,
      fun ha hz => ?_⟩, .of_same rfl rfl⟩
    have hwaits := h.waits ha (hdepth.symm.trans hz)
    rw [hstack] at hwaits
    simp at hwaits
  next => exact nomatch hs

theorem scheduling_step (h : x.Inv) : x.scheduling.Inv ∧ x.Defers x.scheduling := by
  obtain ⟨hswitch, hserved⟩ := h.scheduling_defers
  refine ⟨h.scheduling_inv, hswitch, fun ha hn => ?_⟩
  obtain ⟨hd, hbest⟩ := hserved ha hn
  exact ⟨h.finishing ha hd, hbest⟩

theorem call_step (h : x.Inv) (hs : x.step .call = some y) : y.Inv ∧ x.Defers y := by
  rw [step] at hs
  split at hs
  next rest hstack =>
    obtain rfl := Option.some.inj hs
    have hdepth : (x.put (.returning :: rest)).depth = x.depth := by
      rw [put_depth, depth, hstack, List.countP_cons_of_neg (by decide),
        List.countP_cons_of_neg (by decide)]
    have hcore : (x.put (.returning :: rest)).Core := h.put hdepth
    obtain ⟨hswitch, hserved⟩ := hcore.scheduling_defers
    rw [hdepth] at hswitch hserved
    refine ⟨hcore.scheduling_inv, hswitch, fun ha hn => ?_⟩
    obtain ⟨hd, hbest⟩ := hserved ha hn
    exact ⟨h.finishing ha hd, hbest⟩
  next => exact nomatch hs

theorem after_stack (ha : x.Allowed c) (hc : (x.after c).cur = x.cur) :
    (x.after c).stack = x.stack ∧ ∀ t, t ≠ x.cur →
      (x.frames t).countP IrqFrame.inProgress = 0 →
        ((x.after c).frames t).countP IrqFrame.inProgress = 0 := by
  rw [stack, hc, stack]
  cases c with
  | createPthread u prio =>
    refine ⟨Function.update_of_ne ha.2.symm _ _, fun t _ h => ?_⟩
    by_cases ht : t = u
    · subst ht
      exact congrArg (List.countP _) (Function.update_self t [IrqFrame.startup] x.frames)
    · exact (congrArg (List.countP _) (Function.update_of_ne ht _ x.frames)).trans h
  | deletePthread | changeThreadPrio | suspendThread | activateThread | finishThread | yield
  | scheduling | signals => exact ⟨rfl, fun _ _ h => h⟩

theorem after_cur (ha : x.Allowed c) : (x.after c).cur = x.cur := by
  cases c with
  | scheduling => exact ha.elim
  | createPthread | deletePthread | changeThreadPrio | suspendThread | activateThread
  | finishThread | yield | signals =>
    simp [after, cur, Sched.call, Sched.createPthreadStruct, Sched.deletePthreadStruct,
      Sched.finishThread]

theorem sched_step (h : x.Inv) (hc : x.Sound (.sched c)) (hs : x.step (.sched c) = some y) :
    y.Inv ∧ x.Defers y := by
  obtain ⟨⟨-, hfits, hallowed⟩, hs⟩ := Option.ite_none_right_eq_some.mp hs
  obtain rfl := Option.some.inj hs
  have hcur := after_cur hallowed
  obtain ⟨hstack, hothers⟩ := after_stack hallowed hcur
  have hyield : c = .yield → (x.sched.thread x.cur).state = .ready := by
    rintro rfl
    exact hc
  have hdepth : (x.after c).depth = x.depth := by rw [depth, hstack, depth]
  refine ⟨⟨⟨h.counter.trans hdepth.symm, h.flag, fun t ht => ?_, h.filed.call hfits,
    h.ready.call h.filed hfits hyield, ?_, fun t => ?_⟩, fun ha hz => ?_⟩, .of_same hcur rfl⟩
  · rw [hcur] at ht
    exact hothers t ht (h.others t ht)
  · have hidle : (x.after c).sched.idleThread = x.sched.idleThread := Sched.call_idle
    rw [hidle]
    refine h.idle.call h.filed (fun he => ?_) fun he hc => ?_
    · subst he
      exact absurd rfl hallowed
    · exact h.idle.2 (hc ▸ hyield he)
  · have hsched : (x.after c).sched = x.sched.call c := rfl
    rw [hsched]
    rcases Sched.call_prio (s := x.sched) (c := c) t with he | hset
    · rw [he]
      exact h.prio t
    · cases c with
      | createPthread u prio =>
        rw [hset]
        exact hc
      | changeThreadPrio u prio =>
        rw [hset]
        exact hc
      | deletePthread | suspendThread | activateThread | finishThread | yield | scheduling
      | signals => exact hset.elim
  · rw [hstack]
    exact h.waits ha (hdepth.symm.trans hz)

omit [DecidableEq T] in
theorem flags_step (h : x.Inv) (b : Bool) :
    ({ x with enabled := b } : Irqs T).Inv ∧ x.Defers { x with enabled := b } :=
  ⟨⟨h.local rfl (fun _ _ => rfl) h.counter h.flag, h.waits⟩, .of_same rfl rfl⟩

theorem step_inv (h : x.Inv) {a : IrqAction T} (hc : x.Sound a) (hs : x.step a = some y) :
    y.Inv ∧ x.Defers y := by
  cases a with
  | irq => exact irq_step h hc hs
  | load => exact load_step h hs
  | store => exact store_step h hc hs
  | test => exact test_step h hs
  | call => exact call_step h hs
  | ret => exact ret_step h hs
  | scheduling =>
    obtain ⟨-, hs⟩ := Option.ite_none_right_eq_some.mp hs
    exact Option.some.inj hs ▸ scheduling_step h
  | sti =>
    obtain ⟨-, hs⟩ := Option.ite_none_right_eq_some.mp hs
    exact Option.some.inj hs ▸ flags_step h true
  | cli =>
    obtain ⟨-, hs⟩ := Option.ite_none_right_eq_some.mp hs
    exact Option.some.inj hs ▸ flags_step h false
  | sched c => exact sched_step h hc hs

theorem start_inv (idle : T) : (start idle).Inv where
  counter := by
    rw [depth, stack, start]
    dsimp only [cur, FifoSched.init]
    rw [if_pos rfl]
    rfl
  flag := nofun
  others t ht := by
    have hne : t ≠ idle := ht
    rw [start]
    dsimp only
    rw [if_neg hne]
    rfl
  filed := ⟨⟨fun _ _ h => absurd h List.not_mem_nil, fun _ => List.nodup_nil⟩, nofun⟩
  ready _ h := absurd h.choose_spec List.not_mem_nil
  idle := ⟨fun h => absurd h.choose_spec List.not_mem_nil, nofun⟩
  prio _ := (by decide : PrioOk 0)
  waits := nofun

/-- No switch while an interrupt is in progress; what handlers ask for waits for the outermost
`do_irq`, where the scheduler runs and the best thread is current. -/
theorem irqs_deferred {idle : T} {tr : List (Irqs T × IrqAction T)}
    (hr : Run step (start idle) tr x) (hs : ∀ e ∈ tr, e.1.Sound e.2) :
    (∀ y, Visited tr x y → y.Waits) ∧
      ∀ e ∈ tr, ∀ y, e.1.step e.2 = some y → e.1.Defers y := by
  have hinv (y : Irqs T) (hy : Visited tr x y) : y.Inv :=
    hr.invariant_visited (C := fun x a => x.Sound a) (start_inv idle)
      (fun x a y hx hc hs => (step_inv hx hc hs).1) hs hy
  refine ⟨fun y hy => (hinv y hy).toWaits, fun e he y hy => ?_⟩
  exact (step_inv (hinv e.1 (.pre he)) (hs e he) hy).2

end

/-- A main thread of priority 5 runs, and another of priority 3 has been created. -/
def twoThreads : List (IrqAction (Option Bool)) :=
  [.sched (.createPthread (some false) 5), .sched (.activateThread (some false)), .scheduling,
    .sched (.createPthread (some true) 3)]

theorem irqs_deferred_nested : ∃ tr x, Run step (start (none : Option Bool)) tr x ∧
    x.cur = some true ∧ (∀ y, Visited tr x y → y.Waits) ∧
      ∀ e ∈ tr, ∀ y, e.1.step e.2 = some y → e.1.Defers y := by
  have h : ((exec step (start (none : Option Bool)) (twoThreads ++
      [.irq, .sti, .irq, .sched (.activateThread (some true)), .scheduling, .load, .store, .test,
        .ret, .load, .store, .test, .call])).any fun r =>
      decide (r.2.cur = some true ∧ ∀ e ∈ r.1, e.1.Sound e.2)) = true := by
    decide +kernel
  obtain ⟨tr, x, hr, hx⟩ := exec_any h
  obtain ⟨hcur, hsound⟩ := of_decide_eq_true hx
  exact ⟨tr, x, hr, hcur, irqs_deferred hr hsound⟩

/-- An interrupt between the read and the write of the counter: what its handler asks for is
lost, and the thread of priority 5 goes on. -/
theorem request_lost : ∃ tr x, Run step (start (none : Option Bool)) tr x ∧ ¬x.Waits ∧
    x.stack = [] ∧ x.irqNestingCounter = 0 ∧ x.cur = some false ∧
    (x.sched.thread (some true)).state = .ready ∧
    (x.sched.thread (some true)).schedPriority < (x.sched.thread x.cur).schedPriority := by
  have h : ((exec step (start (none : Option Bool)) (twoThreads ++
      [.irq, .sti, .load, .irq, .sched (.activateThread (some true)), .scheduling, .load, .store,
        .test, .ret, .store, .test, .ret])).any fun r =>
      decide (r.2.asked = true ∧ r.2.stack = [] ∧ r.2.irqNestingCounter = 0 ∧
        r.2.cur = some false ∧ (r.2.sched.thread (some true)).state = .ready ∧
        (r.2.sched.thread (some true)).schedPriority <
          (r.2.sched.thread r.2.cur).schedPriority)) = true := by
    decide +kernel
  obtain ⟨tr, x, hr, hx⟩ := exec_any h
  obtain ⟨hasked, hstack, hrest⟩ := of_decide_eq_true hx
  refine ⟨tr, x, hr, fun hwaits => ?_, hstack, hrest⟩
  rcases hwaits hasked with hd | ⟨-, hs | hc⟩
  · rw [depth, hstack] at hd
    exact absurd hd (Nat.lt_irrefl 0)
  · rw [hstack] at hs
    exact nomatch hs.1
  · rw [hstack] at hc
    exact nomatch hc.1

end Irqs

end Xmertl.Partikle
