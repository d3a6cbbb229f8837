import Mathlib.Logic.Function.Basic

/-!
# Taking the interrupts over

`hw_irq_takeover` and `hw_irq_giveup` of `irqs.c`: the gates of the interrupt descriptor table,
the handlers of Linux' interrupt controllers and the functions of the root domain, from when
the hypervisor is loaded to when it is unloaded.
-/

namespace Xmertl.Xtratum.Takeover

abbrev Addr := BitVec 32

/-- `struct desc_struct`. -/
structure Gate where
  a : BitVec 32
  b : BitVec 32

inductive GateType
  | irq
  | trap
  | sys
  deriving DecidableEq

/-- The type and the privilege level of a gate, as they stand in its upper word. -/
def GateType.word : GateType → BitVec 32
  | .irq => 0x8000 + (0 <<< 13) + (14 <<< 8)
  | .trap => 0x8000 + (0 <<< 13) + (15 <<< 8)
  | .sys => 0x8000 + (3 <<< 13) + (15 <<< 8)

/-- `hw_set_gate`, with `__KERNEL_CS` as the selector. -/
def hwSetGate (kernelCs : BitVec 16) (type : GateType) (addr : Addr) : Gate where
  a := kernelCs.setWidth 32 <<< 16 ||| addr &&& 0xffff
  b := addr &&& 0xffff0000 ||| type.word

def hwGetGateAddr (e : Gate) : Addr := e.b &&& 0xffff0000 ||| e.a &&& 0xffff

/-- Of `XM_root_func`, the functions that are changed. -/
structure RootFunc where
  cli : Addr
  sti : Addr
  isCli : Addr
  saveFlags : Addr
  restoreFlags : Addr
  emulateIret : Addr

/-- The addresses of the hypervisor's routines, with the selector of the kernel and NR_IRQS. -/
structure Symbols where
  kernelCs : BitVec 16
  nrIrqs : Nat
  irqAddr : Nat → Addr
  trapAddr : Nat → Addr
  systemCall : Addr
  interceptSystemCall : Addr
  rootFunc : RootFunc
  vpic : Addr

/-- `idt` is the table of the processor, and `irqDesc` are the handlers in Linux' `irq_desc`. -/
structure Irqs where
  idt : Nat → Gate
  rootIdtTable : Nat → Addr
  xmRootFunc : RootFunc
  rootFunc : RootFunc
  irqDesc : Nat → Addr
  hwXpic : Nat → Addr

def firstExternalVector : Nat := 0x20

def idtEntries : Nat := 256

/-- The traps that are taken over. The NMI is not among them. -/
def traps : List (Nat × GateType) :=
  [(0, .trap), (1, .trap), (3, .sys), (4, .sys), (5, .sys), (6, .trap), (7, .trap), (8, .trap),
    (9, .trap), (10, .trap), (11, .trap), (12, .trap), (13, .trap), (14, .irq), (15, .trap),
    (16, .trap), (17, .trap), (18, .trap), (19, .trap)]

def gates (nrIrqs : Nat) (irqAddr trapAddr : Nat → Addr) (systemCall interceptSystemCall : Addr) :
    List (Nat × GateType × Addr) :=
  (List.range nrIrqs).map (fun irq => (irq + firstExternalVector, .irq, irqAddr irq)) ++
    traps.map (fun t => (t.1, t.2, trapAddr t.1)) ++
      [(0x82, .sys, systemCall), (0x80, .sys, interceptSystemCall)]

def setGates (kernelCs : BitVec 16) : List (Nat × GateType × Addr) → (Nat → Gate) → Nat → Gate
  | [], idt => idt
  | (vector, type, addr) :: rest, idt =>
    setGates kernelCs rest (Function.update idt vector (hwSetGate kernelCs type addr))

namespace Irqs

def hwIrqTakeover (s : Symbols) (x : Irqs) : Irqs where
  rootFunc := x.xmRootFunc
  xmRootFunc := s.rootFunc
  rootIdtTable := fun vector =>
    if vector < idtEntries then hwGetGateAddr (x.idt vector) else x.rootIdtTable vector
  hwXpic := fun irq => if irq < s.nrIrqs then x.irqDesc irq else x.hwXpic irq
  irqDesc := fun irq => if irq < s.nrIrqs then s.vpic else x.irqDesc irq
  idt := setGates s.kernelCs
    (gates s.nrIrqs s.irqAddr s.trapAddr s.systemCall s.interceptSystemCall) x.idt

def hwIrqGiveup (s : Symbols) (x : Irqs) : Irqs :=
  { x with
    idt := setGates s.kernelCs
      (gates s.nrIrqs (fun irq => x.rootIdtTable (irq + firstExternalVector)) x.rootIdtTable
        (x.rootIdtTable 0x82) (x.rootIdtTable 0x80)) x.idt
    irqDesc := fun irq => if irq < s.nrIrqs then x.hwXpic irq else x.irqDesc irq
    xmRootFunc := { x.rootFunc with emulateIret := 0 } }

end Irqs

-- ---------------------------------------------------------------------------
-- The table after the gates have been set
-- ---------------------------------------------------------------------------

/-- The type of the gate that is set last for a vector, if one is. -/
def gateType (nrIrqs vector : Nat) : Option GateType :=
  if vector = 0x80 ∨ vector = 0x82 then some .sys
  else if vector < firstExternalVector then traps.lookup vector
  else if vector < nrIrqs + firstExternalVector then some .irq
  else none

def gateAddr (irqAddr trapAddr : Nat → Addr) (systemCall interceptSystemCall : Addr)
    (vector : Nat) : Addr :=
  if vector = 0x80 then interceptSystemCall
  else if vector = 0x82 then systemCall
  else if vector < firstExternalVector then trapAddr vector
  else irqAddr (vector - firstExternalVector)

section
variable {kernelCs : BitVec 16} {type : GateType} {addr systemCall interceptSystemCall : Addr}
  {irqAddr trapAddr : Nat → Addr} {idt : Nat → Gate} {ws ws' : List (Nat × GateType × Addr)}
  {ts : List (Nat × GateType)} {nrIrqs v : Nat}

theorem getLsbD_low : ∀ i < 32, (0xffff : BitVec 32).getLsbD i = decide (i < 16) := by decide

theorem getLsbD_high : ∀ i < 32, (0xffff0000 : BitVec 32).getLsbD i = decide (16 ≤ i) := by decide

theorem getLsbD_word : ∀ i < 32, 16 ≤ i → type.word.getLsbD i = false := by
  cases type <;> decide

@[simp] theorem hwGetGateAddr_set : hwGetGateAddr (hwSetGate kernelCs type addr) = addr := by
  refine BitVec.eq_of_getLsbD_eq fun i hi => ?_
  simp only [hwGetGateAddr, hwSetGate, BitVec.getLsbD_or, BitVec.getLsbD_and, getLsbD_low i hi,
    getLsbD_high i hi, BitVec.getLsbD_shiftLeft]
  by_cases h : i < 16
  · have hhigh : ¬16 ≤ i := Nat.not_le.mpr h
    simp [h, hhigh]
  · have hhigh : 16 ≤ i := Nat.le_of_not_lt h
    simp [getLsbD_word i hi hhigh, h, hhigh]

theorem setGates_append : setGates kernelCs (ws ++ ws') idt =
    setGates kernelCs ws' (setGates kernelCs ws idt) := by
  induction ws generalizing idt with
  | nil => rfl
  | cons w ws ih => exact ih

theorem setGates_irqs : setGates kernelCs ((List.range nrIrqs).map fun irq =>
      (irq + firstExternalVector, GateType.irq, irqAddr irq)) idt v =
    if firstExternalVector ≤ v ∧ v < nrIrqs + firstExternalVector then
      hwSetGate kernelCs .irq (irqAddr (v - firstExternalVector))
    else idt v := by
  induction nrIrqs with
  | zero => rw [if_neg (by omega)]; rfl
  | succ n ih =>
    rw [List.range_succ, List.map_append, setGates_append, List.map_singleton, setGates, setGates]
    by_cases hv : v = n + firstExternalVector
    · rw [if_pos (by omega), hv, Function.update_self, Nat.add_sub_cancel]
    · rw [Function.update_of_ne hv, ih]
      exact if_congr (by omega) rfl rfl

theorem setGates_traps (hnodup : (ts.map Prod.fst).Nodup) :
    setGates kernelCs (ts.map fun t => (t.1, t.2, trapAddr t.1)) idt v =
      (ts.lookup v).elim (idt v) fun t => hwSetGate kernelCs t (trapAddr v) := by
  induction ts generalizing idt with
  | nil => rfl
  | cons t ts ih =>
    obtain ⟨hnot, hnodup⟩ := List.nodup_cons.mp hnodup
    rw [List.map_cons, setGates, ih hnodup]
    by_cases hv : v = t.1
    · have hnone : ts.lookup v = none := by
        refine List.lookup_eq_none_iff.mpr fun u hu => ?_
        exact bne_iff_ne.mpr fun he => hnot (List.mem_map.mpr ⟨u, hu, by rw [← he, hv]⟩)
      have hlookup : (t :: ts).lookup v = some t.2 := by rw [hv]; exact List.lookup_cons_self
      rw [hnone, hlookup, Option.elim_none, Option.elim_some, hv, Function.update_self]
    · have hlookup : (t :: ts).lookup v = ts.lookup v := by
        rw [List.lookup_cons, beq_eq_false_iff_ne.mpr hv]
      rw [hlookup, Function.update_of_ne hv]

theorem setGates_gates : setGates kernelCs
      (gates nrIrqs irqAddr trapAddr systemCall interceptSystemCall) idt v =
    (gateType nrIrqs v).elim (idt v) fun t =>
      hwSetGate kernelCs t (gateAddr irqAddr trapAddr systemCall interceptSystemCall v) := by
  have hnodup : (traps.map Prod.fst).Nodup := by decide
  have htraps (hv : ¬v < firstExternalVector) : traps.lookup v = none := by
    have hbelow : ∀ t ∈ traps, t.1 < firstExternalVector := by decide
    refine List.lookup_eq_none_iff.mpr fun t ht => ?_
    exact bne_iff_ne.mpr fun he => hv (he ▸ hbelow t ht)
  rw [gates, setGates_append, setGates_append, setGates, setGates, setGates, gateType, gateAddr]
  by_cases h₀ : v = 0x80
  · rw [if_pos (.inl h₀), if_pos h₀, h₀, Function.update_self, Option.elim_some]
  by_cases h₂ : v = 0x82
  · rw [if_pos (.inr h₂), if_neg h₀, if_pos h₂, Function.update_of_ne h₀, h₂, Function.update_self,
      Option.elim_some]
  rw [if_neg (not_or.mpr ⟨h₀, h₂⟩), if_neg h₀, if_neg h₂, Function.update_of_ne h₀,
    Function.update_of_ne h₂, setGates_traps hnodup, setGates_irqs]
  by_cases hv : v < firstExternalVector
  · rw [if_pos hv, if_pos hv, if_neg (by omega)]
  · rw [if_neg hv, if_neg hv, htraps hv, Option.elim_none]
    by_cases hlt : v < nrIrqs + firstExternalVector
    · rw [if_pos hlt, if_pos ⟨Nat.le_of_not_lt hv, hlt⟩, Option.elim_some]
    · rw [if_neg hlt, if_neg fun h => hlt h.2, Option.elim_none]

end

-- ---------------------------------------------------------------------------
-- From loading to unloading
-- ---------------------------------------------------------------------------

variable {s : Symbols} {x z : Irqs} {nrIrqs v : Nat} {t : GateType}

/-- The routine of the hypervisor that a vector is to lead to. -/
def Symbols.addr (s : Symbols) : Nat → Addr :=
  gateAddr s.irqAddr s.trapAddr s.systemCall s.interceptSystemCall

/-- What has been put by for the unloading is still there. -/
structure Irqs.Kept (y z : Irqs) : Prop where
  rootIdtTable : z.rootIdtTable = y.rootIdtTable
  rootFunc : z.rootFunc = y.rootFunc
  hwXpic : z.hwXpic = y.hwXpic

/-- The interrupts are the hypervisor's. -/
structure Irqs.TakenOver (s : Symbols) (x y : Irqs) : Prop where
  gate : ∀ v t, gateType s.nrIrqs v = some t → y.idt v = hwSetGate s.kernelCs t (s.addr v)
  idt : ∀ v, gateType s.nrIrqs v = none → y.idt v = x.idt v
  irqDesc : ∀ irq < s.nrIrqs, y.irqDesc irq = s.vpic
  xmRootFunc : y.xmRootFunc = s.rootFunc

/-- They are the root domain's as they were in `x`. -/
structure Irqs.GivenUp (s : Symbols) (x z y : Irqs) : Prop where
  gate : ∀ v t, gateType s.nrIrqs v = some t →
    y.idt v = hwSetGate s.kernelCs t (hwGetGateAddr (x.idt v))
  idt : ∀ v, gateType s.nrIrqs v = none → y.idt v = z.idt v
  irqDesc : ∀ irq < s.nrIrqs, y.irqDesc irq = x.irqDesc irq
  xmRootFunc : y.xmRootFunc = { x.xmRootFunc with emulateIret := 0 }

theorem gateType_lt (hn : nrIrqs ≤ 224) (h : gateType nrIrqs v = some t) : v < idtEntries := by
  unfold idtEntries
  unfold gateType firstExternalVector at h
  split at h
  · omega
  · split at h
    · omega
    · split at h
      · omega
      · cases h

theorem takeover_idt : (x.hwIrqTakeover s).idt v =
    (gateType s.nrIrqs v).elim (x.idt v) fun t => hwSetGate s.kernelCs t (s.addr v) :=
  setGates_gates

theorem giveup_idt : (x.hwIrqGiveup s).idt v =
    (gateType s.nrIrqs v).elim (x.idt v) fun t => hwSetGate s.kernelCs t (x.rootIdtTable v) := by
  have haddr : gateAddr (fun irq => x.rootIdtTable (irq + firstExternalVector)) x.rootIdtTable
      (x.rootIdtTable 0x82) (x.rootIdtTable 0x80) v = x.rootIdtTable v := by
    unfold gateAddr
    split
    · rename_i h
      rw [h]
    split
    · rename_i h
      rw [h]
    split
    · rfl
    · rename_i h
      exact congrArg x.rootIdtTable (Nat.sub_add_cancel (Nat.le_of_not_lt h))
  rw [← haddr]
  exact setGates_gates

/-- Whatever is done to the table and the handlers between loading and unloading, once the
hypervisor is loaded each of its vectors leads to its routine, and once it is unloaded to where
it led before, as far as what it has put by is kept. -/
theorem takeover_giveup (hn : s.nrIrqs ≤ 224) (hz : (x.hwIrqTakeover s).Kept z) :
    Irqs.TakenOver s x (x.hwIrqTakeover s) ∧ Irqs.GivenUp s x z (z.hwIrqGiveup s) := by
  refine ⟨⟨fun v t ht => ?_, fun v hv => ?_, fun irq h => if_pos h, rfl⟩,
    ⟨fun v t ht => ?_, fun v hv => ?_, fun irq h => ?_, ?_⟩⟩
  · rw [takeover_idt, ht, Option.elim_some]
  · rw [takeover_idt, hv, Option.elim_none]
  · have hroot : z.rootIdtTable v = hwGetGateAddr (x.idt v) := by
      rw [hz.rootIdtTable]
      exact if_pos (gateType_lt hn ht)
    rw [giveup_idt, ht, Option.elim_some, hroot]
  · rw [giveup_idt, hv, Option.elim_none]
  · have hxpic : z.hwXpic irq = x.irqDesc irq := by
      rw [hz.hwXpic]
      exact if_pos h
    exact (if_pos h).trans hxpic
  · rw [Irqs.hwIrqGiveup, hz.rootFunc]
    rfl

/-- The gate of the keyboard, with the selector and the type that it has under Linux. -/
theorem takeover_giveup_keyboard : ∃ (s : Symbols) (x : Irqs),
    (x.hwIrqTakeover s).idt 0x21 = hwSetGate 0x60 .irq (s.irqAddr 1) ∧
      ((x.hwIrqTakeover s).hwIrqGiveup s).idt 0x21 = x.idt 0x21 ∧
        x.idt 0x21 = hwSetGate 0x60 .irq 0xc0103a00 := by
  let s : Symbols :=
    { kernelCs := 0x60, nrIrqs := 16, irqAddr := fun irq => 0xd0800000 + BitVec.ofNat 32 irq
      trapAddr := fun _ => 0xd0801000, systemCall := 0xd0802000, interceptSystemCall := 0xd0803000
      rootFunc := ⟨1, 2, 3, 4, 5, 6⟩, vpic := 7 }
  let x : Irqs :=
    { idt := fun _ => hwSetGate 0x60 .irq 0xc0103a00, rootIdtTable := fun _ => 0
      xmRootFunc := ⟨0, 0, 0, 0, 0, 0⟩, rootFunc := ⟨0, 0, 0, 0, 0, 0⟩, irqDesc := fun _ => 8
      hwXpic := fun _ => 0 }
  obtain ⟨htaken, hgiven⟩ := takeover_giveup (s := s) (x := x) (z := x.hwIrqTakeover s) (by decide)
    ⟨rfl, rfl, rfl⟩
  refine ⟨s, x, htaken.gate 0x21 .irq rfl, ?_, rfl⟩
  rw [hgiven.gate 0x21 .irq rfl, hwGetGateAddr_set]

end Xmertl.Xtratum.Takeover
