import Mathlib.Data.Set.Insert
import Xmertl.Lib.Bitmap
import Xmertl.Lib.Refinement

/-!
# The interrupt controllers of the PC

`pic.c`, on the two 8259s that it drives: the driver's writes to their ports, and what a chip
does with them by its data sheet. The devices' requests, the calls of the kernel and the
processor's interrupts come in any order.
-/

namespace Xmertl.Partikle.Pic

open Refinement

/-- The word that a chip expects at its second port. -/
inductive Phase
  | icw2
  | icw3
  | icw4
  | ocw
  deriving DecidableEq

/-- An 8259: the words of its initialisation, and the lines that are masked, in service and
requested. -/
structure Chip where
  phase : Phase
  sngl : Bool
  ic4 : Bool
  base : BitVec 8
  icw3 : BitVec 8
  icw4 : BitVec 8
  imr : BitVec 8
  isr : BitVec 8
  irr : BitVec 8

/-- The chips, with `c_master_mask` and `c_slave_mask`. -/
structure Pics where
  master : Chip
  slave : Chip
  cMasterMask : BitVec 8
  cSlaveMask : BitVec 8

namespace Chip

def eoi (c : Chip) : Chip :=
  match c.isr.first with
  | none => c
  | some i => { c with isr := c.isr.clearBit i }

/-- A write to the first port. Of the commands there is the non-specific EOI. -/
def writeIcw (c : Chip) (v : BitVec 8) : Chip :=
  if v.getLsbD 4 then
    { c with
      phase := .icw2, sngl := v.getLsbD 1, ic4 := v.getLsbD 0, icw4 := 0, imr := 0, irr := 0 }
  else if v >>> 3 = 4 then c.eoi
  else c

def writeOcw (c : Chip) (v : BitVec 8) : Chip :=
  match c.phase with
  | .icw2 =>
    let phase := if !c.sngl then Phase.icw3 else if c.ic4 then .icw4 else .ocw
    { c with base := v &&& 0xF8, phase }
  | .icw3 => { c with icw3 := v, phase := if c.ic4 then .icw4 else .ocw }
  | .icw4 => { c with icw4 := v, phase := .ocw }
  | .ocw => { c with imr := v }

/-- The line to be served, of those that are requested. A line in service holds back the lines
from it on. -/
def request (c : Chip) (lines : BitVec 8) : Option (Fin 8) :=
  if c.phase = .ocw then (lines &&& ~~~c.imr).first.filter fun i => ∀ j ≤ i, ¬c.isr.Has j else none

/-- Bit 1 of ICW4 is for an automatic end of service. -/
def acknowledge (c : Chip) (i : Fin 8) : Chip :=
  { c with isr := if c.icw4.getLsbD 1 then c.isr else c.isr.setBit i, irr := c.irr.clearBit i }

def vector (c : Chip) (i : Fin 8) : BitVec 8 := c.base ||| BitVec.ofNat 8 i

end Chip

-- ---------------------------------------------------------------------------
-- The driver
-- ---------------------------------------------------------------------------

def ctlr2Irq : Nat := 0x2

def masterIcw : Nat := 0x20

def masterOcw : Nat := 0x21

def slaveIcw : Nat := 0xa0

def slaveOcw : Nat := 0xa1

def lastIrqInMaster : Nat := 7

def picmIcw1 : BitVec 8 := 0x11

def picmIcw3 : BitVec 8 := 0x04

def picmIcw4 : BitVec 8 := 0x01

def picsIcw1 : BitVec 8 := 0x11

def picsIcw3 : BitVec 8 := 0x02

def picsIcw4 : BitVec 8 := 0x01

def nonSpecEoi : BitVec 8 := 0x20

def firstExternalVector : Nat := 0x20

namespace Pics

def outbP (p : Pics) (v : BitVec 8) (port : Nat) : Pics :=
  if port = masterIcw then { p with master := p.master.writeIcw v }
  else if port = masterOcw then { p with master := p.master.writeOcw v }
  else if port = slaveIcw then { p with slave := p.slave.writeIcw v }
  else if port = slaveOcw then { p with slave := p.slave.writeOcw v }
  else p

def picEnableIrq (p : Pics) (irq : Nat) : Pics :=
  if irq ≤ lastIrqInMaster then
    let p := { p with cMasterMask := p.cMasterMask &&& ~~~(1#8 <<< irq) }
    p.outbP p.cMasterMask masterOcw
  else
    let p := { p with
      cMasterMask := p.cMasterMask &&& ~~~(1#8 <<< ctlr2Irq)
      cSlaveMask := p.cSlaveMask &&& ~~~(1#8 <<< (irq - lastIrqInMaster - 1)) }
    (p.outbP p.cMasterMask masterOcw).outbP p.cSlaveMask slaveOcw

/-- The slave's mask goes to its chip, after the master's where the whole of it is 0. -/
def slaveDisable (p : Pics) (irq : Nat) : Pics :=
  let p := { p with cSlaveMask := p.cSlaveMask ||| 1#8 <<< (irq - lastIrqInMaster - 1) }
  let p :=
    if p.cSlaveMask = 0 then
      let p := { p with cMasterMask := p.cMasterMask ||| 1#8 <<< ctlr2Irq }
      p.outbP p.cMasterMask masterOcw
    else p
  p.outbP p.cSlaveMask slaveOcw

def picDisableIrq (p : Pics) (irq : Nat) : Pics :=
  if irq ≤ lastIrqInMaster then
    let p := { p with cMasterMask := p.cMasterMask ||| 1#8 <<< irq }
    p.outbP p.cMasterMask masterOcw
  else p.slaveDisable irq

def picMaskAndAckIrq (p : Pics) (irq : Nat) : Pics :=
  if irq ≤ lastIrqInMaster then
    let p := { p with cMasterMask := p.cMasterMask ||| 1#8 <<< irq }
    (p.outbP p.cMasterMask masterOcw).outbP nonSpecEoi masterIcw
  else ((p.slaveDisable irq).outbP nonSpecEoi slaveIcw).outbP nonSpecEoi masterIcw

/-- The writes of `init_pic`, in their order. -/
def initPic (p : Pics) (masterBase slaveBase : BitVec 8) : Pics :=
  [(picmIcw1, masterIcw), (masterBase, masterOcw), (picmIcw3, masterOcw), (picmIcw4, masterOcw),
    (picsIcw1, slaveIcw), (slaveBase, slaveOcw), (picsIcw3, slaveOcw), (picsIcw4, slaveOcw),
    (nonSpecEoi, masterIcw), (nonSpecEoi, slaveIcw), (p.cMasterMask, masterOcw),
    (p.cSlaveMask, slaveOcw)].foldl (fun p w => p.outbP w.1 w.2) p

def boot (master slave : Chip) : Pics := ⟨master, slave, 0xFF, 0xFF⟩

end Pics

-- ---------------------------------------------------------------------------
-- Interrupts
-- ---------------------------------------------------------------------------

/-- The lines for devices. Line 2 of the master has the slave on it. -/
inductive Line
  | master (i : Fin 8) (h : i ≠ 2)
  | slave (j : Fin 8)

def Line.irq : Line → Nat
  | .master i _ => i
  | .slave j => 8 + j

def Line.rank : Line → Nat
  | .master i _ => if i < 2 then i else 8 + i
  | .slave j => 2 + j

/-- A device raises its line, the kernel calls the operations of `hw_irq_ctrl`, or the processor
takes interrupts. -/
inductive Request
  | raise (l : Line)
  | enable (l : Line)
  | disable (l : Line)
  | finish (l : Line)
  | interrupt

namespace Pics

/-- The vector of an interrupt. The slave is the chip that is numbered 2 to the master. -/
def inta (p : Pics) : Option (BitVec 8 × Pics) := do
  let served := p.slave.request p.slave.irr
  let i ← p.master.request (if served.isSome then p.master.irr.setBit 2 else p.master.irr)
  let p' := { p with master := p.master.acknowledge i }
  if p.master.icw3.Has i ∧ p.slave.icw3 = BitVec.ofNat 8 i then
    match served with
    | none => return (p.slave.vector 7, p')
    | some j => return (p.slave.vector j, { p' with slave := p.slave.acknowledge j })
  else return (p.master.vector i, p')

def raise (p : Pics) : Line → Pics
  | .master i _ => { p with master := { p.master with irr := p.master.irr.setBit i } }
  | .slave j => { p with slave := { p.slave with irr := p.slave.irr.setBit j } }

/-- The answer to an interrupt is the number that `do_irq` gets, which it has acknowledged. -/
def step (p : Pics) : Request → Option (Option Nat × Pics)
  | .raise l => some (none, p.raise l)
  | .enable l => some (none, p.picEnableIrq l.irq)
  | .disable l => some (none, p.picDisableIrq l.irq)
  | .finish l => some (none, p.picEnableIrq l.irq)
  | .interrupt =>
    match p.inta with
    | none => some (none, p)
    | some (v, p) =>
      let irqnr := v.toNat - firstExternalVector
      some (some irqnr, p.picMaskAndAckIrq irqnr)

end Pics

-- ---------------------------------------------------------------------------
-- What it is to do
-- ---------------------------------------------------------------------------

/-- The lines that are requested, and those that are open. -/
@[ext] structure Lines where
  requested : Set Line
  opened : Set Line

/-- A request stays until it is served. An interrupt serves the first open line with a request,
and closes it. -/
inductive Lines.Step (x : Lines) : Request → Option Nat → Lines → Prop
  | raise : x.Step (.raise l) none { x with requested := insert l x.requested }
  | enable : x.Step (.enable l) none { x with opened := insert l x.opened }
  | disable : x.Step (.disable l) none { x with opened := x.opened \ {l} }
  | finish : x.Step (.finish l) none { x with opened := insert l x.opened }
  | idle (h : ∀ l ∈ x.requested, l ∉ x.opened) : x.Step .interrupt none x
  | serve (hr : l ∈ x.requested) (ho : l ∈ x.opened)
      (hfirst : ∀ k ∈ x.requested, k ∈ x.opened → l.rank ≤ k.rank) :
      x.Step .interrupt (some l.irq) ⟨x.requested \ {l}, x.opened \ {l}⟩

namespace Pics

def Requested (p : Pics) : Line → Prop
  | .master i _ => p.master.irr.Has i
  | .slave j => p.slave.irr.Has j

def Masked (p : Pics) : Line → Prop
  | .master i _ => p.cMasterMask.Has i
  | .slave j => p.cSlaveMask.Has j

def lines (p : Pics) : Lines := ⟨{l | p.Requested l}, {l | ¬p.Masked l}⟩

end Pics

-- ---------------------------------------------------------------------------
-- The chips between the calls
-- ---------------------------------------------------------------------------

structure Chip.Programmed (c : Chip) (base icw3 mask : BitVec 8) : Prop where
  phase : c.phase = .ocw
  base : c.base = base
  icw3 : c.icw3 = icw3
  icw4 : c.icw4 = 1
  imr : c.imr = mask
  isr : c.isr = 0

/-- The chips have the masks of the driver. Where a line of the slave is open, so is the line
that it is on, which no device raises. -/
structure Pics.Settled (p : Pics) : Prop where
  master : p.master.Programmed 0x20 picmIcw3 p.cMasterMask
  slave : p.slave.Programmed 0x28 picsIcw3 p.cSlaveMask
  cascade : ∀ j, ¬p.cSlaveMask.Has j → ¬p.cMasterMask.Has 2
  line2 : ¬p.master.irr.Has 2

section
variable {c : Chip} {p : Pics} {base icw3 mask v lines : BitVec 8} {i j : Fin 8} {l : Line}

@[simp] theorem outbP_masterIcw :
    p.outbP v masterIcw = { p with master := p.master.writeIcw v } := rfl

@[simp] theorem outbP_masterOcw :
    p.outbP v masterOcw = { p with master := p.master.writeOcw v } := rfl

@[simp] theorem outbP_slaveIcw :
    p.outbP v slaveIcw = { p with slave := p.slave.writeIcw v } := rfl

@[simp] theorem outbP_slaveOcw :
    p.outbP v slaveOcw = { p with slave := p.slave.writeOcw v } := rfl

@[simp] theorem writeIcw_eoi : c.writeIcw nonSpecEoi = c.eoi := rfl

theorem writeOcw_imr (h : c.phase = .ocw) : c.writeOcw v = { c with imr := v } := by
  rw [Chip.writeOcw, h]

theorem Chip.Programmed.write (h : c.Programmed base icw3 mask) (v : BitVec 8) :
    (c.writeOcw v).Programmed base icw3 v ∧ (c.writeOcw v).irr = c.irr := by
  rw [writeOcw_imr h.phase]
  exact ⟨⟨h.phase, h.base, h.icw3, h.icw4, rfl, h.isr⟩, rfl⟩

theorem first_setBit : ((0 : BitVec 8).setBit i).first = some i := by
  revert i
  decide

theorem clearBit_setBit : ((0 : BitVec 8).setBit i).clearBit i = 0 := by
  revert i
  decide

theorem writeOcw_acknowledge (h : c.phase = .ocw) :
    (c.acknowledge i).writeOcw v = (c.writeOcw v).acknowledge i := by
  rw [writeOcw_imr h, writeOcw_imr (c := c.acknowledge i) h]
  rfl

theorem Chip.Programmed.serve (h : c.Programmed base icw3 mask) :
    (c.acknowledge i).eoi = { c with irr := c.irr.clearBit i } := by
  have hisr : (c.acknowledge i).isr = (0 : BitVec 8).setBit i := by
    rw [Chip.acknowledge, h.icw4, h.isr]
    rfl
  rw [Chip.eoi]
  simp only [hisr, first_setBit, clearBit_setBit]
  rw [← h.isr]
  rfl

theorem Chip.Programmed.request_eq (h : c.Programmed base icw3 mask) :
    c.request lines = (lines &&& ~~~mask).first := by
  rw [Chip.request, if_pos h.phase, h.imr, h.isr]
  cases (lines &&& ~~~mask).first with
  | none => rfl
  | some i => simp

theorem picEnableIrq_master (hi : i ≠ 2) : p.picEnableIrq (Line.master i hi).irq =
    { p with
      cMasterMask := p.cMasterMask.clearBit i
      master := p.master.writeOcw (p.cMasterMask.clearBit i) } :=
  if_pos (Nat.le_of_lt_succ i.isLt)

theorem picEnableIrq_slave : p.picEnableIrq (Line.slave j).irq =
    { cMasterMask := p.cMasterMask.clearBit 2
      cSlaveMask := p.cSlaveMask.clearBit j
      master := p.master.writeOcw (p.cMasterMask.clearBit 2)
      slave := p.slave.writeOcw (p.cSlaveMask.clearBit j) } := by
  have hj : 8 + j.val - lastIrqInMaster - 1 = j.val := by
    unfold lastIrqInMaster
    omega
  have hirq : ¬8 + j.val ≤ lastIrqInMaster := by
    unfold lastIrqInMaster
    omega
  rw [Pics.picEnableIrq, Line.irq, if_neg hirq, hj]
  rfl

theorem slaveDisable_eq : p.slaveDisable (Line.slave j).irq =
    { p with
      cSlaveMask := p.cSlaveMask.setBit j
      slave := p.slave.writeOcw (p.cSlaveMask.setBit j) } := by
  have hj : 8 + j.val - lastIrqInMaster - 1 = j.val := by
    unfold lastIrqInMaster
    omega
  have hmask : p.cSlaveMask ||| 1#8 <<< j.val = p.cSlaveMask.setBit j := rfl
  have hne : p.cSlaveMask.setBit j ≠ 0 := BitVec.ne_zero_iff.mpr ⟨j, by simp⟩
  rw [Pics.slaveDisable, Line.irq, hj]
  simp only [hmask, if_neg hne]
  rfl

theorem picDisableIrq_master (hi : i ≠ 2) : p.picDisableIrq (Line.master i hi).irq =
    { p with
      cMasterMask := p.cMasterMask.setBit i
      master := p.master.writeOcw (p.cMasterMask.setBit i) } :=
  if_pos (Nat.le_of_lt_succ i.isLt)

theorem picDisableIrq_slave :
    p.picDisableIrq (Line.slave j).irq = p.slaveDisable (Line.slave j).irq := by
  have hirq : ¬(Line.slave j).irq ≤ lastIrqInMaster := by
    simp only [Line.irq, lastIrqInMaster]
    omega
  exact if_neg hirq

theorem Pics.Settled.raise (h : p.Settled) (l : Line) : (p.raise l).Settled ∧
    (p.raise l).lines = { p.lines with requested := insert l p.lines.requested } := by
  cases l with
  | master i hi =>
    refine ⟨⟨⟨h.master.phase, h.master.base, h.master.icw3, h.master.icw4, h.master.imr,
      h.master.isr⟩, h.slave, h.cascade, ?_⟩, ?_⟩
    · simp [Pics.raise, h.line2, Ne.symm hi]
    · ext l
      · cases l <;> simp [Pics.raise, Pics.lines, Pics.Requested, or_comm]
      · cases l <;> simp [Pics.raise, Pics.lines, Pics.Masked]
  | slave j =>
    refine ⟨⟨h.master, ⟨h.slave.phase, h.slave.base, h.slave.icw3, h.slave.icw4, h.slave.imr,
      h.slave.isr⟩, h.cascade, h.line2⟩, ?_⟩
    ext l
    · cases l <;> simp [Pics.raise, Pics.lines, Pics.Requested, or_comm]
    · cases l <;> simp [Pics.raise, Pics.lines, Pics.Masked]

theorem Pics.Settled.enable (h : p.Settled) (l : Line) : (p.picEnableIrq l.irq).Settled ∧
    (p.picEnableIrq l.irq).lines = { p.lines with opened := insert l p.lines.opened } := by
  cases l with
  | master i hi =>
    rw [picEnableIrq_master hi]
    obtain ⟨hm, hirr⟩ := h.master.write (p.cMasterMask.clearBit i)
    refine ⟨⟨hm, h.slave, fun j hj => ?_, hirr ▸ h.line2⟩, ?_⟩
    · simp [h.cascade j hj]
    · ext l
      · cases l <;> simp [Pics.lines, Pics.Requested, hirr]
      · cases l <;> simp [Pics.lines, Pics.Masked, imp_iff_or_not]
  | slave j =>
    rw [picEnableIrq_slave]
    obtain ⟨hm, hirr⟩ := h.master.write (p.cMasterMask.clearBit 2)
    obtain ⟨hs, hirr'⟩ := h.slave.write (p.cSlaveMask.clearBit j)
    refine ⟨⟨hm, hs, fun _ _ => by simp, hirr ▸ h.line2⟩, ?_⟩
    ext l
    · cases l <;> simp [Pics.lines, Pics.Requested, hirr, hirr']
    · cases l with
      | master i hi => simp [Pics.lines, Pics.Masked, hi]
      | slave k => simp [Pics.lines, Pics.Masked, imp_iff_or_not]

theorem Pics.Settled.disable (h : p.Settled) (l : Line) : (p.picDisableIrq l.irq).Settled ∧
    (p.picDisableIrq l.irq).lines = { p.lines with opened := p.lines.opened \ {l} } := by
  cases l with
  | master i hi =>
    rw [picDisableIrq_master hi]
    obtain ⟨hm, hirr⟩ := h.master.write (p.cMasterMask.setBit i)
    refine ⟨⟨hm, h.slave, fun j hj => ?_, hirr ▸ h.line2⟩, ?_⟩
    · simp [h.cascade j hj, Ne.symm hi]
    · ext l
      · cases l <;> simp [Pics.lines, Pics.Requested, hirr]
      · cases l <;> simp [Pics.lines, Pics.Masked]
  | slave j =>
    rw [picDisableIrq_slave, slaveDisable_eq]
    obtain ⟨hs, hirr⟩ := h.slave.write (p.cSlaveMask.setBit j)
    refine ⟨⟨h.master, hs, fun k hk => h.cascade k fun hset => hk (by simp [hset]), h.line2⟩, ?_⟩
    ext l
    · cases l <;> simp [Pics.lines, Pics.Requested, hirr]
    · cases l <;> simp [Pics.lines, Pics.Masked]

def Pics.served (p : Pics) : Line → Pics
  | .master i _ =>
    { p with
      cMasterMask := p.cMasterMask.setBit i
      master := { p.master with imr := p.cMasterMask.setBit i, irr := p.master.irr.clearBit i } }
  | .slave j =>
    { p with
      cSlaveMask := p.cSlaveMask.setBit j
      slave := { p.slave with imr := p.cSlaveMask.setBit j, irr := p.slave.irr.clearBit j } }

theorem Pics.Settled.served (h : p.Settled) (l : Line) : (p.served l).Settled ∧
    (p.served l).lines = ⟨p.lines.requested \ {l}, p.lines.opened \ {l}⟩ := by
  cases l with
  | master i hi =>
    refine ⟨⟨⟨h.master.phase, h.master.base, h.master.icw3, h.master.icw4, rfl, h.master.isr⟩,
      h.slave, fun j hj => ?_, ?_⟩, ?_⟩
    · simp [Pics.served, h.cascade j hj, Ne.symm hi]
    · simp [Pics.served, h.line2]
    · ext l
      · cases l <;> simp [Pics.served, Pics.lines, Pics.Requested]
      · cases l <;> simp [Pics.served, Pics.lines, Pics.Masked]
  | slave j =>
    refine ⟨⟨h.master, ⟨h.slave.phase, h.slave.base, h.slave.icw3, h.slave.icw4, rfl, h.slave.isr⟩,
      fun k hk => h.cascade k fun hset => hk (by simp [Pics.served, hset]), h.line2⟩, ?_⟩
    ext l
    · cases l <;> simp [Pics.served, Pics.lines, Pics.Requested]
    · cases l <;> simp [Pics.served, Pics.lines, Pics.Masked]

/-- The requests at the master, where the slave's has been put on line 2. -/
def Pics.pending (p : Pics) : BitVec 8 :=
  if (p.slave.irr &&& ~~~p.cSlaveMask).first.isSome then p.master.irr.setBit 2 else p.master.irr

theorem Pics.has_pending (hi : i ≠ 2) : p.pending.Has i ↔ p.master.irr.Has i := by
  unfold Pics.pending
  split <;> simp [hi]

theorem Pics.Settled.has_pending_two (h : p.Settled) :
    p.pending.Has 2 ↔ ∃ j, (p.slave.irr &&& ~~~p.cSlaveMask).first = some j := by
  have hline := h.line2
  rw [← Option.isSome_iff_exists, Pics.pending]
  split
  · simp_all
  · simp_all

theorem Pics.Settled.inta_eq (h : p.Settled) : p.inta =
    (p.pending &&& ~~~p.cMasterMask).first.bind fun i =>
      if i = 2 then
        match (p.slave.irr &&& ~~~p.cSlaveMask).first with
        | none => some (p.slave.vector 7, { p with master := p.master.acknowledge i })
        | some j => some (p.slave.vector j,
            { p with master := p.master.acknowledge i, slave := p.slave.acknowledge j })
      else some (p.master.vector i, { p with master := p.master.acknowledge i }) := by
  have hslave (i : Fin 8) : p.master.icw3.Has i ∧ p.slave.icw3 = BitVec.ofNat 8 i ↔ i = 2 := by
    rw [h.master.icw3, h.slave.icw3]
    revert i
    decide
  rw [Pics.inta, h.slave.request_eq, h.master.request_eq]
  simp only [hslave]
  rfl

theorem Pics.ready_master (hi : i ≠ 2) : (p.pending &&& ~~~p.cMasterMask).Has i ↔
    Line.master i hi ∈ p.lines.requested ∧ Line.master i hi ∈ p.lines.opened := by
  rw [BitVec.has_and, BitVec.has_not, Pics.has_pending hi]
  rfl

theorem Pics.ready_slave : (p.slave.irr &&& ~~~p.cSlaveMask).Has j ↔
    Line.slave j ∈ p.lines.requested ∧ Line.slave j ∈ p.lines.opened := by
  rw [BitVec.has_and, BitVec.has_not]
  rfl

theorem Pics.Settled.ready_two (h : p.Settled) (hr : Line.slave j ∈ p.lines.requested)
    (ho : Line.slave j ∈ p.lines.opened) : (p.pending &&& ~~~p.cMasterMask).Has 2 := by
  have hj : (p.slave.irr &&& ~~~p.cSlaveMask).Has j := Pics.ready_slave.mpr ⟨hr, ho⟩
  have hpending := h.has_pending_two.mpr (BitVec.first_isSome (BitVec.ne_zero_iff.mpr ⟨j, hj⟩))
  exact BitVec.has_and.mpr ⟨hpending, BitVec.has_not.mpr (h.cascade j ho)⟩

theorem Pics.Settled.none_ready (h : p.Settled)
    (hnone : (p.pending &&& ~~~p.cMasterMask).first = none) :
    ∀ l ∈ p.lines.requested, l ∉ p.lines.opened := by
  have hready := BitVec.first_eq_none.mp hnone
  intro l hr ho
  cases l with
  | master i hi => exact hready i ((Pics.ready_master hi).mpr ⟨hr, ho⟩)
  | slave j => exact hready 2 (h.ready_two hr ho)

/-- The line of the first bit at the master is the first that is open with a request. -/
theorem Pics.Settled.first_master (h : p.Settled) (hi : i ≠ 2)
    (hfirst : (p.pending &&& ~~~p.cMasterMask).first = some i) :
    p.lines.Step .interrupt (some (Line.master i hi).irq)
      ⟨p.lines.requested \ {.master i hi}, p.lines.opened \ {.master i hi}⟩ := by
  obtain ⟨hr, ho⟩ := (Pics.ready_master hi).mp (BitVec.has_of_first hfirst)
  refine .serve hr ho fun l hr ho => ?_
  cases l with
  | master k hk =>
    have hle : ¬k < i := fun hlt =>
      BitVec.not_has_of_lt_first hfirst hlt ((Pics.ready_master hk).mpr ⟨hr, ho⟩)
    simp only [Line.rank]
    split <;> split <;> omega
  | slave k =>
    have hle : ¬2 < i := fun hlt => BitVec.not_has_of_lt_first hfirst hlt (h.ready_two hr ho)
    simp only [Line.rank]
    split <;> omega

theorem Pics.Settled.first_slave
    (hmaster : (p.pending &&& ~~~p.cMasterMask).first = some 2)
    (hfirst : (p.slave.irr &&& ~~~p.cSlaveMask).first = some j) :
    p.lines.Step .interrupt (some (Line.slave j).irq)
      ⟨p.lines.requested \ {.slave j}, p.lines.opened \ {.slave j}⟩ := by
  obtain ⟨hr, ho⟩ := Pics.ready_slave.mp (BitVec.has_of_first hfirst)
  refine .serve hr ho fun l hr ho => ?_
  cases l with
  | master k hk =>
    have hle : ¬k < 2 := fun hlt =>
      BitVec.not_has_of_lt_first hmaster hlt ((Pics.ready_master hk).mpr ⟨hr, ho⟩)
    simp only [Line.rank]
    split <;> omega
  | slave k =>
    have hle : ¬k < j := fun hlt =>
      BitVec.not_has_of_lt_first hfirst hlt (Pics.ready_slave.mpr ⟨hr, ho⟩)
    simp only [Line.rank]
    omega

theorem Pics.Settled.ack_master (h : p.Settled) (hi : i ≠ 2) :
    ({ p with master := p.master.acknowledge i } : Pics).picMaskAndAckIrq (Line.master i hi).irq =
      p.served (.master i hi) := by
  have hirq : (Line.master i hi).irq ≤ lastIrqInMaster := Nat.le_of_lt_succ i.isLt
  have hmask : p.cMasterMask ||| 1#8 <<< (Line.master i hi).irq = p.cMasterMask.setBit i := rfl
  rw [Pics.picMaskAndAckIrq, if_pos hirq]
  simp only [hmask, outbP_masterOcw, outbP_masterIcw, writeIcw_eoi,
    writeOcw_acknowledge h.master.phase, (h.master.write _).1.serve]
  rw [writeOcw_imr h.master.phase]
  rfl

theorem Pics.Settled.ack_slave (h : p.Settled) :
    ({ p with master := p.master.acknowledge 2, slave := p.slave.acknowledge j } :
      Pics).picMaskAndAckIrq (Line.slave j).irq = p.served (.slave j) := by
  have hirq : ¬(Line.slave j).irq ≤ lastIrqInMaster := by
    simp only [Line.irq, lastIrqInMaster]
    omega
  have hline : p.master.irr.clearBit 2 = p.master.irr := by
    refine BitVec.eq_of_has fun i => ?_
    rw [BitVec.has_clearBit, and_iff_left_iff_imp]
    rintro hi rfl
    exact h.line2 hi
  rw [Pics.picMaskAndAckIrq, if_neg hirq, slaveDisable_eq]
  simp only [outbP_slaveIcw, outbP_masterIcw, writeIcw_eoi, writeOcw_acknowledge h.slave.phase,
    (h.slave.write _).1.serve, h.master.serve, hline]
  rw [writeOcw_imr h.slave.phase]
  rfl

theorem vector_master :
    ∀ i : Fin 8, (0x20#8 ||| BitVec.ofNat 8 i).toNat - firstExternalVector = i := by
  decide

theorem vector_slave :
    ∀ j : Fin 8, (0x28#8 ||| BitVec.ofNat 8 j).toNat - firstExternalVector = 8 + j := by
  decide

theorem Pics.Settled.interrupt (h : p.Settled) :
    p.inta = none ∧ p.lines.Step .interrupt none p.lines ∨
    ∃ l v q, p.inta = some (v, q) ∧ v.toNat - firstExternalVector = l.irq ∧
      q.picMaskAndAckIrq l.irq = p.served l ∧
      p.lines.Step .interrupt (some l.irq) ⟨p.lines.requested \ {l}, p.lines.opened \ {l}⟩ := by
  rw [h.inta_eq]
  cases hfirst : (p.pending &&& ~~~p.cMasterMask).first with
  | none => exact .inl ⟨rfl, .idle (h.none_ready hfirst)⟩
  | some i =>
    right
    rw [Option.bind_some]
    by_cases hi : i = 2
    · subst hi
      obtain ⟨j, hj⟩ := h.has_pending_two.mp (BitVec.has_and.mp (BitVec.has_of_first hfirst)).1
      rw [if_pos rfl, hj]
      refine ⟨.slave j, _, _, rfl, ?_, h.ack_slave, Pics.Settled.first_slave hfirst hj⟩
      rw [Chip.vector, h.slave.base]
      exact vector_slave j
    · rw [if_neg hi]
      refine ⟨.master i hi, _, _, rfl, ?_, h.ack_master hi, h.first_master hi hfirst⟩
      rw [Chip.vector, h.master.base]
      exact vector_master i

theorem Pics.Settled.step (h : p.Settled) (r : Request) :
    ∃ a q, p.step r = some (a, q) ∧ q.Settled ∧ p.lines.Step r a q.lines := by
  cases r with
  | raise l =>
    obtain ⟨hq, hlines⟩ := h.raise l
    exact ⟨_, _, rfl, hq, hlines ▸ .raise⟩
  | enable l =>
    obtain ⟨hq, hlines⟩ := h.enable l
    exact ⟨_, _, rfl, hq, hlines ▸ .enable⟩
  | disable l =>
    obtain ⟨hq, hlines⟩ := h.disable l
    exact ⟨_, _, rfl, hq, hlines ▸ .disable⟩
  | finish l =>
    obtain ⟨hq, hlines⟩ := h.enable l
    exact ⟨_, _, rfl, hq, hlines ▸ .finish⟩
  | interrupt =>
    rw [Pics.step]
    rcases h.interrupt with ⟨hnone, hstep⟩ | ⟨l, v, q, hinta, hv, hack, hstep⟩
    · rw [hnone]
      exact ⟨_, _, rfl, h, hstep⟩
    · obtain ⟨hs, hlines⟩ := h.served l
      simp only [hinta, hv, hack]
      exact ⟨_, _, rfl, hs, hlines ▸ hstep⟩

theorem eoi_clear (h : ∀ i j, c.isr.Has i → c.isr.Has j → i = j) : c.eoi = { c with isr := 0 } := by
  rw [Chip.eoi]
  cases hfirst : c.isr.first with
  | none =>
    have hzero : c.isr = 0 := BitVec.eq_zero_iff.mpr (BitVec.first_eq_none.mp hfirst)
    dsimp only
    rw [← hzero]
  | some i =>
    have hclear : c.isr.clearBit i = 0 := BitVec.eq_zero_iff.mpr fun j hj => by
      obtain ⟨hj, hne⟩ := BitVec.has_clearBit.mp hj
      exact hne (h j i hj (BitVec.has_of_first hfirst))
    dsimp only
    rw [hclear]

theorem programmed_init (base icw3 mask : BitVec 8) (h : ∀ i j, c.isr.Has i → c.isr.Has j → i = j) :
    let c' := (((((c.writeIcw 0x11).writeOcw base).writeOcw icw3).writeOcw 1).eoi).writeOcw mask
    c'.Programmed (base &&& 0xF8) icw3 mask ∧ c'.irr = 0 := by
  let c₄ : Chip := { c with
    phase := .ocw, sngl := false, ic4 := true, base := base &&& 0xF8, icw3, icw4 := 1, imr := 0
    irr := 0 }
  have hc₄ : (((c.writeIcw 0x11).writeOcw base).writeOcw icw3).writeOcw 1 = c₄ := rfl
  have hisr : ∀ i j, c₄.isr.Has i → c₄.isr.Has j → i = j := h
  intro c'
  have hc' : c' = { c₄ with isr := 0, imr := mask } := by
    simp only [c', hc₄, eoi_clear hisr]
    exact writeOcw_imr rfl
  rw [hc']
  exact ⟨⟨rfl, rfl, rfl, rfl, rfl, rfl⟩, rfl⟩

theorem initPic_settled {master slave : Chip}
    (hm : ∀ i j, master.isr.Has i → master.isr.Has j → i = j)
    (hs : ∀ i j, slave.isr.Has i → slave.isr.Has j → i = j) :
    ((Pics.boot master slave).initPic 0x20 0x28).Settled ∧
      ((Pics.boot master slave).initPic 0x20 0x28).lines = ⟨∅, ∅⟩ := by
  obtain ⟨hmaster, hmirr⟩ := programmed_init 0x20 picmIcw3 0xFF hm
  obtain ⟨hslave, hsirr⟩ := programmed_init 0x28 picsIcw3 0xFF hs
  have hfull : ∀ i, (0xFF#8).Has i := by decide
  have hmnone (i : Fin 8) : ¬((Pics.boot master slave).initPic 0x20 0x28).master.irr.Has i :=
    hmirr ▸ BitVec.has_zero
  have hsnone (j : Fin 8) : ¬((Pics.boot master slave).initPic 0x20 0x28).slave.irr.Has j :=
    hsirr ▸ BitVec.has_zero
  refine ⟨⟨hmaster, hslave, fun j hj => absurd (hfull j) hj, hmnone 2⟩, ?_⟩
  · ext l
    · cases l with
      | master i hi => exact iff_of_false (hmnone i) (Set.notMem_empty _)
      | slave j => exact iff_of_false (hsnone j) (Set.notMem_empty _)
    · cases l with
      | master i hi => exact iff_of_false (not_not.mpr (hfull i)) (Set.notMem_empty _)
      | slave j => exact iff_of_false (not_not.mpr (hfull j)) (Set.notMem_empty _)

end

/-- Whatever the chips were left in, with at most one line of each in service, the pair that
the driver has set up answers every sequence of requests as the lines have it: a line is open
from its last `enable` or `end` on, and served where its turn comes. -/
theorem initPic_lines {master slave : Chip}
    (hm : ∀ i j, master.isr.Has i → master.isr.Has j → i = j)
    (hs : ∀ i j, slave.isr.Has i → slave.isr.Has j → i = j) (rs : List Request) :
    ∃ history p, answers Pics.step ((Pics.boot master slave).initPic 0x20 0x28) rs =
      some (history, p) ∧ Accepts Lines.Step ⟨∅, ∅⟩ history p.lines := by
  obtain ⟨hsettled, hlines⟩ := initPic_settled hm hs
  obtain ⟨history, p, hrun, hsteps⟩ :=
    answers_total Pics.Settled Pics.lines (fun p r h => h.step r) hsettled rs
  exact ⟨history, p, hrun, hlines ▸ hsteps⟩

/-- The timer and a line of the slave, one of them requested while it is masked. -/
theorem initPic_lines_run : ∃ (c : Chip) (history : List (Request × Option Nat)) (p : Pics),
    answers Pics.step ((Pics.boot c c).initPic 0x20 0x28) [.raise (.slave 0), .interrupt,
      .enable (.slave 0), .interrupt, .interrupt] = some (history, p) ∧
    history.map Prod.snd = [none, none, none, some 8, none] ∧
      Accepts Lines.Step ⟨∅, ∅⟩ history p.lines := by
  let c : Chip := ⟨.ocw, false, true, 8, 4, 1, 0, 0x10, 0xFF⟩
  have hc : ∀ i j, c.isr.Has i → c.isr.Has j → i = j := by decide
  obtain ⟨history, p, hrun, hsteps⟩ := initPic_lines hc hc [.raise (.slave 0), .interrupt,
    .enable (.slave 0), .interrupt, .interrupt]
  refine ⟨c, history, p, hrun, ?_, hsteps⟩
  have hanswers : (answers Pics.step ((Pics.boot c c).initPic 0x20 0x28) [.raise (.slave 0),
      .interrupt, .enable (.slave 0), .interrupt, .interrupt]).map (fun r => r.1.map Prod.snd) =
      some [none, none, none, some 8, none] := by
    decide +kernel
  rw [hrun] at hanswers
  exact Option.some.inj hanswers

end Xmertl.Partikle.Pic
