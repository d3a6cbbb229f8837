import Xmertl.Lib.Runs
import Xmertl.Xtratum.SerialFifo

/-!
# The serial devices

`serial.c` of the serial module: the open and close of the serial devices, the calls
that take and free a console, and what loads and unloads do to the devices. Mapping
FIFOs into a page directory only fails for want of a page table, which the calls carry.

`holders` stands beside the code's data: who has opened a device, by a call that
answered 0, and has neither closed it nor been unloaded since.
-/

namespace Xmertl.Xtratum

open Runs

def xmSerialCount : Nat := 16

def ebadf : Int := 9

theorem devFlag_lt : 1 < 32 := by decide

def rtSerialDevInit : Fin 32 := ⟨1, devFlag_lt⟩

def rtSerialDomInit : Fin 32 := ⟨2, by decide⟩

def xmSerialDevUsed : Fin 32 := ⟨1, devFlag_lt⟩

def xmdevIoOpen : Bitmap := 0x01

def xmdevIoClose : Bitmap := 0x02

def xmdevIoInit : Bitmap := 0x100

/-- `xm_serial_t`; of its two FIFOs only the flags. -/
structure XmSerial (D : Type) where
  flag : Bitmap := 0
  dom : Option D := none
  inFlag : Bitmap := 0
  outFlag : Bitmap := 0

namespace XmSerial

variable {D : Type}

/-- `xm_serial_xm_map` for a domain that is not the serial driver. -/
def map (s : XmSerial D) (memory : Bool) : XmSerial D × Int :=
  if s.inFlag.Has rtSerialDomInit ∨ s.outFlag.Has rtSerialDomInit then (s, -ebusy)
  else if !memory then (s, -enomem)
  else ({ s with
      inFlag := s.inFlag.setBit rtSerialDomInit
      outFlag := s.outFlag.setBit rtSerialDomInit }, 0)

def ioClose (s : XmSerial D) : XmSerial D where
  flag := s.flag.clearBit xmSerialDevUsed
  inFlag := s.inFlag.clearBit rtSerialDevInit
  outFlag := s.outFlag.clearBit rtSerialDevInit
  dom := none

def ioOpen [DecidableEq D] (s : XmSerial D) (dom : D) (memory : Bool) : XmSerial D × Int :=
  if s.flag.Has xmSerialDevUsed ∧ s.dom ≠ some dom then (s, -ebusy)
  else
    let s := { s with flag := s.flag.setBit xmSerialDevUsed, dom := some dom }
    let (s, ret) := s.map memory
    if ret = 0 then (s, ret)
    else ({ s with flag := s.flag.clearBit xmSerialDevUsed, dom := none }, ret)

def devInit (s : XmSerial D) : XmSerial D :=
  { s with
    inFlag := s.inFlag.setBit rtSerialDevInit
    outFlag := s.outFlag.setBit rtSerialDevInit }

def devClear (s : XmSerial D) : XmSerial D :=
  { s with
    inFlag := s.inFlag.clearBit rtSerialDevInit
    outFlag := s.outFlag.clearBit rtSerialDevInit }

/-- `rt_console_get`, within the devices. -/
def consoleGet (s : XmSerial D) : XmSerial D × Int :=
  if s.flag.Has xmSerialDevUsed then (s, -ebusy)
  else ({ s with
      flag := s.flag.setBit xmSerialDevUsed
      inFlag := s.inFlag.setBit rtSerialDomInit
      outFlag := s.outFlag.setBit rtSerialDomInit }, 0)

/-- `rt_console_free`, within the devices. -/
def consoleFree (s : XmSerial D) : XmSerial D := { s with inFlag := 0, outFlag := 0, flag := 0 }

end XmSerial

inductive Owner (D : Type)
  | domain (dom : D)
  /-- The Linux driver. -/
  | console
  deriving DecidableEq

def Owner.dom : Owner D → Option D
  | .domain d => some d
  | .console => none

structure Serials (D : Type) where
  xmSerials : Nat → XmSerial D
  /-- The serial driver's domain. -/
  sdom : Option D
  root : D
  live : D → Bool
  holders : Nat → List (Owner D)

/-- A load carries whether the domain is the serial driver, and, as the ioctl does,
whether there is a page for a page table. -/
inductive SerialsCall (D : Type)
  | ioctl (current : D) (minor : Nat) (cmd : Bitmap) (memory : Bool)
  | consoleGet (minor : Int)
  | consoleFree (minor : Int)
  | load (dom : D) (isSerialDev memory : Bool)
  | unload (dom : D) (isSerialDev : Bool)

namespace Serials

variable {D : Type} [DecidableEq D]

def init (root : D) : Serials D where
  xmSerials := fun _ => {}
  sdom := none
  root := root
  live := fun d => d = root
  holders := fun _ => []

def setDevice (x : Serials D) (minor : Nat) (s : XmSerial D) (holders : List (Owner D)) :
    Serials D :=
  { x with
    xmSerials := Function.update x.xmSerials minor s
    holders := Function.update x.holders minor holders }

/-- `xm_serial_xm_ioctl` on a device. Waking up the serial driver changes nothing here. -/
def ioctlDevice (s : XmSerial D) (holders : List (Owner D)) (cmd : Bitmap) (dom : D)
    (memory : Bool) : XmSerial D × List (Owner D) × Int :=
  let closes : Bool := cmd &&& xmdevIoClose ≠ 0
  let s := if closes then s.ioClose else s
  let holders := if closes then holders.erase (.domain dom) else holders
  if cmd &&& xmdevIoOpen ≠ 0 then
    let (s, ret) := s.ioOpen dom memory
    (s, if ret = 0 then holders.insert (.domain dom) else holders, ret)
  else (s, holders, 0)

/-- `xm_serial_xm_ioctl`; the device after the last is the serial driver. -/
def xmSerialXmIoctl (x : Serials D) (minor : Nat) (cmd : Bitmap) (dom : D) (memory : Bool) :
    Serials D × Int :=
  if minor > xmSerialCount then (x, -enodev)
  else if minor = xmSerialCount then
    if cmd &&& xmdevIoInit ≠ 0 then
      match x.sdom with
      | none => ({ x with sdom := some dom }, 0)
      | some d => if d = dom then (x, 0) else (x, -ebadf)
    else (x, 0)
  else
    let (s, holders, ret) := ioctlDevice (x.xmSerials minor) (x.holders minor) cmd dom memory
    (x.setDevice minor s holders, ret)

/-- `rt_console_get`. There is no device before the first. -/
def rtConsoleGet (x : Serials D) (minor : Int) : Option (Serials D × Int) :=
  if minor ≥ xmSerialCount then some (x, -enodev)
  else if minor < 0 then none
  else
    let (s, ret) := (x.xmSerials minor.toNat).consoleGet
    let holders := x.holders minor.toNat
    some (x.setDevice minor.toNat s (if ret = 0 then holders.insert .console else holders), ret)

def rtConsoleFree (x : Serials D) (minor : Int) : Option (Serials D × Int) :=
  if minor ≥ xmSerialCount then some (x, -enodev)
  else if minor < 0 then none
  else some (x.setDevice minor.toNat (x.xmSerials minor.toNat).consoleFree
    ((x.holders minor.toNat).erase .console), 0)

/-- What `load_domain_sys` does for the devices. -/
def load (x : Serials D) (dom : D) (isSerialDev memory : Bool) : Serials D :=
  let x := { x with live := Function.update x.live dom true }
  if isSerialDev ∧ memory then { x with xmSerials := fun i => (x.xmSerials i).devInit } else x

/-- What `unload_domain_sys` does for the devices. -/
def unload (x : Serials D) (dom : D) (isSerialDev : Bool) : Serials D :=
  if dom = x.root ∨ !x.live dom then x
  else
    let x := if isSerialDev then { x with xmSerials := fun i => (x.xmSerials i).devClear } else x
    { x with
      live := Function.update x.live dom false
      holders := fun i => (x.holders i).erase (.domain dom) }

/-- Calls come from live domains, and a domain is loaded at an address not in use. -/
def step (x : Serials D) : SerialsCall D → Option (Serials D)
  | .ioctl current minor cmd memory =>
    if x.live current then some (x.xmSerialXmIoctl minor cmd current memory).1 else none
  | .consoleGet minor => (x.rtConsoleGet minor).map Prod.fst
  | .consoleFree minor => (x.rtConsoleFree minor).map Prod.fst
  | .load dom isSerialDev memory =>
    if x.live dom then none else some (x.load dom isSerialDev memory)
  | .unload dom isSerialDev => some (x.unload dom isSerialDev)

end Serials

-- ---------------------------------------------------------------------------
-- One device
-- ---------------------------------------------------------------------------

namespace XmSerial

variable {D : Type} {s : XmSerial D} {d : D} {o : Owner D} {memory : Bool}

structure Free (s : XmSerial D) : Prop where
  used : ¬s.flag.Has xmSerialDevUsed
  dom : s.dom = none
  inInit : ¬s.inFlag.Has rtSerialDomInit
  outInit : ¬s.outFlag.Has rtSerialDomInit

structure HeldBy (s : XmSerial D) (o : Owner D) : Prop where
  used : s.flag.Has xmSerialDevUsed
  dom : s.dom = Owner.dom o
  inInit : s.inFlag.Has rtSerialDomInit

structure Stuck (s : XmSerial D) : Prop where
  used : ¬s.flag.Has xmSerialDevUsed
  inInit : s.inFlag.Has rtSerialDomInit

theorem domInit_ne_devInit : rtSerialDomInit ≠ rtSerialDevInit := by decide

theorem Free.ioClose (h : s.Free) : s.ioClose.Free := by
  refine ⟨?_, rfl, ?_, ?_⟩ <;> simp [XmSerial.ioClose, h.inInit, h.outInit]

theorem HeldBy.ioClose (h : s.HeldBy o) : s.ioClose.Stuck := by
  constructor <;> simp [XmSerial.ioClose, h.inInit, domInit_ne_devInit]

theorem Free.devInit (h : s.Free) : s.devInit.Free := by
  refine ⟨h.used, h.dom, ?_, ?_⟩ <;>
    simp [XmSerial.devInit, h.inInit, h.outInit, domInit_ne_devInit]

theorem Free.devClear (h : s.Free) : s.devClear.Free := by
  refine ⟨h.used, h.dom, ?_, ?_⟩ <;> simp [XmSerial.devClear, h.inInit, h.outInit]

theorem HeldBy.devInit (h : s.HeldBy o) : s.devInit.HeldBy o :=
  ⟨h.used, h.dom, by simp [XmSerial.devInit, h.inInit]⟩

theorem HeldBy.devClear (h : s.HeldBy o) : s.devClear.HeldBy o :=
  ⟨h.used, h.dom, by simp [XmSerial.devClear, h.inInit, domInit_ne_devInit]⟩

theorem Free.consoleGet (h : s.Free) : s.consoleGet.2 = 0 ∧ s.consoleGet.1.HeldBy .console := by
  rw [XmSerial.consoleGet, if_neg h.used]
  exact ⟨rfl, by simp, h.dom, by simp⟩

theorem HeldBy.consoleGet (h : s.HeldBy o) : s.consoleGet = (s, -ebusy) := by
  rw [XmSerial.consoleGet, if_pos h.used]

theorem consoleFree_free (h : s.dom = none) : s.consoleFree.Free := by
  refine ⟨?_, h, ?_, ?_⟩ <;> simp [consoleFree]

variable [DecidableEq D]

theorem Free.ioOpen (h : s.Free) :
    (s.ioOpen d true).2 = 0 ∧ (s.ioOpen d true).1.HeldBy (.domain d) := by
  rw [XmSerial.ioOpen, if_neg fun hu => h.used hu.1]
  refine ⟨?_, ?_, ?_, ?_⟩ <;> simp [XmSerial.map, h.inInit, h.outInit, Owner.dom]

theorem Free.ioOpen_noMemory (h : s.Free) :
    (s.ioOpen d false).2 = -enomem ∧ (s.ioOpen d false).1.Free := by
  have hnomem : -enomem ≠ 0 := by decide
  rw [XmSerial.ioOpen, if_neg fun hu => h.used hu.1]
  refine ⟨?_, ?_, ?_, ?_, ?_⟩ <;> simp [XmSerial.map, h.inInit, h.outInit, hnomem]

theorem HeldBy.ioOpen_other (h : s.HeldBy o) (ho : o ≠ .domain d) :
    s.ioOpen d memory = (s, -ebusy) := by
  refine if_pos ⟨h.used, ?_⟩
  rw [h.dom]
  cases o with
  | domain d' =>
    rintro heq
    obtain rfl := Option.some.inj heq
    exact ho rfl
  | console => exact nofun

/-- Where the FIFOs have been given out, who may open gets nothing, and an owner that
opens once more loses the device. -/
theorem ioOpen_stuck (hin : s.inFlag.Has rtSerialDomInit)
    (hd : ¬s.flag.Has xmSerialDevUsed ∨ s.dom = some d) :
    (s.ioOpen d memory).2 = -ebusy ∧ (s.ioOpen d memory).1.Stuck := by
  have hbusy : -ebusy ≠ 0 := by decide
  have hmay : ¬(s.flag.Has xmSerialDevUsed ∧ s.dom ≠ some d) :=
    fun hu => hd.elim (fun hn => hn hu.1) hu.2
  rw [XmSerial.ioOpen, if_neg hmay]
  refine ⟨?_, ?_, ?_⟩ <;> simp [XmSerial.map, hin, hbusy]

end XmSerial

-- ---------------------------------------------------------------------------
-- All devices
-- ---------------------------------------------------------------------------

namespace Serials

variable {D : Type} [DecidableEq D]

/-- A device has one owner at most, which is live and which its entry names, is in use
just while it has one, and can be opened by anybody while it has none. -/
structure Owned (x : Serials D) (m : Nat) : Prop where
  single : (x.holders m).length ≤ 1
  live : ∀ d, .domain d ∈ x.holders m → x.live d
  used : (x.xmSerials m).flag.Has xmSerialDevUsed ↔ x.holders m ≠ []
  dom : ∀ d, .domain d ∈ x.holders m → (x.xmSerials m).dom = some d
  reopens : x.holders m = [] → ∀ d, x.live d →
    (x.xmSerialXmIoctl m xmdevIoOpen d true).2 = 0

/-- Nobody closes a device that is held, or opens it twice, or is unloaded with it, and
Linux does not free the device of a domain. -/
def Orderly (x : Serials D) : SerialsCall D → Prop
  | .ioctl current minor cmd _ => minor < xmSerialCount →
    (cmd &&& xmdevIoClose ≠ 0 → x.holders minor = []) ∧
    (cmd &&& xmdevIoOpen ≠ 0 → .domain current ∉ x.holders minor)
  | .consoleFree minor => minor < xmSerialCount → ∀ o ∈ x.holders minor.toNat, o = .console
  | .unload dom _ => dom ≠ x.root → ∀ m < xmSerialCount, .domain dom ∉ x.holders m
  | .consoleGet _ => True
  | .load .. => True

/-- A device between two calls, in a run where all were orderly. -/
def Settled (x : Serials D) (m : Nat) : Prop :=
  (x.holders m = [] ∧ (x.xmSerials m).Free) ∨
  ∃ o, x.holders m = [o] ∧ (x.xmSerials m).HeldBy o ∧ ∀ d, o = .domain d → x.live d

variable {x y : Serials D} {s : XmSerial D} {m : Nat} {d : D} {o : Owner D} {cmd : Bitmap}
  {memory : Bool} {holders : List (Owner D)} {a : SerialsCall D}

theorem ioctl_minor (hm : m < xmSerialCount) :
    x.xmSerialXmIoctl m cmd d memory =
      (x.setDevice m (ioctlDevice (x.xmSerials m) (x.holders m) cmd d memory).1
        (ioctlDevice (x.xmSerials m) (x.holders m) cmd d memory).2.1,
      (ioctlDevice (x.xmSerials m) (x.holders m) cmd d memory).2.2) := by
  rw [xmSerialXmIoctl, if_neg (by omega), if_neg (by omega)]

omit [DecidableEq D] in
theorem setDevice_other {i : Nat} (hi : i ≠ m) :
    (x.setDevice m s holders).xmSerials i = x.xmSerials i ∧
      (x.setDevice m s holders).holders i = x.holders i := by
  simp [setDevice, hi]

omit [DecidableEq D] in
theorem setDevice_self : (x.setDevice m s holders).xmSerials m = s ∧
    (x.setDevice m s holders).holders m = holders := by
  simp [setDevice]

theorem Settled.owned (hm : m < xmSerialCount) (h : x.Settled m) : x.Owned m := by
  rcases h with ⟨hnone, hfree⟩ | ⟨o, hone, hheld, hlive⟩
  · refine ⟨by simp [hnone], by simp [hnone], by simp [hnone, hfree.used], by simp [hnone], ?_⟩
    intro _ d _
    have hclose : ¬xmdevIoOpen &&& xmdevIoClose ≠ 0 := by decide
    have hopen : xmdevIoOpen &&& xmdevIoOpen ≠ 0 := by decide
    simp only [ioctl_minor hm, ioctlDevice, hclose, hopen, decide_false, Bool.false_eq_true,
      if_false, ne_eq, not_false_eq_true, if_true, hfree.ioOpen.1]
  · refine ⟨by simp [hone], ?_, by simp [hone, hheld.used], ?_, by simp [hone]⟩
    · intro d hd
      rw [hone, List.mem_singleton] at hd
      exact hlive d hd.symm
    · intro d hd
      rw [hone, List.mem_singleton] at hd
      rw [hheld.dom, ← hd]
      rfl

theorem not_owned_of_stuck (hm : m < xmSerialCount) (h : (x.xmSerials m).Stuck)
    (hd : x.live d) : ¬x.Owned m := by
  intro ho
  have hnone : x.holders m = [] := by
    by_contra hsome
    exact h.used (ho.used.mpr hsome)
  have hclose : ¬xmdevIoOpen &&& xmdevIoClose ≠ 0 := by decide
  have hopen : xmdevIoOpen &&& xmdevIoOpen ≠ 0 := by decide
  have hzero := ho.reopens hnone d hd
  simp only [ioctl_minor hm, ioctlDevice, hclose, hopen, decide_false, Bool.false_eq_true,
    if_false, ne_eq, not_false_eq_true, if_true,
    (XmSerial.ioOpen_stuck h.inInit (.inl h.used)).1] at hzero
  exact absurd hzero (by decide)

omit [DecidableEq D] in
theorem Settled.of_eq (h : x.Settled m) (hs : y.xmSerials m = x.xmSerials m)
    (hh : y.holders m = x.holders m)
    (hl : ∀ d, .domain d ∈ x.holders m → x.live d → y.live d) : y.Settled m := by
  rw [Settled, hs, hh]
  rcases h with ⟨hnone, hfree⟩ | ⟨o, hone, hheld, hlive⟩
  · exact .inl ⟨hnone, hfree⟩
  · refine .inr ⟨o, hone, hheld, ?_⟩
    rintro d rfl
    exact hl d (by simp [hone]) (hlive d rfl)

omit [DecidableEq D] in
theorem Settled.setDevice (h : holders = [] ∧ s.Free ∨
    ∃ o, holders = [o] ∧ s.HeldBy o ∧ ∀ d, o = .domain d → x.live d) :
    (x.setDevice m s holders).Settled m := by
  rw [Settled, setDevice_self.1, setDevice_self.2]
  exact h

-- ---------------------------------------------------------------------------
-- Steps
-- ---------------------------------------------------------------------------

theorem Settled.ioctl (hm : m < xmSerialCount) (h : x.Settled m) (hd : x.live d)
    (ho : x.Orderly (.ioctl d m cmd memory)) :
    (x.xmSerialXmIoctl m cmd d memory).1.Settled m := by
  obtain ⟨hclose, hopen⟩ := ho hm
  rw [ioctl_minor hm]
  refine Settled.setDevice ?_
  rcases h with ⟨hnone, hfree⟩ | ⟨o, hone, hheld, hlive⟩
  · have hfree' : (if cmd &&& xmdevIoClose ≠ 0 then (x.xmSerials m).ioClose
        else x.xmSerials m).Free := by
      split
      · exact hfree.ioClose
      · exact hfree
    simp only [ioctlDevice, hnone, decide_eq_true_eq, List.erase_nil, ite_self]
    split
    · cases memory with
      | false =>
        obtain ⟨hret, hfree''⟩ := hfree'.ioOpen_noMemory (d := d)
        refine .inl ⟨?_, hfree''⟩
        rw [hret]
        rfl
      | true =>
        obtain ⟨hret, hheld⟩ := hfree'.ioOpen (d := d)
        refine .inr ⟨.domain d, ?_, hheld, ?_⟩
        · rw [hret]
          rfl
        · rintro d' heq
          obtain rfl := Owner.domain.inj heq
          exact hd
    · exact .inl ⟨rfl, hfree'⟩
  · have hnot : ¬cmd &&& xmdevIoClose ≠ 0 := fun hc => by simp [hone] at hclose hc; exact hc hclose
    simp only [ioctlDevice, hnot, decide_false, Bool.false_eq_true, if_false]
    refine .inr ⟨o, ?_, ?_, hlive⟩
    · split
      · rename_i hop
        have hother : o ≠ .domain d := by
          rintro rfl
          exact hopen hop (by simp [hone])
        have hbusy : -ebusy ≠ 0 := by decide
        rw [hheld.ioOpen_other hother, if_neg hbusy]
        exact hone
      · exact hone
    · split
      · rename_i hop
        have hother : o ≠ .domain d := by
          rintro rfl
          exact hopen hop (by simp [hone])
        rw [hheld.ioOpen_other hother]
        exact hheld
      · exact hheld

theorem Settled.ioctl_stuck (hm : m < xmSerialCount) (h : x.Settled m)
    (ho : ¬x.Orderly (.ioctl d m cmd memory)) :
    ((x.xmSerialXmIoctl m cmd d memory).1.xmSerials m).Stuck := by
  rw [ioctl_minor hm, setDevice_self.1]
  rcases h with ⟨hnone, -⟩ | ⟨o, hone, hheld, hlive⟩
  · exact absurd (fun _ => ⟨fun _ => hnone, fun _ => by simp [hnone]⟩) ho
  · by_cases hc : cmd &&& xmdevIoClose ≠ 0
    · have hstuck := hheld.ioClose
      simp only [ioctlDevice, hc, decide_true, if_true, ne_eq, not_false_eq_true]
      split
      · exact (XmSerial.ioOpen_stuck hstuck.inInit (.inl hstuck.used)).2
      · exact hstuck
    · have hself : cmd &&& xmdevIoOpen ≠ 0 ∧ o = .domain d := by
        by_contra hno
        refine ho fun _ => ⟨fun h => absurd h hc, fun hop hmem => hno ⟨hop, ?_⟩⟩
        rw [hone, List.mem_singleton] at hmem
        exact hmem.symm
      obtain ⟨hop, rfl⟩ := hself
      simp only [ioctlDevice, hc, hop, decide_false, Bool.false_eq_true, if_false, if_true, ne_eq,
        not_false_eq_true]
      exact (XmSerial.ioOpen_stuck hheld.inInit (.inr hheld.dom)).2

theorem ioctl_other {i : Nat} (hi : i ≠ m ∨ xmSerialCount ≤ m) :
    (x.xmSerialXmIoctl m cmd d memory).1.xmSerials i = x.xmSerials i ∧
      (x.xmSerialXmIoctl m cmd d memory).1.holders i = x.holders i ∧
      (x.xmSerialXmIoctl m cmd d memory).1.live = x.live := by
  by_cases hm : m < xmSerialCount
  · rw [ioctl_minor hm]
    obtain ⟨hs, hh⟩ := setDevice_other (x := x) (hi.resolve_right (not_le.mpr hm))
    exact ⟨hs, hh, rfl⟩
  · unfold xmSerialXmIoctl
    split
    · exact ⟨rfl, rfl, rfl⟩
    · rw [if_pos (by omega)]
      split
      · split
        · exact ⟨rfl, rfl, rfl⟩
        · split <;> exact ⟨rfl, rfl, rfl⟩
      · exact ⟨rfl, rfl, rfl⟩

theorem rtConsoleGet_cases {minor r : Int} (h : x.rtConsoleGet minor = some (y, r)) :
    y = x ∨ ∃ m < xmSerialCount, minor = m ∧ y = x.setDevice m (x.xmSerials m).consoleGet.1
      (if (x.xmSerials m).consoleGet.2 = 0 then (x.holders m).insert .console
        else x.holders m) := by
  unfold rtConsoleGet at h
  split at h
  · exact .inl (Prod.mk.inj (Option.some.inj h)).1.symm
  split at h
  · exact absurd h nofun
  · have hm : minor = (minor.toNat : Int) := by omega
    exact .inr ⟨minor.toNat, by omega, hm, (Prod.mk.inj (Option.some.inj h)).1.symm⟩

theorem rtConsoleFree_cases {minor r : Int} (h : x.rtConsoleFree minor = some (y, r)) :
    xmSerialCount ≤ minor ∧ y = x ∨ ∃ m < xmSerialCount, minor = m ∧
      y = x.setDevice m (x.xmSerials m).consoleFree ((x.holders m).erase .console) := by
  unfold rtConsoleFree at h
  split at h
  · rename_i hge
    exact .inl ⟨hge, (Prod.mk.inj (Option.some.inj h)).1.symm⟩
  split at h
  · exact absurd h nofun
  · have hm : minor = (minor.toNat : Int) := by omega
    exact .inr ⟨minor.toNat, by omega, hm, (Prod.mk.inj (Option.some.inj h)).1.symm⟩

theorem Settled.consoleGet (h : x.Settled m) : (x.setDevice m (x.xmSerials m).consoleGet.1
    (if (x.xmSerials m).consoleGet.2 = 0 then (x.holders m).insert .console
      else x.holders m)).Settled m := by
  refine Settled.setDevice ?_
  rcases h with ⟨hnone, hfree⟩ | ⟨o, hone, hheld, hlive⟩
  · obtain ⟨hret, hheld⟩ := hfree.consoleGet
    refine .inr ⟨.console, ?_, hheld, by simp⟩
    rw [if_pos hret, hnone]
    rfl
  · have hbusy : -ebusy ≠ 0 := by decide
    rw [hheld.consoleGet, if_neg hbusy]
    exact .inr ⟨o, hone, hheld, hlive⟩

theorem Settled.consoleFree (h : x.Settled m) (ho : ∀ o ∈ x.holders m, o = .console) :
    (x.setDevice m (x.xmSerials m).consoleFree ((x.holders m).erase .console)).Settled m := by
  refine Settled.setDevice (.inl ?_)
  rcases h with ⟨hnone, hfree⟩ | ⟨o, hone, hheld, -⟩
  · exact ⟨by rw [hnone]; rfl, XmSerial.consoleFree_free hfree.dom⟩
  · obtain rfl := ho o (by simp [hone])
    exact ⟨by simp [hone], XmSerial.consoleFree_free hheld.dom⟩

theorem Settled.load (h : x.Settled m) (isSerialDev memory : Bool) :
    (x.load d isSerialDev memory).Settled m := by
  have hlive : ∀ d', x.live d' = true → Function.update x.live d true d' = true := by
    intro d' hd'
    by_cases heq : d' = d
    · simp [heq]
    · simp [heq, hd']
  unfold Serials.load
  dsimp only
  split
  · rcases h with ⟨hnone, hfree⟩ | ⟨o, hone, hheld, ho⟩
    · exact .inl ⟨hnone, hfree.devInit⟩
    · exact .inr ⟨o, hone, hheld.devInit, fun d' hd' => hlive d' (ho d' hd')⟩
  · exact h.of_eq rfl rfl fun d' _ => hlive d'

theorem Settled.unload (h : x.Settled m) (isSerialDev : Bool)
    (ho : d ≠ x.root → .domain d ∉ x.holders m) : (x.unload d isSerialDev).Settled m := by
  unfold Serials.unload
  split
  · exact h
  rename_i hargs
  have hnot : .domain d ∉ x.holders m := ho fun heq => hargs (.inl heq)
  have hheld : ∀ {s' : XmSerial D}, ((x.xmSerials m).Free → s'.Free) →
      (∀ o, (x.xmSerials m).HeldBy o → s'.HeldBy o) →
      (x.holders m).erase (.domain d) = [] ∧ s'.Free ∨
        ∃ o, (x.holders m).erase (.domain d) = [o] ∧ s'.HeldBy o ∧
          ∀ d', o = .domain d' → Function.update x.live d false d' = true := by
    intro s' hfree hheld
    rw [List.erase_of_not_mem hnot]
    rcases h with ⟨hnone, h⟩ | ⟨o, hone, h, hlive⟩
    · exact .inl ⟨hnone, hfree h⟩
    · refine .inr ⟨o, hone, hheld o h, ?_⟩
      rintro d' rfl
      have hne : d' ≠ d := by
        rintro rfl
        exact hnot (by simp [hone])
      simpa [hne] using hlive d' rfl
  dsimp only
  split
  · exact hheld (fun h => h.devClear) fun o h => h.devClear
  · exact hheld id fun _ => id

theorem settled_step (h : ∀ m < xmSerialCount, x.Settled m) (ho : x.Orderly a)
    (hs : x.step a = some y) : ∀ m < xmSerialCount, y.Settled m := by
  intro m hm
  cases a with
  | ioctl current minor cmd memory =>
    simp only [step] at hs
    split at hs
    · rename_i hlive
      obtain rfl := Option.some.inj hs
      by_cases hmm : m = minor
      · subst hmm
        exact (h m hm).ioctl hm hlive ho
      · have hother : (x.xmSerialXmIoctl minor cmd current memory).1.xmSerials m = x.xmSerials m ∧
            (x.xmSerialXmIoctl minor cmd current memory).1.holders m = x.holders m ∧
            (x.xmSerialXmIoctl minor cmd current memory).1.live = x.live := ioctl_other (.inl hmm)
        obtain ⟨hs, hh, hl⟩ := hother
        exact (h m hm).of_eq hs hh fun d _ hd => hl ▸ hd
    · exact absurd hs nofun
  | consoleGet minor =>
    obtain ⟨⟨y, r⟩, hrun, rfl⟩ := Option.map_eq_some_iff.mp hs
    rcases rtConsoleGet_cases hrun with rfl | ⟨i, hi, -, rfl⟩
    · exact h m hm
    · by_cases hmi : m = i
      · subst hmi
        exact (h m hm).consoleGet
      · exact (h m hm).of_eq (setDevice_other hmi).1 (setDevice_other hmi).2 fun _ _ => id
  | consoleFree minor =>
    obtain ⟨⟨y, r⟩, hrun, rfl⟩ := Option.map_eq_some_iff.mp hs
    rcases rtConsoleFree_cases hrun with ⟨-, rfl⟩ | ⟨i, hi, rfl, rfl⟩
    · exact h m hm
    · by_cases hmi : m = i
      · subst hmi
        exact (h m hm).consoleFree (ho (by omega))
      · exact (h m hm).of_eq (setDevice_other hmi).1 (setDevice_other hmi).2 fun _ _ => id
  | load dom isSerialDev memory =>
    simp only [step] at hs
    split at hs
    · exact absurd hs nofun
    · obtain rfl := Option.some.inj hs
      exact (h m hm).load isSerialDev memory
  | unload dom isSerialDev =>
    obtain rfl := Option.some.inj hs
    exact (h m hm).unload isSerialDev fun hroot => ho hroot m hm

theorem orderly_of_owned (h : ∀ m < xmSerialCount, x.Settled m) (hs : x.step a = some y)
    (hy : ∀ m < xmSerialCount, y.Owned m) : x.Orderly a := by
  cases a with
  | ioctl current minor cmd memory =>
    intro hm
    simp only [step] at hs
    split at hs
    · rename_i hlive
      obtain rfl := Option.some.inj hs
      by_contra ho
      have hstuck : ((x.xmSerialXmIoctl minor cmd current memory).1.xmSerials minor).Stuck :=
        (h minor hm).ioctl_stuck hm fun horderly => ho (horderly hm)
      refine not_owned_of_stuck hm hstuck (d := current) ?_ (hy minor hm)
      rw [ioctl_minor hm]
      exact hlive
    · exact absurd hs nofun
  | consoleGet minor => trivial
  | consoleFree minor =>
    intro hlt o ho
    obtain ⟨⟨y, r⟩, hrun, rfl⟩ := Option.map_eq_some_iff.mp hs
    rcases rtConsoleFree_cases hrun with ⟨hge, -⟩ | ⟨m, hm, rfl, rfl⟩
    · exact absurd hlt (not_lt.mpr hge)
    rcases h m hm with ⟨hnone, -⟩ | ⟨o', hone, -⟩
    · simp [hnone] at ho
    obtain rfl : o = o' := by simpa [hone] using ho
    cases o with
    | domain d =>
      -- the device is still held but no longer in use
      have hused := (hy m hm).used
      rw [setDevice_self.1, setDevice_self.2, hone] at hused
      simp [XmSerial.consoleFree] at hused
    | console => rfl
  | load dom isSerialDev memory => trivial
  | unload dom isSerialDev =>
    intro hroot m hm hmem
    obtain rfl := Option.some.inj hs
    rcases h m hm with ⟨hnone, -⟩ | ⟨o, hone, hheld, hlive⟩
    · simp [hnone] at hmem
    obtain rfl : .domain dom = o := by simpa [hone] using hmem
    -- the device is still in use but no longer held
    have hused := (hy m hm).used
    rw [Serials.unload, if_neg (by simp [hroot, hlive dom rfl])] at hused
    cases isSerialDev <;> simp [hone, hheld.used, XmSerial.devClear] at hused

theorem init_settled (root : D) (m : Nat) : (init root).Settled m :=
  .inl ⟨rfl, by simp [init], rfl, by simp [init], by simp [init]⟩

instance (x : Serials D) : DecidablePred x.Orderly
  | .ioctl _ _ _ _ => inferInstanceAs (Decidable (_ → _ ∧ _))
  | .consoleFree _ => inferInstanceAs (Decidable (_ → _))
  | .unload _ _ => inferInstanceAs (Decidable (_ → _))
  | .consoleGet _ => .isTrue trivial
  | .load _ _ _ => .isTrue trivial

end Serials

/-- In a run every device is owned as it should be, in every state, if and only if
nobody closes or is unloaded with a device that is held, or opens it twice, and Linux
frees none that a domain holds. -/
theorem serial_owned {D : Type} [DecidableEq D] {root : D} {x : Serials D}
    {tr : List (Serials D × SerialsCall D)} (hr : Run Serials.step (.init root) tr x) :
    (∀ y, Visited tr x y → ∀ m < xmSerialCount, y.Owned m) ↔ ∀ e ∈ tr, e.1.Orderly e.2 := by
  constructor
  · intro howned
    induction hr with
    | start => simp
    | @next tr x a y hr hstep ih =>
      have hpast : ∀ e ∈ tr, e.1.Orderly e.2 := ih fun z hz => howned z hz.next
      have hsettled : ∀ m < xmSerialCount, x.Settled m :=
        hr.invariant (C := fun x a => x.Orderly a) (fun m _ => Serials.init_settled root m)
          (fun _ _ _ h ho hs => Serials.settled_step h ho hs) hpast
      have hlast : x.Orderly a := Serials.orderly_of_owned hsettled hstep (howned y .self)
      intro e he
      rcases List.mem_cons.mp he with rfl | he
      · exact hlast
      · exact hpast e he
  · intro hc y hy m hm
    have hsettled : ∀ m < xmSerialCount, y.Settled m :=
      hr.invariant_visited (C := fun x a => x.Orderly a) (fun m _ => Serials.init_settled root m)
        (fun _ _ _ h ho hs => Serials.settled_step h ho hs) hc hy
    exact (hsettled m hm).owned hm

/-- Domain 1 opens a device, which domain 2 then cannot open, and Linux has another. -/
theorem serial_owned_run : ∃ tr x, Run Serials.step (.init 0) tr x ∧
    x.holders 0 = [.domain 1] ∧ x.Owned 0 ∧ x.holders 3 = [] ∧ x.Owned 3 := by
  have hrun : (exec Serials.step (.init 0) [.load 1 false true, .load 2 false true,
      .ioctl 1 0 xmdevIoOpen true, .ioctl 2 0 xmdevIoOpen true, .consoleGet 3, .unload 2 false,
      .consoleFree 3]).any fun r => decide ((∀ e ∈ r.1, e.1.Orderly e.2) ∧
      r.2.holders 0 = [.domain 1] ∧ r.2.holders 3 = []) := by decide +kernel
  obtain ⟨tr, x, hr, hx⟩ := exec_any hrun
  simp only [decide_eq_true_eq] at hx
  obtain ⟨hc, hheld, hnone⟩ := hx
  have howned := (serial_owned hr).mpr hc x .self
  exact ⟨tr, x, hr, hheld, howned 0 (by decide), hnone, howned 3 (by decide)⟩

/-- Domain 1 opens and closes a device. Nobody has it then, and nobody can open it:
neither domain 1 nor domain 2. -/
theorem serial_never_reopens : ∃ tr x, Run Serials.step (.init 0) tr x ∧
    tr.map Prod.snd = [.ioctl 1 0 xmdevIoClose true, .ioctl 1 0 xmdevIoOpen true,
      .load 2 false true, .load 1 false true] ∧
    x.holders 0 = [] ∧ x.live 1 = true ∧ x.live 2 = true ∧
    (x.xmSerialXmIoctl 0 xmdevIoOpen 1 true).2 = -ebusy ∧
    (x.xmSerialXmIoctl 0 xmdevIoOpen 2 true).2 = -ebusy := by
  have hrun : (exec Serials.step (.init 0) [.load 1 false true, .load 2 false true,
      .ioctl 1 0 xmdevIoOpen true, .ioctl 1 0 xmdevIoClose true]).any fun r =>
      decide (r.2.holders 0 = [] ∧ r.2.live 1 = true ∧ r.2.live 2 = true ∧
        (r.2.xmSerialXmIoctl 0 xmdevIoOpen 1 true).2 = -ebusy ∧
        (r.2.xmSerialXmIoctl 0 xmdevIoOpen 2 true).2 = -ebusy) := by decide +kernel
  obtain ⟨tr, x, hr, hacts, hx⟩ := exec_any_actions hrun
  simp only [decide_eq_true_eq] at hx
  exact ⟨tr, x, hr, hacts, hx⟩

end Xmertl.Xtratum
