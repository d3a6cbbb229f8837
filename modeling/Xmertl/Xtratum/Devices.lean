import Xmertl.Common.Fifo
import Xmertl.Lib.Runs
import Xmertl.Xtratum.Domain

/-!
# The device registry

`xmdev.c`: a table of devices and a word with a bit for each entry. A shift by the word's
width or more, an access outside the table and a call through NULL have no result.
-/

namespace Xmertl.Xtratum

open Runs

abbrev xmDevsNum : Nat := 32

def enotty : Int := 25

/-- `D` are the addresses of `xm_dev_t`, other than NULL. -/
structure XmDevs (D : Type) where
  devs : Fin xmDevsNum → Option D := fun _ => none
  devmask : Bitmap := 0
  client : D → Int := fun _ => 0

/-- What `xm_dev_ioctl` comes to: an error, or the operation of a device. -/
inductive Ioctl (D : Type)
  | error (e : Int)
  | handler (dev : D) (minor : BitVec 32)

/-- The index of an entry, and the width of a shift that stays in the word. -/
def devSlot (devid : Nat) : Option (Fin xmDevsNum) :=
  if h : devid < xmDevsNum then some ⟨devid, h⟩ else none

/-- The index that a call's `int` passes the bounds for. -/
def tableSlot (devid : Int) : Option (Fin xmDevsNum) :=
  if 0 ≤ devid then devSlot devid.toNat else none

def devMajor (dev : BitVec 32) : Nat := ((dev >>> 16) &&& 0xFFFF).toNat

def devMinor (dev : BitVec 32) : BitVec 32 := dev &&& 0xFFFF

section
variable {D : Type}

namespace XmDevs

def xmDevRegister (x : XmDevs D) (devid : Int) (dev : Option D) : Option (XmDevs D × Int) := do
  if devid ≥ xmDevsNum ∨ devid < 0 then return (x, -1)
  let i ← devSlot devid.toNat
  if x.devmask.Has i then return (x, -1)
  return ({ x with devmask := x.devmask.setBit i, devs := Function.update x.devs i dev }, 0)

def xmDevUnregister (x : XmDevs D) (devid : Int) : Option (XmDevs D × Int) := do
  if devid ≥ xmDevsNum ∨ devid < 0 then return (x, -1)
  let i ← devSlot devid.toNat
  match x.devs i with
  | none => return (x, -1)
  | some dev =>
    if x.client dev > 0 then return (x, -1)
    return ({ x with devmask := x.devmask.clearBit i, devs := Function.update x.devs i none }, 0)

def xmGetDev (x : XmDevs D) (devid : Int) : Option (Option D) := do
  if devid ≥ xmDevsNum ∨ devid < 0 then return none
  let i ← devSlot devid.toNat
  if x.devmask.Has i then return x.devs i
  return none

/-- Its bound is one more than the table has. -/
def xmDevIoctl (x : XmDevs D) (dev : BitVec 32) : Option (Ioctl D) := do
  if devMajor dev > xmDevsNum then return .error (-enodev)
  let i ← devSlot (devMajor dev)
  if ¬x.devmask.Has i then return .error (-enotty)
  let d ← x.devs i
  return .handler d (devMinor dev)

/-- What `load_domain_sys` and `unload_domain_sys` do with a device's `client`. -/
def addClient [DecidableEq D] (x : XmDevs D) (devid n : Int) : Option (XmDevs D) := do
  match ← x.xmGetDev devid with
  | none => return x
  | some d => return { x with client := Function.update x.client d (x.client d + n) }

end XmDevs

inductive DevCall (D : Type)
  | register (devid : Int) (dev : Option D)
  | unregister (devid : Int)
  | get (devid : Int)
  | ioctl (dev : BitVec 32)
  | load (devid : Int)
  | unload (devid : Int)

/-- `xm_get_dev` and `xm_dev_ioctl` leave the registry as it is. -/
def XmDevs.step [DecidableEq D] (x : XmDevs D) : DevCall D → Option (XmDevs D)
  | .register devid dev => (x.xmDevRegister devid dev).map Prod.fst
  | .unregister devid => (x.xmDevUnregister devid).map Prod.fst
  | .get _ | .ioctl _ => some x
  | .load devid => x.addClient devid 1
  | .unload devid => x.addClient devid (-1)

namespace XmDevs

def Agrees (x : XmDevs D) : Prop := ∀ i, x.devmask.Has i ↔ (x.devs i).isSome

/-- The device registered under a number, if it is one of the table. -/
def registered (x : XmDevs D) (devid : Int) : Option D := (tableSlot devid).bind x.devs

/-- A call fails and changes nothing, or does what it is for; the readers reach the device
registered, and only that. -/
def Keeps (x : XmDevs D) : DevCall D → Prop
  | .register devid dev => ∃ y, x.xmDevRegister devid dev = some y ∧ (y.2 ≠ 0 → y.1 = x)
  | .unregister devid => ∃ y, x.xmDevUnregister devid = some y ∧ (y.2 ≠ 0 → y.1 = x)
  | .get devid => x.xmGetDev devid = some (x.registered devid)
  | .ioctl dev => ∃ r, x.xmDevIoctl dev = some r ∧
      match r with
      | .error e => x.registered (devMajor dev) = none ∧ e < 0
      | .handler d minor => x.registered (devMajor dev) = some d ∧ minor = devMinor dev
  | .load _ | .unload _ => True

/-- The condition on a call: NULL is registered only where that fails, and the word of an
ioctl does not have the first number past the table. -/
def Admits (x : XmDevs D) : DevCall D → Prop
  | .register devid dev => dev = none → ∀ i, tableSlot devid = some i → x.devmask.Has i
  | .ioctl dev => devMajor dev ≠ xmDevsNum
  | .unregister _ | .get _ | .load _ | .unload _ => True

variable {x y : XmDevs D} {devid : Int} {dev : Option D} {i : Fin xmDevsNum}

-- ---------------------------------------------------------------------------
-- The calls
-- ---------------------------------------------------------------------------

theorem tableSlot_cases (devid : Int) :
    ((devid ≥ xmDevsNum ∨ devid < 0) ∧ tableSlot devid = none) ∨
    (¬(devid ≥ xmDevsNum ∨ devid < 0) ∧
      ∃ i, devSlot devid.toNat = some i ∧ tableSlot devid = some i) := by
  by_cases h : devid ≥ xmDevsNum ∨ devid < 0
  · refine .inl ⟨h, ?_⟩
    rw [tableSlot, devSlot]
    split
    · exact dif_neg (by omega)
    · rfl
  · refine .inr ⟨h, ⟨devid.toNat, by omega⟩, dif_pos (by omega), ?_⟩
    rw [tableSlot, if_pos (by omega)]
    exact dif_pos (by omega)

variable (x) in
theorem xmDevRegister_eq (devid : Int) (dev : Option D) : x.xmDevRegister devid dev =
    some (match tableSlot devid with
      | none => (x, -1)
      | some i =>
        if x.devmask.Has i then (x, -1)
        else ({ x with devmask := x.devmask.setBit i, devs := Function.update x.devs i dev }, 0)) := by
  rw [xmDevRegister]
  rcases tableSlot_cases devid with ⟨hout, hslot⟩ | ⟨hin, i, hi, hslot⟩
  · rw [if_pos hout, hslot]
    rfl
  · rw [if_neg hin, hi, hslot]
    simp only [Option.bind_eq_bind, Option.bind_some]
    split <;> rfl

variable (x) in
theorem xmDevUnregister_eq (devid : Int) : x.xmDevUnregister devid =
    some (match tableSlot devid with
      | none => (x, -1)
      | some i =>
        if ∀ d, x.devs i = some d → x.client d > 0 then (x, -1)
        else ({ x with devmask := x.devmask.clearBit i, devs := Function.update x.devs i none },
          0)) := by
  rw [xmDevUnregister]
  rcases tableSlot_cases devid with ⟨hout, hslot⟩ | ⟨hin, i, hi, hslot⟩
  · rw [if_pos hout, hslot]
    rfl
  · rw [if_neg hin, hi, hslot]
    simp only [Option.bind_eq_bind, Option.bind_some]
    cases hd : x.devs i with
    | none => simp
    | some d =>
      simp only [Option.some.injEq, forall_eq']
      split <;> rfl

theorem xmGetDev_eq (hx : x.Agrees) (devid : Int) :
    x.xmGetDev devid = some (x.registered devid) := by
  rw [xmGetDev, registered]
  rcases tableSlot_cases devid with ⟨hout, hslot⟩ | ⟨hin, i, hi, hslot⟩
  · rw [if_pos hout, hslot]
    rfl
  · rw [if_neg hin, hi, hslot]
    simp only [Option.bind_eq_bind, Option.bind_some]
    split
    · rfl
    · rename_i hnot
      rw [Option.not_isSome_iff_eq_none.mp fun h => hnot ((hx i).mpr h)]
      rfl

theorem registered_natCast (n : Nat) : x.registered n = (devSlot n).bind x.devs := by
  rw [registered, tableSlot, if_pos (Int.natCast_nonneg n), Int.toNat_natCast]

/-- A word reaches the device that it names, except for the first number past the table. -/
theorem xmDevIoctl_iff (hx : x.Agrees) (w : BitVec 32) :
    x.Keeps (.ioctl w) ↔ devMajor w ≠ xmDevsNum := by
  rw [Keeps, xmDevIoctl, registered_natCast]
  constructor
  · rintro ⟨r, hr, -⟩ he
    rw [he, if_neg (Nat.lt_irrefl _)] at hr
    simp [devSlot] at hr
  · intro hne
    by_cases hgt : devMajor w > xmDevsNum
    · refine ⟨.error (-enodev), if_pos hgt, ?_, by decide⟩
      rw [devSlot, dif_neg (by omega)]
      rfl
    have hlt : devMajor w < xmDevsNum := by omega
    rw [if_neg hgt, devSlot, dif_pos hlt]
    simp only [Option.bind_eq_bind, Option.bind_some]
    by_cases hhas : x.devmask.Has ⟨devMajor w, hlt⟩
    · obtain ⟨d, hd⟩ := Option.isSome_iff_exists.mp ((hx _).mp hhas)
      refine ⟨.handler d (devMinor w), ?_, hd, rfl⟩
      rw [if_neg (not_not_intro hhas), hd]
      rfl
    · refine ⟨.error (-enotty), if_pos hhas, ?_, by decide⟩
      exact Option.not_isSome_iff_eq_none.mp fun h => hhas ((hx _).mpr h)

-- ---------------------------------------------------------------------------
-- Steps
-- ---------------------------------------------------------------------------

/-- Where an entry and its bit are set together, they agree as long as they are alike. -/
theorem Agrees.set {mask : Bitmap} (hx : x.Agrees)
    (hmask : ∀ j, j ≠ i → (mask.Has j ↔ x.devmask.Has j)) (hi : mask.Has i ↔ dev.isSome) :
    Agrees { x with devmask := mask, devs := Function.update x.devs i dev } := by
  intro j
  by_cases hj : j = i
  · subst hj
    simpa using hi
  · simpa [hj] using (hmask j hj).trans (hx j)

theorem register_agrees (hx : x.Agrees) (hs : x.xmDevRegister devid dev = some (y, r)) :
    y.Agrees ↔ x.Admits (.register devid dev) := by
  rw [xmDevRegister_eq, Option.some.injEq] at hs
  rw [Admits]
  cases hslot : tableSlot devid with
  | none =>
    rw [hslot] at hs
    obtain ⟨rfl, -⟩ := Prod.mk.inj hs
    simp [hx]
  | some i =>
    simp only [hslot, Option.some.injEq, forall_eq'] at hs ⊢
    split at hs
    · rename_i hhas
      obtain ⟨rfl, -⟩ := Prod.mk.inj hs
      simp [hx, hhas]
    · rename_i hnot
      obtain ⟨rfl, -⟩ := Prod.mk.inj hs
      constructor
      · rintro hy rfl
        have hi := (hy i).mp (BitVec.has_setBit.mpr (.inr rfl))
        simp at hi
      · intro hdev
        have hsome : dev.isSome := Option.isSome_iff_ne_none.mpr fun h => hnot (hdev h)
        exact hx.set (fun j hj => by simp [hj]) (by simp [hsome])

theorem unregister_agrees (hx : x.Agrees) (hs : x.xmDevUnregister devid = some (y, r)) :
    y.Agrees := by
  rw [xmDevUnregister_eq, Option.some.injEq] at hs
  split at hs
  · obtain ⟨rfl, -⟩ := Prod.mk.inj hs
    exact hx
  · split at hs
    · obtain ⟨rfl, -⟩ := Prod.mk.inj hs
      exact hx
    · obtain ⟨rfl, -⟩ := Prod.mk.inj hs
      exact hx.set (fun j hj => by simp [hj]) (by simp)

theorem addClient_agrees [DecidableEq D] {n : Int} (hx : x.Agrees)
    (hs : x.addClient devid n = some y) : y.Agrees := by
  rw [addClient, xmGetDev_eq hx, Option.bind_eq_bind, Option.bind_some] at hs
  split at hs
  · obtain rfl := Option.some.inj hs
    exact hx
  · obtain rfl := Option.some.inj hs
    exact hx

theorem keeps_of_admits (hx : x.Agrees) {c : DevCall D} (hc : x.Admits c) : x.Keeps c := by
  cases c with
  | register devid dev =>
    refine ⟨_, xmDevRegister_eq x devid dev, fun hne => ?_⟩
    revert hne
    split
    · exact fun _ => rfl
    · split
      · exact fun _ => rfl
      · exact fun hne => absurd rfl hne
  | unregister devid =>
    refine ⟨_, xmDevUnregister_eq x devid, fun hne => ?_⟩
    revert hne
    split
    · exact fun _ => rfl
    · split
      · exact fun _ => rfl
      · exact fun hne => absurd rfl hne
  | get devid => exact xmGetDev_eq hx devid
  | ioctl w => exact (xmDevIoctl_iff hx w).mpr hc
  | load devid => trivial
  | unload devid => trivial

theorem start_agrees : ({} : XmDevs D).Agrees := fun i => by simp

variable [DecidableEq D]

theorem step_agrees (hx : x.Agrees) {c : DevCall D} (hc : x.Admits c) (hs : x.step c = some y) :
    y.Agrees := by
  cases c with
  | register devid dev =>
    obtain ⟨r, hr, rfl⟩ := Option.map_eq_some_iff.mp hs
    exact (register_agrees hx hr).mpr hc
  | unregister devid =>
    obtain ⟨r, hr, rfl⟩ := Option.map_eq_some_iff.mp hs
    exact unregister_agrees hx hr
  | get devid => exact Option.some.inj hs ▸ hx
  | ioctl w => exact Option.some.inj hs ▸ hx
  | load devid => exact addClient_agrees hx hs
  | unload devid => exact addClient_agrees hx hs

theorem admits_of_keeps (hx : x.Agrees) {c : DevCall D} (hk : x.Keeps c)
    (hs : x.step c = some y) (hy : y.Agrees) : x.Admits c := by
  cases c with
  | register devid dev =>
    obtain ⟨r, hr, rfl⟩ := Option.map_eq_some_iff.mp hs
    exact (register_agrees hx hr).mp hy
  | ioctl w => exact (xmDevIoctl_iff hx w).mp hk
  | unregister devid => trivial
  | get devid => trivial
  | load devid => trivial
  | unload devid => trivial

/-- The mask tells the registered devices, failures change nothing and the readers reach
registered devices only, as long as no ioctl names the first number past the table. -/
theorem registry_iff {tr : List (XmDevs D × DevCall D)} (hr : Run step {} tr x) :
    ((∀ y, Visited tr x y → y.Agrees) ∧ ∀ e ∈ tr, e.1.Keeps e.2) ↔ ∀ e ∈ tr, e.1.Admits e.2 := by
  constructor
  · rintro ⟨hall, hkeeps⟩ e he
    obtain ⟨y, hs, hv⟩ := hr.post_visited he
    exact admits_of_keeps (hall e.1 (.pre he)) (hkeeps e he) hs (hall y hv)
  · intro hadmits
    have hall (y : XmDevs D) (hy : Visited tr x y) : y.Agrees :=
      hr.invariant_visited (C := fun x c => x.Admits c) start_agrees
        (fun _ _ _ hx hc hs => step_agrees hx hc hs) hadmits hy
    exact ⟨hall, fun e he => keeps_of_admits (hall e.1 (.pre he)) (hadmits e he)⟩

end XmDevs

end

theorem registry_two_devices : ∃ tr x, Run XmDevs.step ({} : XmDevs Nat) tr x ∧
    x.devs 1 = some 8 ∧ x.devmask = 2 ∧
    (((∀ y, Visited tr x y → y.Agrees) ∧ ∀ e ∈ tr, e.1.Keeps e.2) ↔
      ∀ e ∈ tr, e.1.Admits e.2) := by
  have h : ((exec XmDevs.step ({} : XmDevs Nat)
      [.register 0 (some 7), .register 1 (some 8), .load 1, .unregister 1, .ioctl 0x10003,
        .unregister 0, .unregister 32, .ioctl 0x210000]).any fun r =>
      decide (r.2.devs 1 = some 8 ∧ r.2.devmask = 2)) = true := by
    decide
  obtain ⟨tr, x, hr, hx⟩ := exec_any h
  obtain ⟨hdevs, hmask⟩ := of_decide_eq_true hx
  exact ⟨tr, x, hr, hdevs, hmask, XmDevs.registry_iff hr⟩

/-- With a FIFO device registered, the word 0x200000 goes past the table and the mask. -/
theorem major_past_table : ∃ tr x, Run XmDevs.step ({} : XmDevs Nat) tr x ∧
    x.registered 0 = some 7 ∧ x.xmDevIoctl 0x200000 = none := by
  have h : ((exec XmDevs.step ({} : XmDevs Nat) [.register 0 (some 7)]).any fun r =>
      decide (r.2.registered 0 = some 7) && (r.2.xmDevIoctl 0x200000).isNone) = true := by
    decide
  obtain ⟨tr, x, hr, hx⟩ := exec_any h
  obtain ⟨hreg, hnone⟩ := Bool.and_eq_true_iff.mp hx
  exact ⟨tr, x, hr, of_decide_eq_true hreg, Option.isNone_iff_eq_none.mp hnone⟩

end Xmertl.Xtratum
