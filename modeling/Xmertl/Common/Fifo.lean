import Xmertl.Lib.RingBuffer

/-!
# Real-time FIFOs

The control blocks that XtratuM's `rtfifo.c` and PaRTiKle's `devrtf.c` share, and the
read, write and flush of both. A result is `none` when `memcpy` would leave the
FIFO's data. A `long` has 32 bits; where the code of one side has an unsigned
variable, the comparisons with it are unsigned.
-/

namespace Xmertl

open RingBuffer

def xmFifoCount : Int := 16

def pageSize : Int := 4096

def long (x : Int) : Int := x.bmod 4294967296

def ulong (x : Int) : Int := x % 4294967296

def fifoRd : UInt32 := 0x1

def fifoWr : UInt32 := 0x2 ||| fifoRd

def fifoUs : UInt32 := 0x8

/-- `fifo_struct`, with the memory behind `ff_addr`. -/
structure FifoStruct where
  ffFlags : UInt32
  ffTop : Int
  ffBom : Int
  ffSize : Int
  ffData : Int → UInt8

namespace FifoStruct

def usedSize (ff : FifoStruct) : Int := (long (ff.ffTop + ff.ffSize - ff.ffBom)).tmod ff.ffSize

def freeSize (ff : FifoStruct) : Int :=
  (long (ff.ffBom + ff.ffSize - ff.ffTop - 1)).tmod ff.ffSize

def usable (ff : FifoStruct) : Bool := ff.ffFlags &&& fifoUs ≠ 0

def setFlags (ff : FifoStruct) (flags : UInt32) : FifoStruct :=
  { ff with ffFlags := ff.ffFlags ||| flags }

def unsetFlags (ff : FifoStruct) (flags : UInt32) : FifoStruct :=
  { ff with ffFlags := ff.ffFlags &&& ~~~flags }

/-- Whether `memcpy` of `n` bytes at `off` stays inside the data. -/
def Inside (ff : FifoStruct) (off n : Int) : Prop :=
  0 ≤ n ∧ (n = 0 ∨ 0 ≤ off ∧ off + n ≤ ff.ffSize)

instance (ff : FifoStruct) (off n : Int) : Decidable (ff.Inside off n) :=
  inferInstanceAs (Decidable (_ ∧ _))

def copyFrom (ff : FifoStruct) (off n : Int) : Option (List UInt8) :=
  if ff.Inside off n then some (block ff.ffData off n.toNat) else none

def copyTo (ff : FifoStruct) (off : Int) (src : Int → UInt8) (n : Int) : Option FifoStruct :=
  if ff.Inside off n then some { ff with ffData := store ff.ffData off src n } else none

section
variable (cast : Int → Int)

/-- What a read copies to `dest`; `cast` is the type of its `bom`. -/
def copyOut (ff : FifoStruct) (sz : Int) : Option (List UInt8) := do
  let bom := ff.ffBom.tmod ff.ffSize
  if cast (ff.ffTop.tmod ff.ffSize) ≥ cast bom then ff.copyFrom bom sz
  else if cast sz > cast (ff.ffSize - bom) then
    return (← ff.copyFrom bom (ff.ffSize - bom)) ++ (← ff.copyFrom 0 (sz - (ff.ffSize - bom)))
  else ff.copyFrom bom sz

/-- What a write copies from `src`; `cast` is the type of its `top`. -/
def copyIn (ff : FifoStruct) (src : Int → UInt8) (sz : Int) : Option FifoStruct := do
  let top := ff.ffTop.tmod ff.ffSize
  if cast top ≤ cast (ff.ffBom.tmod ff.ffSize) then ff.copyTo top src sz
  else if cast (ff.ffSize - top) ≥ cast sz then ff.copyTo top src sz
  else
    let ff ← ff.copyTo top src (ff.ffSize - top)
    ff.copyTo 0 (fun i => src (ff.ffSize - top + i)) (sz - (ff.ffSize - top))

def resetEmpty (ff : FifoStruct) : FifoStruct :=
  if ff.ffTop = ff.ffBom then { ff with ffTop := 0, ffBom := 0 } else ff

variable (early : Bool)

/-- A read of a usable FIFO; with `early` it returns at once from an empty one. No
other call comes between, and CAS finds what was read. -/
def read (ff : FifoStruct) (size : Int) : Option (FifoStruct × Int × List UInt8) := do
  let ff := ff.setFlags fifoRd
  if early ∧ size > ff.usedSize ∧ ff.usedSize = 0 then return (ff, 0, [])
  let sz := if size > ff.usedSize then ff.usedSize else size
  let dest ← ff.copyOut cast sz
  let ff := { ff with ffBom := long (ff.ffBom + sz) }
  return ((ff.unsetFlags fifoRd).resetEmpty, sz, dest)

/-- A write to a usable FIFO; with `early` it returns at once from a full one. -/
def write (ff : FifoStruct) (src : Int → UInt8) (size : Int) : Option (FifoStruct × Int) := do
  let ff := ff.setFlags fifoWr
  if early ∧ size > ff.freeSize ∧ ff.freeSize = 0 then return (ff, 0)
  let sz := if size > ff.freeSize then ff.freeSize else size
  let ff ← ff.copyIn cast src sz
  let ff := { ff with ffTop := long (ff.ffTop + sz) }
  return (ff.unsetFlags fifoWr, sz)

end

def flush (ff : FifoStruct) : FifoStruct := { ff with ffTop := 0, ffBom := 0 }

end FifoStruct

/-- The FIFOs of both sides; `sfifos` says whether PaRTiKle has the addresses of a
control block and of its data. -/
structure Fifos where
  fifos : Int → FifoStruct
  sfifos : Int → Bool

def indexUnvalid (i : Int) : Bool := i < 0 || i ≥ xmFifoCount

def einval : Int := 22

def enodev : Int := 19

/-- What a call returns, sets `errno` to, and writes to `dest`. -/
structure FifoResult where
  ret : Int
  errno : Option Int := none
  dest : List UInt8 := []
  deriving DecidableEq

namespace Fifos

def set (x : Fifos) (index : Int) (ff : FifoStruct) : Fifos :=
  { x with fifos := Function.update x.fifos index ff }

/-- `fifo_control_init`, with the pages' contents as they are. -/
def fifoControlInit (x : Fifos) : Fifos :=
  { x with fifos := fun index =>
      { ffFlags := fifoUs, ffTop := 0, ffBom := 0, ffSize := pageSize
        ffData := (x.fifos index).ffData } }

/-- `dest` says whether the address is not NULL. -/
def rtFifoUserRead (x : Fifos) (index : Int) (dest : Bool) (size : Int) :
    Option (Fifos × FifoResult) := do
  if indexUnvalid index ∨ !dest ∨ size < 0 then return (x, { ret := -einval })
  let ff := x.fifos index
  if !ff.usable then return (x, { ret := -enodev })
  let (ff, ret, dest) ← ff.read long false size
  return (x.set index ff, { ret, dest })

def rtFifoUserWrite (x : Fifos) (index : Int) (src : Option (Int → UInt8)) (size : Int) :
    Option (Fifos × FifoResult) := do
  if indexUnvalid index ∨ size < 0 then return (x, { ret := -einval })
  match src with
  | none => return (x, { ret := -einval })
  | some src =>
    let ff := x.fifos index
    if !ff.usable then return (x, { ret := -enodev })
    let (ff, ret) ← ff.write ulong false src size
    return (x.set index ff, { ret })

def rtFifoUserFlush (x : Fifos) (index : Int) : Option (Fifos × FifoResult) :=
  if indexUnvalid index then some (x, { ret := -einval })
  else some (x.set index (x.fifos index).flush, { ret := 0 })

def rtFifoRead (x : Fifos) (index : Int) (dest : Bool) (size : Int) :
    Option (Fifos × FifoResult) := do
  if indexUnvalid index ∨ !dest ∨ size < 0 then return (x, { ret := 0, errno := enodev })
  let ff := x.fifos index
  if !x.sfifos index ∨ !ff.usable then return (x, { ret := 0, errno := enodev })
  let (ff, ret, dest) ← ff.read ulong true size
  return (x.set index ff, { ret, dest })

def rtFifoWrite (x : Fifos) (index : Int) (src : Option (Int → UInt8)) (size : Int) :
    Option (Fifos × FifoResult) := do
  if indexUnvalid index ∨ size < 0 then return (x, { ret := 0, errno := einval })
  match src with
  | none => return (x, { ret := 0, errno := einval })
  | some src =>
    let ff := x.fifos index
    if !x.sfifos index ∨ !ff.usable then return (x, { ret := 0, errno := enodev })
    let (ff, ret) ← ff.write long true src size
    return (x.set index ff, { ret })

/-- Returns NULL as 0, and the address of the data as 1. -/
def rtFifoFlush (x : Fifos) (index : Int) : Option (Fifos × FifoResult) :=
  if indexUnvalid index then some (x, { ret := 0, errno := einval })
  else if !x.sfifos index then none
  else
    let ff := (x.fifos index).flush
    some (x.set index { ff with ffData := store ff.ffData 0 (fun _ => 0) ff.ffSize }, { ret := 1 })

end Fifos

inductive Driver
  | rtfifo | devrtf
  deriving DecidableEq

inductive FifoCall
  | read (driver : Driver) (index : Int) (dest : Bool) (size : Int)
  | write (driver : Driver) (index : Int) (src : Option (Int → UInt8)) (size : Int)
  | flush (driver : Driver) (index : Int)

def Fifos.call (x : Fifos) : FifoCall → Option (Fifos × FifoResult)
  | .read .rtfifo index dest size => x.rtFifoUserRead index dest size
  | .read .devrtf index dest size => x.rtFifoRead index dest size
  | .write .rtfifo index src size => x.rtFifoUserWrite index src size
  | .write .devrtf index src size => x.rtFifoWrite index src size
  | .flush .rtfifo index => x.rtFifoUserFlush index
  | .flush .devrtf index => x.rtFifoFlush index

def Fifos.step (x : Fifos) (a : FifoCall) : Option Fifos := (x.call a).map Prod.fst

end Xmertl
