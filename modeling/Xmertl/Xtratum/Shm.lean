import Mathlib.Logic.Function.Basic
import Xmertl.Common.Fifo

/-!
# Shared memory

`shm.c`: the devices, their creation, opening, truncation and removal. The allocator
is not modelled: a call carries what `malloc_ex` answers, and has no result where the
allocator would not answer so. It has none either where it would leave `xshm_list`.

What mapping does to page tables is left out. Beside the code's own data stand the
blocks the allocator has given, and which opens and removals have succeeded.
-/

namespace Xmertl.Xtratum

def xmShmCount : Nat := 16

def shmMemSize : Int := 8 * 4096

def shmNameSize : Nat := 32 + 1

def enomem : Int := 12

def ebusy : Int := 16

/-- `xm_shm_struct`; a name is the bytes before its zero byte. -/
structure XmShm (D : Type) where
  name : List UInt8 := []
  owner : Option D := none
  vaStart : Int := 0
  size : Int := 0
  users : Int := 0

structure Block where
  ptr : Int
  len : Int
  deriving DecidableEq

def Block.Disjoint (a b : Block) : Prop := a.ptr + a.len ≤ b.ptr ∨ b.ptr + b.len ≤ a.ptr

instance (a b : Block) : Decidable (a.Disjoint b) := inferInstanceAs (Decidable (_ ∨ _))

/-- `freed` pairs each pointer given to `free_ex` with the one obtained for the device.
`holders` are the domains with an open that has not been removed. -/
structure Shm (D : Type) where
  xshmList : Int → XmShm D
  pool : List Block
  block : Int → Block
  freed : List (Int × Int)
  opens : Int → Int
  unlinks : Int → Int
  holders : Int → List D

/-- `(x + 0xFFF) & 0xFFFFF000`. -/
def pageUp (x : Int) : Int := ulong (x + 0xFFF) / 0x1000 * 0x1000

/-- `xm_shm_name_check`, for what it refuses. -/
def xmShmNameCheck (name : List UInt8) : Bool := name.length = 0 || name.length ≥ shmNameSize

section
variable {D : Type} [DecidableEq D]

namespace Shm

def init : Shm D where
  xshmList := fun _ => {}
  pool := []
  block := fun _ => ⟨0, 0⟩
  freed := []
  opens := fun _ => 0
  unlinks := fun _ => 0
  holders := fun _ => []

def findName (x : Shm D) (name : List UInt8) : Option Nat :=
  (List.range xmShmCount).find? fun (index : Nat) => (x.xshmList index).name = name

def findFree (x : Shm D) : Option Nat :=
  (List.range xmShmCount).find? fun (index : Nat) => (x.xshmList index).owner = none

def xmGetShmByName (x : Shm D) (name : List UInt8) : Int :=
  if xmShmNameCheck name then -einval else (x.findName name).getD xmShmCount

def set (x : Shm D) (index : Int) (shm : XmShm D) : Shm D :=
  { x with xshmList := Function.update x.xshmList index shm }

def Gives (x : Shm D) (b : Block) : Prop :=
  0 < b.ptr ∧ shmMemSize ≤ b.len ∧ b.ptr + b.len ≤ 4294967296 ∧ ∀ a ∈ x.pool, a.Disjoint b

instance (x : Shm D) (b : Block) : Decidable (x.Gives b) := inferInstanceAs (Decidable (_ ∧ _))

/-- `malloc_ex` with its answer, for device `index`. -/
def mallocEx (x : Shm D) (index : Int) : Option Block → Option (Shm D × Int)
  | none => some (x, 0)
  | some b =>
    if x.Gives b then
      some ({ x with pool := b :: x.pool, block := Function.update x.block index b }, b.ptr)
    else none

/-- What the allocator makes of a pointer that it has not given is left out. -/
def freeEx (x : Shm D) (index ptr : Int) : Shm D :=
  { x with
    pool := x.pool.filter fun b => b.ptr ≠ ptr
    freed := (ptr, (x.block index).ptr) :: x.freed }

/-- `users ++`, for an open by `current`. -/
def addUser (x : Shm D) (index : Int) (current : D) : Shm D :=
  { x.set index { x.xshmList index with users := (x.xshmList index).users + 1 } with
    opens := Function.update x.opens index (x.opens index + 1)
    holders := Function.update x.holders index (current :: x.holders index) }

/-- `users --`, for a removal by `current`. -/
def dropUser (x : Shm D) (index : Int) (current : D) : Shm D :=
  { x.set index { x.xshmList index with users := (x.xshmList index).users - 1 } with
    unlinks := Function.update x.unlinks index (x.unlinks index + 1)
    holders := Function.update x.holders index ((x.holders index).erase current) }

def xmShmCreate (x : Shm D) (current : D) (name : List UInt8) (answer : Option Block) :
    Option (Shm D × Int) := do
  if xmShmNameCheck name then return (x, -einval)
  match x.findName name with
  | some index => return (x.addUser index current, index)
  | none =>
    match x.findFree with
    | none => return (x, xmShmCount)
    | some index =>
      let (x, ptr) ← x.mallocEx index answer
      let vaStart := pageUp ptr
      if vaStart = 0 then
        return (x.set index { x.xshmList index with owner := none, vaStart }, -enomem)
      let shm := { x.xshmList index with
        owner := some current
        vaStart
        name := name.take (shmNameSize - 1)
        size := shmMemSize }
      return ((x.set index shm).addUser index current, index)

def xmShmOpen (x : Shm D) (current : D) (name : List UInt8) (answer : Option Block) :
    Option (Shm D × Int) := do
  if xmShmNameCheck name then return (x, -einval)
  let (x, index) ← x.xmShmCreate current name answer
  if index = xmShmCount then return (x, -enomem)
  if index < 0 then none
  return (x.set index { x.xshmList index with users := (x.xshmList index).users + 1 }, index)

def xmShmRelease (x : Shm D) (index : Int) (current : D) : Shm D :=
  let x := x.set index { x.xshmList index with name := [] }
  let x := x.freeEx index (x.xshmList index).vaStart
  (x.set index { x.xshmList index with owner := none }).dropUser index current

def xmShmUnlink (x : Shm D) (current : D) (index : Int) : Option (Shm D × Int) :=
  if index ≥ xmShmCount then some (x, -enodev)
  else if index < 0 then none
  else if (x.xshmList index).owner ≠ some current then some (x.dropUser index current, 0)
  else if (x.xshmList index).users ≠ 1 then some (x, -ebusy)
  else some (x.xmShmRelease index current, 0)

def xmShmResize (x : Shm D) (index : Int) (size : Nat) : Shm D × Int :=
  if (x.xshmList index).size < size then (x, -einval)
  else (x.set index { x.xshmList index with size }, 0)

end Shm

inductive ShmCmd
  | create (name : List UInt8) (answer : Option Block)
  | exist (name : List UInt8)
  | remove
  | truncate (size : Nat)
  | map (vaddr : Nat)
  | unmap (vaddr : Nat)
  | size
  | vaddr

/-- XM_SHM_SIZE and XM_SHM_VADDR write their answer to the caller's memory. -/
def Shm.xmShmIoctl (x : Shm D) (current : D) (minor : Nat) (cmd : ShmCmd) :
    Option (Shm D × Int) :=
  if minor > xmShmCount then some (x, -enodev)
  else if minor = xmShmCount then
    match cmd with
    | .create name answer => x.xmShmCreate current name answer
    | .exist name => some (x, x.xmGetShmByName name)
    | _ => some (x, 0)
  else
    match cmd with
    | .remove => x.xmShmUnlink current minor
    | .truncate size => some (x.xmShmResize minor size)
    | _ => some (x, 0)

inductive ShmCall (D : Type)
  | open (current : D) (name : List UInt8) (answer : Option Block)
  | unlink (current : D) (index : Int)
  | ioctl (current : D) (minor : Nat) (cmd : ShmCmd)

def Shm.call (x : Shm D) : ShmCall D → Option (Shm D × Int)
  | .open current name answer => x.xmShmOpen current name answer
  | .unlink current index => x.xmShmUnlink current index
  | .ioctl current minor cmd => x.xmShmIoctl current minor cmd

def Shm.step (x : Shm D) (a : ShmCall D) : Option (Shm D) := (x.call a).map Prod.fst

end

end Xmertl.Xtratum
