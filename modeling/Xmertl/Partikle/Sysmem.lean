import Mathlib.Logic.Function.Basic
import Xmertl.Common.Fifo

/-!
# The physical block allocator

`sysmem.c`, the same for both architectures. A block is a record at its address, and what
callers write to their regions is left out. Beside the code's own data stand the regions
that have been given, each with the size asked for.
-/

namespace Xmertl.Partikle

/-- The memory that `init_vmm` gets. -/
structure HeapArea where
  base : Nat
  length : Nat
  pos : 0 < base
  room : 24 ≤ length
  bound : length ≤ 0x80000000
  fits : base + length ≤ 0x100000000

/-- `head_struct`, with its `free_ptr`. -/
structure HeadStruct where
  size : Nat
  prevPhys : Nat
  nextPhys : Nat
  next : Nat
  prev : Nat

structure Sysmem where
  area : HeapArea
  mem : Nat → HeadStruct
  head : Nat
  live : List (Nat × Nat)

def headerSize : Nat := 12

def minSize : Nat := 12

def usedBlock : Nat := 0x80000000

def isUsedBlock (size : Nat) : Bool := size / usedBlock % 2 = 1

def getBlockSize (size : Nat) : Nat := size % usedBlock

def setUsedBlock (size : Nat) : Nat := size % usedBlock + usedBlock

def setFreeBlock (size : Nat) : Nat := size % usedBlock

namespace Sysmem

def initVmm (area : HeapArea) (mem : Nat → HeadStruct) : Sysmem where
  area := area
  mem := Function.update mem area.base {
    size := setFreeBlock (area.length - headerSize)
    prevPhys := 0, nextPhys := 0, next := 0, prev := 0 }
  head := area.base
  live := []

def set (x : Sysmem) (b : Nat) (f : HeadStruct → HeadStruct) : Sysmem :=
  { x with mem := Function.update x.mem b (f (x.mem b)) }

/-- Takes a block out of the free list, but for its own links. -/
def unlink (x : Sysmem) (b : Nat) : Sysmem :=
  let x := if (x.mem b).next ≠ 0 then
    x.set (x.mem b).next fun h => { h with prev := (x.mem b).prev } else x
  let x := if (x.mem b).prev ≠ 0 then
    x.set (x.mem b).prev fun h => { h with next := (x.mem b).next } else x
  if x.head = b then { x with head := (x.mem b).next } else x

def push (x : Sysmem) (b : Nat) : Sysmem :=
  let x := x.set b fun h => { h with next := x.head }
  let x := if x.head ≠ 0 then x.set x.head fun h => { h with prev := b } else x
  { x with head := b }

/-- The search of `alloc_region`; it does not end in a list that leads back to itself. -/
def search (x : Sysmem) (size : Nat) : Nat → Nat → Option Nat
  | 0, aux => if aux = 0 then some 0 else none
  | fuel + 1, aux =>
    if aux = 0 then some 0
    else if (x.mem aux).size ≥ size then some aux
    else x.search size fuel (x.mem aux).next

/-- What `alloc_region` does with the rest of a block. -/
def split (x : Sysmem) (aux size newSize : Nat) : Sysmem :=
  let new := aux + headerSize + size
  let x := x.set new fun h => { h with size := setFreeBlock newSize, prev := 0, next := 0 }
  let x := x.set new fun h => { h with prevPhys := aux }
  let x := x.set aux fun h => { h with nextPhys := new }
  let x := x.set new fun h => { h with nextPhys := (x.mem aux).nextPhys }
  let x := if (x.mem aux).nextPhys ≠ 0 then
    x.set (x.mem aux).nextPhys fun h => { h with prevPhys := new } else x
  let x := x.set aux fun h => { h with size := setUsedBlock size }
  x.push new

def allocRegion (x : Sysmem) (size : Nat) : Option (Sysmem × Nat) :=
  if size = 0 then some (x, 0)
  else do
    let size := if size < minSize then minSize else size
    let aux ← x.search size x.area.length x.head
    if aux = 0 then return (x, 0)
    let x := x.unlink aux
    let x := x.set aux fun h => { h with size := setUsedBlock h.size, next := 0, prev := 0 }
    let newSize := ulong (getBlockSize (x.mem aux).size - size - headerSize)
    let x := if long newSize ≥ minSize then x.split aux size newSize.toNat else x
    return (x, aux + headerSize)

/-- Joins a freed block to a free one before it, and says where it begins now. -/
def mergePrev (x : Sysmem) (b : Nat) : Sysmem × Nat :=
  let b2 := (x.mem b).prevPhys
  if b2 = 0 ∨ isUsedBlock (x.mem b2).size = true then (x, b)
  else
    let x := x.set b2 fun h => { h with
      size := (getBlockSize h.size + getBlockSize (x.mem b).size + headerSize) % 0x100000000 }
    let x := x.unlink b2
    let x := x.set b2 fun h => { h with size := setFreeBlock h.size, next := 0, prev := 0 }
    let x := if (x.mem b).nextPhys ≠ 0 then
      x.set (x.mem b).nextPhys fun h => { h with prevPhys := b2 } else x
    let x := x.set b2 fun h => { h with nextPhys := (x.mem b).nextPhys }
    (x, b2)

def mergeNext (x : Sysmem) (b : Nat) : Sysmem :=
  let b2 := (x.mem b).nextPhys
  if isUsedBlock (x.mem b2).size = true then x
  else
    let x := x.set b fun h => { h with
      size := (h.size + getBlockSize (x.mem b2).size + headerSize) % 0x100000000 }
    let x := x.unlink b2
    let x := x.set b2 fun h => { h with next := 0, prev := 0 }
    let x := if (x.mem b2).nextPhys ≠ 0 then
      x.set (x.mem b2).nextPhys fun h => { h with prevPhys := b } else x
    x.set b fun h => { h with nextPhys := (x.mem b2).nextPhys }

def deallocRegion (x : Sysmem) (ptr : Nat) : Sysmem :=
  let b := ptr - headerSize
  if ptr = 0 ∨ isUsedBlock (x.mem b).size = false then x
  else
    let x := x.set b fun h => { h with size := setFreeBlock h.size, next := 0, prev := 0 }
    let (x, b) := x.mergePrev b
    if (x.mem b).nextPhys ≠ 0 then (x.mergeNext b).push b else x

end Sysmem

inductive SysmemCall
  | allocRegion (size : Nat)
  | deallocRegion (ptr : Nat)

/-- Only regions that have been given are given back. -/
def Sysmem.step (x : Sysmem) : SysmemCall → Option Sysmem
  | .allocRegion size => do
    let (x, ptr) ← x.allocRegion size
    return if ptr = 0 then x else { x with live := (ptr, size) :: x.live }
  | .deallocRegion ptr =>
    if ptr ∈ x.live.map Prod.fst then
      some { x.deallocRegion ptr with live := x.live.filter fun r => r.1 ≠ ptr }
    else none

end Xmertl.Partikle
