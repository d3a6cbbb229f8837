import Xmertl.Lib.Runs
import Xmertl.Partikle.Cbitmap

/-!
# The virtual memory manager

`vmm.c` for paging, with the two other functions that map pages: `configure_stack` and
`create_app_map`. A page is named by its number, a physical page by its frame, and a table
is what the memory holds in its frame; `pgd` is not reached through the memory. A function
that panics, or touches a page that is not mapped, does not come back. What is written to
the pages of regions is left out, and so is the TLB.
-/

namespace Xmertl.Partikle

def stackAddr : Nat := 0xBCE00000

def stackPages : Nat := 4

/-- What the link script and the configuration settle, by frames: `pg0` and `pg_pgt`, the
stack, the application and `_sfreemem`. -/
structure Image where
  pg0 : Nat
  pgPgt : Nat
  sstack : Nat
  sapp : Nat
  eapp : Nat
  sfreemem : Nat
  low : 0x100 ≤ pg0 ∧ 0x100 ≤ pgPgt ∧ 0x100 ≤ sstack ∧ 0x100 ≤ sapp
  tables : pg0 ≠ pgPgt
  bound : pg0 < sfreemem ∧ pgPgt < sfreemem ∧ sstack + stackPages ≤ sfreemem ∧
    sapp ≤ eapp ∧ eapp ≤ sfreemem
  /-- With the bitmap in the first table. -/
  fits : sfreemem + 0x21 ≤ 0x400

namespace Vmm

def pgPresent : BitVec 12 := 0x001

def pgRw : BitVec 12 := 0x002

def pgGlobal : BitVec 12 := 0x100

/-- The word of an entry, by its frame and its low twelve bits. -/
structure Entry where
  frame : Nat
  flags : BitVec 12
  deriving DecidableEq

def Entry.zero : Entry := ⟨0, 0⟩

def Entry.present (e : Entry) : Bool := e.flags &&& pgPresent = pgPresent

def kernelPgdStart : Nat := 0x300

def pgtsEntry : Nat := kernelPgdStart + 1

def freeVmmEntry : Nat := kernelPgdStart + 2

def va2pgd (vaddress : Nat) : Nat := vaddress / 0x400000

/-- `(vaddress & 0x3FF000) >> PAGE_SHIFT`. -/
def va2pgt (vaddress : Nat) : Nat := vaddress / 0x1000 % 0x400

def kernelFlags : BitVec 12 := pgPresent ||| pgGlobal ||| pgRw

end Vmm

open Vmm

/-- `pageTable` has the frames that are free. -/
structure Vmm where
  pageTable : Cbitmap
  pgd : Nat → Entry
  mem : Nat → Nat → Entry
  pgPgt : Nat

namespace Vmm

-- ---------------------------------------------------------------------------
-- Booting
-- ---------------------------------------------------------------------------

def addRegionLoop (b : Cbitmap) : Nat → Nat → Cbitmap
  | 0, _ => b
  | n + 1, page => addRegionLoop (b.setbitCbitmap page) n (page + 1)

def addRegion (b : Cbitmap) (addr size : Nat) : Cbitmap :=
  let vaddr := if addr % 0x1000 ≠ 0 then addr / 0x1000 * 0x1000 + 0x1000 else addr
  addRegionLoop b ((size + 0x100000000 - (vaddr - addr)) % 0x100000000 / 0x1000) (vaddr / 0x1000)

/-- The memory of the machine, with `mem_upper` kilobytes above the first megabyte. -/
def sysmem (memUpper : Nat) : Nat := (0x100000 + memUpper * 1024) % 0x100000000

def bitmapBytes (memUpper : Nat) : Nat := Cbitmap.arraySize (sysmem memUpper / 0x1000) * 4

/-- The loop with `skip` takes what is left below the end of the memory. -/
def freePages (i : Image) (memUpper : Nat) : Cbitmap :=
  let b := Cbitmap.initCbitmap (sysmem memUpper / 0x1000)
  let min := i.sfreemem * 0x1000 + bitmapBytes memUpper
  if min < sysmem memUpper then addRegion b min (sysmem memUpper - min) else b

def pg0Entries (i : Image) (memUpper : Nat) (pgtE : Nat) : Entry :=
  if pgtE < i.sfreemem then ⟨pgtE, kernelFlags⟩
  else if pgtE ≤ va2pgt (i.sfreemem * 0x1000 + bitmapBytes memUpper) then
    ⟨i.sfreemem + (pgtE - i.sfreemem), kernelFlags⟩
  else .zero

/-- On a machine that says how much memory it has; `mem` is what the frames held before. -/
def initVmm (i : Image) (memUpper : Nat) (mem : Nat → Nat → Entry) : Vmm where
  pageTable := freePages i memUpper
  pgd pgdE :=
    if pgdE = kernelPgdStart then ⟨i.pg0, pgPresent ||| pgRw⟩
    else if pgdE = pgtsEntry then ⟨i.pgPgt, kernelFlags⟩
    else .zero
  mem frame :=
    if frame = i.pg0 then pg0Entries i memUpper
    else if frame = i.pgPgt then fun pgtE =>
      if pgtE = kernelPgdStart then ⟨i.pg0, kernelFlags⟩
      else if pgtE = kernelPgdStart + 1 then ⟨i.pgPgt, kernelFlags⟩
      else .zero
    else mem frame
  pgPgt := i.pgPgt

-- ---------------------------------------------------------------------------
-- Mapping
-- ---------------------------------------------------------------------------

def translate (x : Vmm) (page : Nat) : Option Nat :=
  let table := x.pgd (page / 0x400)
  let e := x.mem table.frame (page % 0x400)
  if table.present ∧ e.present then some e.frame else none

/-- The page that shows the table of a directory entry, `pgdpgt2va (PGTS_ENTRY, pgdE)`. -/
def window (pgdE : Nat) : Nat := pgtsEntry * 0x400 + pgdE

def pgt (x : Vmm) (pgdE : Nat) : Option Nat := x.translate (window pgdE)

def fill (x : Vmm) (table pgtE : Nat) (e : Entry) : Vmm :=
  { x with mem := Function.update x.mem table (Function.update (x.mem table) pgtE e) }

def allocPhysPage (x : Vmm) : Option (Vmm × Nat) := do
  let bit ← x.pageTable.findfbsCbitmap
  return ({ x with pageTable := x.pageTable.clearbitCbitmap bit }, bit)

/-- What is done where `pgd [pgd_e]` is 0, in each function that maps. -/
def newPgt (x : Vmm) (pgdE : Nat) : Option Vmm := do
  let (x, page) ← x.allocPhysPage
  let x := { x with pgd := Function.update x.pgd pgdE ⟨page, kernelFlags⟩ }
  let x := x.fill x.pgPgt pgdE ⟨page, kernelFlags⟩
  let pgt ← x.pgt pgdE
  return { x with mem := Function.update x.mem pgt fun _ => .zero }

def needPgt (x : Vmm) (pgdE : Nat) : Option Vmm :=
  if x.pgd pgdE = .zero then x.newPgt pgdE else some x

/-- The next page, in 32 bits. -/
def next (addr : Nat) : Nat := (addr + 0x1000) % 0x100000000

def inUse (x : Vmm) (addr : Nat) : Option Bool :=
  if x.pgd (va2pgd addr) = .zero then some false
  else do
    let pgt ← x.pgt (va2pgd addr)
    return (x.mem pgt (va2pgt addr)).frame ≠ 0

/-- The first loop of `alloc_region`, for at most so many rounds. -/
def searchLoop (x : Vmm) (hi size : Nat) : Nat → Nat → Nat → Option (Option Nat)
  | 0, _, _ => none
  | n + 1, addr, saddr =>
    if ¬addr < hi then some none
    else do
      if ← x.inUse addr then x.searchLoop hi size n (next addr) (next addr)
      else if (addr + 0x100000000 - saddr) % 0x100000000 ≥ size then some (some saddr)
      else x.searchLoop hi size n (next addr) saddr

def mapPage (x : Vmm) (addr : Nat) : Option Vmm := do
  let x ← x.needPgt (va2pgd addr)
  let pgt ← x.pgt (va2pgd addr)
  let (x, page) ← x.allocPhysPage
  if (x.mem pgt (va2pgt addr)).frame ≠ 0 then none
  return x.fill pgt (va2pgt addr) ⟨page, kernelFlags⟩

def mapLoop (stop : Nat) : Nat → Nat → Vmm → Option Vmm
  | 0, _, _ => none
  | n + 1, addr, x =>
    if ¬addr < stop then some x
    else do mapLoop stop n (next addr) (← x.mapPage addr)

def startAddr (lo : BitVec 32) : Nat := if lo = 0 then freeVmmEntry * 0x400000 else lo.toNat

def stopAddr (hi : BitVec 32) : Nat := if hi = 0 then 0xffffffff else hi.toNat

/-- `n` bounds the rounds of each loop. -/
def allocRegion (n : Nat) (x : Vmm) (lo hi size : BitVec 32) : Option (Vmm × Nat) :=
  if startAddr lo % 0x1000 ≠ 0 then some (x, 0)
  else do
    match ← x.searchLoop (stopAddr hi) size.toNat n (startAddr lo) (startAddr lo) with
    | none => return (x, 0)
    | some saddr =>
      let x ← mapLoop ((saddr + size.toNat) % 0x100000000) n saddr x
      return (x, saddr)

def unmapLoop (stop : Nat) : Nat → Nat → Vmm → Option Vmm
  | 0, _, _ => none
  | n + 1, addr, x =>
    if ¬addr < stop then some x
    else do
      let pgt ← x.pgt (va2pgd addr)
      unmapLoop stop n (next addr) (x.fill pgt (va2pgt addr) .zero)

def deallocRegion (n : Nat) (x : Vmm) (saddr _size : Nat) : Option Vmm :=
  if saddr % 0x1000 ≠ 0 then some x else unmapLoop saddr n saddr x

/-- The loop of `configure_stack` and `create_app_map`, over the pages left. -/
def placeLoop : Nat → Nat → Nat → Vmm → Option Vmm
  | 0, _, _, x => some x
  | n + 1, addr, frame, x => do
    let x ← x.needPgt (va2pgd addr)
    let pgt ← x.pgt (va2pgd addr)
    placeLoop n (next addr) (frame + 1) (x.fill pgt (va2pgt addr) ⟨frame, kernelFlags⟩)

def configureStack (i : Image) (x : Vmm) : Option Vmm :=
  placeLoop stackPages stackAddr i.sstack x

def createAppMap (i : Image) (x : Vmm) : Option Vmm :=
  placeLoop (i.eapp - i.sapp) (i.sapp * 0x1000) i.sapp x

inductive Action
  | allocRegion (n : Nat) (lo hi size : BitVec 32)
  | deallocRegion (n saddr size : Nat)
  | configureStack
  | createAppMap

def step (i : Image) (x : Vmm) : Action → Option Vmm
  | .allocRegion n lo hi size => (x.allocRegion n lo hi size).map Prod.fst
  | .deallocRegion n saddr size => x.deallocRegion n saddr size
  | .configureStack => configureStack i x
  | .createAppMap => createAppMap i x

end Vmm

end Xmertl.Partikle
