import Mathlib.Logic.Function.Basic
import Xmertl.Common.Fifo
import Xmertl.Lib.Runs

/-!
# The page tables of a domain

`mm.h` with `kmem.c` and the mappings of the devices: a page directory is built one page
at a time, by `allocate_user_page` or by a device that maps a frame of its own, and
`destroy_page_directory` takes it apart.

A page is named by its frame, and a table is what the memory holds in its frame. What
the page allocator will answer stands in the state; a run ends where it would give a
frame that is not free. What domains write to their pages is left out.
-/

namespace Xmertl.Xtratum

def pageOffset : Nat := 0xC0000000

def pagePresent : BitVec 12 := 0x001

def pageRw : BitVec 12 := 0x002

def pageUser : BitVec 12 := 0x004

def pageUnused1 : BitVec 12 := 0x200

/-- The word of an entry, by its frame and its low twelve bits. -/
structure Entry where
  frame : Nat := 0
  flags : BitVec 12 := 0
  deriving DecidableEq

def Entry.present (e : Entry) : Bool := e.flags &&& pagePresent = pagePresent

def Entry.unused1 (e : Entry) : Bool := e.flags &&& pageUnused1 = pageUnused1

def va2pd (vaddress : Nat) : Nat := vaddress / 0x400000

/-- `(vaddress & 0x3FF000) >> PAGE_SHIFT`. -/
def va2pt (vaddress : Nat) : Nat := vaddress / 0x1000 % 0x400

/-- `pool` are the frames that the domain has from the page allocator, and `freed` those
given back. A frame of `foreign` is in use by others. -/
structure Mm where
  mem : Nat → Nat → Entry
  pd : Nat
  pool : List Nat
  freed : List Nat
  answers : List (Option Nat)
  foreign : Nat → Bool

namespace Mm

def fill (x : Mm) (table entry : Nat) (e : Entry) : Mm :=
  { x with mem := Function.update x.mem table (Function.update (x.mem table) entry e) }

def allocPage (x : Mm) : Option (Mm × Option Nat) :=
  match x.answers with
  | [] => some (x, none)
  | none :: answers => some ({ x with answers }, none)
  | some page :: answers =>
    if page ∈ x.pool ∨ x.foreign page = true then none
    else
      some ({ x with
        mem := Function.update x.mem page fun _ => {}
        pool := page :: x.pool
        answers }, some page)

def releasePage (x : Mm) (page : Nat) : Mm :=
  { x with pool := x.pool.erase page, freed := page :: x.freed }

def createPageDirectory (x : Mm) (kernel : Nat → Entry) : Option Mm := do
  let (x, pd) ← x.allocPage
  let pd ← pd
  return { x with
    pd
    mem := Function.update x.mem pd fun i => if i < va2pd pageOffset then {} else kernel i }

/-- The table for an entry of the directory, a new one with these flags where none is. -/
def getTable (x : Mm) (pdEntry : Nat) (flags : BitVec 12) : Option (Mm × Option Nat) :=
  if (x.mem x.pd pdEntry).present then some (x, some (x.mem x.pd pdEntry).frame)
  else do
    let (x, pt) ← x.allocPage
    match pt with
    | none => return (x, none)
    | some pt => return (x.fill x.pd pdEntry ⟨pt, flags⟩, some pt)

def allocateUserPage (x : Mm) (vaddress : Nat) : Option (Mm × Option Nat) :=
  if vaddress ≥ pageOffset then some (x, none)
  else do
    let (x, pt) ← x.getTable (va2pd vaddress) (pagePresent ||| pageRw ||| pageUser)
    match pt with
    | none => return (x, none)
    | some pt =>
      if (x.mem pt (va2pt vaddress)).present then return (x, none)
      let (x, page) ← x.allocPage
      match page with
      | none => return (x, none)
      | some page =>
        return (x.fill pt (va2pt vaddress) ⟨page, pagePresent ||| pageRw ||| pageUser⟩, some page)

/-- The loop of `alloc_user_range` over the pages left. -/
def allocUserRangeLoop (x : Mm) : List Nat → Option (Mm × Int)
  | [] => some (x, 0)
  | addr :: rest => do
    let (x, page) ← x.allocateUserPage addr
    if page = none then return (x, -1)
    x.allocUserRangeLoop rest

def allocUserRange (x : Mm) (address offset : Nat) : Option (Mm × Int) :=
  let start := address / 0x1000 * 0x1000
  let last := ((address + offset) % 0x100000000 + 0xFFF) / 0x1000 * 0x1000 % 0x100000000
  x.allocUserRangeLoop ((List.range ((last - start) / 0x1000)).map fun i => start + i * 0x1000)

def mapPage (x : Mm) (pdFlags flags : BitVec 12) (vaddr addr : Nat) : Option (Mm × Nat) :=
  if x.foreign addr = false then none
  else do
    let (x, pt) ← x.getTable (va2pd vaddr) pdFlags
    match pt with
    | none => return (x, 0)
    | some pt =>
      if (x.mem pt (va2pt vaddr)).present then return (x, 0)
      return (x.fill pt (va2pt vaddr) ⟨addr, flags⟩, vaddr)

def nflag : BitVec 12 := pageUnused1 ||| pagePresent ||| pageRw ||| pageUser

def xmMapPage (x : Mm) (addr vaddr : Nat) : Option (Mm × Nat) :=
  x.mapPage (nflag &&& ~~~pageUnused1) nflag vaddr addr

def kmemPageMap (x : Mm) (dvaddr kladdr : Nat) : Option (Mm × Nat) :=
  x.mapPage (nflag ||| pagePresent) nflag dvaddr kladdr

/-- `xm_unmap_page` and `kmem_page_unmap`. -/
def kmemPageUnmap (x : Mm) (dvaddr : Nat) : Mm :=
  if (x.mem x.pd (va2pd dvaddr)).present then
    let pt := (x.mem x.pd (va2pd dvaddr)).frame
    if (x.mem pt (va2pt dvaddr)).present then x.fill pt (va2pt dvaddr) {} else x
  else x

/-- The end of `free_user_page` and of a device's unmapping: an empty table goes. -/
def freeTable (x : Mm) (pdEntry : Nat) : Mm :=
  let pt := (x.mem x.pd pdEntry).frame
  if (List.range 1024).all fun n => x.mem pt n = {} then
    (x.fill x.pd pdEntry {}).releasePage pt
  else x

def freeUserPage (x : Mm) (vaddress : Nat) : Mm :=
  if vaddress ≥ pageOffset then x
  else if (x.mem x.pd (va2pd vaddress)).present then
    let pt := (x.mem x.pd (va2pd vaddress)).frame
    let x :=
      if (x.mem pt (va2pt vaddress)).present then
        let page := (x.mem pt (va2pt vaddress)).frame
        let x := x.fill pt (va2pt vaddress) {}
        if (x.mem pt (va2pt vaddress)).unused1 then x else x.releasePage page
      else x
    x.freeTable (va2pd vaddress)
  else x

/-- The loop of `destroy_page_directory`, for its first pages. -/
def freeUserPages (x : Mm) (n : Nat) : Mm :=
  (List.range n).foldl (fun x (i : Nat) => x.freeUserPage (i * 0x1000)) x

def destroyPageDirectory (x : Mm) : Mm :=
  (x.freeUserPages (pageOffset / 0x1000)).releasePage x.pd

end Mm

inductive MmCall
  | allocateUserPage (vaddress : Nat)
  | xmMapPage (addr vaddr : Nat)
  | kmemPageMap (dvaddr kladdr : Nat)
  | kmemPageUnmap (dvaddr : Nat)
  | freeTable (pdEntry : Nat)

def Mm.step (x : Mm) : MmCall → Option Mm
  | .allocateUserPage vaddress => (x.allocateUserPage vaddress).map Prod.fst
  | .xmMapPage addr vaddr => (x.xmMapPage addr vaddr).map Prod.fst
  | .kmemPageMap dvaddr kladdr => (x.kmemPageMap dvaddr kladdr).map Prod.fst
  | .kmemPageUnmap dvaddr => some (x.kmemPageUnmap dvaddr)
  | .freeTable pdEntry => some (x.freeTable pdEntry)

def defaultFifoAddr : Nat := 0x2C00000

/-- The handler refuses an address inside a page. -/
def rtFifoXmMap (fpage : Nat) (fpages : List Nat) (vaddr : Nat) : List MmCall :=
  if vaddr % 0x1000 ≠ 0 then []
  else (fpage :: fpages).zipIdx.map fun p => .xmMapPage p.1 (vaddr + p.2 * 0x1000)

def rtFifoXmUnmap : List MmCall :=
  (List.range (xmFifoCount.toNat + 1)).map
      (fun i => .kmemPageUnmap (defaultFifoAddr + i * 0x1000)) ++
    [.freeTable (va2pd defaultFifoAddr)]

/-- The pages of `xm_shm_map` and `xm_shm_unmap`. -/
def shmPages (vaddr size : Nat) : Nat := (size + vaddr % 0x1000 + 0xFFF) / 0x1000

/-- With the frames that `kmem_kvaddr_to_kladdr` finds. -/
def xmShmMap (vaddr size : Nat) (kladdr : Nat → Nat) : List MmCall :=
  (List.range (shmPages vaddr size)).map fun i =>
    .kmemPageMap (vaddr / 0x1000 * 0x1000 + i * 0x1000) (kladdr i)

def xmShmUnmap (dvaddr size : Nat) : List MmCall :=
  (List.range (shmPages dvaddr size)).map
      (fun i => .kmemPageUnmap (dvaddr / 0x1000 * 0x1000 + i * 0x1000)) ++
    [.freeTable (va2pd dvaddr)]

end Xmertl.Xtratum
