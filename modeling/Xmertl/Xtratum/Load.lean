import Xmertl.Lib.Stages
import Xmertl.Xtratum.Domain
import Xmertl.Xtratum.DomainList
import Xmertl.Xtratum.DomainPages
import Xmertl.Xtratum.SerialDevice
import Xmertl.Xtratum.Shm

/-!
# Loading a domain

`load_domain_sys` with all that it acquires: the domain's structure, its page directory, the
pages of its image with their bytes, its stack, the events page, the heap and the mappings of
the devices. An error on the way is followed by `destroy_domain` and nothing else.

The events page stands in the state by its fields.
-/

namespace Xmertl.Xtratum

open Stages

-- ---------------------------------------------------------------------------
-- Domains, images and devices
-- ---------------------------------------------------------------------------

def defaultEventAddr : Nat := 0x2000000

def defaultHeapSize : Nat := 3145728

def defaultSerialAddr : Nat := 0x3400000

def xmSerialDevName : String := "serial.xmd"

structure ElfSection where
  img : Nat → BitVec 8
  stAddr : Nat
  size : Nat

structure DomainImage where
  sections : List ElfSection
  entryPoint : Nat

inductive TrapHandler
  | generic

/-- The rest of `event_handling_t`. -/
structure EventsPage extends EventHandling where
  /-- MAX_TRAPS is 20. -/
  trapHandler : Fin 20 → Option TrapHandler := fun _ => none
  heap : Nat := 0
  heapSize : Nat := 0
  fctladdr : Nat := 0
  fdataddr : List Nat := []
  serialaddr : Nat := 0

inductive StackWord
  | word (w : Nat)
  | initWrapper

structure DomainNode where
  name : String
  flags : Bitmap := 0
  pd : Nat := 0
  sstackSt : Nat := 0
  /-- What is on the supervisor stack, the last word first. -/
  sstack : List StackWord := []
  events : EventsPage := {}
  eventsUserAddr : Nat := 0
  heap : Nat := 0

def DomainNode.setDomainState (d : DomainNode) (state : Bitmap) : DomainNode :=
  { d with flags := d.flags &&& ~~~stateMask ||| state }

/-- `xm_rtf_dev`, with the frames that it maps. -/
structure RtFifo where
  fpage : Nat
  fpages : Nat → Nat
  client : Int

/-- One of `xm_serials`, with the frames of its two fifos. -/
structure SerialPages (D : Type) extends XmSerial D where
  inSerf : Nat
  outSerf : Nat

structure SerialDev (D : Type) where
  xmSerials : Nat → SerialPages D
  client : Int

/-- `bytes` is what is in the frames of pages, and `kernel` the directory in use. A device
that is not registered is none. -/
structure Xm (D : Type) where
  domains : DomainList D
  node : D → DomainNode
  mm : Mm
  bytes : Nat → Nat → BitVec 8
  kernel : Nat → Entry
  fifo : Option RtFifo
  serial : Option (SerialDev D)

/-- A state with these domains, where no page is mapped and no device is there. -/
def Xm.bare {D : Type} (domains : DomainList D) (answers : List (Option Nat)) : Xm D where
  domains
  node := fun _ => { name := "" }
  mm := { mem := fun _ _ => {}, pd := 0, pool := [], freed := [], answers, foreign := fun _ => false }
  bytes := fun _ _ => 0
  kernel := fun _ => {}
  fifo := none
  serial := none

/-- The arguments, with the caller and what `vmalloc` gives for the structure and the stack. -/
structure LoadCall (D : Type) where
  current : D
  dname : String
  prio : Int
  dimg : DomainImage
  node : Option D
  sstack : Option Nat

-- ---------------------------------------------------------------------------
-- Ranges of pages
-- ---------------------------------------------------------------------------

def pageEnd (address offset : Nat) : Nat :=
  ((address + offset) % 0x100000000 + 0xFFF) / 0x1000 * 0x1000 % 0x100000000

def pagesFrom (start n : Nat) : List Nat := (List.range n).map fun i => start + i * 0x1000

def pagesOf (address offset : Nat) : List Nat :=
  pagesFrom (address / 0x1000 * 0x1000)
    ((pageEnd address offset - address / 0x1000 * 0x1000) / 0x1000)

namespace Mm

def mapping (x : Mm) (vaddr : Nat) : Entry := x.entry (va2pd vaddr) (va2pt vaddr)

/-- The search of `load_domain_sys` for the events page, with so many pages left below
PAGE_OFFSET. -/
def eventsLoop (x : Mm) : Nat → Option (Mm × Option Nat)
  | 0 => some (x, none)
  | n + 1 =>
    let addr := pageOffset - (n + 1) * 0x1000
    match x.allocateUserPage addr with
    | none => none
    | some (x, some _) => some (x, some addr)
    | some (x, none) => x.eventsLoop n

/-- The search of `alloc_free_user_range`: where it stops, and the range that it has then. The
page that it goes to from a page in use is not looked at. -/
def freeRangeLoop (x : Mm) (vsize : Nat) : Nat → Nat → Nat → Nat → Nat × Nat
  | 0, addr, _, nvaddr => (addr, nvaddr)
  | n + 1, addr, last, nvaddr =>
    if addr < last ∧ addr < pageOffset then
      if (x.mapping addr).present then
        x.freeRangeLoop vsize n (addr + 0x2000) (pageEnd (addr + 0x1000) vsize) (addr + 0x1000)
      else x.freeRangeLoop vsize n (addr + 0x1000) last nvaddr
    else (addr, nvaddr)

/-- 0 where there is no range. -/
def allocFreeUserRange (x : Mm) (vaddr vsize : Nat) : Option (Mm × Nat) :=
  let start := vaddr / 0x1000 * 0x1000
  let found := x.freeRangeLoop vsize (pageOffset / 0x1000) start (pageEnd vaddr vsize) start
  if found.1 ≥ pageOffset then some (x, 0)
  else (x.allocUserRange found.2 vsize).map fun r => (r.1, if r.2 ≠ 0 then 0 else found.2)

def fifoMap (x : Mm) (dev : RtFifo) (vaddr : Nat) : Option (Mm × Int) :=
  if vaddr % 0x1000 ≠ 0 then some (x, -einval)
  else
    let fpages := (List.range xmFifoCount.toNat).map dev.fpages
    ((rtFifoXmMap dev.fpage fpages vaddr).foldlM Mm.step x).map fun x => (x, 0)

/-- `xm_map_page` of `serial.c`, which says that it has no memory for a table. -/
def serialMapPage (x : Mm) (addr vaddr : Nat) : Option (Mm × Int) :=
  if x.foreign addr = false then none
  else do
    let (x, pt) ← x.getTable (va2pd vaddr) (nflag &&& ~~~pageUnused1)
    match pt with
    | none => return (x, -enomem)
    | some pt =>
      if (x.mem pt (va2pt vaddr)).present then return (x, 0)
      return (x.fill pt (va2pt vaddr) ⟨addr, nflag⟩, 0)

/-- The loop of `xm_serial_xm_map` for the serial driver, over the devices left. -/
def serialMap {D : Type} (x : Mm) (nvaddr : Nat) (xmSerials : Nat → SerialPages D) :
    List Nat → Option (Mm × (Nat → SerialPages D) × Int)
  | [] => some (x, xmSerials, 0)
  | i :: rest => do
    let (x, ret) ← x.serialMapPage (xmSerials i).inSerf nvaddr
    if ret ≠ 0 then return (x, xmSerials, ret)
    let (x, ret) ← x.serialMapPage (xmSerials i).outSerf (nvaddr + 0x1000)
    if ret ≠ 0 then return (x, xmSerials, ret)
    let s := { xmSerials i with toXmSerial := (xmSerials i).devInit }
    x.serialMap (nvaddr + 0x2000) (Function.update xmSerials i s) rest

end Mm

/-- `csize` bytes of the image from `imgAddr` on, put into a page at `offset`. -/
def memcpy (page : Nat → BitVec 8) (offset : Nat) (img : Nat → BitVec 8) (imgAddr csize : Nat) :
    Nat → BitVec 8 :=
  fun i => if offset ≤ i ∧ i < offset + csize then img (imgAddr + (i - offset)) else page i

def initSstack (stack : List StackWord) (entryPoint : Nat) : List StackWord :=
  .initWrapper :: .word 0 :: .word entryPoint :: stack

-- ---------------------------------------------------------------------------
-- The call
-- ---------------------------------------------------------------------------

namespace Xm

variable {D : Type}

/-- The loop over the pages of a section. The page allocator clears the pages it gives. -/
def loadPages (img : Nat → BitVec 8) (imgAddr offset lsize csize : Nat) :
    List Nat → Stage (Xm D) XmError
  | [], x => some (x, none)
  | addr :: rest, x =>
    match x.mm.allocateUserPage addr with
    | none => none
    | some (mm, none) => some ({ x with mm }, some .outOfMemory)
    | some (mm, some page) =>
      loadPages img (imgAddr + csize) 0 (lsize - csize)
        (if 0x1000 < lsize - csize then 0x1000 else lsize - csize) rest
        { x with
          mm
          bytes := Function.update x.bytes page (memcpy (fun _ => 0) offset img imgAddr csize) }

def loadSection (s : ElfSection) : Stage (Xm D) XmError :=
  let offset := s.stAddr % 0x1000
  loadPages s.img 0 offset s.size (if 0x1000 - offset < s.size then 0x1000 - offset else s.size)
    (pagesOf s.stAddr s.size)

variable [DecidableEq D]

def setNode (x : Xm D) (d : D) (n : DomainNode) : Xm D :=
  { x with node := Function.update x.node d n }

/-- What `create_domain` and `set_domain_state` leave. -/
def created (x : Xm D) (d : D) (dname : String) (domains : DomainList D) : Xm D :=
  let node : DomainNode := { name := dname }
  ({ x with domains } : Xm D).setNode d (node.setDomainState domainActive)

/-- `create_page_directory` fails where it gets no page. -/
def loadPageDirectory (d : D) (x : Xm D) : Option (Xm D × Option XmError) :=
  match x.mm.allocPage with
  | none => none
  | some (mm, none) => some ({ x with mm }, some .outOfMemory)
  | some (_, some _) => (x.mm.createPageDirectory x.kernel).map fun mm =>
    (({ x with mm } : Xm D).setNode d { x.node d with pd := mm.pd }, none)

def loadStack (d : D) (entryPoint : Nat) (sstack : Option Nat) (x : Xm D) :
    Option (Xm D × Option XmError) :=
  match sstack with
  | none => some (x, some .outOfMemory)
  | some sstackSt =>
    some (x.setNode d { x.node d with sstackSt, sstack := initSstack [] entryPoint }, none)

def loadEvents (d : D) (x : Xm D) : Option (Xm D × Option XmError) :=
  match x.mm.eventsLoop ((pageOffset - defaultEventAddr) / 0x1000) with
  | none => none
  | some (mm, none) => some ({ x with mm }, some .outOfMemory)
  | some (mm, some addr) =>
    let events : EventsPage :=
      { ({} : EventHandling).disableEventsFlag with trapHandler := fun _ => some .generic }
    some (({ x with mm } : Xm D).setNode d { x.node d with eventsUserAddr := addr, events }, none)

def loadHeap (d : D) (x : Xm D) : Option (Xm D × Option XmError) :=
  (x.mm.allocFreeUserRange ((x.node d).eventsUserAddr + 0x1000 * 4) defaultHeapSize).map
    fun r =>
      let events := { (x.node d).events with heap := r.2, heapSize := defaultHeapSize }
      (({ x with mm := r.1 } : Xm D).setNode d { x.node d with heap := r.2, events },
        if r.2 = 0 then some .outOfMemory else none)

def loadFifo (d : D) (x : Xm D) : Option (Xm D × Option XmError) :=
  match x.fifo with
  | none => some (x, some .enodev)
  | some dev =>
    (x.mm.fifoMap dev defaultFifoAddr).map fun r =>
      if r.2 ≠ 0 then ({ x with mm := r.1 }, some .einval)
      else
        let events := { (x.node d).events with
          fctladdr := defaultFifoAddr
          fdataddr := pagesFrom (defaultFifoAddr + 0x1000) xmFifoCount.toNat }
        (({ x with mm := r.1, fifo := some { dev with client := dev.client + 1 } } : Xm D).setNode d
          { x.node d with events }, none)

/-- What the mapping of the serial devices answers is not looked at. -/
def loadSerial (d : D) (x : Xm D) : Option (Xm D × Option XmError) :=
  match x.serial with
  | none => some (x, some .enodev)
  | some dev =>
    if (x.node d).name = xmSerialDevName then
      (x.mm.serialMap defaultSerialAddr dev.xmSerials (List.range xmSerialCount)).map fun r =>
        let events := { (x.node d).events with serialaddr := defaultSerialAddr }
        (({ x with mm := r.1, serial := some ⟨r.2.1, dev.client + 1⟩ } : Xm D).setNode d
          { x.node d with events }, none)
    else some ({ x with serial := some { dev with client := dev.client + 1 } }, none)

def loadStages (d : D) (c : LoadCall D) : List (Stage (Xm D) XmError) :=
  [loadPageDirectory d, run (c.dimg.sections.map loadSection),
    loadStack d c.dimg.entryPoint c.sstack, loadEvents d, loadHeap d, loadFifo d, loadSerial d]

/-- A null domain is read, and linked. -/
def loadDomainSys [Fintype D] (x : Xm D) (c : LoadCall D) :
    Option (Xm D × Except XmError (BitVec 32)) :=
  if c.current ≠ x.domains.root then some (x, .error .onlyRootDomainCall)
  else if c.prio > minPriority ∨ c.prio < maxPriority then some (x, .error .badPriority)
  else
    match c.node with
    | none => none
    | some d =>
      if d ∈ x.domains.live then none
      else do
        let domains ← x.domains.createDomain d c.prio.toNat
        let (x, e) ← run (loadStages d c) (x.created d c.dname domains)
        match e with
        | none => return (x, .ok (x.domains.id d))
        | some e => return ({ x with domains := x.domains.destroyDomain d }, .error e)

end Xm

end Xmertl.Xtratum
