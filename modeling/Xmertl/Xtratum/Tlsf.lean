import Xmertl.Common.TlsfBlocks
import Xmertl.Lib.SizeClasses

/-!
# The memory allocator

`tlsf.c`: a pool of blocks with boundary tags, and for each class of sizes a list of the
free blocks in it. Bitmaps at two levels lead to the first list that can serve a request.
A pointer to a block's header is a word, and `b + 8` is its `ptr.buffer`.
-/

namespace Xmertl.Xtratum

open TlsfPool TotalCorrectness

structure Tlsf where
  signature : Word
  usedSize : Word
  levels : Levels 24
  lists : FreeLists (Fin 24 × Fin 32)

/-- `mem_pool` and `mem_pool_size`. -/
structure Pool where
  start : Nat
  size : Nat
  top : start + size ≤ 2 ^ 32

def Pool.area (P : Pool) : Area where
  lo := P.start + 3180
  hi := P.start + P.size
  above := by omega
  top := P.top

def tlsfSignature : Word := 0x2A59FA59#32

def tlsfBlockSize : Word := 0xFFFFFFFC#32

def freeBlock : Word := 1#32

def prevFree : Word := 2#32

def prevState : Word := 2#32

def prevUsed : Word := 0#32

def usedBlock : Word := 0#32

def minBlockSize : Word := 8#32

def bhdrOverhead : Word := 8#32

def sizeofBhdr : Word := 16#32

def sizeofTlsf : Word := 3180#32

def smallBlock : Word := 128#32

def getNextBlock (addr r : Word) : Word := addr + r

/-- MEM_ALIGN is 7. -/
def roundupSize (r : Word) : Word := (r + 7#32) &&& ~~~7#32

def rounddownSize (r : Word) : Word := r &&& ~~~7#32

/-- The smallest block that a request for `size` bytes may get. -/
def blockSize (size : Word) : Word := if size < minBlockSize then minBlockSize else roundupSize size

-- ---------------------------------------------------------------------------
-- Classes of sizes
-- ---------------------------------------------------------------------------

def table : List Int :=
  [-1, 0] ++ List.replicate 2 1 ++ List.replicate 4 2 ++ List.replicate 8 3 ++
    List.replicate 16 4 ++ List.replicate 32 5 ++ List.replicate 64 6 ++ List.replicate 128 7

def tableShift (x : Word) : Nat :=
  if x ≤ 0xffff#32 then if x ≤ 0xff#32 then 0 else 8 else if x ≤ 0xffffff#32 then 16 else 24

/-- `table[x >> a] + a`; what is left of `x` is below 256. -/
def tableBit (x : Word) : Int := table.getD (x >>> tableShift x).toNat 0 + tableShift x

def lsBit (i : Word) : Int := tableBit (i &&& -i)

def msBit (i : Word) : Int := tableBit i

def mappingSearch (r : Word) : Word × Int × Int :=
  if r < smallBlock then (r, 0, (r / 4#32).toInt)
  else
    let t := (1#32 <<< (msBit r - 5).toNat) - 1#32
    let r := r + t
    let fl := msBit r
    let sl := ((r >>> (fl - 5).toNat) - 32#32).toInt
    (r &&& ~~~t, fl - 6, sl)

def mappingInsert (r : Word) : Int × Int :=
  if r < smallBlock then (0, (r / 4#32).toInt)
  else
    let fl := msBit r
    let sl := ((r >>> (fl - 5).toNat) - 32#32).toInt
    (fl - 6, sl)

-- ---------------------------------------------------------------------------
-- Free lists
-- ---------------------------------------------------------------------------

def findSuitableBlock (t : Tlsf) (fl sl : Int) : Option (Word × Int × Int) :=
  findIn lsBit t.levels t.lists.head fl sl

def extractBlockHdr (P : Pool) (t : Tlsf) (b : Word) (fl sl : Int) : Option Tlsf := do
  let c ← cell 24 fl sl
  let lists ← t.lists.extractHdr P.area c b
  let levels := if lists.head c ≠ 0#32 then t.levels else (t.levels.clearSl c).clearFl c.1
  return { t with levels, lists := ← lists.setFreePtr P.area b 0#32 0#32 }

def extractBlock (P : Pool) (t : Tlsf) (b : Word) (fl sl : Int) : Option Tlsf := do
  let c ← cell 24 fl sl
  let lists ← t.lists.extract P.area c b
  let levels :=
    if t.lists.head c = b ∧ lists.head c = 0#32 then (t.levels.clearSl c).clearFl c.1
    else t.levels
  return { t with levels, lists }

def insertBlock (P : Pool) (t : Tlsf) (b : Word) (fl sl : Int) : Option Tlsf := do
  let c ← cell 24 fl sl
  return { t with levels := t.levels.set c, lists := ← t.lists.insert P.area c b }

/-- `b->size`. -/
def Tlsf.sizeOf (t : Tlsf) (P : Pool) (b : Word) : Option Word := t.lists.size P.area b

def Tlsf.setSize (t : Tlsf) (P : Pool) (b v : Word) : Option Tlsf := do
  return { t with lists := ← t.lists.setSize P.area b v }

def Tlsf.setPrevHdr (t : Tlsf) (P : Pool) (b v : Word) : Option Tlsf := do
  return { t with lists := ← t.lists.setPrevHdr P.area b v }

def Tlsf.setFreePtr (t : Tlsf) (P : Pool) (b prev next : Word) : Option Tlsf := do
  return { t with lists := ← t.lists.setFreePtr P.area b prev next }

-- ---------------------------------------------------------------------------
-- The calls
-- ---------------------------------------------------------------------------

def initMemoryPool (P : Pool) (t : Tlsf) : Option (Word × Tlsf) := do
  let memPool := BitVec.ofNat 32 P.start
  let memPoolSize := BitVec.ofNat 32 P.size
  if memPool = 0#32 ∨ memPoolSize = 0#32 ∨ memPoolSize < sizeofTlsf + 128#32 then
    return (-1#32, t)
  if memPool &&& 3#32 ≠ 0#32 then return (-1#32, t)
  if t.signature = tlsfSignature then
    let b := getNextBlock memPool sizeofTlsf
    return ((← t.sizeOf P b) &&& tlsfBlockSize, t)
  -- the memory of the pool behind the signature is cleared
  let t : Tlsf :=
    { signature := tlsfSignature
      usedSize := 0#32
      levels := { flBitmap := 0#32, slBitmap := fun _ => 0#32 }
      lists := { head := fun _ => 0#32, mem := fun _ => 0#32 } }
  let b := getNextBlock memPool (roundupSize sizeofTlsf)
  let size := rounddownSize (memPoolSize - sizeofTlsf - 2#32 * bhdrOverhead)
  let t ← t.setSize P b (size ||| freeBlock ||| prevUsed)
  let t ← t.setFreePtr P b 0#32 0#32
  if (← t.sizeOf P b) > 1#32 <<< 30 then return (-1#32, t)
  let size := (← t.sizeOf P b) &&& tlsfBlockSize
  let (fl, sl) := mappingInsert size
  let t ← insertBlock P t b fl sl
  let lb := getNextBlock (b + 8#32) ((← t.sizeOf P b) &&& tlsfBlockSize)
  let t ← t.setPrevHdr P lb b
  let t ← t.setSize P lb (0#32 ||| usedBlock ||| prevFree)
  let size := (← t.sizeOf P b) &&& tlsfBlockSize
  return (size, { t with usedSize := memPoolSize - size })

/-- The end of `malloc_ex` and `realloc_ex`: `used_size += (b->size & TLSF_BLOCK_SIZE) + BHDR_OVERHEAD`. -/
def Tlsf.addUsed (t : Tlsf) (P : Pool) (b : Word) : Option Tlsf := do
  return { t with usedSize := t.usedSize + (((← t.sizeOf P b) &&& tlsfBlockSize) + bhdrOverhead) }

def Tlsf.subUsed (t : Tlsf) (P : Pool) (b : Word) : Option Tlsf := do
  return { t with usedSize := t.usedSize - (((← t.sizeOf P b) &&& tlsfBlockSize) + bhdrOverhead) }

def splitFound (P : Pool) (t : Tlsf) (b nextB size : Word) : Option Tlsf := do
  let tmpSize := ((← t.sizeOf P b) &&& tlsfBlockSize) - size
  if tmpSize ≥ sizeofBhdr then
    let tmpSize := tmpSize - bhdrOverhead
    let b2 := getNextBlock (b + 8#32) size
    let t ← t.setSize P b2 (tmpSize ||| freeBlock ||| prevUsed)
    let t ← t.setPrevHdr P nextB b2
    let (fl, sl) := mappingInsert tmpSize
    let t ← insertBlock P t b2 fl sl
    t.setSize P b (size ||| ((← t.sizeOf P b) &&& prevState))
  else
    let t ← t.setSize P nextB ((← t.sizeOf P nextB) &&& ~~~prevFree)
    t.setSize P b ((← t.sizeOf P b) &&& ~~~freeBlock)

def mallocEx (P : Pool) (t : Tlsf) (size : Word) : Option (Word × Tlsf) := do
  let (size, fl, sl) := mappingSearch (blockSize size)
  let (b, fl, sl) ← findSuitableBlock t fl sl
  if b = 0#32 then return (0#32, t)
  let t ← extractBlockHdr P t b fl sl
  let nextB := getNextBlock (b + 8#32) ((← t.sizeOf P b) &&& tlsfBlockSize)
  let t ← splitFound P t b nextB size
  let t ← t.addUsed P b
  return (b + 8#32, t)

/-- `MAPPING_INSERT(b->size & TLSF_BLOCK_SIZE, &fl, &sl); EXTRACT_BLOCK(b, tlsf, fl, sl)`. -/
def takeOff (P : Pool) (t : Tlsf) (b : Word) : Option Tlsf := do
  let (fl, sl) := mappingInsert ((← t.sizeOf P b) &&& tlsfBlockSize)
  extractBlock P t b fl sl

/-- `free_ex` merges `b` with the block behind it. -/
def mergeNext (P : Pool) (t : Tlsf) (b : Word) : Option Tlsf := do
  let tmpB := getNextBlock (b + 8#32) ((← t.sizeOf P b) &&& tlsfBlockSize)
  if (← t.sizeOf P tmpB) &&& freeBlock ≠ 0#32 then
    let t ← takeOff P t tmpB
    t.setSize P b ((← t.sizeOf P b) + (((← t.sizeOf P tmpB) &&& tlsfBlockSize) + bhdrOverhead))
  else some t

/-- `free_ex` merges `b` with the block before it. -/
def mergePrev (P : Pool) (t : Tlsf) (b : Word) : Option (Word × Tlsf) := do
  if (← t.sizeOf P b) &&& prevFree ≠ 0#32 then
    let tmpB ← t.lists.prevHdr P.area b
    let t ← takeOff P t tmpB
    let size := (← t.sizeOf P tmpB) + (((← t.sizeOf P b) &&& tlsfBlockSize) + bhdrOverhead)
    return (tmpB, ← t.setSize P tmpB size)
  else return (b, t)

def freeEx (P : Pool) (t : Tlsf) (ptr : Word) : Option Tlsf := do
  if ptr = 0#32 then return t
  let b := ptr - bhdrOverhead
  let t ← t.setSize P b ((← t.sizeOf P b) ||| freeBlock)
  let t ← t.subUsed P b
  let t ← t.setFreePtr P b 0#32 0#32
  let t ← mergeNext P t b
  let (b, t) ← mergePrev P t b
  let (fl, sl) := mappingInsert ((← t.sizeOf P b) &&& tlsfBlockSize)
  let t ← insertBlock P t b fl sl
  let tmpB := getNextBlock (b + 8#32) ((← t.sizeOf P b) &&& tlsfBlockSize)
  let t ← t.setSize P tmpB ((← t.sizeOf P tmpB) ||| prevFree)
  t.setPrevHdr P tmpB b

/-- In `realloc_ex`, a block of its own for what is left behind the new size of `b`. -/
def splitRest (P : Pool) (t : Tlsf) (b nextB newSize tmpSize : Word) : Option Tlsf := do
  if tmpSize ≥ sizeofBhdr then
    let tmpSize := tmpSize - bhdrOverhead
    let tmpB := getNextBlock (b + 8#32) newSize
    let t ← t.setSize P tmpB (tmpSize ||| freeBlock ||| prevUsed)
    let t ← t.setPrevHdr P nextB tmpB
    let t ← t.setSize P nextB ((← t.sizeOf P nextB) ||| prevFree)
    let (fl, sl) := mappingInsert tmpSize
    let t ← insertBlock P t tmpB fl sl
    t.setSize P b (newSize ||| ((← t.sizeOf P b) &&& prevState))
  else return t

/-- The free block behind is taken off its list; its space counts as that of `b`. -/
def joinNext (P : Pool) (t : Tlsf) (nextB tmpSize : Word) : Option (Word × Word × Tlsf) := do
  if (← t.sizeOf P nextB) &&& freeBlock ≠ 0#32 then
    let t ← takeOff P t nextB
    let size := (← t.sizeOf P nextB) &&& tlsfBlockSize
    return (getNextBlock (nextB + 8#32) size, tmpSize + (size + bhdrOverhead), t)
  else return (nextB, tmpSize, t)

/-- `new_size <= tmp_size`. -/
def shrink (P : Pool) (t : Tlsf) (b nextB newSize tmpSize : Word) : Option (Word × Tlsf) := do
  let t ← t.subUsed P b
  let (nextB, tmpSize, t) ← joinNext P t nextB tmpSize
  let t ← splitRest P t b nextB newSize (tmpSize - newSize)
  return (b + 8#32, ← t.addUsed P b)

def grow (P : Pool) (t : Tlsf) (b nextB newSize : Word) : Option (Word × Tlsf) := do
  let t ← t.subUsed P b
  let t ← takeOff P t nextB
  let t ← t.setSize P b
    ((← t.sizeOf P b) + (((← t.sizeOf P nextB) &&& tlsfBlockSize) + bhdrOverhead))
  let nextB := getNextBlock (b + 8#32) ((← t.sizeOf P b) &&& tlsfBlockSize)
  let t ← t.setPrevHdr P nextB b
  let t ← t.setSize P nextB ((← t.sizeOf P nextB) &&& ~~~prevFree)
  let tmpSize := ((← t.sizeOf P b) &&& tlsfBlockSize) - newSize
  let t ← splitRest P t b nextB newSize tmpSize
  return (b + 8#32, ← t.addUsed P b)

def copyWords (A : Area) : Nat → (Nat → Word) → Word → Word → Option (Nat → Word)
  | 0, mem, _, _ => some mem
  | n + 1, mem, dst, src => do
    let mem ← A.store mem dst (← A.load mem src)
    copyWords A n mem (dst + 4#32) (src + 4#32)

/-- A new block, with what was in the old one. The sizes of blocks are multiples of a word. -/
def move (P : Pool) (t : Tlsf) (ptr b newSize : Word) : Option (Word × Tlsf) := do
  let (ptrAux, t) ← mallocEx P t newSize
  let size := (← t.sizeOf P b) &&& tlsfBlockSize
  let cpsize := if size > newSize then newSize else size
  let mem ← copyWords P.area (cpsize.toNat / 4) t.lists.mem ptrAux ptr
  let t ← freeEx P { t with lists := { t.lists with mem } } ptr
  return (ptrAux, t)

def reallocEx (P : Pool) (t : Tlsf) (ptr newSize : Word) : Option (Word × Tlsf) := do
  if ptr = 0#32 then
    if newSize ≠ 0#32 then mallocEx P t newSize else return (0#32, t)
  else if newSize = 0#32 then return (0#32, ← freeEx P t ptr)
  else
    let b := ptr - bhdrOverhead
    let tmpSize := (← t.sizeOf P b) &&& tlsfBlockSize
    let nextB := getNextBlock (b + 8#32) tmpSize
    let newSize := blockSize newSize
    let nextSize ← t.sizeOf P nextB
    if newSize ≤ tmpSize then shrink P t b nextB newSize tmpSize
    else if nextSize &&& freeBlock ≠ 0#32 ∧ newSize ≤ tmpSize + (nextSize &&& tlsfBlockSize) then
      grow P t b nextB newSize
    else move P t ptr b newSize

end Xmertl.Xtratum
