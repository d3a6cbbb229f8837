import Xmertl.Common.TlsfPool

/-!
# The memory allocator

`libc/tlsf.c`: a pool of blocks with boundary tags. Free blocks of less than 128 bytes have a
list for each size and one bitmap, larger ones a list for each class of sizes and bitmaps at
two levels. A block's header is 4 bytes and the link to the block before, which stands in the
last word of that one when it is free.
-/

namespace Xmertl.Partikle.MemoryPool

open TlsfPool

abbrev ListId := Fin 32 ⊕ (Fin 23 × Fin 32)

/-- `sb_array` and `matrix` are the heads of `lists`. -/
structure Tlsf where
  signature : Word
  sbBitmap : Word
  levels : Levels 23
  lists : FreeLists ListId

/-- `mem_pool` and `mem_pool_size`. -/
structure Pool where
  start : Nat
  size : Nat
  top : start + size ≤ 2 ^ 32

def Pool.area (P : Pool) : Area where
  lo := P.start + 3176
  hi := P.start + P.size
  above := by omega
  top := P.top

def tlsfSignature : Word := 0x2A59FA59#32

def smallBlock : Word := 128#32

def minBlockSize : Word := 12#32

def blockSize : Word := 0xFFFFFFFC#32

def freeBlock : Word := 1#32

def usedBlock : Word := 0#32

def prevFree : Word := 2#32

def prevState : Word := 2#32

def prevUsed : Word := 0#32

def bhdrOverhead : Word := 4#32

def sizeofTlsf : Word := 3176#32

def getNextBlock (addr r : Word) : Word := addr + r - 4#32

def roundupSize (r : Word) : Word := (r + 3#32) &&& ~~~3#32

def rounddownSize (r : Word) : Word := r &&& ~~~3#32

/-- The size of the block that `malloc_ex` looks for. -/
def requestSize (size : Word) : Word := if size < minBlockSize then minBlockSize else roundupSize size

-- ---------------------------------------------------------------------------
-- Classes of sizes
-- ---------------------------------------------------------------------------

/-- `bsfl`, or -1 where no bit is set. -/
def ffs (x : Word) : Int :=
  match x.first with
  | some i => i.val
  | none => -1

/-- `bsrl`, or -1 where no bit is set. -/
def fls (x : Word) : Int := if x = 0#32 then -1 else (x.toNat.log2 : Int)

def mappingSearch (r : Word) : Word × Int × Int :=
  let t := (1#32 <<< (fls r - 5).toNat) - 1#32
  let r := r + t
  let fl := fls r
  let sl := ((r >>> (fl - 5).toNat) - 32#32).toInt
  let r' := r &&& ~~~t
  if fl - 7 < 0 then (r', 0, 0) else (r', fl - 7, sl)

def mappingInsert (r : Word) : Int × Int :=
  let fl := fls r
  (fl - 7, ((r >>> (fl - 5).toNat) - 32#32).toInt)

def fliSb (r : Word) : Nat := (r >>> 2).toNat

-- ---------------------------------------------------------------------------
-- Free lists
-- ---------------------------------------------------------------------------

def findSuitableBlock (t : Tlsf) (fl sl : Int) : Option (Word × Int × Int) :=
  findIn ffs t.levels (fun c => t.lists.head (.inr c)) fl sl

/-- Where the request is not small, `*_fl` stays as it is and is not looked at. -/
def findSmallSuitableBlock (r : Word) (t : Tlsf) : Option (Word × Int) := do
  if r ≥ smallBlock then return (0#32, -1)
  let fl := ffs (t.sbBitmap &&& (BitVec.allOnes 32 <<< fliSb r))
  if fl > -1 then return (t.lists.head (.inl (← index 32 fl)), fl) else return (0#32, fl)

def extractBlockHdr (P : Pool) (t : Tlsf) (b : Word) (fl sl : Int) : Option Tlsf := do
  let c ← cell 23 fl sl
  let lists ← t.lists.extractHdr P.area (.inr c) b
  let levels := if lists.head (.inr c) ≠ 0#32 then t.levels else t.levels.clearSl c
  let lists ← lists.setFreePtr P.area b 0#32 0#32
  return { t with levels := levels.clearFl c.1, lists }

def extractSmallBlockHdr (P : Pool) (t : Tlsf) (b : Word) (fl : Int) : Option Tlsf := do
  let i ← index 32 fl
  let lists ← t.lists.extractHdr P.area (.inl i) b
  let sbBitmap := if lists.head (.inl i) ≠ 0#32 then t.sbBitmap else t.sbBitmap.clearBit i
  return { t with sbBitmap, lists }

def extractBlock (P : Pool) (t : Tlsf) (b : Word) (fl sl : Int) : Option Tlsf := do
  let c ← cell 23 fl sl
  let lists ← t.lists.extract P.area (.inr c) b
  let levels := if lists.head (.inr c) = 0#32 then t.levels.clearSl c else t.levels
  return { t with levels := levels.clearFl c.1, lists }

def insertBlock (P : Pool) (t : Tlsf) (b : Word) (fl sl : Int) : Option Tlsf := do
  let c ← cell 23 fl sl
  return { t with levels := t.levels.set c, lists := ← t.lists.insert P.area (.inr c) b }

def extractSmallBlock (P : Pool) (t : Tlsf) (b : Word) (fl : Int) : Option Tlsf := do
  let i ← index 32 fl
  let lists ← t.lists.extract P.area (.inl i) b
  let sbBitmap := if lists.head (.inl i) = 0#32 then t.sbBitmap.clearBit i else t.sbBitmap
  return { t with sbBitmap, lists }

def insertSmallBlock (P : Pool) (t : Tlsf) (b : Word) (fl : Int) : Option Tlsf := do
  let i ← index 32 fl
  return { t with
    sbBitmap := t.sbBitmap.setBit i, lists := ← t.lists.insert P.area (.inl i) b }

/-- `b->size`. -/
def Tlsf.sizeOf (t : Tlsf) (P : Pool) (b : Word) : Option Word := t.lists.size P.area b

def Tlsf.setSize (t : Tlsf) (P : Pool) (b v : Word) : Option Tlsf := do
  return { t with lists := ← t.lists.setSize P.area b v }

def Tlsf.setPrevHdr (t : Tlsf) (P : Pool) (b v : Word) : Option Tlsf := do
  return { t with lists := ← t.lists.setPrevHdr P.area b v }

def Tlsf.setFreePtr (t : Tlsf) (P : Pool) (b prev next : Word) : Option Tlsf := do
  return { t with lists := ← t.lists.setFreePtr P.area b prev next }

-- ---------------------------------------------------------------------------
-- The calls
-- ---------------------------------------------------------------------------

def initMemoryPool (P : Pool) (t : Tlsf) : Option (Word × Tlsf) := do
  let memPool := BitVec.ofNat 32 P.start
  let memPoolSize := BitVec.ofNat 32 P.size
  if memPool = 0#32 ∨ memPoolSize = 0#32 ∨ memPoolSize < sizeofTlsf + 128#32 then
    return (-1#32, t)
  if memPool &&& 3#32 ≠ 0#32 then return (-1#32, t)
  -- the memory of the pool behind the signature is cleared
  let t : Tlsf :=
    { signature := tlsfSignature
      sbBitmap := 0#32
      levels := { flBitmap := 0#32, slBitmap := fun _ => 0#32 }
      lists := { head := fun _ => 0#32, mem := fun _ => 0#32 } }
  let b := getNextBlock memPool sizeofTlsf
  let size := rounddownSize (memPoolSize - sizeofTlsf - 2#32 * bhdrOverhead)
  let t ← t.setSize P b (size ||| freeBlock ||| prevUsed)
  let t ← t.setFreePtr P b 0#32 0#32
  if (← t.sizeOf P b) > 1#32 <<< 30 then return (-1#32, t)
  let (fl, sl) := mappingInsert (← t.sizeOf P b)
  let t ← insertBlock P t b fl sl
  let lb := getNextBlock (b + 8#32) ((← t.sizeOf P b) &&& blockSize)
  let t ← t.setPrevHdr P lb b
  let t ← t.setSize P lb (0#32 ||| usedBlock ||| prevFree)
  return ((← t.sizeOf P b) &&& blockSize, t)

/-- The rest of a block behind `size` bytes goes on its list; `tmp_size` is an `int`. -/
def insertRest (P : Pool) (t : Tlsf) (b2 tmpSize : Word) : Option Tlsf := do
  if tmpSize.toInt < 128 then insertSmallBlock P t b2 (fliSb ((← t.sizeOf P b2) &&& blockSize))
  else
    let (fl, sl) := mappingInsert tmpSize
    insertBlock P t b2 fl sl

def splitFound (P : Pool) (t : Tlsf) (b nextB size tmpSize : Word) : Option Tlsf := do
  let b2 := getNextBlock (b + 8#32) size
  let t ← t.setSize P b2 (tmpSize ||| freeBlock ||| prevUsed)
  let t ← t.setPrevHdr P nextB b2
  let t ← insertRest P t b2 tmpSize
  t.setSize P b (size ||| ((← t.sizeOf P b) &&& prevState))

/-- What `malloc_ex` does from its label `found` on. -/
def found (P : Pool) (t : Tlsf) (b size : Word) : Option (Word × Tlsf) := do
  let bsize := (← t.sizeOf P b) &&& blockSize
  let nextB := getNextBlock (b + 8#32) bsize
  let tmpSize := bsize - size - bhdrOverhead
  let t ←
    if tmpSize.toInt ≥ 12 then splitFound P t b nextB size tmpSize
    else t.setSize P nextB ((← t.sizeOf P nextB) &&& ~~~prevFree)
  let t ← t.setSize P b ((← t.sizeOf P b) &&& ~~~freeBlock)
  return (b + 8#32, t)

def searchFrom (size : Word) : Word × Int × Int :=
  if size < 32#32 then (size, 0, 0) else mappingSearch size

def mallocEx (P : Pool) (t : Tlsf) (size : Word) : Option (Word × Tlsf) := do
  let size := requestSize size
  let (b, fl) ← findSmallSuitableBlock size t
  if b ≠ 0#32 then
    let t ← extractSmallBlockHdr P t b fl
    found P t b size
  else
    let (size, fl, sl) := searchFrom size
    let (b, fl, sl) ← findSuitableBlock t fl sl
    if b = 0#32 then return (0#32, t)
    let t ← extractBlockHdr P t b fl sl
    found P t b size

/-- In `free_ex`, a block goes from the list of its size. -/
def takeOff (P : Pool) (t : Tlsf) (b : Word) : Option Tlsf := do
  let size := (← t.sizeOf P b) &&& blockSize
  if size < smallBlock then extractSmallBlock P t b (fliSb size)
  else
    let (fl, sl) := mappingInsert size
    extractBlock P t b fl sl

/-- In `free_ex`, a block goes on the list of its size. -/
def putOn (P : Pool) (t : Tlsf) (b : Word) : Option Tlsf := do
  let size := (← t.sizeOf P b) &&& blockSize
  if size < smallBlock then insertSmallBlock P t b (fliSb size)
  else
    let (fl, sl) := mappingInsert size
    insertBlock P t b fl sl

/-- `free_ex` merges `b` with the block behind it. -/
def mergeNext (P : Pool) (t : Tlsf) (b : Word) : Option Tlsf := do
  let tmpB := getNextBlock (b + 8#32) ((← t.sizeOf P b) &&& blockSize)
  if (← t.sizeOf P tmpB) &&& freeBlock ≠ 0#32 then
    let t ← takeOff P t tmpB
    t.setSize P b ((← t.sizeOf P b) + (((← t.sizeOf P tmpB) &&& blockSize) + bhdrOverhead))
  else some t

/-- `free_ex` merges `b` with the block before it. -/
def mergePrev (P : Pool) (t : Tlsf) (b : Word) : Option (Word × Tlsf) := do
  if (← t.sizeOf P b) &&& prevFree ≠ 0#32 then
    let tmpB ← t.lists.prevHdr P.area b
    let t ← takeOff P t tmpB
    let size := (← t.sizeOf P tmpB) + (((← t.sizeOf P b) &&& blockSize) + bhdrOverhead)
    return (tmpB, ← t.setSize P tmpB size)
  else return (b, t)

def freeEx (P : Pool) (t : Tlsf) (ptr : Word) : Option Tlsf := do
  let b := ptr - 8#32
  let t ← t.setSize P b ((← t.sizeOf P b) ||| freeBlock)
  let t ← t.setFreePtr P b 0#32 0#32
  let t ← mergeNext P t b
  let (b, t) ← mergePrev P t b
  let t ← putOn P t b
  let tmpB := getNextBlock (b + 8#32) ((← t.sizeOf P b) &&& blockSize)
  let t ← t.setSize P tmpB ((← t.sizeOf P tmpB) ||| prevFree)
  t.setPrevHdr P tmpB b

end Xmertl.Partikle.MemoryPool
