import Xmertl.Lib.Spsc
import Xmertl.Xtratum.SerialFifo

/-!
# The serial ring between Linux and the serial domain

`rt_serial_user_write` of `luart.c` and `dom_serial_fifo_read` of the serial domain's
`serial.c` a statement at a time, each copy a byte at a time, in any order. One Linux
process at a time is past `wsem`. A step is `none` where a copy leaves the ring.
-/

namespace Xmertl.Xtratum

open RingBuffer Runs

/-- Where `linux_uart_write` is, with the variables of `rt_serial_user_write`. -/
inductive UserWritePc
  | idle
  | testFlag (src : Int → UInt8) (size : Int)
  | wsize (src : Int → UInt8) (size : Int)
  | testRoom (src : Int → UInt8) (size wsize : Int)
  | loadTop (src : Int → UInt8) (wsize : Int)
  | testSplit (src : Int → UInt8) (wsize top : Int)
  | copyFirst (src : Int → UInt8) (wsize top offset : Int) (i : Nat)
  | copySecond (src : Int → UInt8) (wsize offset : Int) (i : Nat)
  | copyAll (src : Int → UInt8) (wsize top : Int) (i : Nat)
  | setTop (src : Int → UInt8) (wsize : Int)

/-- Where `dom_serial_fifo_read` is; `dest` is what was copied so far. -/
inductive DomReadPc
  | idle
  | testFlag (size : Int)
  | rsize (size : Int)
  | clip (size rsize : Int)
  | loadBom (size rsize : Int)
  | nbom (size rsize bom : Int)
  | testSplit (size rsize bom nbom : Int)
  | copyFirst (size rsize bom nbom offset : Int) (dest : List UInt8)
  | copySecond (size rsize bom nbom offset : Int) (i : Nat) (dest : List UInt8)
  | copyAll (size rsize bom nbom : Int) (dest : List UInt8)
  | cas (size bom nbom : Int) (dest : List UInt8)

/-- The out ring, its writer and its reader, the bytes accepted and those returned. -/
structure SerialRace where
  ff : SerialFifo
  writer : UserWritePc
  reader : DomReadPc
  accepted : List UInt8
  returned : List UInt8

inductive SerialRaceAction
  /-- A process calls `linux_uart_write`, with what `copy_from_user` finds at `buff`. -/
  | userWrite (buff : Option (Int → UInt8)) (privateData : Bool) (size : Int)
  /-- The serial domain calls `dom_serial_fifo_read`. -/
  | domRead (df dest : Bool) (size : Int)
  /-- The next statement of the write, or the next byte of its copy. -/
  | writer
  | reader
  /-- The device's other functions change the flags. -/
  | setFlag (flag : Bitmap)

def SerialFifo.putByte (ff : SerialFifo) (place : Int) (b : UInt8) : Option SerialFifo :=
  if 0 ≤ place ∧ place < ff.size then some { ff with data := Function.update ff.data place b }
  else none

def SerialFifo.getByte (ff : SerialFifo) (place : Int) : Option UInt8 :=
  if 0 ≤ place ∧ place < ff.size then some (ff.data place) else none

namespace SerialRace

/-- A call is made where the one before has returned. -/
def userWrite (x : SerialRace) (buff : Option (Int → UInt8)) (privateData : Bool) (size : Int) :
    SerialRace :=
  match x.writer, buff with
  | .idle, some src => if privateData then { x with writer := .testFlag src (ulong size) } else x
  | _, _ => x

def domRead (x : SerialRace) (df dest : Bool) (size : Int) : SerialRace :=
  match x.reader with
  | .idle => if !df ∨ !dest ∨ size < 0 then x else { x with reader := .testFlag size }
  | _ => x

def writeStep (x : SerialRace) : Option SerialRace :=
  match x.writer with
  | .idle => some x
  | .testFlag src size =>
    if ¬x.ff.flag.Has rtSerialDomWrite then some { x with writer := .idle }
    else some { x with writer := .wsize src size }
  | .wsize src size =>
    some { x with
      writer := .testRoom src size ((long (x.ff.bom + x.ff.size - x.ff.top - 1)).tmod x.ff.size) }
  | .testRoom src size wsize =>
    if ulong wsize < size then some { x with writer := .idle }
    else some { x with writer := .loadTop src (long size) }
  | .loadTop src wsize => some { x with writer := .testSplit src wsize x.ff.top }
  | .testSplit src wsize top =>
    if x.ff.bom ≤ top ∧ x.ff.size - top < wsize then
      some { x with writer := .copyFirst src wsize top (x.ff.size - top) 0 }
    else some { x with writer := .copyAll src wsize top 0 }
  | .copyFirst src wsize top offset i =>
    if i < ulong offset then do
      return { x with
        ff := ← x.ff.putByte (top + i) (src i), writer := .copyFirst src wsize top offset (i + 1) }
    else some { x with writer := .copySecond src wsize offset 0 }
  | .copySecond src wsize offset i =>
    if i < ulong (wsize - offset) then do
      return { x with
        ff := ← x.ff.putByte i (src (offset + i)), writer := .copySecond src wsize offset (i + 1) }
    else some { x with writer := .setTop src wsize }
  | .copyAll src wsize top i =>
    if i < ulong wsize then do
      return { x with
        ff := ← x.ff.putByte (top + i) (src i), writer := .copyAll src wsize top (i + 1) }
    else some { x with writer := .setTop src wsize }
  | .setTop src wsize =>
    some { x with
      ff := { x.ff with top := (long (x.ff.top + wsize)).tmod x.ff.size }
      writer := .idle
      accepted := x.accepted ++ block src 0 wsize.toNat }

def readStep (x : SerialRace) : Option SerialRace :=
  match x.reader with
  | .idle => some x
  | .testFlag size =>
    if ¬x.ff.flag.Has rtSerialDomRead then some { x with reader := .idle }
    else some { x with reader := .rsize size }
  | .rsize size =>
    some { x with
      reader := .clip size ((long (x.ff.top + x.ff.size - x.ff.bom)).tmod x.ff.size) }
  | .clip size rsize =>
    some { x with reader := .loadBom size (if rsize > size then size else rsize) }
  | .loadBom size rsize => some { x with reader := .nbom size rsize x.ff.bom }
  | .nbom size rsize bom =>
    some { x with reader := .testSplit size rsize bom ((long (bom + rsize)).tmod x.ff.size) }
  | .testSplit size rsize bom nbom =>
    if x.ff.top < bom ∧ rsize > x.ff.size - bom then
      some { x with reader := .copyFirst size rsize bom nbom (x.ff.size - bom) [] }
    else some { x with reader := .copyAll size rsize bom nbom [] }
  | .copyFirst size rsize bom nbom offset dest =>
    if dest.length < ulong offset then do
      let b ← x.ff.getByte (bom + dest.length)
      return { x with reader := .copyFirst size rsize bom nbom offset (dest ++ [b]) }
    else some { x with reader := .copySecond size rsize bom nbom offset 0 dest }
  | .copySecond size rsize bom nbom offset i dest =>
    if i < ulong (rsize - offset) then do
      let b ← x.ff.getByte i
      return { x with reader := .copySecond size rsize bom nbom offset (i + 1) (dest ++ [b]) }
    else some { x with reader := .cas size bom nbom dest }
  | .copyAll size rsize bom nbom dest =>
    if dest.length < ulong rsize then do
      let b ← x.ff.getByte (bom + dest.length)
      return { x with reader := .copyAll size rsize bom nbom (dest ++ [b]) }
    else some { x with reader := .cas size bom nbom dest }
  | .cas size bom nbom dest =>
    if x.ff.bom = bom then
      some { x with
        ff := { x.ff with bom := nbom }, reader := .idle, returned := x.returned ++ dest }
    else some { x with reader := .rsize size }

def step (x : SerialRace) : SerialRaceAction → Option SerialRace
  | .userWrite buff privateData size => some (x.userWrite buff privateData size)
  | .domRead df dest size => some (x.domRead df dest size)
  | .writer => x.writeStep
  | .reader => x.readStep
  | .setFlag flag => some { x with ff := { x.ff with flag } }

/-- A ring after `xm_serial_mem_alloc`: a page less its head. -/
def start (flag : Bitmap) (data : Int → UInt8) : SerialRace where
  ff := { flag, top := 0, bom := 0, size := pageSize - 28, data }
  writer := .idle
  reader := .idle
  accepted := []
  returned := []

-- ---------------------------------------------------------------------------
-- The invariant
-- ---------------------------------------------------------------------------

def written : UserWritePc → List UInt8
  | .copyFirst src _ _ _ i | .copyAll src _ _ i => block src 0 i
  | .copySecond src _ offset i => block src 0 (offset.toNat + i)
  | .setTop src wsize => block src 0 wsize.toNat
  | _ => []

/-- `wsize` bytes fit into a ring of `s` places after the `n` accepted, `r` of which were
read: one place stays free. -/
def Fits (s : Int) (n r : Nat) (wsize : Int) : Prop := 0 ≤ wsize ∧ n + wsize < r + s

def WriterOk (s top : Int) (n r : Nat) : UserWritePc → Prop
  | .idle => True
  | .testFlag _ size | .wsize _ size => 0 ≤ size ∧ size < 4294967296
  | .testRoom _ size wsize => 0 ≤ size ∧ size < 4294967296 ∧ Fits s n r wsize
  | .loadTop _ wsize | .setTop _ wsize => Fits s n r wsize
  | .testSplit _ wsize top' => Fits s n r wsize ∧ top' = top
  | .copyFirst _ wsize top' offset i =>
    Fits s n r wsize ∧ top' = top ∧ offset = s - top ∧ offset < wsize ∧ i ≤ offset
  | .copySecond _ wsize offset i =>
    Fits s n r wsize ∧ offset = s - top ∧ offset < wsize ∧ offset + i ≤ wsize
  | .copyAll _ wsize top' i => Fits s n r wsize ∧ top' = top ∧ top + wsize ≤ s ∧ i ≤ wsize

/-- `rsize` of the bytes that are accepted and not yet read. -/
def Takes (accepted : List UInt8) (r : Nat) (rsize : Int) : Prop :=
  0 ≤ rsize ∧ r + rsize ≤ accepted.length

/-- `dest` are the next bytes to be read. -/
def Copied (accepted : List UInt8) (r : Nat) (dest : List UInt8) : Prop :=
  dest = (accepted.drop r).take dest.length

def ReaderOk (s bom : Int) (accepted : List UInt8) (r : Nat) : DomReadPc → Prop
  | .idle => True
  | .testFlag size | .rsize size => 0 ≤ size
  | .clip size rsize => 0 ≤ size ∧ Takes accepted r rsize
  | .loadBom _ rsize => Takes accepted r rsize
  | .nbom _ rsize bom' => Takes accepted r rsize ∧ bom' = bom
  | .testSplit _ rsize bom' nbom => Takes accepted r rsize ∧ bom' = bom ∧ nbom = (r + rsize) % s
  | .copyFirst _ rsize bom' nbom offset dest =>
    (Takes accepted r rsize ∧ bom' = bom ∧ nbom = (r + rsize) % s) ∧
    offset = s - bom ∧ offset < rsize ∧ dest.length ≤ offset ∧ Copied accepted r dest
  | .copySecond _ rsize bom' nbom offset i dest =>
    (Takes accepted r rsize ∧ bom' = bom ∧ nbom = (r + rsize) % s) ∧
    offset = s - bom ∧ dest.length = offset + i ∧ dest.length ≤ rsize ∧ Copied accepted r dest
  | .copyAll _ rsize bom' nbom dest =>
    (Takes accepted r rsize ∧ bom' = bom ∧ nbom = (r + rsize) % s) ∧
    bom + rsize ≤ s ∧ dest.length ≤ rsize ∧ Copied accepted r dest
  | .cas _ bom' nbom dest =>
    Takes accepted r dest.length ∧ bom' = bom ∧ nbom = (r + dest.length) % s ∧
    Copied accepted r dest

structure Inv (x : SerialRace) : Prop where
  size_pos : 0 < x.ff.size
  size_lt : x.ff.size < 1073741824
  top : x.ff.top = x.accepted.length % x.ff.size
  bom : x.ff.bom = x.returned.length % x.ff.size
  spare : x.accepted.length < x.returned.length + x.ff.size
  returned : x.returned <+: x.accepted
  queue : Spsc x.ff.data x.ff.size x.accepted x.returned.length (written x.writer)
  writer : WriterOk x.ff.size x.ff.top x.accepted.length x.returned.length x.writer
  reader : ReaderOk x.ff.size x.ff.bom x.accepted x.returned.length x.reader

theorem start_inv (flag : Bitmap) (data : Int → UInt8) : Inv (start flag data) where
  size_pos := by
    show 0 < pageSize - 28
    decide
  size_lt := by
    show pageSize - 28 < 1073741824
    decide
  top := rfl
  bom := rfl
  spare := by
    show 0 < 0 + (pageSize - 28)
    decide
  returned := List.prefix_rfl
  queue := .start data (Int.natCast_nonneg 4068)
  writer := trivial
  reader := trivial

section
variable {x y : SerialRace} {s top bom rsize wsize : Int} {n r : Nat} {accepted dest : List UInt8}

theorem Inv.inRange (h : Inv x) : x.ff.InRange where
  size_lt := by
    have hlt := h.size_lt
    omega
  bom := h.bom ▸ Int.emod_nonneg _ (Int.ne_of_gt h.size_pos)
  bom_lt := h.bom ▸ Int.emod_lt_of_pos _ h.size_pos
  top := h.top ▸ Int.emod_nonneg _ (Int.ne_of_gt h.size_pos)
  top_lt := h.top ▸ Int.emod_lt_of_pos _ h.size_pos

theorem Inv.used (h : Inv x) : x.ff.used = x.accepted.length - x.returned.length := by
  have hle := h.returned.length_le
  have hspare := h.spare
  rw [SerialFifo.used, h.top, h.bom, ← Int.sub_emod, Int.emod_eq_of_lt (by omega) (by omega)]

theorem Inv.contents (h : Inv x) : x.ff.contents = x.accepted.drop x.returned.length := by
  have hused : x.ff.used.toNat = x.accepted.length - x.returned.length := by
    have heq := h.used
    omega
  rw [SerialFifo.contents, hused, h.bom, contents_place]
  exact h.queue.waiting h.returned.length_le

-- ---------------------------------------------------------------------------
-- What the other side does
-- ---------------------------------------------------------------------------

theorem WriterOk.read {pc : UserWritePc} (h : WriterOk s top n r pc) (hle : r ≤ k) :
    WriterOk s top n k pc := by
  have hfits : ∀ m, Fits s n r m → Fits s n k m := fun m hm => ⟨hm.1, by have hlt := hm.2; omega⟩
  cases pc with
  | idle => trivial
  | testFlag | wsize => exact h
  | testRoom => exact ⟨h.1, h.2.1, hfits _ h.2.2⟩
  | loadTop | setTop => exact hfits _ h
  | testSplit | copyFirst | copySecond | copyAll => exact ⟨hfits _ h.1, h.2⟩

theorem Takes.more (h : Takes accepted r rsize) (more : List UInt8) :
    Takes (accepted ++ more) r rsize := by
  refine ⟨h.1, ?_⟩
  have hle := h.2
  rw [List.length_append]
  omega

theorem Copied.more (h : Copied accepted r dest) (hle : r + dest.length ≤ accepted.length)
    (more : List UInt8) : Copied (accepted ++ more) r dest := by
  unfold Copied at h ⊢
  rw [List.drop_append_of_le_length (by omega), List.take_append_of_le_length]
  · exact h
  · rw [List.length_drop]
    omega

theorem ReaderOk.more {pc : DomReadPc} (h : ReaderOk s bom accepted r pc) (more : List UInt8) :
    ReaderOk s bom (accepted ++ more) r pc := by
  have hcopied : ∀ m (dest : List UInt8), Takes accepted r m → dest.length ≤ m →
      Copied accepted r dest → Copied (accepted ++ more) r dest := by
    intro m dest ht hm hc
    have hle := ht.2
    exact hc.more (by omega) more
  cases pc with
  | idle | testFlag | rsize => exact h
  | clip => exact ⟨h.1, h.2.more more⟩
  | loadBom => exact Takes.more h more
  | nbom | testSplit => exact ⟨h.1.more more, h.2⟩
  | copyFirst =>
    obtain ⟨⟨ht, hrest⟩, hoff, hlt, hle, hc⟩ := h
    exact ⟨⟨ht.more more, hrest⟩, hoff, hlt, hle, hcopied _ _ ht (by omega) hc⟩
  | copySecond =>
    obtain ⟨⟨ht, hrest⟩, hoff, hlen, hle, hc⟩ := h
    exact ⟨⟨ht.more more, hrest⟩, hoff, hlen, hle, hcopied _ _ ht hle hc⟩
  | copyAll =>
    obtain ⟨⟨ht, hrest⟩, hfit, hle, hc⟩ := h
    exact ⟨⟨ht.more more, hrest⟩, hfit, hle, hcopied _ _ ht hle hc⟩
  | cas =>
    obtain ⟨ht, hbom, hnbom, hc⟩ := h
    exact ⟨ht.more more, hbom, hnbom, hcopied _ _ ht (le_refl _) hc⟩

-- ---------------------------------------------------------------------------
-- The writer
-- ---------------------------------------------------------------------------

theorem Inv.withWriter (h : Inv x) {pc : UserWritePc} (hpc : written pc = written x.writer)
    (hw : WriterOk x.ff.size x.ff.top x.accepted.length x.returned.length pc) :
    Inv { x with writer := pc } :=
  { h with queue := by rw [hpc]; exact h.queue, writer := hw }

theorem Inv.put (h : Inv x) {p : UserWritePc} {place : Int} {b : UInt8}
    (hplace : place = (x.accepted.length + (written x.writer).length : Int) % x.ff.size)
    (hfits : Fits x.ff.size x.accepted.length x.returned.length wsize)
    (hlt : ((written x.writer).length : Int) < wsize)
    (hpc : written p = written x.writer ++ [b])
    (hw : WriterOk x.ff.size x.ff.top x.accepted.length x.returned.length p) :
    ∃ ff, x.ff.putByte place b = some ff ∧ Inv { x with ff, writer := p } := by
  have hlo := Int.emod_nonneg (x.accepted.length + (written x.writer).length : Int)
    (Int.ne_of_gt h.size_pos)
  have hhi := Int.emod_lt_of_pos (x.accepted.length + (written x.writer).length : Int) h.size_pos
  refine ⟨_, if_pos ⟨by omega, by omega⟩, ?_⟩
  have hroom := hfits.2
  have hqueue := h.queue.put (by omega) b
  rw [← hplace, ← hpc] at hqueue
  exact { h with queue := hqueue, writer := hw }

theorem ulong_of_range {m : Int} (hlo : 0 ≤ m) (hhi : m < 4294967296) : ulong m = m :=
  Int.emod_eq_of_lt hlo hhi

theorem Fits.lt (hf : Fits s n r wsize) (hr : r ≤ n) : wsize < s := by
  have hlt := hf.2
  omega

theorem block_snoc (src : Int → UInt8) (i : Nat) :
    block src 0 (i + 1) = block src 0 i ++ [src i] := by
  rw [block_add, Int.zero_add]
  simp [block]

theorem Inv.copyFirst (h : Inv x) (hpc : x.writer = .copyFirst src wsize top offset i) :
    ∃ y, x.writeStep = some y ∧ Inv y := by
  have hw := h.writer
  rw [hpc] at hw
  obtain ⟨hfits, htop, hoffset, hlt, hi⟩ := hw
  have hrange := h.inRange
  have hsize := h.size_lt
  have htop0 := hrange.top
  have htop1 := hrange.top_lt
  have hwritten : written x.writer = block src 0 i := by rw [hpc]; rfl
  rw [writeStep, hpc]
  dsimp only
  rw [ulong_of_range (by omega) (by omega)]
  split
  · have hplace : top + i = (x.accepted.length + (written x.writer).length : Int) % x.ff.size := by
      rw [hwritten, block_length]
      exact place_of_lt h.size_pos (htop.trans h.top) (by omega) (by omega)
    obtain ⟨ff, hff, hinv⟩ := h.put (p := .copyFirst src wsize top offset (i + 1)) (b := src i)
      hplace hfits (by rw [hwritten, block_length]; omega) (by rw [hwritten]; exact block_snoc src i)
      ⟨hfits, htop, hoffset, hlt, by omega⟩
    rw [hff]
    exact ⟨_, rfl, hinv⟩
  · refine ⟨_, rfl, h.withWriter ?_ ⟨hfits, by omega, hlt, by omega⟩⟩
    have hoff : offset.toNat + 0 = i := by omega
    rw [hwritten, written, hoff]

theorem Inv.copySecond (h : Inv x) (hpc : x.writer = .copySecond src wsize offset i) :
    ∃ y, x.writeStep = some y ∧ Inv y := by
  have hw := h.writer
  rw [hpc] at hw
  obtain ⟨hfits, hoffset, hlt, hi⟩ := hw
  have hrange := h.inRange
  have hsize := h.size_lt
  have htop0 := hrange.top
  have htop1 := hrange.top_lt
  have hltsize := hfits.lt h.returned.length_le
  have hwritten : written x.writer = block src 0 (offset.toNat + i) := by rw [hpc]; rfl
  rw [writeStep, hpc]
  dsimp only
  rw [ulong_of_range (by omega) (by omega)]
  split
  · have hplace : (i : Int) = (x.accepted.length + (written x.writer).length : Int) % x.ff.size := by
      rw [hwritten, block_length, ← place_of_le h.size_pos h.top (by omega) (by omega)]
      omega
    have hsrc : src (offset + i) = src (offset.toNat + i : Nat) := by
      congr 1
      omega
    obtain ⟨ff, hff, hinv⟩ := h.put (p := .copySecond src wsize offset (i + 1))
      (b := src (offset + i)) hplace hfits (by rw [hwritten, block_length]; omega)
      (by rw [hwritten, hsrc]; exact block_snoc src _) ⟨hfits, hoffset, hlt, by omega⟩
    rw [hff]
    exact ⟨_, rfl, hinv⟩
  · refine ⟨_, rfl, h.withWriter ?_ hfits⟩
    have hoff : offset.toNat + i = wsize.toNat := by omega
    rw [hwritten, written, hoff]

theorem Inv.copyAll (h : Inv x) (hpc : x.writer = .copyAll src wsize top i) :
    ∃ y, x.writeStep = some y ∧ Inv y := by
  have hw := h.writer
  rw [hpc] at hw
  obtain ⟨hfits, htop, hfit, hi⟩ := hw
  have hrange := h.inRange
  have hsize := h.size_lt
  have htop0 := hrange.top
  have htop1 := hrange.top_lt
  have hltsize := hfits.lt h.returned.length_le
  have hwritten : written x.writer = block src 0 i := by rw [hpc]; rfl
  rw [writeStep, hpc]
  dsimp only
  rw [ulong_of_range (by omega) (by omega)]
  split
  · have hplace : top + i = (x.accepted.length + (written x.writer).length : Int) % x.ff.size := by
      rw [hwritten, block_length]
      exact place_of_lt h.size_pos (htop.trans h.top) (by omega) (by omega)
    obtain ⟨ff, hff, hinv⟩ := h.put (p := .copyAll src wsize top (i + 1)) (b := src i)
      hplace hfits (by rw [hwritten, block_length]; omega) (by rw [hwritten]; exact block_snoc src i)
      ⟨hfits, htop, hfit, by omega⟩
    rw [hff]
    exact ⟨_, rfl, hinv⟩
  · refine ⟨_, rfl, h.withWriter ?_ hfits⟩
    have hall : i = wsize.toNat := by omega
    rw [hwritten, written, hall]

theorem Inv.fits_straight (h : Inv x)
    (hfits : Fits x.ff.size x.accepted.length x.returned.length wsize)
    (hsplit : ¬(x.ff.bom ≤ x.ff.top ∧ x.ff.size - x.ff.top < wsize)) :
    x.ff.top + wsize ≤ x.ff.size := by
  have hroom := hfits.2
  have hused := h.used
  have hle := h.returned.length_le
  have hbom := h.inRange.bom_lt
  rcases h.inRange.used_cases with ⟨hcase, heq⟩ | ⟨hcase, heq⟩
  · by_contra hover
    exact hsplit ⟨hcase, by omega⟩
  · omega

theorem Inv.setTop (h : Inv x) (hpc : x.writer = .setTop src wsize) :
    ∃ y, x.writeStep = some y ∧ Inv y := by
  have hfits := h.writer
  have hqueue := h.queue.publish
  rw [hpc] at hfits hqueue
  have hrange := h.inRange
  have hsize := h.size_lt
  have htop0 := hrange.top
  have htop1 := hrange.top_lt
  have hlt := Fits.lt hfits h.returned.length_le
  have hwsize := hfits.1
  have hlength : (x.accepted ++ block src 0 wsize.toNat).length = x.accepted.length + wsize := by
    rw [List.length_append, block_length]
    omega
  have htop : (long (x.ff.top + wsize)).tmod x.ff.size
      = (x.accepted ++ block src 0 wsize.toNat).length % x.ff.size := by
    rw [hlength, long_eq (by omega) (by omega), Int.tmod_eq_emod_of_nonneg (by omega), h.top,
      Int.emod_add_emod]
  rw [writeStep, hpc]
  refine ⟨_, rfl, { h with
    top := htop, queue := hqueue, writer := trivial,
    returned := h.returned.trans (List.prefix_append _ _), reader := h.reader.more _,
    spare := ?_ }⟩
  have hroom := hfits.2
  show ((x.accepted ++ block src 0 wsize.toNat).length : Int) < x.returned.length + x.ff.size
  omega

theorem Inv.writeStep (h : Inv x) : ∃ y, x.writeStep = some y ∧ Inv y := by
  have hw := h.writer
  have hrange := h.inRange
  have hsize := h.size_lt
  cases hpc : x.writer with
  | copyFirst => exact h.copyFirst hpc
  | copySecond => exact h.copySecond hpc
  | copyAll => exact h.copyAll hpc
  | setTop => exact h.setTop hpc
  | idle =>
    rw [SerialRace.writeStep, hpc]
    exact ⟨x, rfl, h⟩
  | testFlag src size =>
    rw [hpc] at hw
    rw [SerialRace.writeStep, hpc]
    dsimp only
    split
    · exact ⟨_, rfl, h.withWriter (by rw [hpc]; rfl) trivial⟩
    · exact ⟨_, rfl, h.withWriter (by rw [hpc]; rfl) hw⟩
  | wsize src size =>
    rw [hpc] at hw
    rw [SerialRace.writeStep, hpc]
    dsimp only
    rw [hrange.freeSum (by have hbom := hrange.bom_lt; have htop := hrange.top; omega)]
    refine ⟨_, rfl, h.withWriter (by rw [hpc]; rfl) ⟨hw.1, hw.2, ?_⟩⟩
    have hused := h.used
    have hfree : x.ff.free = x.ff.size - 1 - x.ff.used := rfl
    have husedRange := hrange.used_range
    exact ⟨by omega, by omega⟩
  | testRoom src size wsize =>
    rw [hpc] at hw
    obtain ⟨hsize0, hsize1, hfits⟩ := hw
    have hlt := hfits.lt h.returned.length_le
    rw [SerialRace.writeStep, hpc]
    dsimp only
    rw [ulong_of_range hfits.1 (by omega)]
    split
    · exact ⟨_, rfl, h.withWriter (by rw [hpc]; rfl) trivial⟩
    · refine ⟨_, rfl, h.withWriter (by rw [hpc]; rfl) ?_⟩
      have hroom := hfits.2
      show Fits _ _ _ (long size)
      rw [long_eq (by omega) (by omega)]
      exact ⟨hsize0, by omega⟩
  | loadTop src wsize =>
    rw [hpc] at hw
    rw [SerialRace.writeStep, hpc]
    exact ⟨_, rfl, h.withWriter (by rw [hpc]; rfl) ⟨hw, rfl⟩⟩
  | testSplit src wsize top =>
    rw [hpc] at hw
    obtain ⟨hfits, rfl⟩ := hw
    rw [SerialRace.writeStep, hpc]
    dsimp only
    have htop1 := hrange.top_lt
    have hwsize := hfits.1
    split
    · rename_i hsplit
      exact ⟨_, rfl, h.withWriter (by rw [hpc]; rfl) ⟨hfits, rfl, rfl, hsplit.2, by omega⟩⟩
    · rename_i hsplit
      exact ⟨_, rfl, h.withWriter (by rw [hpc]; rfl)
        ⟨hfits, rfl, h.fits_straight hfits hsplit, by omega⟩⟩

-- ---------------------------------------------------------------------------
-- The reader
-- ---------------------------------------------------------------------------

theorem Inv.withReader (h : Inv x) {pc : DomReadPc}
    (hr : ReaderOk x.ff.size x.ff.bom x.accepted x.returned.length pc) :
    Inv { x with reader := pc } :=
  { h with reader := hr }

theorem Inv.get (h : Inv x) {place : Int}
    (hplace : place = (x.returned.length + dest.length : Int) % x.ff.size)
    (hc : Copied x.accepted x.returned.length dest)
    (hlt : x.returned.length + dest.length < x.accepted.length) :
    ∃ b, x.ff.getByte place = some b ∧ Copied x.accepted x.returned.length (dest ++ [b]) := by
  have hlo := Int.emod_nonneg (x.returned.length + dest.length : Int) (Int.ne_of_gt h.size_pos)
  have hhi := Int.emod_lt_of_pos (x.returned.length + dest.length : Int) h.size_pos
  refine ⟨_, if_pos ⟨by omega, by omega⟩, ?_⟩
  have hget := h.queue.get (Nat.le_add_right _ _) (List.getElem?_eq_getElem hlt)
  rw [Nat.cast_add, ← hplace] at hget
  unfold Copied at hc ⊢
  rw [List.length_append, List.length_singleton, List.take_add_one, ← hc, List.getElem?_drop,
    List.getElem?_eq_getElem hlt, hget]
  rfl

theorem Inv.readFirst (h : Inv x) (hpc : x.reader = .copyFirst size rsize bom nbom offset dest) :
    ∃ y, x.readStep = some y ∧ Inv y := by
  have hr := h.reader
  rw [hpc] at hr
  obtain ⟨⟨ht, hbom, hnbom⟩, hoffset, hlt, hle, hc⟩ := hr
  have hsize := h.size_lt
  have hrange := h.inRange
  have hbom0 := hrange.bom
  have hbom1 := hrange.bom_lt
  have htakes := ht.2
  rw [readStep, hpc]
  dsimp only
  rw [ulong_of_range (by omega) (by omega)]
  split
  · have hplace : bom + dest.length = (x.returned.length + dest.length : Int) % x.ff.size :=
      place_of_lt h.size_pos (hbom.trans h.bom) (by omega) (by omega)
    obtain ⟨b, hb, hcopied⟩ := h.get hplace hc (by omega)
    rw [hb]
    refine ⟨_, rfl, h.withReader ⟨⟨ht, hbom, hnbom⟩, hoffset, hlt, ?_, hcopied⟩⟩
    rw [List.length_append, List.length_singleton]
    omega
  · exact ⟨_, rfl, h.withReader ⟨⟨ht, hbom, hnbom⟩, hoffset, by omega, by omega, hc⟩⟩

theorem Inv.readSecond (h : Inv x)
    (hpc : x.reader = .copySecond size rsize bom nbom offset i dest) :
    ∃ y, x.readStep = some y ∧ Inv y := by
  have hr := h.reader
  rw [hpc] at hr
  obtain ⟨⟨ht, hbom, hnbom⟩, hoffset, hlength, hle, hc⟩ := hr
  have hsize := h.size_lt
  have hrange := h.inRange
  have hbom0 := hrange.bom
  have hbom1 := hrange.bom_lt
  have htakes := ht.2
  have hspare := h.spare
  rw [readStep, hpc]
  dsimp only
  rw [ulong_of_range (by omega) (by omega)]
  split
  · have hplace : (i : Int) = (x.returned.length + dest.length : Int) % x.ff.size := by
      rw [← place_of_le h.size_pos h.bom (by omega) (by omega)]
      omega
    obtain ⟨b, hb, hcopied⟩ := h.get hplace hc (by omega)
    rw [hb]
    refine ⟨_, rfl, h.withReader ⟨⟨ht, hbom, hnbom⟩, hoffset, ?_, ?_, hcopied⟩⟩ <;>
    · rw [List.length_append, List.length_singleton]
      omega
  · have hall : rsize = dest.length := by omega
    rw [hall] at ht hnbom
    exact ⟨_, rfl, h.withReader ⟨ht, hbom, hnbom, hc⟩⟩

theorem Inv.readAll (h : Inv x) (hpc : x.reader = .copyAll size rsize bom nbom dest) :
    ∃ y, x.readStep = some y ∧ Inv y := by
  have hr := h.reader
  rw [hpc] at hr
  obtain ⟨⟨ht, hbom, hnbom⟩, hfit, hle, hc⟩ := hr
  have hsize := h.size_lt
  have hrange := h.inRange
  have hbom0 := hrange.bom
  have htakes := ht.2
  rw [readStep, hpc]
  dsimp only
  rw [ulong_of_range ht.1 (by omega)]
  split
  · have hplace : bom + dest.length = (x.returned.length + dest.length : Int) % x.ff.size :=
      place_of_lt h.size_pos (hbom.trans h.bom) (by omega) (by omega)
    obtain ⟨b, hb, hcopied⟩ := h.get hplace hc (by omega)
    rw [hb]
    refine ⟨_, rfl, h.withReader ⟨⟨ht, hbom, hnbom⟩, hfit, ?_, hcopied⟩⟩
    rw [List.length_append, List.length_singleton]
    omega
  · have hall : rsize = dest.length := by omega
    rw [hall] at ht hnbom
    exact ⟨_, rfl, h.withReader ⟨ht, hbom, hnbom, hc⟩⟩

theorem Inv.cas (h : Inv x) (hpc : x.reader = .cas size bom nbom dest) :
    ∃ y, x.readStep = some y ∧ Inv y := by
  have hr := h.reader
  rw [hpc] at hr
  obtain ⟨ht, hbom, hnbom, hc⟩ := hr
  have htakes := ht.2
  have hlength : (x.returned ++ dest).length = x.returned.length + dest.length := List.length_append
  have hmore : x.returned.length ≤ (x.returned ++ dest).length := by omega
  have hprefix : x.returned ++ dest <+: x.accepted := by
    obtain ⟨rest, hrest⟩ := h.returned
    have hdest : dest <+: rest := by
      unfold Copied at hc
      rw [← hrest, List.drop_left] at hc
      rw [hc]
      exact List.take_prefix _ _
    rw [← hrest]
    exact (List.prefix_append_right_inj _).mpr hdest
  rw [readStep, hpc]
  dsimp only
  rw [if_pos hbom.symm]
  refine ⟨_, rfl, { h with
    bom := ?_, returned := hprefix, queue := h.queue.take hmore, writer := h.writer.read hmore,
    reader := trivial, spare := ?_ }⟩
  · show nbom = ((x.returned ++ dest).length : Int) % x.ff.size
    rw [hlength, hnbom, Nat.cast_add]
  · have hspare := h.spare
    show (x.accepted.length : Int) < (x.returned ++ dest).length + x.ff.size
    omega

theorem Inv.read_straight (h : Inv x) (ht : Takes x.accepted x.returned.length rsize)
    (hsplit : ¬(x.ff.top < x.ff.bom ∧ rsize > x.ff.size - x.ff.bom)) :
    x.ff.bom + rsize ≤ x.ff.size := by
  have htakes := ht.2
  have hused := h.used
  have htop := h.inRange.top_lt
  rcases h.inRange.used_cases with ⟨hcase, heq⟩ | ⟨hcase, heq⟩
  · omega
  · by_contra hover
    exact hsplit ⟨hcase, by omega⟩

theorem Inv.readStep (h : Inv x) : ∃ y, x.readStep = some y ∧ Inv y := by
  have hr := h.reader
  have hrange := h.inRange
  have hsize := h.size_lt
  cases hpc : x.reader with
  | copyFirst => exact h.readFirst hpc
  | copySecond => exact h.readSecond hpc
  | copyAll => exact h.readAll hpc
  | cas => exact h.cas hpc
  | idle =>
    rw [SerialRace.readStep, hpc]
    exact ⟨x, rfl, h⟩
  | testFlag size =>
    rw [hpc] at hr
    rw [SerialRace.readStep, hpc]
    dsimp only
    split
    · exact ⟨_, rfl, h.withReader trivial⟩
    · exact ⟨_, rfl, h.withReader hr⟩
  | rsize size =>
    rw [hpc] at hr
    rw [SerialRace.readStep, hpc]
    dsimp only
    rw [hrange.usedSum (by have htop := hrange.top_lt; have hbom := hrange.bom; omega)]
    refine ⟨_, rfl, h.withReader ⟨hr, hrange.used_range.1, ?_⟩⟩
    have hused := h.used
    omega
  | clip size rsize =>
    rw [hpc] at hr
    obtain ⟨hsize0, ht⟩ := hr
    have htakes := ht.2
    rw [SerialRace.readStep, hpc]
    dsimp only
    split
    · exact ⟨_, rfl, h.withReader ⟨hsize0, by omega⟩⟩
    · exact ⟨_, rfl, h.withReader ht⟩
  | loadBom size rsize =>
    rw [hpc] at hr
    rw [SerialRace.readStep, hpc]
    exact ⟨_, rfl, h.withReader ⟨hr, rfl⟩⟩
  | nbom size rsize bom =>
    rw [hpc] at hr
    obtain ⟨ht, rfl⟩ := hr
    have htakes := ht.2
    have hspare := h.spare
    have hbom0 := hrange.bom
    have hbom1 := hrange.bom_lt
    have hrsize := ht.1
    rw [SerialRace.readStep, hpc]
    dsimp only
    rw [long_eq (by omega) (by omega), Int.tmod_eq_emod_of_nonneg (by omega)]
    refine ⟨_, rfl, h.withReader ⟨ht, rfl, ?_⟩⟩
    rw [h.bom, Int.emod_add_emod]
  | testSplit size rsize bom nbom =>
    rw [hpc] at hr
    obtain ⟨ht, rfl, hnbom⟩ := hr
    have hbom1 := hrange.bom_lt
    have hrsize := ht.1
    rw [SerialRace.readStep, hpc]
    dsimp only
    split
    · rename_i hsplit
      exact ⟨_, rfl, h.withReader
        ⟨⟨ht, rfl, hnbom⟩, rfl, hsplit.2, by rw [List.length_nil]; omega, rfl⟩⟩
    · rename_i hsplit
      exact ⟨_, rfl, h.withReader
        ⟨⟨ht, rfl, hnbom⟩, h.read_straight ht hsplit, by rw [List.length_nil]; omega, rfl⟩⟩

-- ---------------------------------------------------------------------------
-- Runs
-- ---------------------------------------------------------------------------

theorem Inv.userWrite (h : Inv x) (buff : Option (Int → UInt8)) (privateData : Bool) (size : Int) :
    Inv (x.userWrite buff privateData size) := by
  unfold SerialRace.userWrite
  split
  · rename_i src hpc
    split
    · have hlo := Int.emod_nonneg size (b := 4294967296) (by decide)
      have hhi := Int.emod_lt_of_pos size (b := 4294967296) (by decide)
      exact h.withWriter (by rw [hpc]; rfl) ⟨hlo, hhi⟩
    · exact h
  · exact h

theorem Inv.domRead (h : Inv x) (df dest : Bool) (size : Int) : Inv (x.domRead df dest size) := by
  unfold SerialRace.domRead
  split
  · split
    · exact h
    · rename_i hargs
      refine h.withReader ?_
      show 0 ≤ size
      by_contra hneg
      exact hargs (.inr (.inr (by omega)))
  · exact h

theorem step_inv (h : Inv x) (a : SerialRaceAction) : ∃ y, step x a = some y ∧ Inv y := by
  cases a with
  | userWrite buff privateData size => exact ⟨_, rfl, h.userWrite buff privateData size⟩
  | domRead df dest size => exact ⟨_, rfl, h.domRead df dest size⟩
  | writer => exact h.writeStep
  | reader => exact h.readStep
  | setFlag flag => exact ⟨_, rfl, { h with }⟩

structure Leaves (x y : SerialRace) : Prop where
  returned : y.returned = x.returned
  size : y.ff.size = x.ff.size
  accepted : x.accepted <+: y.accepted

theorem Leaves.refl (x : SerialRace) (pc : UserWritePc) : Leaves x { x with writer := pc } :=
  ⟨rfl, rfl, List.prefix_rfl⟩

theorem putByte_leaves {pc : UserWritePc} {place : Int} {b : UInt8}
    (h : (x.ff.putByte place b).bind (fun ff => some { x with ff, writer := pc }) = some y) :
    Leaves x y := by
  obtain ⟨ff, hff, hy⟩ := Option.bind_eq_some_iff.mp h
  obtain ⟨-, hff⟩ := Option.ite_none_right_eq_some.mp hff
  rw [← Option.some.inj hy, ← Option.some.inj hff]
  exact ⟨rfl, rfl, List.prefix_rfl⟩

theorem writeStep_leaves (h : x.writeStep = some y) : Leaves x y := by
  unfold writeStep at h
  cases hpc : x.writer with
  | idle =>
    rw [hpc] at h
    rw [← Option.some.inj h]
    exact ⟨rfl, rfl, List.prefix_rfl⟩
  | wsize | loadTop =>
    rw [hpc] at h
    rw [← Option.some.inj h]
    exact .refl x _
  | setTop =>
    rw [hpc] at h
    rw [← Option.some.inj h]
    exact ⟨rfl, rfl, List.prefix_append _ _⟩
  | testFlag | testRoom | testSplit =>
    rw [hpc] at h
    dsimp only at h
    split at h <;>
    · rw [← Option.some.inj h]
      exact .refl x _
  | copyFirst | copySecond | copyAll =>
    rw [hpc] at h
    dsimp only at h
    split at h
    · exact putByte_leaves h
    · rw [← Option.some.inj h]
      exact .refl x _

theorem readStep_data (h : x.readStep = some y) : y.ff.data = x.ff.data := by
  unfold readStep at h
  cases hpc : x.reader with
  | idle | rsize | clip | loadBom | nbom =>
    rw [hpc] at h
    rw [← Option.some.inj h]
  | testFlag | testSplit | cas =>
    rw [hpc] at h
    dsimp only at h
    split at h <;> rw [← Option.some.inj h]
  | copyFirst | copySecond | copyAll =>
    rw [hpc] at h
    dsimp only at h
    split at h
    · obtain ⟨b, -, hy⟩ := Option.bind_eq_some_iff.mp h
      rw [← Option.some.inj hy]
    · rw [← Option.some.inj h]

theorem userWrite_ff (x : SerialRace) (buff : Option (Int → UInt8)) (privateData : Bool)
    (size : Int) : (x.userWrite buff privateData size).ff = x.ff := by
  unfold SerialRace.userWrite
  split
  · split <;> rfl
  · rfl

theorem domRead_ff (x : SerialRace) (df dest : Bool) (size : Int) :
    (x.domRead df dest size).ff = x.ff := by
  unfold SerialRace.domRead
  split
  · split <;> rfl
  · rfl

theorem Inv.unread (h : Inv x) (hs : step x a = some y) :
    RingBuffer.contents y.ff.data x.ff.size x.ff.bom x.ff.used.toNat = x.ff.contents := by
  cases a with
  | userWrite buff privateData size =>
    rw [← Option.some.inj hs, userWrite_ff]
    rfl
  | domRead df dest size =>
    rw [← Option.some.inj hs, domRead_ff]
    rfl
  | setFlag flag => rw [← Option.some.inj hs, SerialFifo.contents]
  | reader => rw [readStep_data hs, SerialFifo.contents]
  | writer =>
    have hl := writeStep_leaves hs
    obtain ⟨y', hy', hy⟩ := h.writeStep
    obtain rfl := Option.some.inj (hy'.symm.trans hs)
    have hqueue := hy.queue
    rw [hl.returned, hl.size] at hqueue
    rw [SerialFifo.contents, h.bom, contents_place, contents_place]
    refine block_congr fun i hi => ?_
    have hused := h.used
    have hlt : x.returned.length + i < x.accepted.length := by omega
    have hget := List.getElem?_eq_getElem hlt
    obtain ⟨more, hmore⟩ := hl.accepted
    have hget' : y'.accepted[x.returned.length + i]? = some x.accepted[x.returned.length + i] := by
      rw [← hmore, List.getElem?_append_left hlt]
      exact hget
    have heq := hqueue.get (Nat.le_add_right _ _) hget'
    rw [← h.queue.get (Nat.le_add_right _ _) hget, Nat.cast_add] at heq
    exact heq

theorem run_inv (hr : Run step (start flag data) tr z) (hx : Visited tr z x) : Inv x := by
  refine hr.invariant_visited (C := fun _ _ => True) (start_inv flag data) ?_
    (fun _ _ => trivial) hx
  intro x a y h _ hs
  obtain ⟨y', hy', hinv⟩ := step_inv h a
  obtain rfl := Option.some.inj (hy'.symm.trans hs)
  exact hinv

theorem serial_ring_in_order (hr : Run step (start flag data) tr z) :
    z.returned <+: z.accepted ∧
    (∀ x, Visited tr z x → x.ff.contents = x.accepted.drop x.returned.length) ∧
    (∀ e ∈ tr, ∀ y, step e.1 e.2 = some y →
      RingBuffer.contents y.ff.data e.1.ff.size e.1.ff.bom e.1.ff.used.toNat = e.1.ff.contents) ∧
    ∀ x, Visited tr z x → ∀ a, (step x a).isSome := by
  refine ⟨(run_inv hr .self).returned, fun x hx => (run_inv hr hx).contents, ?_, ?_⟩
  · intro e he y hy
    exact (run_inv hr (.pre he)).unread hy
  · intro x hx a
    obtain ⟨y, hy, -⟩ := step_inv (run_inv hr hx) a
    rw [hy]
    rfl

/-- A read of 2 bytes while a second write is under way. -/
theorem serial_ring_in_order_two : ∃ tr z,
    Run step (start (BitVec.setBit (BitVec.setBit 0 rtSerialDomWrite) rtSerialDomRead) fun _ => 0) tr z ∧
    z.returned = [0, 1] ∧ z.returned <+: z.accepted := by
  have hrun : (exec step
      (start (BitVec.setBit (BitVec.setBit 0 rtSerialDomWrite) rtSerialDomRead) fun _ => 0)
      ([.userWrite (some fun i => UInt8.ofNat i.toNat) true 3] ++ List.replicate 10 .writer ++
        [.userWrite (some fun i => UInt8.ofNat i.toNat) true 3, .domRead true true 2] ++
        (List.replicate 6 [SerialRaceAction.reader, .writer]).flatten ++
        List.replicate 4 .reader)).any
      fun r => decide (r.2.returned = [0, 1]) := by
    decide +kernel
  obtain ⟨tr, z, hr, hz⟩ := exec_any hrun
  exact ⟨tr, z, hr, of_decide_eq_true hz, (serial_ring_in_order hr).1⟩

end

end SerialRace

end Xmertl.Xtratum
