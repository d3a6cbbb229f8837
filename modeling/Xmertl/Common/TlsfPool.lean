import Xmertl.Lib.Bitmap
import Xmertl.Lib.Returns
import Xmertl.Lib.ThreadedLists

/-!
# The pools of TLSF

What the `tlsf.c` of XtratuM and that of PaRTiKle share: words of 32 bits, a pool whose
blocks are read and written through pointers, free lists that run through the blocks, and
the bitmaps that say which of the lists are not empty. A function's result is `none` where
it reads or writes outside the part of the pool that holds the blocks, or an array outside
its bounds.
-/

namespace Xmertl.TlsfPool

open ThreadedLists TotalCorrectness

/-- A `size_t`, a `u32_t` or a pointer. -/
abbrev Word := BitVec 32

/-- The part of the pool behind its `tlsf_t`. -/
structure Area where
  lo : Nat
  hi : Nat
  above : 8 < lo
  top : hi ≤ 2 ^ 32

def Area.Has (A : Area) (a : Nat) : Prop := A.lo ≤ a ∧ a + 4 ≤ A.hi ∧ a % 4 = 0

instance (A : Area) (a : Nat) : Decidable (A.Has a) := inferInstanceAs (Decidable (_ ∧ _ ∧ _))

def Area.load (A : Area) (mem : Nat → Word) (p : Word) : Option Word :=
  if A.Has p.toNat then some (mem p.toNat) else none

def Area.store (A : Area) (mem : Nat → Word) (p v : Word) : Option (Nat → Word) :=
  if A.Has p.toNat then some (Function.update mem p.toNat v) else none

/-- The first blocks of the free lists, and the memory that the lists run through. -/
structure FreeLists (ι : Type) where
  head : ι → Word
  mem : Nat → Word

/-- The bitmaps of a matrix with `n` rows. -/
structure Levels (n : Nat) where
  flBitmap : Word
  slBitmap : Fin n → Word

/-- `nr & 0x1f`. -/
def bit (nr : Nat) : Fin 32 := ⟨nr % 32, Nat.mod_lt _ (by decide)⟩

def index (n : Nat) (i : Int) : Option (Fin n) :=
  if h : 0 ≤ i ∧ i.toNat < n then some ⟨i.toNat, h.2⟩ else none

def cell (n : Nat) (fl sl : Int) : Option (Fin n × Fin 32) := do
  return (← index n fl, ← index 32 sl)

section
variable {ι : Type} [DecidableEq ι] {n : Nat}

/-- `b->size`. -/
def FreeLists.size (A : Area) (w : FreeLists ι) (b : Word) : Option Word := A.load w.mem (b + 4)

def FreeLists.setSize (A : Area) (w : FreeLists ι) (b v : Word) : Option (FreeLists ι) := do
  return { w with mem := ← A.store w.mem (b + 4) v }

/-- `b->prev_hdr`. -/
def FreeLists.prevHdr (A : Area) (w : FreeLists ι) (b : Word) : Option Word := A.load w.mem b

def FreeLists.setPrevHdr (A : Area) (w : FreeLists ι) (b v : Word) : Option (FreeLists ι) := do
  return { w with mem := ← A.store w.mem b v }

/-- `b->ptr.free_ptr = (free_ptr_t) {prev, next}`. -/
def FreeLists.setFreePtr (A : Area) (w : FreeLists ι) (b prev next : Word) :
    Option (FreeLists ι) := do
  let mem ← A.store w.mem (b + 8) prev
  return { w with mem := ← A.store mem (b + 12) next }

/-- `if (q) q->ptr.free_ptr.prev = v`. -/
def Area.setPrev (A : Area) (mem : Nat → Word) (q v : Word) : Option (Nat → Word) :=
  if q ≠ 0#32 then A.store mem (q + 8) v else some mem

/-- `if (q) q->ptr.free_ptr.next = v`. -/
def Area.setNext (A : Area) (mem : Nat → Word) (q v : Word) : Option (Nat → Word) :=
  if q ≠ 0#32 then A.store mem (q + 12) v else some mem

def FreeLists.insert (A : Area) (w : FreeLists ι) (i : ι) (b : Word) : Option (FreeLists ι) := do
  let w ← w.setFreePtr A b 0#32 (w.head i)
  let mem ← A.setPrev w.mem (w.head i) b
  return { head := Function.update w.head i b, mem }

/-- What EXTRACT_BLOCK and EXTRACT_SMALL_BLOCK do to the list. -/
def FreeLists.extract (A : Area) (w : FreeLists ι) (i : ι) (b : Word) : Option (FreeLists ι) := do
  let mem ← A.setPrev w.mem (← A.load w.mem (b + 12)) (← A.load w.mem (b + 8))
  let mem ← A.setNext mem (← A.load mem (b + 8)) (← A.load mem (b + 12))
  let next ← A.load mem (b + 12)
  let head := if w.head i = b then Function.update w.head i next else w.head
  FreeLists.setFreePtr A { head, mem } b 0#32 0#32

/-- What EXTRACT_BLOCK_HDR and EXTRACT_SMALL_BLOCK_HDR do to the list. -/
def FreeLists.extractHdr (A : Area) (w : FreeLists ι) (i : ι) (b : Word) :
    Option (FreeLists ι) := do
  let next ← A.load w.mem (b + 12)
  let mem ← A.setPrev w.mem next 0#32
  return { head := Function.update w.head i next, mem }

def Levels.set (lv : Levels n) (c : Fin n × Fin 32) : Levels n where
  flBitmap := lv.flBitmap.setBit (bit c.1)
  slBitmap := Function.update lv.slBitmap c.1 ((lv.slBitmap c.1).setBit c.2)

/-- `clear_bit(sl, &sl_bitmap[fl])`. -/
def Levels.clearSl (lv : Levels n) (c : Fin n × Fin 32) : Levels n :=
  { lv with slBitmap := Function.update lv.slBitmap c.1 ((lv.slBitmap c.1).clearBit c.2) }

/-- `if (!sl_bitmap[fl]) clear_bit(fl, &fl_bitmap)`. -/
def Levels.clearFl (lv : Levels n) (fl : Fin n) : Levels n :=
  if lv.slBitmap fl = 0#32 then { lv with flBitmap := lv.flBitmap.clearBit (bit fl) } else lv

/-- FIND_SUITABLE_BLOCK, with the function that finds the first bit of a word. -/
def findIn (ls : Word → Int) (lv : Levels n) (matrix : Fin n × Fin 32 → Word) (fl sl : Int) :
    Option (Word × Int × Int) := do
  let row ← index n fl
  let tmp := lv.slBitmap row &&& (BitVec.allOnes 32 <<< sl.toNat)
  if tmp ≠ 0#32 then
    let sl := ls tmp
    return (matrix (← cell n fl sl), fl, sl)
  else
    let fl := ls (lv.flBitmap &&& (BitVec.allOnes 32 <<< (fl + 1).toNat))
    if fl > 0 then
      let row ← index n fl
      let sl := ls (lv.slBitmap row)
      return (matrix (← cell n fl sl), fl, sl)
    else return (0#32, fl, sl)

end

-- ---------------------------------------------------------------------------
-- Reads and writes inside the pool
-- ---------------------------------------------------------------------------

section
variable {A : Area} {mem : Nat → Word} {a : Nat} {v : Word}

theorem Area.Has.lt (h : A.Has a) : a < 2 ^ 32 := by
  have htop := A.top
  obtain ⟨-, hhi, -⟩ := h
  omega

theorem Area.Has.toNat (h : A.Has a) : (BitVec.ofNat 32 a).toNat = a := by
  simpa using Nat.mod_eq_of_lt h.lt

theorem load_ofNat (h : A.Has a) : A.load mem (BitVec.ofNat 32 a) = some (mem a) := by
  rw [Area.load, h.toNat, if_pos h]

theorem store_ofNat (h : A.Has a) :
    A.store mem (BitVec.ofNat 32 a) v = some (Function.update mem a v) := by
  rw [Area.store, h.toNat, if_pos h]

theorem store_outside (h : ¬A.Has a) (ha : a ≤ 2 ^ 32) :
    A.store mem (BitVec.ofNat 32 a) v = none := by
  refine if_neg fun hhas => ?_
  rw [BitVec.toNat_ofNat] at hhas
  rcases Nat.lt_or_eq_of_le ha with hlt | rfl
  · rw [Nat.mod_eq_of_lt hlt] at hhas
    exact h hhas
  · have habove := A.above
    obtain ⟨hlo, -⟩ := hhas
    omega

@[simp] theorem ofNat_add_four (a : Nat) : BitVec.ofNat 32 a + 4 = BitVec.ofNat 32 (a + 4) :=
  (BitVec.ofNat_add a 4).symm

@[simp] theorem ofNat_add_eight (a : Nat) : BitVec.ofNat 32 a + 8 = BitVec.ofNat 32 (a + 8) :=
  (BitVec.ofNat_add a 8).symm

@[simp] theorem ofNat_add_twelve (a : Nat) : BitVec.ofNat 32 a + 12 = BitVec.ofNat 32 (a + 12) :=
  (BitVec.ofNat_add a 12).symm

end

-- ---------------------------------------------------------------------------
-- The free lists
-- ---------------------------------------------------------------------------

/-- The free pointers of `S` lie in the pool and do not overlap. -/
structure Spaced (A : Area) (S : Set Nat) : Prop where
  has : ∀ x ∈ S, A.Has (x + 8) ∧ A.Has (x + 12)
  apart : ∀ x ∈ S, ∀ y ∈ S, x ≠ y → x + 16 ≤ y ∨ y + 16 ≤ x

section
variable {A : Area} {S : Set Nat} {ι : Type} {w : FreeLists ι} {L : ι → List Nat} {i : ι}
  {x y z : Nat} {xs : List Nat} {mem : Nat → Word} {q v : Word}

theorem Spaced.mono (h : Spaced A S) {T : Set Nat} (hT : T ⊆ S) : Spaced A T :=
  ⟨fun x hx => h.has x (hT hx), fun x hx y hy => h.apart x (hT hx) y (hT hy)⟩

theorem Spaced.toApart (h : Spaced A S) : Apart S where
  pos x hx := by
    have habove := A.above
    have hlo := (h.has x hx).1.1
    omega
  top x hx := by
    have htop := A.top
    have hhi := (h.has x hx).2.2.1
    omega
  apart := h.apart

theorem store_prev (hS : Spaced A S) (hq : ∀ y, ptr q = some y → y ∈ S) :
    A.setPrev mem q v = some (setPrevAt mem q v) := by
  cases hy : ptr q with
  | none => simp [Area.setPrev, ptr_eq_none.mp hy, setPrevAt]
  | some y =>
    have hhas := (hS.has y (hq y hy)).1
    have hne : q ≠ 0#32 := fun h => by simp [h] at hy
    obtain ⟨rfl, -, -⟩ := ptr_eq_some.mp hy
    rw [Area.setPrev, if_pos hne, setPrevAt, if_neg hne, toNat_of_ptr hy, ofNat_add_eight,
      store_ofNat hhas]

theorem store_next (hS : Spaced A S) (hq : ∀ y, ptr q = some y → y ∈ S) :
    A.setNext mem q v = some (setNextAt mem q v) := by
  cases hy : ptr q with
  | none => simp [Area.setNext, ptr_eq_none.mp hy, setNextAt]
  | some y =>
    have hhas := (hS.has y (hq y hy)).2
    have hne : q ≠ 0#32 := fun h => by simp [h] at hy
    obtain ⟨rfl, -, -⟩ := ptr_eq_some.mp hy
    rw [Area.setNext, if_pos hne, setNextAt, if_neg hne, toNat_of_ptr hy, ofNat_add_twelve,
      store_ofNat hhas]

theorem setFreePtr_eq (h8 : A.Has (x + 8)) (h12 : A.Has (x + 12)) {prev next : Word} :
    w.setFreePtr A (BitVec.ofNat 32 x) prev next =
      some { w with mem := writeNode w.mem x prev next } := by
  simp only [FreeLists.setFreePtr, ofNat_add_eight, ofNat_add_twelve, store_ofNat h8,
    store_ofNat h12, Option.bind_eq_bind, Option.bind_some, Option.pure_def, writeNode]

variable [DecidableEq ι]

theorem insert_eq (h : Threaded w.head w.mem L) (hS : Spaced A (insert x (Members L))) :
    w.insert A i (BitVec.ofNat 32 x) =
      some ⟨Function.update w.head i (BitVec.ofNat 32 x),
        setPrevAt (writeNode w.mem x 0#32 (w.head i)) (w.head i) (BitVec.ofNat 32 x)⟩ := by
  obtain ⟨h8, h12⟩ := hS.has x (Set.mem_insert _ _)
  have hhead : ∀ y, ptr (w.head i) = some y → y ∈ insert x (Members L) := fun y hy =>
    Set.mem_insert_of_mem _ ⟨i, h.head_mem hy⟩
  simp only [FreeLists.insert, setFreePtr_eq h8 h12, Option.bind_eq_bind, Option.bind_some,
    store_prev hS hhead, Option.pure_def]

theorem insert_spec (h : Threaded w.head w.mem L) (hx : ∀ j, x ∉ L j)
    (hS : Spaced A (insert x (Members L))) :
    Returns (w.insert A i (BitVec.ofNat 32 x)) fun w' =>
      Threaded w'.head w'.mem (Function.update L i (x :: L i)) ∧
        ∀ z, ¬LinkWord (insert x (Members L)) z → w'.mem z = w.mem z := by
  have hhead : ∀ y, ptr (w.head i) = some y → y ∈ insert x (Members L) := fun y hy =>
    Set.mem_insert_of_mem _ ⟨i, h.head_mem hy⟩
  refine ⟨_, insert_eq h hS, h.pushFront (i := i) hx hS.toApart, fun z hz => ?_⟩
  dsimp only
  rw [setPrevAt_frame hhead hz, writeNode_frame (Set.mem_insert _ _) hz]

omit [DecidableEq ι] in
theorem links_mem (h : Threaded w.head w.mem L) (hx : x ∈ L i) :
    (∀ y, ptr (w.mem (x + 8)) = some y → y ∈ Members L ∧ y ≠ x) ∧
      ∀ y, ptr (w.mem (x + 12)) = some y → y ∈ Members L ∧ y ≠ x :=
  ⟨fun y hy => ⟨⟨i, ((h.links hx).1 y hy).1⟩, ((h.links hx).1 y hy).2⟩,
    fun y hy => ⟨⟨i, ((h.links hx).2 y hy).1⟩, ((h.links hx).2 y hy).2⟩⟩

theorem extract_eq (h : Threaded w.head w.mem L) (hx : x ∈ L i) (hS : Spaced A (Members L)) :
    w.extract A i (BitVec.ofNat 32 x) =
      some ⟨if w.head i = BitVec.ofNat 32 x then Function.update w.head i (w.mem (x + 12))
        else w.head,
        writeNode (setNextAt (setPrevAt w.mem (w.mem (x + 12)) (w.mem (x + 8))) (w.mem (x + 8))
          (w.mem (x + 12))) x 0#32 0#32⟩ := by
  have hmem : x ∈ Members L := ⟨i, hx⟩
  have hA : Apart (insert x (Members L)) := by
    rw [Set.insert_eq_of_mem hmem]
    exact h.apart
  obtain ⟨h8, h12⟩ := hS.has x hmem
  obtain ⟨hprev, hnext⟩ := links_mem h hx
  simp only [FreeLists.extract, ofNat_add_eight, ofNat_add_twelve, load_ofNat h8,
    load_ofNat h12, Option.bind_eq_bind, Option.bind_some,
    store_prev hS fun y hy => (hnext y hy).1, setPrevAt_other hA hnext (.inl rfl),
    setPrevAt_other hA hnext (.inr rfl), store_next hS fun y hy => (hprev y hy).1,
    setNextAt_other hA hprev (.inr rfl), setFreePtr_eq h8 h12]

theorem extract_spec (h : Threaded w.head w.mem L) (hx : x ∈ L i) (hS : Spaced A (Members L)) :
    Returns (w.extract A i (BitVec.ofNat 32 x)) fun w' =>
      Threaded w'.head w'.mem (Function.update L i ((L i).erase x)) ∧
        ∀ z, ¬LinkWord (Members L) z → w'.mem z = w.mem z := by
  obtain ⟨hprev, hnext⟩ := links_mem h hx
  refine ⟨_, extract_eq h hx hS, h.unlink hx fun z h8 h12 => ?_, fun z hz => ?_⟩
  · dsimp only
    rw [writeNode, Function.update_of_ne h12, Function.update_of_ne h8]
  · dsimp only
    rw [writeNode_frame (Exists.intro i hx : x ∈ Members L) hz,
      setNextAt_frame (fun y hy => (hprev y hy).1) hz, setPrevAt_frame (fun y hy => (hnext y hy).1) hz]

theorem extractHdr_spec (h : Threaded w.head w.mem L) (hl : L i = x :: xs)
    (hS : Spaced A (Members L)) :
    Returns (w.extractHdr A i (BitVec.ofNat 32 x)) fun w' =>
      Threaded w'.head w'.mem (Function.update L i ((L i).erase x)) ∧
        ∀ z, ¬LinkWord (Members L) z → w'.mem z = w.mem z := by
  have hx : x ∈ L i := by rw [hl]; exact List.mem_cons_self
  obtain ⟨-, hnext⟩ := links_mem h hx
  obtain ⟨-, h12⟩ := hS.has x ⟨i, hx⟩
  have heq : w.extractHdr A i (BitVec.ofNat 32 x) =
      some ⟨Function.update w.head i (w.mem (x + 12)), setPrevAt w.mem (w.mem (x + 12)) 0#32⟩ := by
    simp only [FreeLists.extractHdr, ofNat_add_twelve, load_ofNat h12, Option.bind_eq_bind,
      Option.bind_some, store_prev hS fun y hy => (hnext y hy).1, Option.pure_def]
  rw [hl, List.erase_cons_head]
  exact ⟨_, heq, h.popFront hl fun z _ _ => rfl,
    fun z hz => setPrevAt_frame (fun y hy => (hnext y hy).1) hz⟩

end

-- ---------------------------------------------------------------------------
-- The bitmaps
-- ---------------------------------------------------------------------------

/-- The bitmaps are set where `full` says that a list is not empty. -/
structure Levels.Exact {n : Nat} (lv : Levels n) (full : Fin n × Fin 32 → Prop) : Prop where
  sl : ∀ c, (lv.slBitmap c.1).Has c.2 ↔ full c
  fl : ∀ k, lv.flBitmap.Has k ↔ ∃ i : Fin n, i.val = k.val ∧ ∃ j, full (i, j)

/-- `ls` gives a bit that is set, and -1 where none is. -/
structure FindsBit (ls : Word → Int) : Prop where
  zero : ls 0#32 = -1
  found : ∀ w ≠ 0#32, ∃ i : Fin 32, ls w = i.val ∧ w.Has i

section
variable {n : Nat} {lv : Levels n} {full full' : Fin n × Fin 32 → Prop} {c : Fin n × Fin 32}

theorem eq_bit (hn : n ≤ 32) (i : Fin n) {k : Fin 32} : k = bit i ↔ i.val = k.val := by
  have hi : i.val % 32 = i.val := Nat.mod_eq_of_lt (Nat.lt_of_lt_of_le i.isLt hn)
  simp only [Fin.ext_iff, bit, hi]
  exact eq_comm

theorem Levels.Exact.none : Levels.Exact (n := n) ⟨0#32, fun _ => 0#32⟩ fun _ => False :=
  ⟨fun _ => iff_of_false BitVec.has_zero id, fun _ => iff_of_false BitVec.has_zero fun ⟨_, _, _, h⟩ => h⟩

theorem Levels.Exact.congr (h : lv.Exact full) (hf : ∀ d, full' d ↔ full d) : lv.Exact full' :=
  ⟨fun d => (h.sl d).trans (hf d).symm, fun k => by simp [hf, h.fl]⟩

theorem Levels.Exact.set (h : lv.Exact full) (hn : n ≤ 32) (hf : ∀ d, full' d ↔ full d ∨ d = c) :
    (lv.set c).Exact full' where
  sl d := by
    by_cases hd : d.1 = c.1
    · simp [Levels.set, hd, hf, ← h.sl, Prod.ext_iff]
    · simp [Levels.set, hd, hf, ← h.sl, Prod.ext_iff]
  fl k := by
    simp only [Levels.set, BitVec.has_setBit, h.fl, eq_bit hn, hf]
    constructor
    · rintro (⟨i, hik, j, hj⟩ | he)
      · exact ⟨i, hik, j, .inl hj⟩
      · exact ⟨c.1, he, c.2, .inr rfl⟩
    · rintro ⟨i, hik, j, hj | rfl⟩
      · exact .inl ⟨i, hik, j, hj⟩
      · exact .inr hik

theorem Levels.Exact.clearFl_eq (h : lv.Exact full) (hc : full c) : lv.clearFl c.1 = lv := by
  rw [Levels.clearFl, if_neg]
  intro hz
  have hbit := (h.sl c).mpr hc
  rw [hz] at hbit
  exact BitVec.has_zero hbit

theorem Levels.Exact.clear (h : lv.Exact full) (hn : n ≤ 32)
    (hf : ∀ d, full' d ↔ full d ∧ d ≠ c) : ((lv.clearSl c).clearFl c.1).Exact full' := by
  have hsl : ∀ d, ((lv.clearSl c).slBitmap d.1).Has d.2 ↔ full' d := by
    intro d
    by_cases hd : d.1 = c.1
    · simp [Levels.clearSl, hd, hf, ← h.sl, Prod.ext_iff]
    · simp [Levels.clearSl, hd, hf, ← h.sl, Prod.ext_iff]
  have hzero : (lv.clearSl c).slBitmap c.1 = 0#32 ↔ ∀ j, ¬full' (c.1, j) := by
    rw [BitVec.eq_zero_iff]
    exact forall_congr' fun j => not_congr (hsl (c.1, j))
  have hother : ∀ i : Fin n, i ≠ c.1 → ((∃ j, full' (i, j)) ↔ ∃ j, full (i, j)) := fun i hi => by
    simp [hf, Prod.ext_iff, hi]
  rw [Levels.clearFl]
  split
  · -- the row is empty now
    rename_i hz
    refine ⟨hsl, fun k => ?_⟩
    simp only [BitVec.has_clearBit, Levels.clearSl, h.fl, ne_eq, eq_bit hn]
    constructor
    · rintro ⟨⟨i, hik, hi⟩, hk⟩
      exact ⟨i, hik, (hother i fun he => hk (he ▸ hik)).mpr hi⟩
    · rintro ⟨i, hik, j, hj⟩
      have hic : i ≠ c.1 := fun he => hzero.mp hz j (he ▸ hj)
      exact ⟨⟨i, hik, (hother i hic).mp ⟨j, hj⟩⟩, fun hk => hic (Fin.ext (hik.trans hk.symm))⟩
  · rename_i hz
    refine ⟨hsl, fun k => (h.fl k).trans ?_⟩
    constructor
    · rintro ⟨i, hik, hi⟩
      refine ⟨i, hik, ?_⟩
      by_cases hic : i = c.1
      · by_contra hnone
        exact hz (hzero.mpr (hic ▸ not_exists.mp hnone))
      · exact (hother i hic).mpr hi
    · rintro ⟨i, hik, j, hj⟩
      exact ⟨i, hik, j, ((hf _).mp hj).1⟩

theorem Levels.Exact.push {L : Fin n × Fin 32 → List Nat} {x : Nat}
    (h : lv.Exact fun d => L d ≠ []) (hn : n ≤ 32) :
    (lv.set c).Exact fun d => Function.update L c (x :: L c) d ≠ [] := by
  refine h.set (c := c) hn fun d => ?_
  by_cases hd : d = c
  · simp [hd]
  · simp [hd]

theorem Levels.Exact.erase {L : Fin n × Fin 32 → List Nat} {x : Nat}
    (h : lv.Exact fun d => L d ≠ []) (hn : n ≤ 32) (hx : x ∈ L c) {p : Prop} [Decidable p]
    (hp : p ↔ (L c).erase x = []) :
    (if p then (lv.clearSl c).clearFl c.1 else lv).Exact
      fun d => Function.update L c ((L c).erase x) d ≠ [] := by
  split
  · rename_i he
    refine h.clear hn fun d => ?_
    by_cases hd : d = c
    · simp [hd, hp.mp he]
    · simp [hd]
  · rename_i hne
    refine h.congr fun d => ?_
    by_cases hd : d = c
    · subst hd
      simp only [Function.update_self]
      exact ⟨fun _ => List.ne_nil_of_mem hx, fun _ he => hne (hp.mpr he)⟩
    · simp [hd]

theorem Levels.Exact.erase_always {L : Fin n × Fin 32 → List Nat} {x : Nat}
    (h : lv.Exact fun d => L d ≠ []) (hn : n ≤ 32) (hx : x ∈ L c) {p : Prop} [Decidable p]
    (hp : p ↔ (L c).erase x = []) :
    ((if p then lv.clearSl c else lv).clearFl c.1).Exact
      fun d => Function.update L c ((L c).erase x) d ≠ [] := by
  have he := h.erase hn hx hp
  split
  · rename_i hpos
    rwa [if_pos hpos] at he
  · rename_i hneg
    rw [if_neg hneg] at he
    rwa [he.clearFl_eq]
    rwa [Function.update_self, ne_eq, ← hp]

@[simp] theorem index_val (i : Fin n) : index n i.val = some i := by
  simp [index]

@[simp] theorem cell_val (c : Fin n × Fin 32) : cell n c.1.val c.2.val = some c := by
  simp [cell]

theorem has_from {w : Word} {k : Fin 32} {s : Nat} :
    (w &&& (BitVec.allOnes 32 <<< s)).Has k ↔ w.Has k ∧ s ≤ k.val := by
  rw [BitVec.has_and, BitVec.Has, BitVec.Has, BitVec.getLsbD_shiftLeft, BitVec.getLsbD_allOnes]
  have hk := k.isLt
  have hsub : k.val - s < 32 := by omega
  simp [hk, hsub]

/-- What is found is the first block of a list, in the class asked for or in a later one,
where there is such a list. -/
theorem findIn_spec {ls : Word → Int} {head : Fin n × Fin 32 → Word} (hls : FindsBit ls)
    (he : lv.Exact full) (hn : n ≤ 32) (fl : Fin n) (sl : Fin 32) :
    Returns (findIn ls lv head fl.val sl.val) fun r =>
      (r.1 = 0#32 ∧ ∀ c, full c → ¬(fl < c.1 ∨ fl = c.1 ∧ sl ≤ c.2)) ∨
      ∃ c, r = (head c, (c.1.val : Int), (c.2.val : Int)) ∧ full c ∧
        (fl < c.1 ∨ fl = c.1 ∧ sl ≤ c.2) := by
  simp only [findIn, index_val, Option.bind_eq_bind, Option.bind_some, Int.toNat_natCast]
  split
  · rename_i hne
    obtain ⟨k, hk, hbit⟩ := hls.found _ hne
    obtain ⟨hrow, hle⟩ := has_from.mp hbit
    rw [hk, cell_val (fl, k)]
    exact ⟨_, rfl, .inr ⟨(fl, k), rfl, (he.sl (fl, k)).mp hrow, .inr ⟨rfl, hle⟩⟩⟩
  · rename_i hrow
    by_cases hrows : lv.flBitmap &&& (BitVec.allOnes 32 <<< ((fl.val : Int) + 1).toNat) = 0#32
    · rw [hrows, hls.zero]
      refine ⟨_, rfl, .inl ⟨rfl, fun c hc hlater => ?_⟩⟩
      rcases hlater with hlt | ⟨rfl, hle⟩
      · have hbit := (he.fl ⟨c.1.val, Nat.lt_of_lt_of_le c.1.isLt hn⟩).mpr ⟨c.1, rfl, c.2, hc⟩
        have hfrom := has_from.mpr ⟨hbit, show ((fl.val : Int) + 1).toNat ≤ c.1.val by
          rw [Fin.lt_def] at hlt
          omega⟩
        rw [hrows] at hfrom
        exact BitVec.has_zero hfrom
      · have hfrom := has_from.mpr ⟨(he.sl c).mpr hc, hle⟩
        rw [not_not.mp hrow] at hfrom
        exact BitVec.has_zero hfrom
    · obtain ⟨r, hr, hbit⟩ := hls.found _ hrows
      obtain ⟨hfl, hle⟩ := has_from.mp hbit
      obtain ⟨i, hi, j, hj⟩ := (he.fl r).mp hfl
      have hlt : fl < i := by
        rw [Fin.lt_def]
        omega
      have hpos : (r.val : Int) > 0 := by omega
      have hrow : lv.slBitmap i ≠ 0#32 := BitVec.ne_zero_iff.mpr ⟨j, (he.sl (i, j)).mpr hj⟩
      obtain ⟨k, hk, hkbit⟩ := hls.found _ hrow
      rw [hr, if_pos hpos, ← hi, index_val, Option.bind_some, hk, cell_val (i, k)]
      exact ⟨_, rfl, .inr ⟨(i, k), rfl, (he.sl (i, k)).mp hkbit, .inl hlt⟩⟩

end

end Xmertl.TlsfPool
