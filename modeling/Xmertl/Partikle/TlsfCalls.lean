import Xmertl.Common.TlsfUse
import Xmertl.Partikle.TlsfMapping

/-!
# Calls of the memory allocator

`malloc_ex` and `free_ex` on a pool whose words say what its blocks are.
-/

namespace Xmertl.Partikle.MemoryPool

open BoundaryTags SizeClasses ThreadedLists TlsfPool TotalCorrectness

/-- The bytes of the block that `init_memory_pool` makes. -/
def Pool.room (P : Pool) : Nat := (P.size - 3184) / 4 * 4

/-- A pool that `init_memory_pool` takes, whose block belongs in the matrix. -/
structure Pool.Usable (P : Pool) : Prop where
  aligned : 4 ∣ P.start
  large : 128 ≤ P.room
  small : P.room < 2 ^ 30

def Pool.geometry (P : Pool) (h : P.Usable) : Geometry where
  area := P.area
  overhead := 4
  first := P.start + 3172
  last := P.start + 3176 + P.room
  four_le := by decide
  dvd_overhead := by decide
  dvd_first := Nat.dvd_add h.aligned (by decide)
  lo_le := Nat.le_refl (P.start + 3176)
  le_hi := by
    have hlarge := h.large
    rw [Pool.room] at hlarge ⊢
    change P.start + 3176 + (P.size - 3184) / 4 * 4 + 8 ≤ P.start + P.size
    omega

/-- The bytes that a block for `n` bytes has behind its header. -/
def fitted (n : Nat) : Nat := max 12 ((n + 3) / 4 * 4)

structure Tlsf.Rep (t : Tlsf) (G : Geometry) (bs : List BoundaryTags.Block) (L : ListId → List Nat) :
    Prop where
  blocks : Blocks G cellOf t.lists bs L
  exact : t.Exact fun j => L j ≠ []

/-- The state of a pool where a call has made a hole. -/
structure Tlsf.Work (t : Tlsf) (G : Geometry) (us vs : List BoundaryTags.Block) (x y : Nat) (q : Bool)
    (L : ListId → List Nat) (e : Option (Nat × ListId)) (d : Nat → Word) : Prop where
  hole : Hole G cellOf t.lists us vs x y q L e d
  exact : t.Exact fun j => L j ≠ []

section
variable {P : Pool} {hP : P.Usable} {t t' : Tlsf} {us vs : List BoundaryTags.Block}
  {x y z a n k r s : Nat} {p q : Bool} {L : ListId → List Nat} {j : ListId} {i : Fin 32}
  {c : Fin 23 × Fin 32} {d : Nat → Word} {e : Option (Nat × ListId)} {v : Word}

theorem sizeOf_eq (h : P.area.Has (z + 4)) :
    t.sizeOf P (BitVec.ofNat 32 z) = some (t.lists.mem (z + 4)) := by
  rw [Tlsf.sizeOf, FreeLists.size, ofNat_add_four, load_ofNat h]

theorem setSize_eq (h : P.area.Has (z + 4)) : t.setSize P (BitVec.ofNat 32 z) v =
    some { t with lists := { t.lists with mem := Function.update t.lists.mem (z + 4) v } } := by
  simp only [Tlsf.setSize, FreeLists.setSize, ofNat_add_four, store_ofNat h, Option.bind_eq_bind,
    Option.bind_some, Option.pure_def]

theorem setPrevHdr_eq (h : P.area.Has z) : t.setPrevHdr P (BitVec.ofNat 32 z) v =
    some { t with lists := { t.lists with mem := Function.update t.lists.mem z v } } := by
  simp only [Tlsf.setPrevHdr, FreeLists.setPrevHdr, store_ofNat h, Option.bind_eq_bind,
    Option.bind_some, Option.pure_def]

theorem clearFreePtr_eq (h8 : P.area.Has (z + 8)) (h12 : P.area.Has (z + 12)) :
    t.setFreePtr P (BitVec.ofNat 32 z) 0#32 0#32 =
      some { t with lists := { t.lists with mem := writeNode t.lists.mem z 0#32 0#32 } } := by
  simp only [Tlsf.setFreePtr, setFreePtr_eq h8 h12, Option.bind_eq_bind, Option.bind_some,
    Option.pure_def]

theorem next_eq (z k : Nat) :
    getNextBlock (BitVec.ofNat 32 z + 8#32) (BitVec.ofNat 32 k) = BitVec.ofNat 32 (z + 4 + k) := by
  have hsum : z + 8 + k = z + 4 + k + 4 := by omega
  rw [getNextBlock, ← BitVec.ofNat_add, ← BitVec.ofNat_add, hsum, BitVec.ofNat_add,
    BitVec.add_sub_cancel]

variable (hP) in
theorem has_header (hd : 4 ∣ z) (hlo : (P.geometry hP).first ≤ z)
    (hhi : z ≤ (P.geometry hP).last) : P.area.Has (z + 4) :=
  (P.geometry hP).has (by omega) (by omega) (by omega)

theorem span_lt {w : FreeLists ListId} (h : Hole (P.geometry hP) cellOf w us vs x y q L e d) :
    y - x < 2 ^ 30 + 4 := by
  have hfirst := h.first_le
  have hlast := h.le_last
  have hsmall := hP.small
  simp only [Pool.geometry] at hfirst hlast
  omega

-- ---------------------------------------------------------------------------
-- Lists and bitmaps together
-- ---------------------------------------------------------------------------

theorem update_matrix {xs : List Nat} (d : Fin 23 × Fin 32) :
    Function.update L (.inr c) xs (.inr d) = Function.update (fun c => L (.inr c)) c xs d :=
  congrFun (Function.update_comp_eq_of_injective L Sum.inr_injective c xs) d

theorem Tlsf.Exact.eraseSmall {w : FreeLists ListId} (h : t.Exact fun j => L j ≠ [])
    (hz : z ∈ L (.inl i)) {p : Prop} [Decidable p] (hp : p ↔ (L (.inl i)).erase z = []) :
    Tlsf.Exact
      { t with sbBitmap := if p then t.sbBitmap.clearBit i else t.sbBitmap, lists := w }
      fun j => Function.update L (.inl i) ((L (.inl i)).erase z) j ≠ [] where
  sb k := by
    by_cases hk : k = i
    · subst hk
      rw [Function.update_self, ne_eq, ← hp]
      split
      · rename_i hpos
        simp [hpos]
      · rename_i hneg
        simp only [hneg, not_false_eq_true, iff_true, h.sb]
        exact List.ne_nil_of_mem hz
    · have hne : (Sum.inl k : ListId) ≠ .inl i := fun he => hk (Sum.inl.inj he)
      rw [Function.update_of_ne hne, ← h.sb]
      split
      · simp [hk]
      · rfl
  levels := by simpa using h.levels

theorem Tlsf.Exact.eraseLarge {w : FreeLists ListId} (h : t.Exact fun j => L j ≠ [])
    (hz : z ∈ L (.inr c)) {p : Prop} [Decidable p] (hp : p ↔ (L (.inr c)).erase z = []) :
    Tlsf.Exact
      { t with levels := (if p then t.levels.clearSl c else t.levels).clearFl c.1, lists := w }
      fun j => Function.update L (.inr c) ((L (.inr c)).erase z) j ≠ [] where
  sb k := by simpa using h.sb k
  levels := by
    refine (h.levels.erase_always (by decide) hz hp).congr fun d => ?_
    rw [update_matrix]

theorem Tlsf.Exact.pushSmall {w : FreeLists ListId} (h : t.Exact fun j => L j ≠ []) :
    Tlsf.Exact { t with sbBitmap := t.sbBitmap.setBit i, lists := w }
      fun j => Function.update L (.inl i) (z :: L (.inl i)) j ≠ [] where
  sb k := by
    by_cases hk : k = i
    · simp [hk]
    · have hne : (Sum.inl k : ListId) ≠ .inl i := fun he => hk (Sum.inl.inj he)
      simp [hk, hne, h.sb]
  levels := by simpa using h.levels

theorem Tlsf.Exact.pushLarge {w : FreeLists ListId} (h : t.Exact fun j => L j ≠ []) :
    Tlsf.Exact { t with levels := t.levels.set c, lists := w }
      fun j => Function.update L (.inr c) (z :: L (.inr c)) j ≠ [] where
  sb k := by simpa using h.sb k
  levels := by
    refine (h.levels.push (c := c) (x := z) (by decide)).congr fun d => ?_
    rw [update_matrix]

theorem head_nil {w : FreeLists ListId} {xs : List Nat}
    (h : Threaded w.head w.mem (Function.update L j xs)) : w.head j = 0#32 ↔ xs = [] := by
  rw [h.nil_iff, Function.update_self]

section
variable {Q : FreeLists ListId → Prop} {w size : Word} {fl sl : Int}

theorem extractSmallBlock_returns (hi : index 32 fl = some i) (hz : z ∈ L (.inl i))
    (he : t.Exact fun j => L j ≠ [])
    (h : Returns (t.lists.extract P.area (.inl i) (BitVec.ofNat 32 z)) fun w =>
      Threaded w.head w.mem (Function.update L (.inl i) ((L (.inl i)).erase z)) ∧ Q w) :
    Returns (extractSmallBlock P t (BitVec.ofNat 32 z) fl) fun t' => Q t'.lists ∧
      t'.Exact fun d => Function.update L (.inl i) ((L (.inl i)).erase z) d ≠ [] :=
  Returns.bind_eq hi (h.bind fun _ ⟨hw, hq⟩ => .pure ⟨hq, he.eraseSmall hz (head_nil hw)⟩)

theorem extractBlock_returns (hc : cell 23 fl sl = some c) (hz : z ∈ L (.inr c))
    (he : t.Exact fun j => L j ≠ [])
    (h : Returns (t.lists.extract P.area (.inr c) (BitVec.ofNat 32 z)) fun w =>
      Threaded w.head w.mem (Function.update L (.inr c) ((L (.inr c)).erase z)) ∧ Q w) :
    Returns (extractBlock P t (BitVec.ofNat 32 z) fl sl) fun t' => Q t'.lists ∧
      t'.Exact fun d => Function.update L (.inr c) ((L (.inr c)).erase z) d ≠ [] :=
  Returns.bind_eq hc (h.bind fun _ ⟨hw, hq⟩ => .pure ⟨hq, he.eraseLarge hz (head_nil hw)⟩)

theorem takeOff_returns (hw : t.sizeOf P (BitVec.ofNat 32 z) = some w) (hs : w &&& blockSize = size)
    (hj : listOf size = some j) (hz : z ∈ L j) (he : t.Exact fun j => L j ≠ [])
    (h : Returns (t.lists.extract P.area j (BitVec.ofNat 32 z)) fun w =>
      Threaded w.head w.mem (Function.update L j ((L j).erase z)) ∧ Q w) :
    Returns (takeOff P t (BitVec.ofNat 32 z)) fun t' => Q t'.lists ∧
      t'.Exact fun d => Function.update L j ((L j).erase z) d ≠ [] := by
  refine Returns.bind_eq hw ?_
  rw [hs]
  rcases listOf_cases hj with ⟨hlt, i, hi, rfl⟩ | ⟨hge, c, hc, rfl⟩
  · rw [if_pos hlt]
    exact extractSmallBlock_returns hi hz he h
  · rw [if_neg hge]
    exact extractBlock_returns hc hz he h

theorem extractSmallBlockHdr_returns (hz : z ∈ L (.inl i)) (he : t.Exact fun j => L j ≠ [])
    (h : Returns (t.lists.extractHdr P.area (.inl i) (BitVec.ofNat 32 z)) fun w =>
      Threaded w.head w.mem (Function.update L (.inl i) ((L (.inl i)).erase z)) ∧ Q w) :
    Returns (extractSmallBlockHdr P t (BitVec.ofNat 32 z) i.val) fun t' => Q t'.lists ∧
      t'.Exact fun d => Function.update L (.inl i) ((L (.inl i)).erase z) d ≠ [] := by
  refine Returns.bind_eq (index_val i) (h.bind fun w ⟨hw, hq⟩ => .pure ⟨hq, ?_⟩)
  simpa only [ite_not] using he.eraseSmall hz (head_nil hw)

theorem extractBlockHdr_returns (hz : z ∈ L (.inr c)) (h8 : P.area.Has (z + 8))
    (h12 : P.area.Has (z + 12)) (he : t.Exact fun j => L j ≠ [])
    (h : Returns (t.lists.extractHdr P.area (.inr c) (BitVec.ofNat 32 z)) fun w =>
      Threaded w.head w.mem (Function.update L (.inr c) ((L (.inr c)).erase z)) ∧
        Q { w with mem := writeNode w.mem z 0#32 0#32 }) :
    Returns (extractBlockHdr P t (BitVec.ofNat 32 z) c.1.val c.2.val) fun t' => Q t'.lists ∧
      t'.Exact fun d => Function.update L (.inr c) ((L (.inr c)).erase z) d ≠ [] := by
  refine Returns.bind_eq (cell_val c) (h.bind fun w ⟨hw, hq⟩ => ?_)
  refine Returns.bind_eq (setFreePtr_eq h8 h12) (.pure ⟨hq, ?_⟩)
  simpa only [ite_not] using he.eraseLarge hz (head_nil hw)

theorem insertSmallBlock_returns (hi : index 32 fl = some i) (he : t.Exact fun j => L j ≠ [])
    (h : Returns (t.lists.insert P.area (.inl i) (BitVec.ofNat 32 z)) Q) :
    Returns (insertSmallBlock P t (BitVec.ofNat 32 z) fl) fun t' => Q t'.lists ∧
      t'.Exact fun d => Function.update L (.inl i) (z :: L (.inl i)) d ≠ [] :=
  Returns.bind_eq hi (h.bind fun _ hw => .pure ⟨hw, he.pushSmall⟩)

theorem insertBlock_returns (hc : cell 23 fl sl = some c) (he : t.Exact fun j => L j ≠ [])
    (h : Returns (t.lists.insert P.area (.inr c) (BitVec.ofNat 32 z)) Q) :
    Returns (insertBlock P t (BitVec.ofNat 32 z) fl sl) fun t' => Q t'.lists ∧
      t'.Exact fun d => Function.update L (.inr c) (z :: L (.inr c)) d ≠ [] :=
  Returns.bind_eq hc (h.bind fun _ hw => .pure ⟨hw, he.pushLarge⟩)

theorem putOn_returns (hw : t.sizeOf P (BitVec.ofNat 32 z) = some w) (hs : w &&& blockSize = size)
    (hj : listOf size = some j) (he : t.Exact fun j => L j ≠ [])
    (h : Returns (t.lists.insert P.area j (BitVec.ofNat 32 z)) Q) :
    Returns (putOn P t (BitVec.ofNat 32 z)) fun t' => Q t'.lists ∧
      t'.Exact fun d => Function.update L j (z :: L j) d ≠ [] := by
  refine Returns.bind_eq hw ?_
  rw [hs]
  rcases listOf_cases hj with ⟨hlt, i, hi, rfl⟩ | ⟨hge, c, hc, rfl⟩
  · rw [if_pos hlt]
    exact insertSmallBlock_returns hi he h
  · rw [if_neg hge]
    exact insertBlock_returns hc he h

theorem insertRest_returns (hs31 : s < 2 ^ 31) (hw : t.sizeOf P (BitVec.ofNat 32 z) = some w)
    (hs : w &&& blockSize = BitVec.ofNat 32 s) (hj : listOf (BitVec.ofNat 32 s) = some j)
    (he : t.Exact fun j => L j ≠ [])
    (h : Returns (t.lists.insert P.area j (BitVec.ofNat 32 z)) Q) :
    Returns (insertRest P t (BitVec.ofNat 32 z) (BitVec.ofNat 32 s)) fun t' => Q t'.lists ∧
      t'.Exact fun d => Function.update L j (z :: L j) d ≠ [] := by
  rw [insertRest, toInt_ofNat hs31]
  have hsmall := lt_smallBlock (s := s) (by omega)
  rcases listOf_cases hj with ⟨hlt, i, hi, rfl⟩ | ⟨hge, c, hc, rfl⟩
  · have hlt' := hsmall.mp hlt
    rw [if_pos (by omega)]
    refine Returns.bind_eq hw ?_
    rw [hs]
    exact insertSmallBlock_returns hi he h
  · have hge' := mt hsmall.mpr hge
    rw [if_neg (by omega)]
    exact insertBlock_returns hc he h

end

-- ---------------------------------------------------------------------------
-- Work on a hole
-- ---------------------------------------------------------------------------

theorem Tlsf.Work.cell_exists {b : BoundaryTags.Block} (h : t.Work (P.geometry hP) us vs x y q L e d)
    (hb : Around (P.geometry hP) us vs y z b) : ∃ j, cellOf b.span = some j := by
  have hbound := h.hole.around_bounds hb
  have hfirst := h.hole.first_le
  have hlast := h.hole.le_last
  have hle := h.hole.le
  have hsmall := hP.small
  simp only [Pool.geometry] at hbound hfirst hlast
  exact listOf_exists (by omega)

theorem Tlsf.Work.takeOffNext (h : t.Work (P.geometry hP) us (⟨k, true⟩ :: vs) x y q L none d) :
    Returns (takeOff P t (BitVec.ofNat 32 y)) fun t' => ∃ L',
      t'.Work (P.geometry hP) us vs x (y + k) true L' none d ∧
      ∀ a, x ≤ a → a < y + 8 → t'.lists.mem a = t.lists.mem a := by
  obtain ⟨j, hj⟩ := h.cell_exists (.inr List.mem_cons_self)
  have hfit : Fits ⟨k, true⟩ := h.hole.fits _ (by simp)
  have hfirst := h.hole.first_le
  have hle := h.hole.le
  have htag : t.lists.mem (y + 4) = word (k - 4) true q := h.hole.right.1
  have hsize := sizeOf_eq (t := t) (has_header hP h.hole.dvd (by omega) h.hole.le_last)
  have hy : y ∈ L j := (h.hole.listed j y).mpr (.inl ⟨k, .inr List.mem_cons_self, hj⟩)
  have h4 : 4 ∣ k - 4 := Nat.dvd_sub hfit.2 (by decide)
  rw [htag] at hsize
  have hex := h.hole.extractNext hj
  refine (takeOff_returns hsize (word_size h4) hj hy h.exact
    (hex.mono fun w hw => ⟨hw.1.threaded, hw⟩)).mono fun t' ⟨⟨hhole, hmem⟩, hexact⟩ => ?_
  exact ⟨_, ⟨hhole, hexact⟩, hmem⟩

theorem Tlsf.Work.takeOffPrev
    (h : t.Work (P.geometry hP) (us ++ [⟨k, true⟩]) vs x y q L none d)
    (hz : z = stop (P.geometry hP).first us) :
    Returns (takeOff P t (BitVec.ofNat 32 z)) fun t' => ∃ L',
      t'.Work (P.geometry hP) us vs z y q L' none d ∧
      t'.lists.mem (z + 4) = word (k - 4) true (lastFree false us) ∧
      ∀ a, x ≤ a → a < y + 8 → t'.lists.mem a = t.lists.mem a := by
  have hat : Around (P.geometry hP) (us ++ [⟨k, true⟩]) vs y z ⟨k, true⟩ := by
    rw [hz]
    exact .inl placed_middle
  obtain ⟨j, hj⟩ := h.cell_exists hat
  have hfit : Fits ⟨k, true⟩ := h.hole.around_fits hat
  have hd := h.hole.around_dvd hat
  have hbound := h.hole.around_bounds hat
  have hlast := h.hole.le_last
  have hfirst := h.hole.first_le
  have hle := h.hole.le
  simp only at hbound
  have htag : t.lists.mem (z + 4) = word (k - 4) true (lastFree false us) := by
    have hl := h.hole.left
    rw [hz]
    exact Laid.tag_at hl
  have hsize := sizeOf_eq (t := t) (has_header hP hd (by omega) (by omega))
  have hmem : z ∈ L j := (h.hole.listed j z).mpr (.inl ⟨k, hat, hj⟩)
  have h4 : 4 ∣ k - 4 := Nat.dvd_sub hfit.2 (by decide)
  rw [htag] at hsize
  have hex := h.hole.extractPrev hz hj
  refine (takeOff_returns hsize (word_size h4) hj hmem h.exact
    (hex.mono fun w hw => ⟨hw.1.threaded, hw⟩)).mono fun t' ⟨⟨hhole, htag', hm⟩, hexact⟩ => ?_
  exact ⟨_, ⟨hhole, hexact⟩, htag', hm⟩

/-- A block of `k` bytes with its header goes on its list, by whatever puts it there. -/
theorem Tlsf.Work.enter {op : Option Tlsf} (h : t.Work (P.geometry hP) us vs x y q L none d)
    (hlo : x ≤ z) (hhi : z + k ≤ y) (hd : 4 ∣ z) (hk : 16 ≤ k)
    (hop : ∀ {j : ListId} {Q : FreeLists ListId → Prop}, cellOf k = some j →
      Returns (t.lists.insert P.area j (BitVec.ofNat 32 z)) Q →
      Returns op fun t' => Q t'.lists ∧ t'.Exact fun d => Function.update L j (z :: L j) d ≠ []) :
    ∃ j, cellOf k = some j ∧ Returns op fun t' => ∃ L',
      t'.Work (P.geometry hP) us vs x y q L' (some (z, j)) d ∧
      ∀ a, x ≤ a → a < y + 8 → a ≠ z + 8 → a ≠ z + 12 → t'.lists.mem a = t.lists.mem a := by
  have hspan := span_lt h.hole
  obtain ⟨j, hj⟩ := listOf_exists (s := k - 4) (by omega)
  refine ⟨j, hj, (hop hj (h.hole.insert j hlo (by omega) hd)).mono
    fun t' ⟨⟨hhole, hmem⟩, hexact⟩ => ?_⟩
  exact ⟨_, ⟨hhole, hexact⟩, hmem⟩

theorem Tlsf.Work.sizeOf (h : t.Work (P.geometry hP) us vs x y q L e d) (hlo : x ≤ z) (hhi : z ≤ y)
    (hd : 4 ∣ z) (htag : t.lists.mem (z + 4) = v) : t.sizeOf P (BitVec.ofNat 32 z) = some v := by
  have hfirst := h.hole.first_le
  have hlast := h.hole.le_last
  rw [sizeOf_eq (has_header hP hd (by omega) (by omega)), htag]

theorem Tlsf.Work.setSize (h : t.Work (P.geometry hP) us vs x y q L e d) (hlo : x ≤ z)
    (hhi : z + 4 ≤ y) (hd : 4 ∣ z)
    (he : ∀ z' j, e = some (z', j) → z + 4 ≠ z' + 8 ∧ z + 4 ≠ z' + 12) :
    Returns (t.setSize P (BitVec.ofNat 32 z) v) fun t' =>
      t'.Work (P.geometry hP) us vs x y q L e d ∧
        t'.lists.mem = Function.update t.lists.mem (z + 4) v := by
  have hfirst := h.hole.first_le
  have hlast := h.hole.le_last
  exact ⟨_, setSize_eq (has_header hP hd (by omega) (by omega)),
    ⟨h.hole.write (by omega) (by omega) he, h.exact.of_lists⟩, rfl⟩

theorem Tlsf.Work.setPrevHdr (h : t.Work (P.geometry hP) us vs x y q L e d) (hlt : x + 4 ≤ y)
    (he : ∀ z' j, e = some (z', j) → y ≠ z' + 8 ∧ y ≠ z' + 12) :
    Returns (t.setPrevHdr P (BitVec.ofNat 32 y) v) fun t' =>
      t'.Work (P.geometry hP) us vs x y q L e d ∧
        t'.lists.mem = Function.update t.lists.mem y v := by
  have hfirst := h.hole.first_le
  have hlast := h.hole.le_last
  exact ⟨_, setPrevHdr_eq ((P.geometry hP).has h.hole.dvd (by omega) (by omega)),
    ⟨h.hole.write hlt (Nat.le_refl y) he, h.exact.of_lists⟩, rfl⟩

theorem Tlsf.Work.next (h : t.Work (P.geometry hP) us vs x y q L e d) : ∃ m f, 4 ∣ m ∧
    f = firstFree vs ∧ t.sizeOf P (BitVec.ofNat 32 y) = some (word m f q) ∧
    ∀ q', Returns (t.setSize P (BitVec.ofNat 32 y) (word m f q')) fun t' =>
      t'.Work (P.geometry hP) us vs x y q' L e d ∧
        t'.lists.mem = Function.update t.lists.mem (y + 4) (word m f q') := by
  obtain ⟨m, ws, hm, hmf, hm4, htag⟩ := h.hole.next
  have hfirst := h.hole.first_le
  have hlast := h.hole.le_last
  have hle := h.hole.le
  have hnext : P.area.Has (y + 4) := has_header hP h.hole.dvd (by omega) hlast
  have hsize := sizeOf_eq (t := t) hnext
  rw [htag] at hsize
  exact ⟨_, _, hm4, hmf, hsize, fun q' =>
    ⟨_, setSize_eq hnext, ⟨h.hole.retag q' hm, h.exact.of_lists⟩, rfl⟩⟩

-- ---------------------------------------------------------------------------
-- malloc_ex
-- ---------------------------------------------------------------------------

theorem tmpSize_toInt (hr : r ≤ s) (hs : s < 2 ^ 30) :
    (BitVec.ofNat 32 s - BitVec.ofNat 32 r - bhdrOverhead).toInt = (s : Int) - r - 4 := by
  have hsub : BitVec.ofNat 32 s - BitVec.ofNat 32 r = BitVec.ofNat 32 (s - r) := ofNat_sub hr (by omega)
  have hfour : bhdrOverhead.toInt = 4 := by decide
  have hint : (BitVec.ofNat 32 (s - r)).toInt = ((s - r : Nat) : Int) := toInt_ofNat (by omega)
  rw [hsub, BitVec.toInt_sub, hint, hfour]
  have hbmod : (((s - r : Nat) : Int) - 4).bmod (2 ^ 32) = ((s - r : Nat) : Int) - 4 :=
    Int.bmod_eq_of_le (by omega) (by omega)
  rw [hbmod]
  omega

theorem splitFound_spec (h : t.Work (P.geometry hP) us vs x (x + n) true L none d) (hn4 : 4 ∣ n)
    (htag : t.lists.mem (x + 4) = word (n - 4) true p) (hr4 : 4 ∣ r) (hr : 12 ≤ r)
    (hrn : r + 4 + 16 ≤ n) :
    Returns (splitFound P t (BitVec.ofNat 32 x) (BitVec.ofNat 32 (x + n)) (BitVec.ofNat 32 r)
      (BitVec.ofNat 32 (n - (r + 4) - 4))) fun t' => ∃ j L', cellOf (n - (r + 4)) = some j ∧
        t'.Work (P.geometry hP) us vs x (x + n) true L' (some (x + (r + 4), j)) d ∧
        t'.lists.mem (x + 4) = word r false p ∧
        t'.lists.mem (x + (r + 4) + 4) = word (n - (r + 4) - 4) true false ∧
        t'.lists.mem (x + n) = BitVec.ofNat 32 (x + (r + 4)) := by
  have hx4 : 4 ∣ x := (Nat.dvd_add_left hn4).mp h.hole.dvd
  have hb2 : x + 4 + r = x + (r + 4) := by omega
  rw [splitFound, next_eq, freeBlock, prevUsed, word_new (by omega), hb2]
  refine Returns.bind (h.setSize (z := x + (r + 4)) (by omega) (by omega) (by omega) nofun)
    fun t₁ ⟨hwork₁, hmem₁⟩ => ?_
  refine Returns.bind (hwork₁.setPrevHdr (by omega) nofun) fun t₂ ⟨hwork₂, hmem₂⟩ => ?_
  have htag₂ : t₂.lists.mem (x + (r + 4) + 4) = word (n - (r + 4) - 4) true false := by
    rw [hmem₂, Function.update_of_ne (by omega), hmem₁, Function.update_self]
  obtain ⟨j, hj, hins⟩ := hwork₂.enter (z := x + (r + 4)) (k := n - (r + 4)) (by omega) (by omega)
    (by omega) (by omega) fun hj hins => insertRest_returns (by
      have hspan := span_lt hwork₂.hole
      omega) (hwork₂.sizeOf (by omega) (by omega) (by omega) htag₂) (word_size (by omega)) hj
      hwork₂.exact hins
  refine Returns.bind hins fun t₃ ⟨L₃, hwork₃, hmem₃⟩ => ?_
  have htag₃ : t₃.lists.mem (x + 4) = word (n - 4) true p := by
    rw [hmem₃ _ (by omega) (by omega) (by omega) (by omega), hmem₂, Function.update_of_ne (by omega),
      hmem₁, Function.update_of_ne (by omega), htag]
  refine Returns.bind_eq (hwork₃.sizeOf (Nat.le_refl x) (by omega) hx4 htag₃) ?_
  rw [prevState, word_resize (by omega) hr4]
  refine (hwork₃.setSize (Nat.le_refl x) (by omega) hx4 fun z' j' he => ?_).mono
    fun t' ⟨hwork, hmem⟩ => ⟨j, L₃, hj, hwork, ?_, ?_, ?_⟩
  · obtain ⟨rfl, -⟩ := Prod.mk.inj (Option.some.inj he)
    omega
  · rw [hmem, Function.update_self]
  · rw [hmem, Function.update_of_ne (by omega), hmem₃ _ (by omega) (by omega) (by omega) (by omega), htag₂]
  · rw [hmem, Function.update_of_ne (by omega), hmem₃ _ (by omega) (by omega) (by omega) (by omega), hmem₂,
      Function.update_self]

theorem found_spec (h : t.Work (P.geometry hP) us vs x (x + n) true L none d)
    (hn : Fits ⟨n, false⟩) (hus : Coalesced us) (hvs : Coalesced vs) (hfirst : firstFree vs = false)
    (htag : t.lists.mem (x + 4) = word (n - 4) true (lastFree false us)) (hr4 : 4 ∣ r)
    (hr : 12 ≤ r) (hrn : r + 4 ≤ n) :
    Returns (found P t (BitVec.ofNat 32 x) (BitVec.ofNat 32 r)) fun q => ∃ mid L' k,
      q.1 = BitVec.ofNat 32 (x + 8) ∧ Cut n k mid ∧ r + 4 ≤ k ∧
        q.2.Rep (P.geometry hP) (us ++ (mid ++ vs)) L' ∧
        ∀ z, Payload (P.geometry hP) us vs (x + n) z → q.2.lists.mem z = d z := by
  have hspan := span_lt h.hole
  have hn4 : 4 ∣ n := hn.2
  have hx4 : 4 ∣ x := (Nat.dvd_add_left hn4).mp h.hole.dvd
  have hsum : x + 4 + (n - 4) = x + n := by omega
  refine Returns.bind_eq (h.sizeOf (Nat.le_refl x) (by omega) hx4 htag) ?_
  rw [blockSize, word_size (Nat.dvd_sub hn4 (by decide))]
  dsimp only
  rw [next_eq, hsum, tmpSize_toInt (by omega) (by omega)]
  by_cases hge : r + 4 + 16 ≤ n
  · -- the rest is a block of its own
    rw [if_pos (by omega)]
    have htmp : BitVec.ofNat 32 (n - 4) - BitVec.ofNat 32 r - bhdrOverhead =
        BitVec.ofNat 32 (n - (r + 4) - 4) := by
      have hrest : n - 4 - r - 4 = n - (r + 4) - 4 := by omega
      rw [bhdrOverhead, ofNat_sub (by omega) (by omega), ofNat_sub (by omega) (by omega), hrest]
    rw [htmp]
    refine Returns.bind (splitFound_spec h hn4 htag hr4 hr hge)
      fun t₁ ⟨j, L₁, hj, hwork₁, htag₁, hrest₁, hlink₁⟩ => ?_
    refine Returns.bind_eq (hwork₁.sizeOf (Nat.le_refl x) (by omega) hx4 htag₁) ?_
    rw [freeBlock, word_clear_free hr4]
    refine Returns.bind (hwork₁.setSize (Nat.le_refl x) (by omega) hx4 fun z' j' he => ?_)
      fun t₂ ⟨hwork₂, hmem₂⟩ => .pure ⟨_, L₁, r + 4, ofNat_add_eight x, .inr ⟨by omega, rfl⟩,
        Nat.le_refl _, ⟨?_, hwork₂.exact⟩, hwork₂.hole.data⟩
    · obtain ⟨rfl, -⟩ := Prod.mk.inj (Option.some.inj he)
      omega
    · have hend : x + n = x + (r + 4) + (n - (r + 4)) := by omega
      have hhole := hwork₂.hole
      rw [hend] at hhole hlink₁
      refine hhole.close_split (fits_mk (by omega) (by omega)) (fits_mk (by omega) (by omega)) hj
        hus hvs hfirst ?_ ?_ ?_
      · rw [hmem₂, Function.update_self]
        rfl
      · rw [hmem₂, Function.update_of_ne (by omega), hrest₁]
        rfl
      · rw [hmem₂, Function.update_of_ne (by omega), hlink₁]
  · rw [if_neg (by omega)]
    obtain ⟨m, f, hm4, -, hsize, hset⟩ := h.next
    refine Returns.bind_eq hsize ?_
    rw [prevFree, word_clear_prev hm4]
    refine Returns.bind (hset false) fun t₁ ⟨hwork₁, hmem₁⟩ => ?_
    have htag₁ : t₁.lists.mem (x + 4) = word (n - 4) true (lastFree false us) := by
      rw [hmem₁, Function.update_of_ne (by omega), htag]
    refine Returns.bind_eq (hwork₁.sizeOf (Nat.le_refl x) (by omega) hx4 htag₁) ?_
    rw [freeBlock, word_clear_free (Nat.dvd_sub hn4 (by decide))]
    refine Returns.bind (hwork₁.setSize (Nat.le_refl x) (by omega) hx4 nofun)
      fun t₂ ⟨hwork₂, hmem₂⟩ => .pure ⟨_, L, n, ofNat_add_eight x, .inl ⟨rfl, rfl⟩, hrn,
        ⟨?_, hwork₂.exact⟩, hwork₂.hole.data⟩
    refine hwork₂.hole.close_used hn hus hvs ?_
    rw [hmem₂, Function.update_self]
    rfl

theorem le_fitted (n : Nat) : n ≤ fitted n ∧ 12 ≤ fitted n ∧ 4 ∣ fitted n := by
  rw [fitted]
  omega

theorem fitted_le (h : n ≤ 2 ^ 30 - 2 ^ 24) : fitted n ≤ 2 ^ 30 - 2 ^ 24 := by
  rw [fitted]
  omega

theorem requestSize_eq (h : v.toNat + 4 ≤ 2 ^ 32) :
    requestSize v = BitVec.ofNat 32 (fitted v.toNat) := by
  rw [requestSize]
  split
  · rename_i hlt
    have hlt' : v.toNat < 12 := hlt
    have hfit : fitted v.toNat = 12 := by
      rw [fitted]
      omega
    rw [hfit, minBlockSize]
  · rename_i hge
    have hge' : ¬v.toNat < 12 := hge
    have hfit : fitted v.toNat = (v.toNat + 3) / 2 ^ 2 * 2 ^ 2 := by
      rw [fitted]
      omega
    have hsum : v + 3#32 = BitVec.ofNat 32 (v.toNat + 3) := by
      rw [BitVec.ofNat_add, BitVec.ofNat_toNat, BitVec.setWidth_eq]
    rw [roundupSize, hsum, hfit]
    exact and_not_low _ 2

theorem Tlsf.Rep.extractSmall (h : t.Rep (P.geometry hP) (us ++ ⟨n, true⟩ :: vs) L) {zs : List Nat}
    (hl : L (.inl i) = x :: zs) (hx : stop (P.geometry hP).first us = x) :
    Returns (extractSmallBlockHdr P t (BitVec.ofNat 32 x) i.val) fun t' => ∃ L',
      t'.Work (P.geometry hP) us vs x (x + n) true L' none t.lists.mem ∧
      t'.lists.mem (x + 4) = word (n - 4) true (lastFree false us) := by
  have hole := h.blocks.open
  rw [hx] at hole
  have hmem : x ∈ L (.inl i) := by rw [hl]; exact List.mem_cons_self
  refine (extractSmallBlockHdr_returns hmem h.exact
    ((hole.extractHdr hl).mono fun w hw => ⟨hw.1.threaded, hw⟩)).mono
    fun t' ⟨⟨hhole, hm⟩, hexact⟩ => ⟨_, ⟨hhole, hexact⟩, ?_⟩
  rw [hm _ (by omega) (by omega)]
  exact hole.right.1

theorem Tlsf.Rep.extractLarge (h : t.Rep (P.geometry hP) (us ++ ⟨n, true⟩ :: vs) L) {zs : List Nat}
    (hl : L (.inr c) = x :: zs) (hx : stop (P.geometry hP).first us = x) :
    Returns (extractBlockHdr P t (BitVec.ofNat 32 x) c.1.val c.2.val) fun t' => ∃ L',
      t'.Work (P.geometry hP) us vs x (x + n) true L' none t.lists.mem ∧
      t'.lists.mem (x + 4) = word (n - 4) true (lastFree false us) := by
  have hole := h.blocks.open
  rw [hx] at hole
  have hmem : x ∈ L (.inr c) := by rw [hl]; exact List.mem_cons_self
  have hbound := hole.member_bounds ⟨_, hmem⟩
  have hfit : Fits ⟨n, true⟩ := h.blocks.fits _ (by simp)
  have hn16 : 16 ≤ n := hfit.1
  have h8 : P.area.Has (x + 8) := (P.geometry hP).has (by omega) (by omega) (by omega)
  have h12 : P.area.Has (x + 12) := (P.geometry hP).has (by omega) (by omega) (by omega)
  refine (extractBlockHdr_returns (Q := fun w => Hole (P.geometry hP) cellOf w us vs x (x + n) true
    (Function.update L (.inr c) ((L (.inr c)).erase x)) none t.lists.mem ∧
    w.mem (x + 4) = word (n - 4) true (lastFree false us)) hmem h8 h12 h.exact
    ((hole.extractHdr hl).mono fun w ⟨hw, hm⟩ => ⟨hw.threaded, ?_, ?_⟩)).mono
    fun t' ⟨⟨hhole, htag⟩, hexact⟩ => ⟨_, ⟨hhole, hexact⟩, htag⟩
  · have hole₁ := hw.set (a := x + 8) (v := 0#32) (by omega) (by omega)
    exact hole₁.set (a := x + 12) (v := 0#32) (by omega) (by omega)
  · dsimp only [writeNode]
    rw [Function.update_of_ne (by omega), Function.update_of_ne (by omega), hm _ (by omega) (by omega)]
    exact hole.right.1

/-- A block of `r` bytes and more cut out of a free one. -/
def Tlsf.Gives (t : Tlsf) (G : Geometry) (bs : List BoundaryTags.Block) (r : Nat) (q : Word × Tlsf) :
    Prop :=
  ∃ us vs n mid k L', bs = us ++ ⟨n, true⟩ :: vs ∧ Cut n k mid ∧ r + 4 ≤ k ∧
    q.1 = BitVec.ofNat 32 (stop G.first us + 8) ∧ q.2.Rep G (us ++ (mid ++ vs)) L' ∧
    ∀ z, Payload G us vs (stop G.first us + n) z → q.2.lists.mem z = t.lists.mem z

section
variable {bs : List BoundaryTags.Block}

theorem Tlsf.Rep.span_lt (h : t.Rep (P.geometry hP) bs L) {b : BoundaryTags.Block} (hb : b ∈ bs) :
    b.span < 2 ^ 30 + 4 := by
  have hspan := h.blocks.span_le hb
  have hsmall := hP.small
  simp only [Pool.geometry] at hspan
  omega

theorem Tlsf.Rep.cell_of_mem (h : t.Rep (P.geometry hP) bs L) (hn : ⟨n, true⟩ ∈ bs) :
    ∃ j, cellOf n = some j ∧ 12 ≤ n - 4 ∧ n - 4 < 2 ^ 30 ∧ 4 ∣ n - 4 := by
  have hfit : Fits ⟨n, true⟩ := h.blocks.fits _ hn
  have hn16 : 16 ≤ n := hfit.1
  have hn4 : 4 ∣ n := hfit.2
  have hspan : n < 2 ^ 30 + 4 := h.span_lt hn
  obtain ⟨j, hj⟩ := listOf_exists (s := n - 4) (by omega)
  exact ⟨j, hj, by omega, by omega, by omega⟩

theorem Tlsf.Rep.serve (h : t.Rep (P.geometry hP) bs L) (op : Option Tlsf) (hj : L j ≠ [])
    (hop : ∀ {us vs : List BoundaryTags.Block} {n x : Nat} {zs : List Nat},
      t.Rep (P.geometry hP) (us ++ ⟨n, true⟩ :: vs) L → L j = x :: zs →
      stop (P.geometry hP).first us = x → t.lists.head j = BitVec.ofNat 32 x →
      Returns op fun t' => ∃ L', t'.Work (P.geometry hP) us vs x (x + n) true L' none t.lists.mem ∧
        t'.lists.mem (x + 4) = word (n - 4) true (lastFree false us))
    (hr4 : 4 ∣ r) (hr : 12 ≤ r) (hfit : ∀ n, ⟨n, true⟩ ∈ bs → cellOf n = some j → r ≤ n - 4) :
    t.lists.head j ≠ 0#32 ∧ Returns (op >>= fun t' => found P t' (t.lists.head j) (BitVec.ofNat 32 r))
      (t.Gives (P.geometry hP) bs r) := by
  obtain ⟨us, vs, n, zs, rfl, hl, hhead, hne, hc, hus, hvs, hfirst⟩ := h.blocks.head_block hj
  have hn : Fits ⟨n, true⟩ := h.blocks.fits _ (by simp)
  have hrn := hfit n (by simp) hc
  refine ⟨hne, Returns.bind (hop h hl rfl hhead) fun t₁ ⟨L₁, hwork, htag⟩ => ?_⟩
  rw [hhead]
  refine (found_spec hwork (fits_mk hn.1 hn.2) hus hvs hfirst htag hr4 hr (by omega)).mono ?_
  rintro q ⟨mid, L', k, hq, hcut, hk, hrep, hdata⟩
  exact ⟨us, vs, n, mid, k, L', rfl, hcut, hk, hq, hrep, hdata⟩

theorem mallocEx_spec (h : t.Rep (P.geometry hP) bs L) (hv : v.toNat ≤ 2 ^ 30 - 2 ^ 24) :
    Returns (mallocEx P t v) fun q =>
      (q = (0#32, t) ∧ ¬Offers (P.geometry hP) bs (roundUp 5 (fitted v.toNat))) ∨
      (Offers (P.geometry hP) bs (roundUp 5 (fitted v.toNat)) ∧
        t.Gives (P.geometry hP) bs (fitted v.toNat) q) := by
  obtain ⟨-, hr12, hr4⟩ := le_fitted v.toNat
  have hr30 := fitted_le hv
  rw [mallocEx, requestSize_eq (by omega)]
  generalize fitted v.toNat = r at *
  have hround := le_roundUp (k := 5) (r := r)
  obtain ⟨fl, sl, hsearch, hlater⟩ := searchFrom_spec hr4 hr30
  refine Returns.bind (findSmall_spec h.exact (by omega)) ?_
  rintro ⟨b, k⟩ (⟨hb, hnone⟩ | ⟨i, hb, hi, hle⟩)
  · -- the small-block lists from there on are empty
    dsimp only at hb ⊢
    rw [if_neg (not_not.mpr hb), hsearch]
    refine Returns.bind (findIn_spec ffs_finds h.exact.levels (by decide) fl sl) ?_
    rintro ⟨b, fl', sl'⟩ (⟨hb, hnone'⟩ | ⟨c, hb, hne, hcls⟩)
    · dsimp only at hb ⊢
      rw [if_pos hb]
      refine .pure (.inl ⟨rfl, ?_⟩)
      rintro ⟨n, hn, hrn⟩
      have hrn' : roundUp 5 r + 4 ≤ n := hrn
      obtain ⟨j, hj, -, hlt, h4⟩ := h.cell_of_mem hn
      have hfull := h.blocks.ne_nil hn hj
      cases j with
      | inl i =>
        have hsize := size_of_small hlt h4 hj
        exact hnone i hfull (by omega)
      | inr c => exact hnone' c hfull ((hlater _ c hlt hj).mpr (by omega))
    · obtain ⟨rfl, rfl, rfl⟩ : b = t.lists.head (.inr c) ∧ fl' = c.1.val ∧ sl' = c.2.val := by
        simpa using hb
      have hfit : ∀ n, ⟨n, true⟩ ∈ bs → cellOf n = some (.inr c) → roundUp 5 r ≤ n - 4 := by
        intro n hn hc
        obtain ⟨-, -, -, hlt, -⟩ := h.cell_of_mem hn
        exact (hlater _ c hlt hc).mp hcls
      obtain ⟨hhead, hserve⟩ := h.serve (j := .inr c)
        (extractBlockHdr P t (t.lists.head (.inr c)) c.1.val c.2.val) hne
        (fun hrep hl hx hhead => hhead ▸ hrep.extractLarge hl hx) (dvd_roundUp (e := 2) hr4)
        (by omega) hfit
      dsimp only
      rw [if_neg hhead]
      refine hserve.mono fun q hq => .inr ⟨?_, ?_⟩
      · obtain ⟨us, vs, n, xs, rfl, -, -, -, hc, -⟩ := h.blocks.head_block hne
        have hrn := hfit n (by simp) hc
        have hn16 : 16 ≤ n := (h.blocks.fits ⟨n, true⟩ (by simp)).1
        have hrn' : roundUp 5 r + 4 ≤ n := by omega
        exact ⟨n, by simp, hrn'⟩
      · obtain ⟨us, vs, n, mid, k, L', hbs, hcut, hk, hrest⟩ := hq
        exact ⟨us, vs, n, mid, k, L', hbs, hcut, by omega, hrest⟩
  · obtain ⟨rfl, rfl⟩ : b = t.lists.head (.inl i) ∧ k = i.val := by simpa using hb
    have hfit : ∀ n, ⟨n, true⟩ ∈ bs → cellOf n = some (.inl i) → r ≤ n - 4 := by
      intro n hn hc
      obtain ⟨-, -, -, hlt, h4⟩ := h.cell_of_mem hn
      have hsize := size_of_small hlt h4 hc
      omega
    obtain ⟨hhead, hserve⟩ := h.serve (j := .inl i)
      (extractSmallBlockHdr P t (t.lists.head (.inl i)) i.val) hi
      (fun hrep hl hx hhead => hhead ▸ hrep.extractSmall hl hx) hr4 hr12 hfit
    dsimp only
    rw [if_pos hhead]
    refine hserve.mono fun q hq => .inr ⟨?_, hq⟩
    obtain ⟨us, vs, n, xs, rfl, -, -, -, hc, -⟩ := h.blocks.head_block hi
    have hrn := hfit n (by simp) hc
    have hn16 : 16 ≤ n := (h.blocks.fits ⟨n, true⟩ (by simp)).1
    have hi32 := i.isLt
    have hrn' : roundUp 5 r + 4 ≤ n := by
      rw [roundUp_small (by omega) hr4]
      omega
    exact ⟨n, by simp, hrn'⟩

end

end

end Xmertl.Partikle.MemoryPool
