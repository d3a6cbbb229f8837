import Xmertl.Common.TlsfUse
import Xmertl.Xtratum.TlsfMapping

/-!
# Calls of the memory allocator

`malloc_ex` and `free_ex` on a pool whose words say what its blocks are.
-/

namespace Xmertl.Xtratum

open BoundaryTags SizeClasses ThreadedLists TlsfPool TotalCorrectness

/-- The bytes of the block that `init_memory_pool` makes. -/
def Pool.room (P : Pool) : Nat := (P.size - 3196) / 8 * 8

/-- A pool that `init_memory_pool` takes, whose block and sentinel it has room for. -/
structure Pool.Usable (P : Pool) : Prop where
  aligned : 4 ∣ P.start
  fits : P.size % 8 < 4
  large : 3308 ≤ P.size
  small : P.room < 2 ^ 30

def Pool.geometry (P : Pool) (h : P.Usable) : Geometry where
  area := P.area
  overhead := 8
  first := P.start + 3184
  last := P.start + 3192 + P.room
  four_le := by decide
  dvd_overhead := by decide
  dvd_first := Nat.dvd_add h.aligned (by decide)
  lo_le := Nat.le_add_right (P.start + 3180) 8
  le_hi := by
    have hlarge := h.large
    have hfits := h.fits
    change P.start + 3192 + (P.size - 3196) / 8 * 8 + 8 ≤ P.start + P.size
    omega

/-- The bytes that a block for `n` bytes has behind its header. -/
def fitted (n : Nat) : Nat := max 8 ((n + 7) / 8 * 8)

structure Tlsf.Rep (t : Tlsf) (G : Geometry) (bs : List BoundaryTags.Block)
    (L : Fin 24 × Fin 32 → List Nat) : Prop where
  blocks : Blocks G cellOf t.lists bs L
  exact : t.levels.Exact fun c => L c ≠ []

/-- The state of a pool where a call has made a hole. -/
structure Tlsf.Work (t : Tlsf) (G : Geometry) (us vs : List BoundaryTags.Block) (x y : Nat) (q : Bool)
    (L : Fin 24 × Fin 32 → List Nat) (e : Option (Nat × (Fin 24 × Fin 32))) (d : Nat → Word) :
    Prop where
  hole : Hole G cellOf t.lists us vs x y q L e d
  exact : t.levels.Exact fun c => L c ≠ []

/-- The words of the hole and the tag behind it are the same, and so is `used_size`. -/
structure Tlsf.Same (t t' : Tlsf) (x y : Nat) : Prop where
  mem : ∀ a, x ≤ a → a < y + 8 → t'.lists.mem a = t.lists.mem a
  used : t'.usedSize = t.usedSize

section
variable {P : Pool} {hP : P.Usable} {t t' : Tlsf} {us vs : List BoundaryTags.Block}
  {x y z a n k r : Nat} {p q : Bool} {L : Fin 24 × Fin 32 → List Nat} {c : Fin 24 × Fin 32} {d : Nat → Word}
  {e : Option (Nat × (Fin 24 × Fin 32))} {v : Word}

theorem sizeOf_eq (h : P.area.Has (z + 4)) :
    t.sizeOf P (BitVec.ofNat 32 z) = some (t.lists.mem (z + 4)) := by
  rw [Tlsf.sizeOf, FreeLists.size, ofNat_add_four, load_ofNat h]

theorem setSize_eq (h : P.area.Has (z + 4)) : t.setSize P (BitVec.ofNat 32 z) v =
    some { t with lists := { t.lists with mem := Function.update t.lists.mem (z + 4) v } } := by
  simp only [Tlsf.setSize, FreeLists.setSize, ofNat_add_four, store_ofNat h, Option.bind_eq_bind,
    Option.bind_some, Option.pure_def]

theorem setPrevHdr_eq (h : P.area.Has z) : t.setPrevHdr P (BitVec.ofNat 32 z) v =
    some { t with lists := { t.lists with mem := Function.update t.lists.mem z v } } := by
  simp only [Tlsf.setPrevHdr, FreeLists.setPrevHdr, store_ofNat h, Option.bind_eq_bind,
    Option.bind_some, Option.pure_def]

theorem clearFreePtr_eq (h8 : P.area.Has (z + 8)) (h12 : P.area.Has (z + 12)) :
    t.setFreePtr P (BitVec.ofNat 32 z) 0#32 0#32 =
      some { t with lists := { t.lists with mem := writeNode t.lists.mem z 0#32 0#32 } } := by
  simp only [Tlsf.setFreePtr, setFreePtr_eq h8 h12, Option.bind_eq_bind, Option.bind_some,
    Option.pure_def]

theorem next_eq (z k : Nat) :
    getNextBlock (BitVec.ofNat 32 z + 8#32) (BitVec.ofNat 32 k) = BitVec.ofNat 32 (z + 8 + k) := by
  rw [getNextBlock, ← BitVec.ofNat_add, ← BitVec.ofNat_add]

variable (hP) in
theorem has_header (hd : 4 ∣ z) (hlo : (P.geometry hP).first ≤ z)
    (hhi : z ≤ (P.geometry hP).last) : P.area.Has (z + 4) :=
  (P.geometry hP).has (by omega) (by omega) (by omega)

theorem span_lt {w : FreeLists (Fin 24 × Fin 32)}
    (h : Hole (P.geometry hP) cellOf w us vs x y q L e d) : y - x < 2 ^ 30 + 8 := by
  have hfirst := h.first_le
  have hlast := h.le_last
  have hsmall := hP.small
  simp only [Pool.geometry] at hfirst hlast
  omega

-- ---------------------------------------------------------------------------
-- Lists and bitmaps together
-- ---------------------------------------------------------------------------

section
variable {Q : FreeLists (Fin 24 × Fin 32) → Prop} {fl sl : Int}

theorem extractBlock_returns (hc : cell 24 fl sl = some c) (hz : z ∈ L c)
    (ht : Threaded t.lists.head t.lists.mem L) (he : t.levels.Exact fun c => L c ≠ [])
    (h : Returns (t.lists.extract P.area c (BitVec.ofNat 32 z)) fun w =>
      Threaded w.head w.mem (Function.update L c ((L c).erase z)) ∧ Q w) :
    Returns (extractBlock P t (BitVec.ofNat 32 z) fl sl) fun t' => Q t'.lists ∧
      (t'.levels.Exact fun d => Function.update L c ((L c).erase z) d ≠ []) ∧
      t'.usedSize = t.usedSize := by
  refine Returns.bind_eq hc (h.bind fun w ⟨hw, hq⟩ => .pure ⟨hq, he.erase (by decide) hz ?_, rfl⟩)
  have hnil : w.head c = 0#32 ↔ (L c).erase z = [] := by
    rw [hw.nil_iff, Function.update_self]
  rw [hnil]
  refine ⟨And.right, fun hl => ⟨?_, hl⟩⟩
  -- a list that is empty now had `z` alone
  have hone : L c = [z] := (List.erase_eq_nil_iff.mp hl).resolve_left (List.ne_nil_of_mem hz)
  have hhead := ht.head_eq (i := c)
  rw [hone] at hhead
  exact (ptr_eq_some.mp hhead).1

theorem extractBlockHdr_returns (hc : cell 24 fl sl = some c) (hz : z ∈ L c)
    (h8 : P.area.Has (z + 8)) (h12 : P.area.Has (z + 12)) (he : t.levels.Exact fun c => L c ≠ [])
    (h : Returns (t.lists.extractHdr P.area c (BitVec.ofNat 32 z)) fun w =>
      Threaded w.head w.mem (Function.update L c ((L c).erase z)) ∧
        Q { w with mem := writeNode w.mem z 0#32 0#32 }) :
    Returns (extractBlockHdr P t (BitVec.ofNat 32 z) fl sl) fun t' => Q t'.lists ∧
      (t'.levels.Exact fun d => Function.update L c ((L c).erase z) d ≠ []) ∧
      t'.usedSize = t.usedSize := by
  refine Returns.bind_eq hc (h.bind fun w ⟨hw, hq⟩ => ?_)
  have hnil : w.head c = 0#32 ↔ (L c).erase z = [] := by
    rw [hw.nil_iff, Function.update_self]
  refine Returns.bind_eq (setFreePtr_eq h8 h12) (.pure ⟨hq, ?_, rfl⟩)
  have herase := he.erase (by decide) hz hnil
  simpa only [ite_not] using herase

theorem insertBlock_returns (hc : cell 24 fl sl = some c) (he : t.levels.Exact fun c => L c ≠ [])
    (h : Returns (t.lists.insert P.area c (BitVec.ofNat 32 z)) Q) :
    Returns (insertBlock P t (BitVec.ofNat 32 z) fl sl) fun t' => Q t'.lists ∧
      (t'.levels.Exact fun d => Function.update L c (z :: L c) d ≠ []) ∧
      t'.usedSize = t.usedSize :=
  Returns.bind_eq hc (h.bind fun w hw => .pure ⟨hw, he.push (by decide), rfl⟩)

end

-- ---------------------------------------------------------------------------
-- Work on a hole
-- ---------------------------------------------------------------------------

theorem Tlsf.Work.cell_exists {b : BoundaryTags.Block} (h : t.Work (P.geometry hP) us vs x y q L e d)
    (hb : Around (P.geometry hP) us vs y z b) : ∃ c, cellOf b.span = some c := by
  have hbound := h.hole.around_bounds hb
  have hfirst := h.hole.first_le
  have hlast := h.hole.le_last
  have hle := h.hole.le
  have hsmall := hP.small
  simp only [Pool.geometry] at hbound hfirst hlast
  obtain ⟨c, hc, -⟩ := cellOf_eq (n := b.span) (by omega)
  exact ⟨c, hc⟩

theorem Tlsf.Work.takeOffNext (h : t.Work (P.geometry hP) us (⟨k, true⟩ :: vs) x y q L none d) :
    Returns (takeOff P t (BitVec.ofNat 32 y)) fun t' => ∃ L',
      t'.Work (P.geometry hP) us vs x (y + k) true L' none d ∧ t.Same t' x y := by
  obtain ⟨c, hc⟩ := h.cell_exists (.inr List.mem_cons_self)
  have hfit : Fits ⟨k, true⟩ := h.hole.fits _ (by simp)
  have hfirst := h.hole.first_le
  have hle := h.hole.le
  have htag : t.lists.mem (y + 4) = word (k - 8) true q := h.hole.right.1
  have hsize := sizeOf_eq (t := t) (has_header hP h.hole.dvd (by omega) h.hole.le_last)
  have hy : y ∈ L c := (h.hole.listed c y).mpr (.inl ⟨k, .inr List.mem_cons_self, hc⟩)
  have h4 : 4 ∣ k - 8 := Nat.dvd_sub hfit.2 (by decide)
  rw [htag] at hsize
  refine Returns.bind_eq hsize ?_
  rw [tlsfBlockSize, word_size h4]
  have hex := h.hole.extractNext hc
  refine (extractBlock_returns hc hy h.hole.threaded h.exact
    (hex.mono fun w hw => ⟨hw.1.threaded, hw⟩)).mono fun t' ⟨⟨hhole, hmem⟩, hexact, hused⟩ => ?_
  exact ⟨_, ⟨hhole, hexact⟩, hmem, hused⟩

theorem Tlsf.Work.takeOffPrev
    (h : t.Work (P.geometry hP) (us ++ [⟨k, true⟩]) vs x y q L none d)
    (hz : z = stop (P.geometry hP).first us) :
    Returns (takeOff P t (BitVec.ofNat 32 z)) fun t' => ∃ L',
      t'.Work (P.geometry hP) us vs z y q L' none d ∧
      t'.lists.mem (z + 4) = word (k - 8) true (lastFree false us) ∧ t.Same t' x y := by
  have hat : Around (P.geometry hP) (us ++ [⟨k, true⟩]) vs y z ⟨k, true⟩ := by
    rw [hz]
    exact .inl placed_middle
  obtain ⟨c, hc⟩ := h.cell_exists hat
  have hfit : Fits ⟨k, true⟩ := h.hole.around_fits hat
  have hd := h.hole.around_dvd hat
  have hbound := h.hole.around_bounds hat
  have hlast := h.hole.le_last
  have hfirst := h.hole.first_le
  have hle := h.hole.le
  simp only at hbound
  have htag : t.lists.mem (z + 4) = word (k - 8) true (lastFree false us) := by
    have hl := h.hole.left
    rw [hz]
    exact Laid.tag_at hl
  have hsize := sizeOf_eq (t := t) (has_header hP hd (by omega) (by omega))
  have hmem : z ∈ L c := (h.hole.listed c z).mpr (.inl ⟨k, hat, hc⟩)
  have h4 : 4 ∣ k - 8 := Nat.dvd_sub hfit.2 (by decide)
  rw [htag] at hsize
  refine Returns.bind_eq hsize ?_
  rw [tlsfBlockSize, word_size h4]
  have hex := h.hole.extractPrev hz hc
  refine (extractBlock_returns hc hmem h.hole.threaded h.exact
    (hex.mono fun w hw => ⟨hw.1.threaded, hw⟩)).mono fun t' ⟨⟨hhole, htag', hm⟩, hexact, hused⟩ => ?_
  exact ⟨_, ⟨hhole, hexact⟩, htag', hm, hused⟩

/-- INSERT_BLOCK of a block of `k` bytes with its header, whose `size` has been written. -/
theorem Tlsf.Work.insert (h : t.Work (P.geometry hP) us vs x y q L none d) (hlo : x ≤ z)
    (hhi : z + k ≤ y) (hd : 4 ∣ z) (hk : 16 ≤ k) :
    ∃ c, cellOf k = some c ∧ Returns (insertBlock P t (BitVec.ofNat 32 z)
      (mappingInsert (BitVec.ofNat 32 (k - 8))).1 (mappingInsert (BitVec.ofNat 32 (k - 8))).2)
      fun t' => ∃ L', t'.Work (P.geometry hP) us vs x y q L' (some (z, c)) d ∧
        (∀ a, x ≤ a → a < y + 8 → a ≠ z + 8 → a ≠ z + 12 → t'.lists.mem a = t.lists.mem a) ∧
        t'.usedSize = t.usedSize := by
  have hspan := span_lt h.hole
  obtain ⟨c, hc, -⟩ := cellOf_eq (n := k) (by omega)
  refine ⟨c, hc, ?_⟩
  refine (insertBlock_returns hc h.exact (h.hole.insert c hlo (by omega) hd)).mono
    fun t' ⟨⟨hhole, hmem⟩, hexact, hused⟩ => ?_
  exact ⟨_, ⟨hhole, hexact⟩, hmem, hused⟩

theorem ge_sizeofBhdr (h : n < 2 ^ 32) : BitVec.ofNat 32 n ≥ sizeofBhdr ↔ 16 ≤ n := by
  rw [ge_iff_le, BitVec.le_def, toNat_ofNat h]
  rfl

/-- The rest of a hole behind a block of `r` bytes is put on its list, its header written. -/
theorem insertRest_spec (h : t.Work (P.geometry hP) us vs x (x + n) true L none d)
    (hus : Coalesced us) (hvs : Coalesced vs) (hfirst : firstFree vs = false)
    (htag : t.lists.mem (x + 4) = word k p (lastFree false us)) (hk4 : 4 ∣ k) (hr4 : 4 ∣ r)
    (hr : 8 ≤ r) (hn4 : 4 ∣ n) (hrn : r + 8 + 16 ≤ n)
    (htag₂ : t.lists.mem (x + (r + 8) + 4) = word (n - (r + 8) - 8) true false)
    (hlink : t.lists.mem (x + n) = BitVec.ofNat 32 (x + (r + 8))) :
    Returns (do
      let (fl, sl) := mappingInsert (BitVec.ofNat 32 (n - (r + 8) - 8))
      let t ← insertBlock P t (BitVec.ofNat 32 (x + (r + 8))) fl sl
      t.setSize P (BitVec.ofNat 32 x)
        (BitVec.ofNat 32 r ||| ((← t.sizeOf P (BitVec.ofNat 32 x)) &&& prevState)))
      fun t' => ∃ L', t'.Rep (P.geometry hP)
          (us ++ ([⟨r + 8, false⟩, ⟨n - (r + 8), true⟩] ++ vs)) L' ∧
        t'.lists.mem (x + 4) = word (r + 8 - 8) false (lastFree false us) ∧
        t'.usedSize = t.usedSize ∧
        (∀ z, Payload (P.geometry hP) us vs (x + n) z → t'.lists.mem z = d z) ∧
        ∀ a, x + 8 ≤ a → a < x + 8 + r → t'.lists.mem a = t.lists.mem a := by
  have hfirst' := h.hole.first_le
  have hlast := h.hole.le_last
  have hx4 : 4 ∣ x := (Nat.dvd_add_left hn4).mp h.hole.dvd
  have hheader : P.area.Has (x + 4) := has_header hP hx4 hfirst' (by omega)
  obtain ⟨c, hc, hins⟩ := h.insert (z := x + (r + 8)) (k := n - (r + 8)) (by omega) (by omega)
    (by omega) (by omega)
  refine Returns.bind hins fun t' ⟨L', hwork, hmem, hused⟩ => ?_
  have hsize := sizeOf_eq (t := t') hheader
  rw [hmem _ (by omega) (by omega) (by omega) (by omega), htag] at hsize
  refine Returns.bind_eq hsize ?_
  rw [prevState, word_resize hk4 hr4]
  have hhole := hwork.hole.write (a := x + 4) (v := word r false (lastFree false us)) (by omega)
    (by omega) fun z c' he => by
      obtain ⟨rfl, -⟩ := Prod.mk.inj (Option.some.inj he)
      omega
  refine ⟨_, setSize_eq hheader, L', ⟨?_, hwork.exact⟩, Function.update_self .., hused, hhole.data,
    fun a hlo hhi => ?_⟩
  case refine_2 =>
    dsimp only
    rw [Function.update_of_ne (by omega), hmem a (by omega) (by omega) (by omega) (by omega)]
  have hsum : x + n = x + (r + 8) + (n - (r + 8)) := by omega
  have htag' : t'.lists.mem (x + (r + 8) + 4) = word (n - (r + 8) - 8) true false := by
    rw [hmem _ (by omega) (by omega) (by omega) (by omega), htag₂]
  have hlink' : t'.lists.mem (x + n) = BitVec.ofNat 32 (x + (r + 8)) := by
    rw [hmem _ (by omega) (by omega) (by omega) (by omega), hlink]
  rw [hsum] at hhole hlink'
  refine hhole.close_split (fits_mk (by omega) (by omega)) (fits_mk (by omega) (by omega)) hc hus
    hvs hfirst (Function.update_self ..) ?_ ?_
  · dsimp only
    rw [Function.update_of_ne (by omega)]
    exact htag'
  · dsimp only
    rw [Function.update_of_ne (by omega)]
    exact hlink'

theorem splitFound_spec (h : t.Work (P.geometry hP) us vs x (x + n) true L none d)
    (hn : Fits ⟨n, false⟩) (hus : Coalesced us) (hvs : Coalesced vs) (hfirst : firstFree vs = false)
    (htag : t.lists.mem (x + 4) = word (n - 8) true (lastFree false us)) (hr4 : 4 ∣ r)
    (hr : 8 ≤ r) (hrn : r + 8 ≤ n) :
    Returns (splitFound P t (BitVec.ofNat 32 x) (BitVec.ofNat 32 (x + n)) (BitVec.ofNat 32 r))
      fun t' => ∃ mid L' k, Cut n k mid ∧ r + 8 ≤ k ∧
        t'.Rep (P.geometry hP) (us ++ (mid ++ vs)) L' ∧
        t'.lists.mem (x + 4) = word (k - 8) false (lastFree false us) ∧
        t'.usedSize = t.usedSize ∧
        ∀ z, Payload (P.geometry hP) us vs (x + n) z → t'.lists.mem z = d z := by
  have hspan := span_lt h.hole
  have hfirst' := h.hole.first_le
  have hlast := h.hole.le_last
  have hn4 : 4 ∣ n := hn.2
  have hx4 : 4 ∣ x := (Nat.dvd_add_left hn4).mp h.hole.dvd
  have hheader : P.area.Has (x + 4) := has_header hP hx4 hfirst' (by omega)
  have hnext : P.area.Has (x + n + 4) := has_header hP h.hole.dvd (by omega) hlast
  have hsize := sizeOf_eq (t := t) hheader
  rw [htag] at hsize
  have hn8 : 4 ∣ n - 8 := Nat.dvd_sub hn4 (by decide)
  refine Returns.bind_eq hsize ?_
  rw [tlsfBlockSize, word_size hn8, ofNat_sub (by omega) (by omega)]
  dsimp only
  by_cases hge : 16 ≤ n - 8 - r
  · -- the rest is a block of its own
    rw [if_pos ((ge_sizeofBhdr (by omega)).mpr hge), bhdrOverhead, ofNat_sub (by omega) (by omega),
      next_eq, freeBlock, prevUsed, word_new (by omega)]
    have hk : x + 8 + r = x + (r + 8) := by omega
    have hm : n - 8 - r - 8 = n - (r + 8) - 8 := by omega
    rw [hk, hm]
    refine Returns.bind_eq (setSize_eq (has_header hP (by omega) (by omega) (by omega))) ?_
    refine Returns.bind_eq (setPrevHdr_eq ((P.geometry hP).has (by omega) (by omega) (by omega))) ?_
    have hole₁ := h.hole.set (a := x + (r + 8) + 4)
      (v := word (n - (r + 8) - 8) true false) (by omega) (by omega)
    have hole₂ := hole₁.set (a := x + n) (v := BitVec.ofNat 32 (x + (r + 8))) (by omega)
      (by omega)
    refine (insertRest_spec (t := { t with lists := _ }) ⟨hole₂, h.exact⟩ hus hvs hfirst (k := n - 8)
      (p := true) ?_ hn8 hr4 hr hn4 (by omega) ?_ ?_).mono fun t' ⟨L', hrep, htag', hused, hdata, _⟩ =>
      ⟨_, L', r + 8, .inr ⟨by omega, rfl⟩, Nat.le_refl _, hrep, htag', hused, hdata⟩
    · dsimp only
      rw [Function.update_of_ne (by omega), Function.update_of_ne (by omega), htag]
    · dsimp only
      rw [Function.update_of_ne (by omega), Function.update_self]
    · exact Function.update_self ..
  · rw [if_neg (mt (ge_sizeofBhdr (by omega)).mp hge)]
    obtain ⟨m, ws, hm, -, hm4, hright⟩ := h.hole.next
    have hsize₂ := sizeOf_eq (t := t) hnext
    rw [hright] at hsize₂
    refine Returns.bind_eq hsize₂ ?_
    rw [prevFree, word_clear_prev hm4]
    refine Returns.bind_eq (setSize_eq hnext) ?_
    have hole₁ := h.hole.retag false hm
    have htag' : Function.update t.lists.mem (x + n + 4) ((P.geometry hP).tag false m) (x + 4) =
        word (n - 8) true (lastFree false us) := by
      rw [Function.update_of_ne (by omega), htag]
    have hsize' := sizeOf_eq (t := { t with lists := { t.lists with
      mem := Function.update t.lists.mem (x + n + 4) ((P.geometry hP).tag false m) } }) hheader
    dsimp only at hsize'
    rw [htag'] at hsize'
    refine Returns.bind_eq hsize' ?_
    rw [freeBlock, word_clear_free hn8]
    have hole₂ := hole₁.set (a := x + 4) (v := word (n - 8) false (lastFree false us)) (by omega)
      (by omega)
    refine ⟨_, setSize_eq hheader, _, L, n, .inl ⟨rfl, rfl⟩, hrn, ⟨?_, h.exact⟩,
      Function.update_self .., rfl, hole₂.data⟩
    exact hole₂.close_used hn hus hvs (Function.update_self ..)

-- ---------------------------------------------------------------------------
-- malloc_ex
-- ---------------------------------------------------------------------------

theorem le_fitted (n : Nat) : n ≤ fitted n ∧ 8 ≤ fitted n ∧ 4 ∣ fitted n := by
  rw [fitted]
  omega

theorem fitted_fitted (n : Nat) : fitted (fitted n) = fitted n := by
  simp only [fitted]
  omega

theorem fitted_le (h : n ≤ 2 ^ 30 - 2 ^ 24) : fitted n ≤ 2 ^ 30 - 2 ^ 24 := by
  rw [fitted]
  omega

theorem blockSize_eq (h : v.toNat + 8 ≤ 2 ^ 32) :
    blockSize v = BitVec.ofNat 32 (fitted v.toNat) := by
  rw [blockSize]
  split
  · rename_i hlt
    have hlt' : v.toNat < 8 := hlt
    have hfit : fitted v.toNat = 8 := by
      rw [fitted]
      omega
    rw [hfit, minBlockSize]
  · rename_i hge
    have hge' : ¬v.toNat < 8 := hge
    have hfit : fitted v.toNat = (v.toNat + 7) / 2 ^ 3 * 2 ^ 3 := by
      rw [fitted]
      omega
    have hsum : v + 7#32 = BitVec.ofNat 32 (v.toNat + 7) := by
      rw [BitVec.ofNat_add, BitVec.ofNat_toNat, BitVec.setWidth_eq]
    rw [roundupSize, hsum, hfit]
    exact and_not_low _ 3

theorem addUsed_eq (h : P.area.Has (z + 4)) (h4 : 4 ∣ k)
    (htag : t.lists.mem (z + 4) = word k p q) : t.addUsed P (BitVec.ofNat 32 z) =
      some { t with usedSize := t.usedSize + BitVec.ofNat 32 (k + 8) } := by
  simp only [Tlsf.addUsed, sizeOf_eq h, htag, tlsfBlockSize, word_size h4, Option.bind_eq_bind,
    Option.bind_some, Option.pure_def, bhdrOverhead, ← BitVec.ofNat_add]

theorem Tlsf.Rep.extractHdr (h : t.Rep (P.geometry hP) (us ++ ⟨n, true⟩ :: vs) L) {zs : List Nat}
    (hl : L c = x :: zs) (hx : stop (P.geometry hP).first us = x) :
    Returns (extractBlockHdr P t (BitVec.ofNat 32 x) c.1.val c.2.val) fun t' => ∃ L',
      t'.Work (P.geometry hP) us vs x (x + n) true L' none t.lists.mem ∧
      t'.lists.mem (x + 4) = word (n - 8) true (lastFree false us) ∧
      t'.usedSize = t.usedSize := by
  have hole := h.blocks.open
  rw [hx] at hole
  have hmem : x ∈ L c := by rw [hl]; exact List.mem_cons_self
  have hbound := hole.member_bounds ⟨c, hmem⟩
  have hfit : Fits ⟨n, true⟩ := h.blocks.fits _ (by simp)
  have hn16 : 16 ≤ n := hfit.1
  have h8 : P.area.Has (x + 8) := (P.geometry hP).has (by omega) (by omega) (by omega)
  have h12 : P.area.Has (x + 12) := (P.geometry hP).has (by omega) (by omega) (by omega)
  refine (extractBlockHdr_returns (Q := fun w => Hole (P.geometry hP) cellOf w us vs x (x + n) true
    (Function.update L c ((L c).erase x)) none t.lists.mem ∧
    w.mem (x + 4) = word (n - 8) true (lastFree false us)) (cell_val c) hmem h8 h12 h.exact
    ((hole.extractHdr hl).mono fun w ⟨hw, hm⟩ => ⟨hw.threaded, ?_, ?_⟩)).mono
    fun t' ⟨⟨hhole, htag⟩, hexact, hused⟩ => ⟨_, ⟨hhole, hexact⟩, htag, hused⟩
  · have hole₁ := hw.set (a := x + 8) (v := 0#32) (by omega) (by omega)
    exact hole₁.set (a := x + 12) (v := 0#32) (by omega) (by omega)
  · dsimp only [writeNode]
    rw [Function.update_of_ne (by omega), Function.update_of_ne (by omega), hm _ (by omega) (by omega)]
    exact hole.right.1

theorem Tlsf.Rep.span_lt {bs : List BoundaryTags.Block} (h : t.Rep (P.geometry hP) bs L)
    {b : BoundaryTags.Block} (hb : b ∈ bs) : b.span < 2 ^ 30 + 8 := by
  have hspan := h.blocks.span_le hb
  have hsmall := hP.small
  simp only [Pool.geometry] at hspan
  omega

theorem Tlsf.Rep.cell_of_mem {bs : List BoundaryTags.Block} (h : t.Rep (P.geometry hP) bs L)
    (hn : ⟨n, true⟩ ∈ bs) : ∃ c, cellOf n = some c := by
  obtain ⟨c, hc, -⟩ := cellOf_eq (h.span_lt hn)
  exact ⟨c, hc⟩

theorem mallocEx_spec {bs : List BoundaryTags.Block} (h : t.Rep (P.geometry hP) bs L)
    (hv : v.toNat ≤ 2 ^ 30 - 2 ^ 24) :
    Returns (mallocEx P t v) fun r =>
      (r = (0#32, t) ∧ ¬Offers (P.geometry hP) bs (roundUp 5 (fitted v.toNat))) ∨
      ∃ us vs n mid k L', bs = us ++ ⟨n, true⟩ :: vs ∧ roundUp 5 (fitted v.toNat) + 8 ≤ n ∧
        Cut n k mid ∧ roundUp 5 (fitted v.toNat) + 8 ≤ k ∧
        r.1 = BitVec.ofNat 32 (stop (P.geometry hP).first us + 8) ∧
        r.2.Rep (P.geometry hP) (us ++ (mid ++ vs)) L' ∧
        r.2.usedSize = t.usedSize + BitVec.ofNat 32 k ∧
        ∀ z, Payload (P.geometry hP) us vs (stop (P.geometry hP).first us + n) z →
          r.2.lists.mem z = t.lists.mem z := by
  obtain ⟨-, hr8, hr4⟩ := le_fitted v.toNat
  have hr30 := fitted_le hv
  obtain ⟨fl, sl, hsearch, hlater⟩ := mappingSearch_spec hr4 hr30
  rw [mallocEx, blockSize_eq (by omega), hsearch]
  generalize fitted v.toNat = r at *
  have hrr' := le_roundUp (k := 5) (r := r)
  have hr'4 : 4 ∣ roundUp 5 r := dvd_roundUp (e := 2) hr4
  have hr'30 := roundUp_lt hr4 hr30
  generalize roundUp 5 r = r' at *
  refine Returns.bind (findIn_spec lsBit_finds h.exact (by decide) fl sl) ?_
  rintro ⟨b, fl', sl'⟩ hfound
  rcases hfound with ⟨hb, hnone⟩ | ⟨c, hb, hne, hcls⟩
  · dsimp only at hb ⊢
    rw [if_pos hb]
    refine .pure (.inl ⟨rfl, ?_⟩)
    rintro ⟨n, hn, hrn⟩
    have hn4 := (h.blocks.fits _ hn).2
    have hrn' : r' + 8 ≤ n := hrn
    obtain ⟨c, hc⟩ := h.cell_of_mem hn
    exact hnone c (h.blocks.ne_nil hn hc) ((hlater n c hn4 (h.span_lt hn) hc).mpr (by omega))
  · obtain ⟨us, vs, n, zs, rfl, hl, hheadx, hne0, hc, hus, hvs, hfirst⟩ := h.blocks.head_block hne
    obtain ⟨rfl, rfl, rfl⟩ : b = t.lists.head c ∧ fl' = c.1.val ∧ sl' = c.2.val := by
      simpa using hb
    generalize hx : stop (P.geometry hP).first us = x at *
    rw [hheadx] at hne0 ⊢
    dsimp only
    rw [if_neg hne0]
    have hfit : Fits ⟨n, true⟩ := h.blocks.fits _ (by simp)
    have hn16 : 16 ≤ n := hfit.1
    have hn4 : 4 ∣ n := hfit.2
    refine Returns.bind (h.extractHdr hl hx) ?_
    rintro t₁ ⟨L₁, hwork, htag, hused₁⟩
    have hfirst' := hwork.hole.first_le
    have hlast' := hwork.hole.le_last
    have hx4 : 4 ∣ x := (Nat.dvd_add_left hn4).mp hwork.hole.dvd
    have hheader : P.area.Has (x + 4) := has_header hP hx4 hfirst' (by omega)
    have hn8 : 4 ∣ n - 8 := Nat.dvd_sub hn4 (by decide)
    have hspan := span_lt hwork.hole
    have hrn := (hlater n c hn4 (by omega) hc).mp hcls
    have hsize := sizeOf_eq (t := t₁) hheader
    rw [htag] at hsize
    refine Returns.bind_eq hsize ?_
    have hsum : x + 8 + (n - 8) = x + n := by omega
    rw [tlsfBlockSize, word_size hn8, next_eq, hsum]
    refine Returns.bind (splitFound_spec hwork (fits_mk hn16 hn4) hus hvs hfirst htag hr'4
      (by omega) (by omega)) fun t₂ ⟨mid, L₂, k, hcut, hk, hrep, htag₂, hused₂, hdata⟩ => ?_
    have hk4 : 4 ∣ k - 8 := hcut.four_dvd hrep.blocks
    refine Returns.bind_eq (addUsed_eq hheader hk4 htag₂) (.pure (.inr
      ⟨us, vs, n, mid, k, L₂, rfl, by omega, hcut, hk, ?_, ⟨hrep.blocks, hrep.exact⟩, ?_, ?_⟩))
    · rw [hx]
      exact ofNat_add_eight x
    · dsimp only
      rw [hused₂, hused₁, Nat.sub_add_cancel (by omega)]
    · rw [hx]
      exact hdata

-- ---------------------------------------------------------------------------
-- free_ex
-- ---------------------------------------------------------------------------

variable (hP) in
theorem mergeNext_spec (h : t.Work (P.geometry hP) us vs x (x + n) false L none d)
    (hn : Fits ⟨n, true⟩) (hvs : Coalesced vs) (htag : t.lists.mem (x + 4) = word (n - 8) true p) :
    Returns (mergeNext P t (BitVec.ofNat 32 x)) fun t' => ∃ vs' m q L',
      t'.Work (P.geometry hP) us vs' x (x + m) q L' none d ∧ Fits ⟨m, true⟩ ∧ Coalesced vs' ∧
      firstFree vs' = false ∧ t'.lists.mem (x + 4) = word (m - 8) true p ∧
      t'.usedSize = t.usedSize ∧ SameUsed (P.geometry hP) us vs (x + n) us vs' (x + m) ∧
      freeSpan vs' + m = freeSpan vs + n := by
  have hn16 : 16 ≤ n := hn.1
  have hn4 : 4 ∣ n := hn.2
  have hfirst := h.hole.first_le
  have hlast := h.hole.le_last
  have hx4 : 4 ∣ x := (Nat.dvd_add_left hn4).mp h.hole.dvd
  have hn8 : 4 ∣ n - 8 := Nat.dvd_sub hn4 (by decide)
  have hheader : P.area.Has (x + 4) := has_header hP hx4 hfirst (by omega)
  have hsize := sizeOf_eq (t := t) hheader
  rw [htag] at hsize
  have hsum : x + 8 + (n - 8) = x + n := by omega
  refine Returns.bind_eq hsize ?_
  rw [tlsfBlockSize, word_size hn8, next_eq, hsum]
  obtain ⟨m, ws, hm, hmf, hm4, hmtag⟩ := h.hole.next
  have hnext := sizeOf_eq (t := t) (has_header hP h.hole.dvd (by omega) hlast)
  rw [hmtag] at hnext
  refine Returns.bind_eq hnext ?_
  rw [freeBlock]
  by_cases hfree : firstFree vs = true
  · obtain ⟨k, vs, rfl⟩ := firstFree_split hfree
    have hk : Fits ⟨k, true⟩ := h.hole.fits _ (by simp)
    have hk16 : 16 ≤ k := hk.1
    have hk4 : 4 ∣ k := hk.2
    obtain ⟨hnot, hvs'⟩ := coalesced_cons.mp hvs
    have hktag : t.lists.mem (x + n + 4) = word (k - 8) true false := h.hole.right.1
    rw [if_pos ((word_free hm4).mpr (hmf.trans hfree))]
    refine Returns.bind h.takeOffNext fun t' ⟨L', hwork, hmem, hused⟩ => ?_
    have hbound := hwork.hole.le_last
    have hsize' := sizeOf_eq (t := t') hheader
    rw [hmem _ (by omega) (by omega), htag] at hsize'
    have hnext' := sizeOf_eq (t := t') (has_header hP h.hole.dvd (by omega) hlast)
    rw [hmem _ (by omega) (by omega), hktag] at hnext'
    refine Returns.bind_eq hsize' (Returns.bind_eq hnext' ?_)
    rw [word_size (Nat.dvd_sub hk4 (by decide)), bhdrOverhead, ← BitVec.ofNat_add, word_add]
    have hsize₂ : n - 8 + (k - 8 + 8) = n + k - 8 := by omega
    rw [hsize₂]
    have hhole := hwork.hole.set (a := x + 4) (v := word (n + k - 8) true p) (by omega) (by omega)
    rw [Nat.add_assoc] at hhole
    refine ⟨_, setSize_eq hheader, vs, n + k, true, L', ⟨hhole, hwork.exact⟩,
      fits_mk (by omega) (by omega), hvs', by simpa using hnot, Function.update_self .., hused,
      fun z m => ?_, ?_⟩
    · simp [Around, placed, Nat.add_assoc]
    · simp only [freeSpan_cons, if_true]
      omega
  · rw [if_neg (mt (word_free hm4).mp (by rwa [hmf]))]
    exact .pure ⟨vs, n, false, L, h, hn, hvs, by simpa using hfree, htag, rfl, fun _ _ => Iff.rfl, rfl⟩

theorem mergePrev_spec (h : t.Work (P.geometry hP) us vs x (x + n) q L none d)
    (hn : Fits ⟨n, true⟩) (hus : Coalesced us)
    (htag : t.lists.mem (x + 4) = word (n - 8) true (lastFree false us)) :
    Returns (mergePrev P t (BitVec.ofNat 32 x)) fun r => ∃ us' x' m L',
      r.1 = BitVec.ofNat 32 x' ∧ r.2.Work (P.geometry hP) us' vs x' (x' + m) q L' none d ∧
      Fits ⟨m, true⟩ ∧ Coalesced us' ∧ lastFree false us' = false ∧
      r.2.lists.mem (x' + 4) = word (m - 8) true false ∧ r.2.usedSize = t.usedSize ∧
      SameUsed (P.geometry hP) us vs (x + n) us' vs (x' + m) ∧
      freeSpan us' + m = freeSpan us + n := by
  have hn16 : 16 ≤ n := hn.1
  have hn4 : 4 ∣ n := hn.2
  have hfirst := h.hole.first_le
  have hlast := h.hole.le_last
  have hx4 : 4 ∣ x := (Nat.dvd_add_left hn4).mp h.hole.dvd
  have hn8 : 4 ∣ n - 8 := Nat.dvd_sub hn4 (by decide)
  have hheader : P.area.Has (x + 4) := has_header hP hx4 hfirst (by omega)
  have hsize := sizeOf_eq (t := t) hheader
  rw [htag] at hsize
  refine Returns.bind_eq hsize ?_
  rw [prevFree]
  by_cases hfree : lastFree false us = true
  · rw [if_pos ((word_prev hn8).mpr hfree)]
    obtain ⟨us, k, rfl⟩ := lastFree_split hfree
    have hk : Fits ⟨k, true⟩ := h.hole.fits _ (by simp)
    have hk16 : 16 ≤ k := hk.1
    have hk4 : 4 ∣ k := hk.2
    obtain ⟨hus', -, hnot⟩ := coalesced_append.mp hus
    have hlast' : lastFree false us = false := by simpa using hnot
    have hstart := h.hole.start
    rw [stop_append] at hstart
    have hstart' : stop (P.geometry hP).first us + k = x := hstart
    have hlink : t.lists.mem x = BitVec.ofNat 32 (stop (P.geometry hP).first us) := by
      rw [← hstart']
      exact Laid.link_at h.hole.left rfl
    have hlo : (P.geometry hP).first ≤ stop (P.geometry hP).first us := le_stop
    have hhas : P.area.Has x := (P.geometry hP).has hx4 (by omega) (by omega)
    have hprev : t.lists.prevHdr P.area (BitVec.ofNat 32 x) = some (t.lists.mem x) := load_ofNat hhas
    rw [hlink] at hprev
    refine Returns.bind_eq hprev (Returns.bind (h.takeOffPrev rfl)
      fun t' ⟨L', hwork, hktag, hmem, hused⟩ => ?_)
    generalize hz : stop (P.geometry hP).first us = z at *
    have hz4 : 4 ∣ z := (Nat.dvd_add_left hk4).mp (hstart' ▸ hx4)
    have hzheader : P.area.Has (z + 4) := has_header hP hz4 hlo (by omega)
    have hsize' := sizeOf_eq (t := t') hzheader
    rw [hktag, hlast'] at hsize'
    have hsize₂ := sizeOf_eq (t := t') hheader
    rw [hmem _ (by omega) (by omega), htag] at hsize₂
    refine Returns.bind_eq hsize' (Returns.bind_eq hsize₂ ?_)
    rw [tlsfBlockSize, word_size hn8, bhdrOverhead, ← BitVec.ofNat_add, word_add]
    have hsum : k - 8 + (n - 8 + 8) = k + n - 8 := by omega
    rw [hsum]
    have hhole := hwork.hole.set (a := z + 4) (v := word (k + n - 8) true false) (by omega)
      (by omega)
    have hend : x + n = z + (k + n) := by omega
    rw [hend] at hhole
    refine Returns.bind_eq (setSize_eq hzheader) (.pure ⟨us, z, k + n, L', rfl,
      ⟨hhole, hwork.exact⟩, fits_mk (by omega) (by omega), hus', hlast', Function.update_self ..,
      hused, fun a m => ?_, ?_⟩)
    · rw [hend]
      simp [Around, placed]
    · simp only [freeSpan_append, freeSpan_cons, if_true, freeSpan_nil]
      omega
  · rw [if_neg (mt (word_prev hn8).mp hfree)]
    have hlast' : lastFree false us = false := by simpa using hfree
    rw [hlast'] at htag
    exact .pure ⟨us, x, n, L, rfl, h, hn, hus, hlast', htag, rfl, fun _ _ => Iff.rfl, rfl⟩

theorem subUsed_eq (h : P.area.Has (z + 4)) (h4 : 4 ∣ k)
    (htag : t.lists.mem (z + 4) = word k p q) : t.subUsed P (BitVec.ofNat 32 z) =
      some { t with usedSize := t.usedSize - BitVec.ofNat 32 (k + 8) } := by
  simp only [Tlsf.subUsed, sizeOf_eq h, htag, tlsfBlockSize, word_size h4, Option.bind_eq_bind,
    Option.bind_some, Option.pure_def, bhdrOverhead, ← BitVec.ofNat_add]

theorem fill_spec (h : t.Work (P.geometry hP) us vs x (x + n) q L none d) (hn : Fits ⟨n, true⟩)
    (hus : Coalesced us) (hvs : Coalesced vs) (hlast : lastFree false us = false)
    (hfirst : firstFree vs = false) (htag : t.lists.mem (x + 4) = word (n - 8) true false) :
    Returns (do
      let (fl, sl) := mappingInsert ((← t.sizeOf P (BitVec.ofNat 32 x)) &&& tlsfBlockSize)
      let t ← insertBlock P t (BitVec.ofNat 32 x) fl sl
      let tmpB := getNextBlock (BitVec.ofNat 32 x + 8#32)
        ((← t.sizeOf P (BitVec.ofNat 32 x)) &&& tlsfBlockSize)
      let t ← t.setSize P tmpB ((← t.sizeOf P tmpB) ||| prevFree)
      t.setPrevHdr P tmpB (BitVec.ofNat 32 x)) fun t' => ∃ L',
      t'.Rep (P.geometry hP) (us ++ ([⟨n, true⟩] ++ vs)) L' ∧ t'.usedSize = t.usedSize ∧
      ∀ z, Payload (P.geometry hP) us vs (x + n) z → t'.lists.mem z = d z := by
  have hn16 : 16 ≤ n := hn.1
  have hn4 : 4 ∣ n := hn.2
  have hfirst' := h.hole.first_le
  have hlast' := h.hole.le_last
  have hx4 : 4 ∣ x := (Nat.dvd_add_left hn4).mp h.hole.dvd
  have hn8 : 4 ∣ n - 8 := Nat.dvd_sub hn4 (by decide)
  have hheader : P.area.Has (x + 4) := has_header hP hx4 hfirst' (by omega)
  have hnext : P.area.Has (x + n + 4) := has_header hP h.hole.dvd (by omega) hlast'
  have hlink : P.area.Has (x + n) := (P.geometry hP).has h.hole.dvd (by omega) (by omega)
  have hsize := sizeOf_eq (t := t) hheader
  rw [htag] at hsize
  refine Returns.bind_eq hsize ?_
  rw [tlsfBlockSize, word_size hn8]
  obtain ⟨c, hc, hins⟩ := h.insert (z := x) (k := n) (Nat.le_refl x) (Nat.le_refl _) hx4 hn16
  refine Returns.bind hins fun t₁ ⟨L₁, hwork, hmem, hused⟩ => ?_
  have hsize₁ := sizeOf_eq (t := t₁) hheader
  rw [hmem _ (by omega) (by omega) (by omega) (by omega), htag] at hsize₁
  have hsum : x + 8 + (n - 8) = x + n := by omega
  refine Returns.bind_eq hsize₁ ?_
  rw [word_size hn8, next_eq, hsum]
  obtain ⟨m, ws, hm, -, hm4, hmtag⟩ := hwork.hole.next
  have hsize₂ := sizeOf_eq (t := t₁) hnext
  rw [hmtag] at hsize₂
  refine Returns.bind_eq hsize₂ ?_
  rw [prevFree, word_set_prev hm4]
  refine Returns.bind_eq (setSize_eq hnext) ?_
  have hole₁ := hwork.hole.retag true hm
  have hole₂ := hole₁.write (a := x + n) (v := BitVec.ofNat 32 x) (by omega) (Nat.le_refl _)
    fun z c' he => by
      obtain ⟨rfl, -⟩ := Prod.mk.inj (Option.some.inj he)
      omega
  refine ⟨_, setPrevHdr_eq hlink, L₁, ⟨?_, hwork.exact⟩, hused, hole₂.data⟩
  refine hole₂.close_free hn hc hus hvs hlast hfirst ?_ (Function.update_self ..)
  dsimp only
  rw [Function.update_of_ne (by omega), Function.update_of_ne (by omega),
    hmem _ (by omega) (by omega) (by omega) (by omega)]
  exact htag

theorem freeEx_spec (h : t.Rep (P.geometry hP) (us ++ ⟨n, false⟩ :: vs) L)
    (hx : stop (P.geometry hP).first us = x) :
    Returns (freeEx P t (BitVec.ofNat 32 (x + 8))) fun t' => ∃ us' m vs' L',
      t'.Rep (P.geometry hP) (us' ++ ([⟨m, true⟩] ++ vs')) L' ∧
      SameUsed (P.geometry hP) us vs (x + n) us' vs' (stop (P.geometry hP).first us' + m) ∧
      freeSpan us' + m + freeSpan vs' = freeSpan us + n + freeSpan vs ∧
      t'.usedSize = t.usedSize - BitVec.ofNat 32 n ∧
      ∀ z, Payload (P.geometry hP) us vs (x + n) z → t'.lists.mem z = t.lists.mem z := by
  obtain ⟨hus, hvs', -⟩ := coalesced_append.mp h.blocks.coalesced
  obtain ⟨-, hvs⟩ := coalesced_cons.mp hvs'
  have hole := h.blocks.open
  rw [hx] at hole
  have htag : t.lists.mem (x + 4) = word (n - 8) false (lastFree false us) := hole.right.1
  have hole₀ := hole.take
  have hfit : Fits ⟨n, false⟩ := h.blocks.fits _ (by simp)
  have hn16 : 16 ≤ n := hfit.1
  have hn4 : 4 ∣ n := hfit.2
  have hfirst := hole₀.first_le
  have hlast := hole₀.le_last
  have hspan := span_lt hole₀
  have hx4 : 4 ∣ x := hole.dvd
  have hn8 : 4 ∣ n - 8 := Nat.dvd_sub hn4 (by decide)
  have hheader : P.area.Has (x + 4) := has_header hP hx4 hfirst (by omega)
  have h8 : P.area.Has (x + 8) := (P.geometry hP).has (by omega) (by omega) (by omega)
  have h12 : P.area.Has (x + 12) := (P.geometry hP).has (by omega) (by omega) (by omega)
  have hptr : BitVec.ofNat 32 (x + 8) ≠ 0#32 := fun h0 => by
    have hnone : ptr (BitVec.ofNat 32 (x + 8)) = none := by rw [h0]; rfl
    rw [ptr_ofNat (by omega) h8.lt] at hnone
    cases hnone
  rw [freeEx, if_neg hptr, bhdrOverhead, ofNat_sub (by omega) h8.lt, Nat.add_sub_cancel]
  dsimp only
  have hsize := sizeOf_eq (t := t) hheader
  rw [htag] at hsize
  refine Returns.bind_eq hsize ?_
  rw [freeBlock, word_set_free hn8]
  refine Returns.bind_eq (setSize_eq hheader) ?_
  have hole₁ := hole₀.set (a := x + 4) (v := word (n - 8) true (lastFree false us)) (by omega)
    (by omega)
  refine Returns.bind_eq (subUsed_eq hheader hn8 (Function.update_self ..)) ?_
  have hole₂ := hole₁.set (a := x + 8) (v := 0#32) (by omega) (by omega)
  have hole₃ := hole₂.set (a := x + 12) (v := 0#32) (by omega) (by omega)
  refine Returns.bind_eq (clearFreePtr_eq h8 h12) ?_
  have htag₃ : writeNode (Function.update t.lists.mem (x + 4)
      (word (n - 8) true (lastFree false us))) x 0#32 0#32 (x + 4) =
      word (n - 8) true (lastFree false us) := by
    rw [writeNode, Function.update_of_ne (by omega), Function.update_of_ne (by omega),
      Function.update_self]
  refine Returns.bind (mergeNext_spec hP ⟨hole₃, h.exact⟩ (fits_mk hn16 hn4) hvs htag₃) ?_
  rintro t₁ ⟨vs', m, q, L₁, hwork₁, hm, hvs', hfirst', htag₁, hused₁, hsame₁, hsum₁⟩
  refine Returns.bind (mergePrev_spec hwork₁ hm hus htag₁) ?_
  rintro ⟨b, t₂⟩ ⟨us', x', m', L₂, hb, hwork₂, hm', hus', hlast', htag₂, hused₂, hsame₂, hsum₂⟩
  dsimp only at hb hwork₂ htag₂ hused₂ ⊢
  subst hb
  refine (fill_spec hwork₂ hm' hus' hvs' hlast' hfirst' htag₂).mono ?_
  rintro t' ⟨L', hrep, hused', hdata⟩
  have hsame : SameUsed (P.geometry hP) us vs (x + n) us' vs' (x' + m') := fun z k =>
    (hsame₂ z k).trans (hsame₁ z k)
  refine ⟨us', m', vs', L', hrep, ?_, by omega, ?_, fun z hz => hdata z ?_⟩
  · rw [hwork₂.hole.start]
    exact hsame
  · rw [hused', hused₂, hused₁]
    dsimp only
    rw [Nat.sub_add_cancel (by omega)]
  · obtain ⟨u, k, hu, hz⟩ := hz
    exact ⟨u, k, (hsame u k).mpr hu, hz⟩

end

end Xmertl.Xtratum
