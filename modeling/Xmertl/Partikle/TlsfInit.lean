import Xmertl.Partikle.TlsfCalls

/-!
# init_memory_pool

Which pools the function takes, the block that it makes of one, and the list that it looks
for with the flags of the block's size among the bits of its size.
-/

namespace Xmertl.Partikle.MemoryPool

open BoundaryTags SizeClasses ThreadedLists TlsfPool TotalCorrectness

def Pool.Accepted (P : Pool) : Prop :=
  0 < P.start ∧ 4 ∣ P.start ∧ 3304 ≤ P.size ∧ P.size < 2 ^ 32

instance (P : Pool) : Decidable P.Accepted := inferInstanceAs (Decidable (_ ∧ _ ∧ _ ∧ _))

/-- The first block, whose header is the `size` alone. -/
def Pool.firstBlock (P : Pool) : Word := BitVec.ofNat 32 (P.start + 3172)

/-- The header of the first block gives this size, with which the block and the header of the
sentinel behind it lie in the pool. -/
def Pool.HasBlock (P : Pool) (t : Tlsf) (size : Word) : Prop :=
  (∃ w, t.sizeOf P P.firstBlock = some w ∧ w &&& blockSize = size) ∧
    3176 + size.toNat + 8 ≤ P.size

/-- A call of the function takes the pool for initialised: it succeeds and changes nothing. -/
def Pool.Taken (P : Pool) (t : Tlsf) : Prop := ∃ v, initMemoryPool P t = some (v, t) ∧ v ≠ -1#32

/-- What the function is to do: it makes the block whose size it returns, or it fails, and no
later call takes the pool for initialised for that. -/
def Pool.SetsUp (P : Pool) (t : Tlsf) : Prop :=
  Returns (initMemoryPool P t) fun q =>
    (q.1 ≠ -1#32 → P.HasBlock q.2 q.1) ∧
      (q.1 = -1#32 → ∀ P' : Pool, P'.start = P.start → P'.Taken q.2 → P'.Taken t)

section
variable {P : Pool} {t t' : Tlsf} {n : Nat}

theorem rounddownSize_eq (hlo : 3304 ≤ n) (hhi : n < 2 ^ 32) :
    rounddownSize (BitVec.ofNat 32 n - sizeofTlsf - 2#32 * bhdrOverhead) =
      BitVec.ofNat 32 ((n - 3184) / 4 * 4) := by
  have hsub : BitVec.ofNat 32 n - sizeofTlsf - 2#32 * bhdrOverhead = BitVec.ofNat 32 (n - 3184) := by
    have htlsf : BitVec.ofNat 32 n - 3176#32 = BitVec.ofNat 32 (n - 3176) := ofNat_sub (by omega) hhi
    have hhdrs : BitVec.ofNat 32 (n - 3176) - 8#32 = BitVec.ofNat 32 (n - 3176 - 8) :=
      ofNat_sub (by omega) (by omega)
    have htwo : 2#32 * bhdrOverhead = 8#32 := by decide
    rw [htwo, sizeofTlsf, htlsf, hhdrs, Nat.sub_sub]
  rw [hsub]
  exact and_not_low (n - 3184) 2

theorem initMemoryPool_refused (h : ¬P.Accepted) : initMemoryPool P t = some (-1#32, t) := by
  have htop := P.top
  rw [initMemoryPool]
  split
  · rfl
  · rename_i hargs
    split
    · rfl
    · rename_i halign
      refine absurd ?_ h
      simp only [not_or, BitVec.lt_def, BitVec.toNat_ofNat] at hargs
      obtain ⟨hstart, hzero, hlarge⟩ := hargs
      have hmin : (sizeofTlsf + 128#32).toNat = 3304 := by decide
      rw [hmin] at hlarge
      have hlt := Nat.mod_le P.size (2 ^ 32)
      have hne : P.size ≠ 2 ^ 32 := fun h => by simp [h] at hzero
      have hpos : P.start ≠ 0 := fun h => by simp [h] at hstart
      exact ⟨by omega, dvd_of_and_three (not_not.mp halign), by omega, by omega⟩

theorem Pool.Accepted.tests (h : P.Accepted) :
    ¬(BitVec.ofNat 32 P.start = 0#32 ∨ BitVec.ofNat 32 P.size = 0#32 ∨
      BitVec.ofNat 32 P.size < sizeofTlsf + 128#32) ∧ ¬BitVec.ofNat 32 P.start &&& 3#32 ≠ 0#32 := by
  obtain ⟨hpos, haligned, hlarge, hsize⟩ := h
  have htop := P.top
  have hsizeNat := toNat_ofNat hsize
  have hstartNat := toNat_ofNat (show P.start < 2 ^ 32 by omega)
  constructor
  · have hmin : (sizeofTlsf + 128#32).toNat = 3304 := by decide
    have hzero : (0#32).toNat = 0 := rfl
    rw [BitVec.lt_def, hmin, ← BitVec.toNat_inj, ← BitVec.toNat_inj, hsizeNat, hstartNat, hzero]
    omega
  · exact not_not_intro (and_three_of_dvd haligned)

theorem initMemoryPool_accepted (h : P.Accepted) :
    initMemoryPool P t = (do
      let t : Tlsf :=
        ⟨tlsfSignature, 0#32, ⟨0#32, fun _ => 0#32⟩, fun _ => 0#32, fun _ => 0#32⟩
      let t ← t.setSize P P.firstBlock (word P.room true false)
      let t ← t.setFreePtr P P.firstBlock 0#32 0#32
      if (← t.sizeOf P P.firstBlock) > 1#32 <<< 30 then return (-1#32, t)
      let (fl, sl) := mappingInsert (← t.sizeOf P P.firstBlock)
      let t ← insertBlock P t P.firstBlock fl sl
      let lb := getNextBlock (P.firstBlock + 8#32) ((← t.sizeOf P P.firstBlock) &&& blockSize)
      let t ← t.setPrevHdr P lb P.firstBlock
      let t ← t.setSize P lb (0#32 ||| usedBlock ||| prevFree)
      return ((← t.sizeOf P P.firstBlock) &&& blockSize, t)) := by
  obtain ⟨hargs, halign⟩ := h.tests
  obtain ⟨-, -, hlarge, hsize⟩ := h
  have hb : getNextBlock (BitVec.ofNat 32 P.start) sizeofTlsf = P.firstBlock := by
    have hsum : BitVec.ofNat 32 P.start + 3176#32 = BitVec.ofNat 32 (P.start + 3172) + 4#32 := by
      rw [← BitVec.ofNat_add, ← BitVec.ofNat_add]
    rw [getNextBlock, sizeofTlsf, hsum, BitVec.add_sub_cancel]
    rfl
  have hroom : 4 ∣ P.room := Nat.dvd_mul_left ..
  rw [initMemoryPool, if_neg hargs, if_neg halign]
  dsimp only
  rw [hb, rounddownSize_eq hlarge hsize, freeBlock, prevUsed, ← Pool.room, word_new hroom]

theorem Pool.Accepted.has (h : P.Accepted) (z : Nat) (hlo : 4 ≤ z) (hhi : 3176 + z ≤ P.size)
    (h4 : 4 ∣ z) : P.area.Has (P.start + 3172 + z) := by
  obtain ⟨-, haligned, -⟩ := h
  refine ⟨?_, ?_, by omega⟩
  · change P.start + 3176 ≤ _
    omega
  · change _ ≤ P.start + P.size
    omega

theorem Pool.room_dvd (P : Pool) : 4 ∣ P.room := Nat.dvd_mul_left ..

theorem Pool.Accepted.room_le (h : P.Accepted) : 120 ≤ P.room ∧ P.room + 3184 ≤ P.size := by
  obtain ⟨-, -, hlarge, -⟩ := h
  rw [Pool.room]
  omega

theorem Pool.Accepted.room_small (h : P.Accepted) : 128 ≤ P.room ↔ 3312 ≤ P.size := by
  obtain ⟨-, -, hlarge, -⟩ := h
  rw [Pool.room]
  omega

theorem word_toNat (h : n + 1 < 2 ^ 32) : (word n true false).toNat = n + 1 :=
  toNat_ofNat (by simpa using h)

theorem too_large_iff (h : n + 1 < 2 ^ 32) (h4 : 4 ∣ n) :
    word n true false > 1#32 <<< 30 ↔ 2 ^ 30 ≤ n := by
  have hmax : (1#32 <<< 30).toNat = 2 ^ 30 := by decide
  rw [gt_iff_lt, BitVec.lt_def, hmax, word_toNat h]
  omega

theorem mappingInsert_flag (h₁ : 128 ≤ n) (h₂ : n < 2 ^ 30) (h4 : 4 ∣ n) :
    mappingInsert (word n true false) = mappingInsert (BitVec.ofNat 32 n) := by
  have hlog := seven_le_log2 h₁
  obtain ⟨hsame, hsecond⟩ := class_add (k := 5) (e := 2) (a := 1) (show 2 ^ 5 ≤ n by omega) h4
    (by omega) (by decide)
  have hword : word n true false = BitVec.ofNat 32 (n + 1) := rfl
  rw [hword, mappingInsert_eq (by omega) (by omega), mappingInsert_eq h₁ h₂, hsame, hsecond]

theorem mappingInsert_tiny (h₁ : 64 ≤ n) (h₂ : n + 1 < 128) :
    (mappingInsert (word n true false)).1 = -1 := by
  have hlog : (n + 1).log2 = 6 := (Nat.log2_eq_iff (by omega)).mpr ⟨by omega, by omega⟩
  have hword : word n true false = BitVec.ofNat 32 (n + 1) := rfl
  simp only [mappingInsert, hword, fls_eq (show 0 < n + 1 by omega) (show n + 1 < 2 ^ 32 by omega),
    hlog]
  rfl

theorem insert_empty {c : Fin 23 × Fin 32} {fl sl : Int} {x : Nat} {mem : Nat → Word} {s u : Word}
    {lv : Levels 23} (hc : cell 23 fl sl = some c) (h8 : P.area.Has (x + 8))
    (h12 : P.area.Has (x + 12)) :
    insertBlock P ⟨s, u, lv, fun _ => 0#32, mem⟩ (BitVec.ofNat 32 x) fl sl =
      some ⟨s, u, lv.set c, Function.update (fun _ => 0#32) (.inr c) (BitVec.ofNat 32 x),
        writeNode mem x 0#32 0#32⟩ := by
  simp only [insertBlock, hc, FreeLists.insert, setFreePtr_eq h8 h12, Area.setPrev,
    Option.bind_eq_bind, Option.bind_some, ne_eq, not_true, if_false, Option.pure_def]

theorem initMemoryPool_big (h : P.Accepted) (hbig : 2 ^ 30 ≤ P.room) :
    ∃ t', initMemoryPool P t = some (-1#32, t') ∧ t'.levels.flBitmap = 0#32 := by
  obtain ⟨-, hin⟩ := h.room_le
  have hsize := h.2.2.2
  have hheader : P.area.Has (P.start + 3172 + 4) := h.has 4 (by decide) (by omega) (by decide)
  have h8 : P.area.Has (P.start + 3172 + 8) := h.has 8 (by decide) (by omega) (by decide)
  have h12 : P.area.Has (P.start + 3172 + 12) := h.has 12 (by decide) (by omega) (by decide)
  rw [initMemoryPool_accepted h]
  unfold Pool.firstBlock
  generalize P.start + 3172 = x at *
  have htag : writeNode (Function.update (fun _ => 0#32) (x + 4) (word P.room true false)) x 0#32
      0#32 (x + 4) = word P.room true false := by
    rw [writeNode, Function.update_of_ne (by omega), Function.update_of_ne (by omega),
      Function.update_self]
  have hgt : word P.room true false > 1#32 <<< 30 :=
    (too_large_iff (by omega) P.room_dvd).mpr hbig
  simp only [setSize_eq hheader, clearFreePtr_eq h8 h12, sizeOf_eq hheader, htag, if_pos hgt,
    Option.bind_eq_bind, Option.bind_some, Option.pure_def]
  exact ⟨_, rfl, rfl⟩

theorem initMemoryPool_small (h : P.Accepted) (hsmall : P.room < 2 ^ 30) :
    if 3312 ≤ P.size then ∃ t', initMemoryPool P t = some (BitVec.ofNat 32 P.room, t') ∧
      t'.levels.flBitmap ≠ 0#32 ∧ t'.sizeOf P P.firstBlock = some (word P.room true false)
    else initMemoryPool P t = none := by
  obtain ⟨hmin, hin⟩ := h.room_le
  have hdvd := P.room_dvd
  have hroom := h.room_small
  have hsize := h.2.2.2
  have hheader : P.area.Has (P.start + 3172 + 4) := h.has 4 (by decide) (by omega) (by decide)
  have h8 : P.area.Has (P.start + 3172 + 8) := h.has 8 (by decide) (by omega) (by decide)
  have h12 : P.area.Has (P.start + 3172 + 12) := h.has 12 (by decide) (by omega) (by decide)
  have hlb : P.area.Has (P.start + 3172 + (4 + P.room)) :=
    h.has _ (by omega) (by omega) (by omega)
  have hlb4 : P.area.Has (P.start + 3172 + (4 + P.room + 4)) :=
    h.has _ (by omega) (by omega) (by omega)
  rw [← Nat.add_assoc] at hlb
  rw [← Nat.add_assoc, ← Nat.add_assoc] at hlb4
  rw [initMemoryPool_accepted h]
  unfold Pool.firstBlock
  generalize P.start + 3172 = x at *
  have htag : ∀ mem : Nat → Word, mem (x + 4) = word P.room true false →
      writeNode mem x 0#32 0#32 (x + 4) = word P.room true false := by
    intro mem hmem
    rw [writeNode, Function.update_of_ne (by omega), Function.update_of_ne (by omega), hmem]
  have htag₁ := htag (Function.update (fun _ => 0#32) (x + 4) (word P.room true false))
    (Function.update_self ..)
  have hngt : ¬word P.room true false > 1#32 <<< 30 :=
    mt (too_large_iff (by omega) P.room_dvd).mp (Nat.not_le.mpr hsmall)
  simp only [setSize_eq hheader, clearFreePtr_eq h8 h12, sizeOf_eq hheader, htag₁, if_neg hngt,
    Option.bind_eq_bind, Option.bind_some, Option.pure_def]
  split
  · rename_i hsplit
    have hlarge := hroom.mpr hsplit
    obtain ⟨c, hc, -⟩ := mappingInsert_cell hlarge hsmall
    have hcell : cell 23 (mappingInsert (word P.room true false)).1
        (mappingInsert (word P.room true false)).2 = some c := by
      rw [mappingInsert_flag hlarge hsmall hdvd, hc, cell_val]
    simp only [insert_empty hcell h8 h12, htag _ htag₁, blockSize, word_size hdvd,
      next_eq, setPrevHdr_eq hlb, setSize_eq hlb4, Option.bind_some]
    generalize hmem : writeNode (writeNode (Function.update (fun _ => 0#32) (x + 4)
      (word P.room true false)) x 0#32 0#32) x 0#32 0#32 = mem
    have htag₃ : mem (x + 4) = word P.room true false := hmem ▸ htag _ htag₁
    have htag₄ : Function.update (Function.update mem (x + 4 + P.room) (BitVec.ofNat 32 x))
        (x + 4 + P.room + 4) (0#32 ||| usedBlock ||| prevFree) (x + 4) = word P.room true false := by
      rw [Function.update_of_ne (by omega), Function.update_of_ne (by omega), htag₃]
    rw [htag₄, word_size hdvd]
    refine ⟨_, rfl, ?_, congrArg some htag₄⟩
    exact BitVec.ne_zero_iff.mpr ⟨bit c.1, BitVec.has_setBit.mpr (.inr rfl)⟩
  · -- the first level of the class is one before the first
    rename_i hsplit
    have htiny := mt hroom.mp hsplit
    have hfl := mappingInsert_tiny (n := P.room) (by omega) (by omega)
    have hnone : ∀ sl, cell 23 (-1) sl = none := fun sl => rfl
    simp only [insertBlock, hfl, hnone, Option.bind_eq_bind, Option.bind_none]

theorem masked_ne {w : Word} : w &&& blockSize ≠ -1#32 := by
  intro h
  have hbit := congrArg (fun x => BitVec.getLsbD x 0) h
  simp [blockSize] at hbit

theorem not_taken (h : t.levels.flBitmap = 0#32) : ¬P.Taken t := by
  rintro ⟨v, hv, hne⟩
  by_cases hacc : P.Accepted
  · by_cases hbig : 2 ^ 30 ≤ P.room
    · obtain ⟨t', ht', -⟩ := initMemoryPool_big (t := t) hacc hbig
      rw [hv] at ht'
      exact hne (Prod.mk.inj (Option.some.inj ht')).1
    · have hsmall := initMemoryPool_small (t := t) hacc (Nat.lt_of_not_le hbig)
      split at hsmall
      · obtain ⟨t', ht', hfl, -⟩ := hsmall
        rw [hv] at ht'
        obtain ⟨-, rfl⟩ := Prod.mk.inj (Option.some.inj ht')
        exact hfl h
      · cases hv.symm.trans hsmall
  · rw [initMemoryPool_refused hacc] at hv
    exact hne (Prod.mk.inj (Option.some.inj hv)).1.symm

/-- The function does what it is to do exactly where it refuses its arguments or its block is
not a small one. -/
theorem setsUp_iff : P.SetsUp t ↔ ¬P.Accepted ∨ 3312 ≤ P.size := by
  rw [Pool.SetsUp]
  by_cases hacc : P.Accepted
  case neg =>
    rw [initMemoryPool_refused hacc, returns_some]
    exact iff_of_true ⟨fun hne => absurd rfl hne, fun _ _ _ h => h⟩ (.inl hacc)
  rw [or_iff_right (not_not_intro hacc)]
  obtain ⟨-, hin⟩ := hacc.room_le
  have hdvd := P.room_dvd
  by_cases hbig : 2 ^ 30 ≤ P.room
  · obtain ⟨t', ht', hfl⟩ := initMemoryPool_big (t := t) hacc hbig
    rw [ht', returns_some]
    exact iff_of_true ⟨fun hne => absurd rfl hne, fun _ P' _ h => absurd h (not_taken hfl)⟩ (by omega)
  · have hlt := Nat.lt_of_not_le hbig
    have hsmall := initMemoryPool_small (t := t) hacc hlt
    split at hsmall
    · rename_i hlarge
      obtain ⟨t', ht', -, hheader⟩ := hsmall
      have hne : BitVec.ofNat 32 P.room ≠ -1#32 := by
        rw [← word_size (f := true) (p := false) hdvd]
        exact masked_ne
      rw [ht', returns_some]
      refine iff_of_true ⟨fun _ => ⟨⟨_, hheader, word_size hdvd⟩, ?_⟩, fun he => absurd he hne⟩ hlarge
      dsimp only
      rw [toNat_ofNat (show P.room < 2 ^ 32 by omega)]
      omega
    · rename_i htiny
      rw [hsmall]
      exact iff_of_false returns_none htiny

end

end Xmertl.Partikle.MemoryPool
