import Xmertl.Xtratum.TlsfCalls

/-!
# init_memory_pool

Which pools the function takes, the block that it makes of one, and where it writes the
sentinel behind that block.
-/

namespace Xmertl.Xtratum

open BoundaryTags ThreadedLists TlsfPool TotalCorrectness

def Pool.Accepted (P : Pool) : Prop :=
  0 < P.start ∧ 4 ∣ P.start ∧ 3308 ≤ P.size ∧ P.size < 2 ^ 32

instance (P : Pool) : Decidable P.Accepted := inferInstanceAs (Decidable (_ ∧ _ ∧ _ ∧ _))

def Pool.firstBlock (P : Pool) : Word := BitVec.ofNat 32 (P.start + 3184)

/-- The header of the first block gives this size, with which the block and the header of the
sentinel behind it lie in the pool. -/
def Pool.HasBlock (P : Pool) (t : Tlsf) (size : Word) : Prop :=
  (∃ w, t.sizeOf P P.firstBlock = some w ∧ w &&& tlsfBlockSize = size) ∧
    3184 + 8 + size.toNat + 8 ≤ P.size

/-- The link of the first block and its size are the same but for the flags, and give a block
that lies in the pool with the header behind it. -/
def Pool.LinkIsSize (P : Pool) (t : Tlsf) : Prop :=
  t.lists.mem (P.start + 3184) &&& tlsfBlockSize = t.lists.mem (P.start + 3188) &&& tlsfBlockSize ∧
    3200 + (t.lists.mem (P.start + 3188) &&& tlsfBlockSize).toNat ≤ P.size

instance (P : Pool) (t : Tlsf) : Decidable (P.LinkIsSize t) := inferInstanceAs (Decidable (_ ∧ _))

/-- A call of the function takes the pool for initialised: it succeeds and changes nothing. -/
def Pool.Taken (P : Pool) (t : Tlsf) : Prop := ∃ v, initMemoryPool P t = some (v, t) ∧ v ≠ -1#32

/-- What the function is to do: it makes the block whose size it returns, or it fails, and no
later call takes the pool for initialised for that. -/
def Pool.SetsUp (P : Pool) (t : Tlsf) : Prop :=
  Returns (initMemoryPool P t) fun q =>
    (q.1 ≠ -1#32 → P.HasBlock q.2 q.1) ∧
      (q.1 = -1#32 → ∀ P' : Pool, P'.start = P.start → P'.Taken q.2 → P'.Taken t)

section
variable {P : Pool} {t t' : Tlsf} {s : Word}

theorem rounddownSize_eq {n : Nat} (hlo : 3308 ≤ n) (hhi : n < 2 ^ 32) :
    rounddownSize (BitVec.ofNat 32 n - sizeofTlsf - 2#32 * bhdrOverhead) =
      BitVec.ofNat 32 ((n - 3196) / 8 * 8) := by
  have hsub : BitVec.ofNat 32 n - sizeofTlsf - 2#32 * bhdrOverhead = BitVec.ofNat 32 (n - 3196) := by
    have htlsf : BitVec.ofNat 32 n - 3180#32 = BitVec.ofNat 32 (n - 3180) := ofNat_sub (by omega) hhi
    have hhdrs : BitVec.ofNat 32 (n - 3180) - 16#32 = BitVec.ofNat 32 (n - 3180 - 16) :=
      ofNat_sub (by omega) (by omega)
    have htwo : 2#32 * bhdrOverhead = 16#32 := by decide
    rw [htwo, sizeofTlsf, htlsf, hhdrs, Nat.sub_sub]
  rw [hsub]
  exact and_not_low (n - 3196) 3

theorem initMemoryPool_refused (h : ¬P.Accepted) : initMemoryPool P t = some (-1#32, t) := by
  have htop := P.top
  rw [initMemoryPool]
  split
  · rfl
  · rename_i hargs
    split
    · rfl
    · rename_i halign
      refine absurd ?_ h
      simp only [not_or, BitVec.lt_def, BitVec.toNat_ofNat] at hargs
      obtain ⟨hstart, hzero, hlarge⟩ := hargs
      have hmin : (sizeofTlsf + 128#32).toNat = 3308 := by decide
      rw [hmin] at hlarge
      have hlt := Nat.mod_le P.size (2 ^ 32)
      have hne : P.size ≠ 2 ^ 32 := fun h => by simp [h] at hzero
      have hpos : P.start ≠ 0 := fun h => by simp [h] at hstart
      exact ⟨by omega, dvd_of_and_three (not_not.mp halign), by omega, by omega⟩

theorem Pool.Accepted.tests (h : P.Accepted) :
    ¬(BitVec.ofNat 32 P.start = 0#32 ∨ BitVec.ofNat 32 P.size = 0#32 ∨
      BitVec.ofNat 32 P.size < sizeofTlsf + 128#32) ∧ ¬BitVec.ofNat 32 P.start &&& 3#32 ≠ 0#32 := by
  obtain ⟨hpos, haligned, hlarge, hsize⟩ := h
  have htop := P.top
  have hsizeNat := toNat_ofNat hsize
  have hstartNat := toNat_ofNat (show P.start < 2 ^ 32 by omega)
  constructor
  · have hmin : (sizeofTlsf + 128#32).toNat = 3308 := by decide
    have hzero : (0#32).toNat = 0 := rfl
    rw [BitVec.lt_def, hmin, ← BitVec.toNat_inj, ← BitVec.toNat_inj, hsizeNat, hstartNat, hzero]
    omega
  · exact not_not_intro (and_three_of_dvd haligned)

theorem initMemoryPool_accepted (h : P.Accepted) (hsig : t.signature ≠ tlsfSignature) :
    initMemoryPool P t = (do
      let t : Tlsf := ⟨tlsfSignature, 0#32, ⟨0#32, fun _ => 0#32⟩, fun _ => 0#32, fun _ => 0#32⟩
      let t ← t.setSize P P.firstBlock (word P.room true false)
      let t ← t.setFreePtr P P.firstBlock 0#32 0#32
      if (← t.sizeOf P P.firstBlock) > 1#32 <<< 30 then return (-1#32, t)
      let size := (← t.sizeOf P P.firstBlock) &&& tlsfBlockSize
      let (fl, sl) := mappingInsert size
      let t ← insertBlock P t P.firstBlock fl sl
      let lb := getNextBlock (P.firstBlock + 8#32) ((← t.sizeOf P P.firstBlock) &&& tlsfBlockSize)
      let t ← t.setPrevHdr P lb P.firstBlock
      let t ← t.setSize P lb (0#32 ||| usedBlock ||| prevFree)
      let size := (← t.sizeOf P P.firstBlock) &&& tlsfBlockSize
      return (size, { t with usedSize := BitVec.ofNat 32 P.size - size })) := by
  obtain ⟨hargs, halign⟩ := h.tests
  obtain ⟨-, -, hlarge, hsize⟩ := h
  have hb : getNextBlock (BitVec.ofNat 32 P.start) (roundupSize sizeofTlsf) = P.firstBlock := by
    have hround : roundupSize sizeofTlsf = 3184#32 := by decide
    rw [hround, getNextBlock, ← BitVec.ofNat_add]
    rfl
  have hroom : 4 ∣ P.room := Nat.dvd_mul_left_of_dvd (by decide) _
  rw [initMemoryPool, if_neg hargs, if_neg halign, if_neg hsig]
  dsimp only
  rw [hb, rounddownSize_eq hlarge hsize, freeBlock, prevUsed, ← Pool.room, word_new hroom]

theorem Pool.Accepted.has (h : P.Accepted) (z : Nat) (hhi : 3188 + z ≤ P.size) (h4 : 4 ∣ z) :
    P.area.Has (P.start + 3184 + z) := by
  obtain ⟨-, haligned, -⟩ := h
  refine ⟨?_, ?_, by omega⟩
  · change P.start + 3180 ≤ _
    omega
  · change _ ≤ P.start + P.size
    omega

theorem Pool.room_dvd (P : Pool) : 8 ∣ P.room := Nat.dvd_mul_left ..

theorem Pool.Accepted.room_le (h : P.Accepted) :
    112 ≤ P.room ∧ P.room + 3196 ≤ P.size ∧ P.size < P.room + 3204 := by
  obtain ⟨-, -, hlarge, -⟩ := h
  rw [Pool.room]
  omega

theorem word_toNat {n : Nat} (h : n + 1 < 2 ^ 32) : (word n true false).toNat = n + 1 :=
  toNat_ofNat (by simpa using h)

theorem insert_empty {c : Fin 24 × Fin 32} {fl sl : Int} {x : Nat} {mem : Nat → Word} {u : Word}
    {lv : Levels 24} (hc : cell 24 fl sl = some c) (h8 : P.area.Has (x + 8))
    (h12 : P.area.Has (x + 12)) :
    insertBlock P ⟨s, u, lv, fun _ => 0#32, mem⟩ (BitVec.ofNat 32 x) fl sl =
      some ⟨s, u, lv.set c, Function.update (fun _ => 0#32) c (BitVec.ofNat 32 x),
        writeNode mem x 0#32 0#32⟩ := by
  simp only [insertBlock, hc, FreeLists.insert, setFreePtr_eq h8 h12, Area.setPrev,
    Option.bind_eq_bind, Option.bind_some, ne_eq, not_true, if_false, Option.pure_def]

theorem initMemoryPool_big (h : P.Accepted) (hsig : t.signature ≠ tlsfSignature)
    (hbig : 2 ^ 30 ≤ P.room) :
    ∃ t', initMemoryPool P t = some (-1#32, t') ∧ t'.signature = tlsfSignature := by
  obtain ⟨-, hin, -⟩ := h.room_le
  have hsize := h.2.2.2
  have hheader : P.area.Has (P.start + 3184 + 4) := h.has 4 (by omega) (by decide)
  have h8 : P.area.Has (P.start + 3184 + 8) := h.has 8 (by omega) (by decide)
  have h12 : P.area.Has (P.start + 3184 + 12) := h.has 12 (by omega) (by decide)
  rw [initMemoryPool_accepted h hsig]
  unfold Pool.firstBlock
  generalize P.start + 3184 = x at *
  have htag : writeNode (Function.update (fun _ => 0#32) (x + 4) (word P.room true false)) x 0#32
      0#32 (x + 4) = word P.room true false := by
    rw [writeNode, Function.update_of_ne (by omega), Function.update_of_ne (by omega),
      Function.update_self]
  have hgt : word P.room true false > 1#32 <<< 30 := by
    have hmax : (1#32 <<< 30).toNat = 2 ^ 30 := by decide
    rw [gt_iff_lt, BitVec.lt_def, hmax, word_toNat (by omega)]
    omega
  simp only [setSize_eq hheader, clearFreePtr_eq h8 h12, sizeOf_eq hheader, htag, if_pos hgt,
    Option.bind_eq_bind, Option.bind_some, Option.pure_def]
  exact ⟨_, rfl, rfl⟩

/-- The block is made and put on its list, and the sentinel is written where there is room. -/
theorem initMemoryPool_small (h : P.Accepted) (hsig : t.signature ≠ tlsfSignature)
    (hsmall : P.room < 2 ^ 30) :
    if P.size % 8 < 4 then ∃ t', initMemoryPool P t = some (BitVec.ofNat 32 P.room, t') ∧
      t'.signature = tlsfSignature ∧ t'.sizeOf P P.firstBlock = some (word P.room true false)
    else initMemoryPool P t = none := by
  obtain ⟨hmin, hin, hmax⟩ := h.room_le
  have hdvd := P.room_dvd
  have hsize := h.2.2.2
  have hheader : P.area.Has (P.start + 3184 + 4) := h.has 4 (by omega) (by decide)
  have h8 : P.area.Has (P.start + 3184 + 8) := h.has 8 (by omega) (by decide)
  have h12 : P.area.Has (P.start + 3184 + 12) := h.has 12 (by omega) (by decide)
  have hlb : P.area.Has (P.start + 3184 + (8 + P.room)) := h.has _ (by omega) (by omega)
  rw [← Nat.add_assoc] at hlb
  rw [initMemoryPool_accepted h hsig]
  unfold Pool.firstBlock
  have hend : P.size % 8 < 4 ↔ P.area.Has (P.start + 3184 + 8 + P.room + 4) := by
    have hhi : P.area.hi = P.start + P.size := rfl
    have hlb' := hlb
    simp only [Area.Has, hhi] at hlb' ⊢
    obtain ⟨hlo, -, hmod⟩ := hlb'
    omega
  generalize P.start + 3184 = x at *
  have htag : writeNode (Function.update (fun _ => 0#32) (x + 4) (word P.room true false)) x 0#32
      0#32 (x + 4) = word P.room true false := by
    rw [writeNode, Function.update_of_ne (by omega), Function.update_of_ne (by omega),
      Function.update_self]
  have hngt : ¬word P.room true false > 1#32 <<< 30 := by
    have hmax : (1#32 <<< 30).toNat = 2 ^ 30 := by decide
    rw [gt_iff_lt, BitVec.lt_def, hmax, word_toNat (by omega)]
    omega
  obtain ⟨h₁, h₂⟩ := classOf_lt hsmall
  have hc : cell 24 (mappingInsert (BitVec.ofNat 32 P.room)).1
      (mappingInsert (BitVec.ofNat 32 P.room)).2 = some (⟨_, h₁⟩, ⟨_, h₂⟩) := by
    rw [mappingInsert_eq hsmall]
    exact cell_val (⟨_, h₁⟩, ⟨_, h₂⟩)
  have htag₂ : ∀ mem : Nat → Word, mem (x + 4) = word P.room true false →
      writeNode mem x 0#32 0#32 (x + 4) = word P.room true false := by
    intro mem hmem
    rw [writeNode, Function.update_of_ne (by omega), Function.update_of_ne (by omega), hmem]
  simp only [setSize_eq hheader, clearFreePtr_eq h8 h12, sizeOf_eq hheader, htag, if_neg hngt,
    tlsfBlockSize, word_size (show 4 ∣ P.room by omega), insert_empty hc h8 h12, htag₂ _ htag,
    next_eq, setPrevHdr_eq hlb, Option.bind_eq_bind, Option.bind_some, Option.pure_def]
  generalize hmem : writeNode (writeNode (Function.update (fun _ => 0#32) (x + 4)
    (word P.room true false)) x 0#32 0#32) x 0#32 0#32 = mem
  have htag₃ : mem (x + 4) = word P.room true false := hmem ▸ htag₂ _ htag
  split
  · rename_i hlt
    simp only [setSize_eq (hend.mp hlt), Option.bind_some]
    have htag₄ : Function.update (Function.update mem (x + 8 + P.room) (BitVec.ofNat 32 x))
        (x + 8 + P.room + 4) (0#32 ||| usedBlock ||| prevFree) (x + 4) = word P.room true false := by
      rw [Function.update_of_ne (by omega), Function.update_of_ne (by omega), htag₃]
    rw [htag₄, word_size (by omega)]
    exact ⟨_, rfl, rfl, congrArg some htag₄⟩
  · rename_i hge
    have htop := P.area.top
    have hle : x + 8 + P.room + 4 ≤ 2 ^ 32 := hlb.2.1.trans htop
    simp only [Tlsf.setSize, FreeLists.setSize, ofNat_add_four, store_outside (mt hend.mpr hge) hle,
      Option.bind_eq_bind, Option.bind_none]

theorem initMemoryPool_again (h : P.Accepted) (hsig : t.signature = tlsfSignature) :
    initMemoryPool P t = some (t.lists.mem (P.start + 3184) &&& tlsfBlockSize, t) := by
  have hin := h.2.2.1
  have hheader : P.area.Has (P.start + 3184 + 0) := h.has 0 (by omega) (by decide)
  have hb : getNextBlock (BitVec.ofNat 32 P.start) sizeofTlsf = BitVec.ofNat 32 (P.start + 3180) :=
    (BitVec.ofNat_add ..).symm
  obtain ⟨hargs, halign⟩ := h.tests
  rw [initMemoryPool, if_neg hargs, if_neg halign, if_pos hsig, hb]
  have hsize := sizeOf_eq (t := t) (z := P.start + 3180) hheader
  simp only [hsize, Option.bind_eq_bind, Option.bind_some, Option.pure_def]

theorem hasBlock_link (h : P.Accepted) :
    P.HasBlock t (t.lists.mem (P.start + 3184) &&& tlsfBlockSize) ↔ P.LinkIsSize t := by
  have hin := h.2.2.1
  have hheader : P.area.Has (P.start + 3184 + 4) := h.has 4 (by omega) (by decide)
  have hsize : t.sizeOf P P.firstBlock = some (t.lists.mem (P.start + 3188)) := sizeOf_eq hheader
  rw [Pool.HasBlock, hsize, Pool.LinkIsSize]
  constructor
  · rintro ⟨⟨w, hw, hmasked⟩, hfits⟩
    cases hw
    rw [← hmasked] at hfits ⊢
    exact ⟨rfl, by omega⟩
  · rintro ⟨hsame, hfits⟩
    refine ⟨⟨_, rfl, hsame.symm⟩, ?_⟩
    rw [hsame]
    omega

theorem masked_ne {w : Word} : w &&& tlsfBlockSize ≠ -1#32 := by
  intro h
  have hbit := congrArg (fun x => BitVec.getLsbD x 0) h
  simp [tlsfBlockSize] at hbit

theorem not_taken (hsig : t.signature ≠ tlsfSignature) : ¬P.Taken t := by
  rintro ⟨v, hv, hne⟩
  by_cases hacc : P.Accepted
  · by_cases hbig : 2 ^ 30 ≤ P.room
    · obtain ⟨t', ht', -⟩ := initMemoryPool_big hacc hsig hbig
      rw [hv] at ht'
      exact hne (Prod.mk.inj (Option.some.inj ht')).1
    · have hsmall := initMemoryPool_small hacc hsig (Nat.lt_of_not_le hbig)
      split at hsmall
      · obtain ⟨t', ht', hsig', -⟩ := hsmall
        rw [hv] at ht'
        exact hsig ((Prod.mk.inj (Option.some.inj ht')).2 ▸ hsig')
      · cases hv.symm.trans hsmall
  · rw [initMemoryPool_refused hacc] at hv
    exact hne (Prod.mk.inj (Option.some.inj hv)).1.symm

/-- A pool that has the signature is taken for initialised with any size from 3308 on. -/
theorem taken (hpos : 0 < P.start) (h4 : 4 ∣ P.start) (htop : P.start + 3308 ≤ 2 ^ 32)
    (hsig : t.signature = tlsfSignature) :
    ∃ P' : Pool, P'.start = P.start ∧ P'.Taken t :=
  ⟨⟨P.start, 3308, htop⟩, rfl, _, initMemoryPool_again ⟨hpos, h4, Nat.le_refl _, (by decide : 3308 < 2 ^ 32)⟩ hsig,
    masked_ne⟩

/-- The function does what it is to do exactly where it refuses its arguments; where its block
ends soon enough for the sentinel and is not too large, on a pool without the signature; and,
on one with it, where the link of the first block is its size. -/
theorem setsUp_iff : P.SetsUp t ↔ ¬P.Accepted ∨
    t.signature ≠ tlsfSignature ∧ P.size % 8 < 4 ∧ P.room < 2 ^ 30 ∨
    t.signature = tlsfSignature ∧ P.LinkIsSize t := by
  rw [Pool.SetsUp]
  by_cases hacc : P.Accepted
  case neg =>
    rw [initMemoryPool_refused hacc, returns_some]
    exact iff_of_true ⟨fun hne => absurd rfl hne, fun _ _ _ h => h⟩ (.inl hacc)
  rw [or_iff_right (not_not_intro hacc)]
  by_cases hsig : t.signature = tlsfSignature
  · rw [initMemoryPool_again hacc hsig, returns_some, or_iff_right fun h => h.1 hsig,
      and_iff_right hsig]
    exact ⟨fun h => (hasBlock_link hacc).mp (h.1 masked_ne),
      fun h => ⟨fun _ => (hasBlock_link hacc).mpr h, fun he => absurd he masked_ne⟩⟩
  · rw [or_iff_left fun h => hsig h.1, and_iff_right hsig]
    by_cases hbig : 2 ^ 30 ≤ P.room
    · -- the signature is there before the size is looked at
      obtain ⟨t', ht', hsig'⟩ := initMemoryPool_big hacc hsig hbig
      rw [ht', returns_some]
      refine iff_of_false (fun h => ?_) fun h => absurd h.2 (Nat.not_lt.mpr hbig)
      have htop := P.top
      obtain ⟨P', hstart, htaken⟩ := taken hacc.1 hacc.2.1 (P := P)
        (by have hin := hacc.2.2.1; omega) hsig'
      exact not_taken hsig (h.2 rfl P' hstart htaken)
    · have hlt := Nat.lt_of_not_le hbig
      have hsmall := initMemoryPool_small hacc hsig hlt
      obtain ⟨-, hin, hmax⟩ := hacc.room_le
      split at hsmall
      · rename_i hmod
        obtain ⟨t', ht', -, hheader⟩ := hsmall
        have hne : BitVec.ofNat 32 P.room ≠ -1#32 := by
          rw [← word_size (f := true) (p := false) (show 4 ∣ P.room from
            Nat.dvd_trans (by decide) P.room_dvd)]
          exact masked_ne
        rw [ht', returns_some]
        refine iff_of_true ⟨fun _ => ⟨⟨_, hheader, word_size ?_⟩, ?_⟩, fun he => absurd he hne⟩
          ⟨hmod, hlt⟩
        · exact Nat.dvd_trans (by decide) P.room_dvd
        · have hdvd := P.room_dvd
          dsimp only
          rw [toNat_ofNat (show P.room < 2 ^ 32 by omega)]
          omega
      · rename_i hmod
        rw [hsmall]
        exact iff_of_false returns_none fun h => hmod h.1

end

end Xmertl.Xtratum
