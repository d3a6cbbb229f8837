import Xmertl.Partikle.TlsfCalls

/-!
# free_ex

The block that is given back becomes a free block with its free neighbours, on the list of the
size that it has then.
-/

namespace Xmertl.Partikle.MemoryPool

open BoundaryTags ThreadedLists TlsfPool TotalCorrectness

section
variable {P : Pool} {hP : P.Usable} {t t' : Tlsf} {us vs bs : List BoundaryTags.Block}
  {x z n k : Nat} {p q : Bool} {L : ListId → List Nat} {d : Nat → Word}

variable (hP) in
theorem mergeNext_spec (h : t.Work (P.geometry hP) us vs x (x + n) false L none d)
    (hn : Fits ⟨n, true⟩) (hvs : Coalesced vs) (htag : t.lists.mem (x + 4) = word (n - 4) true p) :
    Returns (mergeNext P t (BitVec.ofNat 32 x)) fun t' => ∃ vs' m q L',
      t'.Work (P.geometry hP) us vs' x (x + m) q L' none d ∧ Fits ⟨m, true⟩ ∧ Coalesced vs' ∧
      firstFree vs' = false ∧ t'.lists.mem (x + 4) = word (m - 4) true p ∧
      SameUsed (P.geometry hP) us vs (x + n) us vs' (x + m) := by
  have hn16 : 16 ≤ n := hn.1
  have hn4 : 4 ∣ n := hn.2
  have hx4 : 4 ∣ x := (Nat.dvd_add_left hn4).mp h.hole.dvd
  have hsum : x + 4 + (n - 4) = x + n := by omega
  refine Returns.bind_eq (h.sizeOf (Nat.le_refl x) (by omega) hx4 htag) ?_
  rw [blockSize, word_size (Nat.dvd_sub hn4 (by decide)), next_eq, hsum]
  obtain ⟨m, f, hm4, rfl, hnext, -⟩ := h.next
  refine Returns.bind_eq hnext ?_
  rw [freeBlock]
  by_cases hfree : firstFree vs = true
  · obtain ⟨k, vs, rfl⟩ := firstFree_split hfree
    have hk : Fits ⟨k, true⟩ := h.hole.fits _ (by simp)
    have hk16 : 16 ≤ k := hk.1
    have hk4 : 4 ∣ k := hk.2
    obtain ⟨hnot, hvs'⟩ := coalesced_cons.mp hvs
    have hktag : t.lists.mem (x + n + 4) = word (k - 4) true false := h.hole.right.1
    rw [if_pos ((word_free hm4).mpr hfree)]
    refine Returns.bind h.takeOffNext ?_
    rintro t' ⟨L', hwork, hmem⟩
    refine Returns.bind_eq (hwork.sizeOf (Nat.le_refl x) (by omega) hx4
      ((hmem _ (by omega) (by omega)).trans htag)) ?_
    refine Returns.bind_eq (hwork.sizeOf (by omega) (by omega) h.hole.dvd
      ((hmem _ (by omega) (by omega)).trans hktag)) ?_
    have hsize : n - 4 + (k - 4 + 4) = n + k - 4 := by omega
    rw [word_size (Nat.dvd_sub hk4 (by decide)), bhdrOverhead, ← BitVec.ofNat_add, word_add, hsize]
    rw [Nat.add_assoc] at hwork
    refine (hwork.setSize (Nat.le_refl x) (by omega) hx4 (by simp)).mono ?_
    rintro t₁ ⟨hwork₁, hmem₁⟩
    refine ⟨vs, n + k, true, L', hwork₁, fits_mk (by omega) (by omega), hvs', by simpa using hnot, ?_,
      fun z m => ?_⟩
    · rw [hmem₁, Function.update_self]
    · simp [Around, placed, Nat.add_assoc]
  · rw [if_neg (mt (word_free hm4).mp hfree)]
    exact .pure ⟨vs, n, false, L, h, hn, hvs, by simpa using hfree, htag, fun _ _ => Iff.rfl⟩

theorem mergePrev_spec (h : t.Work (P.geometry hP) us vs x (x + n) q L none d)
    (hn : Fits ⟨n, true⟩) (hus : Coalesced us)
    (htag : t.lists.mem (x + 4) = word (n - 4) true (lastFree false us)) :
    Returns (mergePrev P t (BitVec.ofNat 32 x)) fun r => ∃ us' x' m L',
      r.1 = BitVec.ofNat 32 x' ∧ r.2.Work (P.geometry hP) us' vs x' (x' + m) q L' none d ∧
      Fits ⟨m, true⟩ ∧ Coalesced us' ∧ lastFree false us' = false ∧
      r.2.lists.mem (x' + 4) = word (m - 4) true false ∧
      SameUsed (P.geometry hP) us vs (x + n) us' vs (x' + m) := by
  have hn16 : 16 ≤ n := hn.1
  have hn4 : 4 ∣ n := hn.2
  have hx4 : 4 ∣ x := (Nat.dvd_add_left hn4).mp h.hole.dvd
  have hn4' : 4 ∣ n - 4 := Nat.dvd_sub hn4 (by decide)
  refine Returns.bind_eq (h.sizeOf (Nat.le_refl x) (by omega) hx4 htag) ?_
  rw [prevFree]
  by_cases hfree : lastFree false us = true
  · rw [if_pos ((word_prev hn4').mpr hfree)]
    obtain ⟨us, k, rfl⟩ := lastFree_split hfree
    have hk : Fits ⟨k, true⟩ := h.hole.fits _ (by simp)
    have hk16 : 16 ≤ k := hk.1
    have hk4 : 4 ∣ k := hk.2
    obtain ⟨hus', -, hnot⟩ := coalesced_append.mp hus
    have hlast' : lastFree false us = false := by simpa using hnot
    have hstart := h.hole.start
    rw [stop_append] at hstart
    have hstart' : stop (P.geometry hP).first us + k = x := hstart
    have hlink : t.lists.mem x = BitVec.ofNat 32 (stop (P.geometry hP).first us) := by
      rw [← hstart']
      exact Laid.link_at h.hole.left rfl
    have hlo : (P.geometry hP).first ≤ stop (P.geometry hP).first us := le_stop
    have hlast := h.hole.le_last
    have hhas : P.area.Has x := (P.geometry hP).has hx4 (by omega) (by omega)
    have hprev : t.lists.prevHdr P.area (BitVec.ofNat 32 x) = some (t.lists.mem x) := load_ofNat hhas
    rw [hlink] at hprev
    refine Returns.bind_eq hprev (Returns.bind (h.takeOffPrev rfl) ?_)
    rintro t' ⟨L', hwork, hktag, hmem⟩
    generalize hz : stop (P.geometry hP).first us = z at *
    have hz4 : 4 ∣ z := (Nat.dvd_add_left hk4).mp (hstart' ▸ hx4)
    rw [hlast'] at hktag
    refine Returns.bind_eq (hwork.sizeOf (Nat.le_refl z) (by omega) hz4 hktag) ?_
    refine Returns.bind_eq (hwork.sizeOf (by omega) (by omega) hx4
      ((hmem _ (by omega) (by omega)).trans htag)) ?_
    have hsum : k - 4 + (n - 4 + 4) = k + n - 4 := by omega
    rw [blockSize, word_size hn4', bhdrOverhead, ← BitVec.ofNat_add, word_add, hsum]
    have hend : x + n = z + (k + n) := by omega
    rw [hend] at hwork
    refine Returns.bind (hwork.setSize (Nat.le_refl z) (by omega) hz4 (by simp)) ?_
    rintro t₁ ⟨hwork₁, hmem₁⟩
    refine .pure ⟨us, z, k + n, L', rfl, hwork₁, fits_mk (by omega) (by omega), hus', hlast', ?_,
      fun a m => ?_⟩
    · rw [hmem₁, Function.update_self]
    · rw [hend]
      simp [Around, placed]
  · rw [if_neg (mt (word_prev hn4').mp hfree)]
    have hlast' : lastFree false us = false := by simpa using hfree
    rw [hlast'] at htag
    exact .pure ⟨us, x, n, L, rfl, h, hn, hus, hlast', htag, fun _ _ => Iff.rfl⟩

theorem fill_spec (h : t.Work (P.geometry hP) us vs x (x + n) q L none d) (hn : Fits ⟨n, true⟩)
    (hus : Coalesced us) (hvs : Coalesced vs) (hlast : lastFree false us = false)
    (hfirst : firstFree vs = false) (htag : t.lists.mem (x + 4) = word (n - 4) true false) :
    Returns (do
      let t ← putOn P t (BitVec.ofNat 32 x)
      let tmpB := getNextBlock (BitVec.ofNat 32 x + 8#32)
        ((← t.sizeOf P (BitVec.ofNat 32 x)) &&& blockSize)
      let t ← t.setSize P tmpB ((← t.sizeOf P tmpB) ||| prevFree)
      t.setPrevHdr P tmpB (BitVec.ofNat 32 x)) fun t' => ∃ L',
      t'.Rep (P.geometry hP) (us ++ ([⟨n, true⟩] ++ vs)) L' ∧
      ∀ z, Payload (P.geometry hP) us vs (x + n) z → t'.lists.mem z = d z := by
  have hn16 : 16 ≤ n := hn.1
  have hn4 : 4 ∣ n := hn.2
  have hx4 : 4 ∣ x := (Nat.dvd_add_left hn4).mp h.hole.dvd
  have hn4' : 4 ∣ n - 4 := Nat.dvd_sub hn4 (by decide)
  have hsum : x + 4 + (n - 4) = x + n := by omega
  obtain ⟨j, hj, hput⟩ := h.enter (z := x) (k := n) (Nat.le_refl x) (Nat.le_refl _) hx4 hn16
    fun hj hins => putOn_returns (h.sizeOf (Nat.le_refl x) (by omega) hx4 htag) (word_size hn4') hj
      h.exact hins
  refine Returns.bind hput ?_
  rintro t₁ ⟨L₁, hwork, hmem⟩
  have htag₁ : t₁.lists.mem (x + 4) = word (n - 4) true false := by
    rw [hmem _ (by omega) (by omega) (by omega) (by omega), htag]
  refine Returns.bind_eq (hwork.sizeOf (Nat.le_refl x) (by omega) hx4 htag₁) ?_
  rw [blockSize, word_size hn4', next_eq, hsum]
  obtain ⟨m, f, hm4, -, hnext, hset⟩ := hwork.next
  refine Returns.bind_eq hnext ?_
  rw [prevFree, word_set_prev hm4]
  refine Returns.bind (hset true) ?_
  rintro t₂ ⟨hwork₂, hmem₂⟩
  refine (hwork₂.setPrevHdr (by omega) fun z' j' he => ?_).mono ?_
  · obtain ⟨rfl, -⟩ := Prod.mk.inj (Option.some.inj he)
    omega
  · rintro t' ⟨hwork', hmem'⟩
    refine ⟨L₁, ⟨?_, hwork'.exact⟩, hwork'.hole.data⟩
    refine hwork'.hole.close_free hn hj hus hvs hlast hfirst ?_ ?_
    · rw [hmem', Function.update_of_ne (by omega), hmem₂, Function.update_of_ne (by omega), htag₁]
      rfl
    · rw [hmem', Function.update_self]

theorem freeEx_spec (h : t.Rep (P.geometry hP) (us ++ ⟨n, false⟩ :: vs) L)
    (hx : stop (P.geometry hP).first us = x) :
    Returns (freeEx P t (BitVec.ofNat 32 (x + 8))) fun t' => ∃ us' m vs' L',
      t'.Rep (P.geometry hP) (us' ++ ([⟨m, true⟩] ++ vs')) L' ∧
      SameUsed (P.geometry hP) us vs (x + n) us' vs' (stop (P.geometry hP).first us' + m) ∧
      ∀ z, Payload (P.geometry hP) us vs (x + n) z → t'.lists.mem z = t.lists.mem z := by
  obtain ⟨hus, hvs', -⟩ := coalesced_append.mp h.blocks.coalesced
  obtain ⟨-, hvs⟩ := coalesced_cons.mp hvs'
  have hole := h.blocks.open
  rw [hx] at hole
  have htag : t.lists.mem (x + 4) = word (n - 4) false (lastFree false us) := hole.right.1
  have hwork : t.Work (P.geometry hP) us vs x (x + n) false L none t.lists.mem := ⟨hole.take, h.exact⟩
  have hfit : Fits ⟨n, false⟩ := h.blocks.fits _ (by simp)
  have hn16 : 16 ≤ n := hfit.1
  have hn4 : 4 ∣ n := hfit.2
  have hfirst := hwork.hole.first_le
  have hlast := hwork.hole.le_last
  have hx4 : 4 ∣ x := hole.dvd
  have h8 : P.area.Has (x + 8) := (P.geometry hP).has (by omega) (by omega) (by omega)
  have h12 : P.area.Has (x + 12) := (P.geometry hP).has (by omega) (by omega) (by omega)
  have hb : BitVec.ofNat 32 (x + 8) - 8#32 = BitVec.ofNat 32 x := by
    rw [ofNat_sub (by omega) h8.lt, Nat.add_sub_cancel]
  rw [freeEx, hb]
  dsimp only
  refine Returns.bind_eq (hwork.sizeOf (Nat.le_refl x) (by omega) hx4 htag) ?_
  rw [freeBlock, word_set_free (Nat.dvd_sub hn4 (by decide))]
  refine Returns.bind (hwork.setSize (Nat.le_refl x) (by omega) hx4 (by simp)) ?_
  rintro t₁ ⟨hwork₁, hmem₁⟩
  have hole₂ := hwork₁.hole.set (a := x + 8) (v := 0#32) (by omega) (by omega)
  have hole₃ := hole₂.set (a := x + 12) (v := 0#32) (by omega) (by omega)
  refine Returns.bind_eq (clearFreePtr_eq h8 h12) ?_
  have htag₂ : writeNode t₁.lists.mem x 0#32 0#32 (x + 4) =
      word (n - 4) true (lastFree false us) := by
    rw [writeNode, Function.update_of_ne (by omega), Function.update_of_ne (by omega), hmem₁,
      Function.update_self]
  refine Returns.bind (mergeNext_spec hP ⟨hole₃, hwork₁.exact.of_lists⟩ (fits_mk hn16 hn4) hvs htag₂) ?_
  rintro t₃ ⟨vs', m, q, L₃, hwork₃, hm, hvs', hfirst', htag₃, hsame₃⟩
  refine Returns.bind (mergePrev_spec hwork₃ hm hus htag₃) ?_
  rintro ⟨b, t₄⟩ ⟨us', x', m', L₄, hb', hwork₄, hm', hus', hlast', htag₄, hsame₄⟩
  dsimp only at hb' hwork₄ htag₄ ⊢
  subst hb'
  refine (fill_spec hwork₄ hm' hus' hvs' hlast' hfirst' htag₄).mono ?_
  rintro t' ⟨L', hrep, hdata⟩
  have hsame : SameUsed (P.geometry hP) us vs (x + n) us' vs' (x' + m') := fun z k =>
    (hsame₄ z k).trans (hsame₃ z k)
  refine ⟨us', m', vs', L', hrep, ?_, fun z hz => hdata z (hsame.payload hz)⟩
  rw [hwork₄.hole.start]
  exact hsame

end

end Xmertl.Partikle.MemoryPool
