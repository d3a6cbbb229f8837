import Xmertl.Xtratum.TlsfCalls

/-!
# realloc_ex

A block is made smaller or larger where it stands, or its contents go to a new block.
-/

namespace Xmertl.Xtratum

open BoundaryTags ThreadedLists TlsfPool TotalCorrectness

section
variable {P : Pool} {hP : P.Usable} {t t' : Tlsf} {us vs : List BoundaryTags.Block}
  {x y z a n k r s : Nat}
  {p q : Bool} {L : Fin 24 × Fin 32 → List Nat} {c : Fin 24 × Fin 32} {d : Nat → Word}
  {e : Option (Nat × (Fin 24 × Fin 32))} {v : Word}

/-- A hole that is too small for two blocks has the size and the state of one already. -/
theorem splitRest_spec (h : t.Work (P.geometry hP) us vs x (x + n) q L none d)
    (hn : Fits ⟨n, false⟩) (hus : Coalesced us) (hvs : Coalesced vs) (hfirst : firstFree vs = false)
    (htag : t.lists.mem (x + 4) = word s false (lastFree false us)) (hs4 : 4 ∣ s) (hr4 : 4 ∣ r)
    (hr : 8 ≤ r) (hrn : r + 8 ≤ n) (hsmall : n - 8 - r < 16 → s = n - 8 ∧ q = false) :
    Returns (splitRest P t (BitVec.ofNat 32 x) (BitVec.ofNat 32 (x + n)) (BitVec.ofNat 32 r)
      (BitVec.ofNat 32 (n - 8 - r)))
      fun t' => ∃ mid L' k, Cut n k mid ∧ r + 8 ≤ k ∧
        t'.Rep (P.geometry hP) (us ++ (mid ++ vs)) L' ∧
        t'.lists.mem (x + 4) = word (k - 8) false (lastFree false us) ∧
        t'.usedSize = t.usedSize ∧
        (∀ z, Payload (P.geometry hP) us vs (x + n) z → t'.lists.mem z = d z) ∧
        ∀ a, x + 8 ≤ a → a < x + 8 + r → t'.lists.mem a = t.lists.mem a := by
  have hspan := span_lt h.hole
  have hfirst' := h.hole.first_le
  have hlast := h.hole.le_last
  have hn4 : 4 ∣ n := hn.2
  have hx4 : 4 ∣ x := (Nat.dvd_add_left hn4).mp h.hole.dvd
  have hheader : P.area.Has (x + 4) := has_header hP hx4 hfirst' (by omega)
  have hnext : P.area.Has (x + n + 4) := has_header hP h.hole.dvd (by omega) hlast
  rw [splitRest]
  by_cases hge : 16 ≤ n - 8 - r
  · rw [if_pos ((ge_sizeofBhdr (by omega)).mpr hge), bhdrOverhead, ofNat_sub (by omega) (by omega),
      next_eq, freeBlock, prevUsed]
    dsimp only
    rw [word_new (by omega)]
    have hk : x + 8 + r = x + (r + 8) := by omega
    have hm : n - 8 - r - 8 = n - (r + 8) - 8 := by omega
    rw [hk, hm]
    refine Returns.bind_eq (setSize_eq (has_header hP (by omega) (by omega) (by omega))) ?_
    refine Returns.bind_eq (setPrevHdr_eq ((P.geometry hP).has (by omega) (by omega) (by omega))) ?_
    have hole₁ := h.hole.set (a := x + (r + 8) + 4)
      (v := word (n - (r + 8) - 8) true false) (by omega) (by omega)
    have hole₂ := hole₁.set (a := x + n) (v := BitVec.ofNat 32 (x + (r + 8))) (by omega)
      (by omega)
    obtain ⟨m, ws, hmws, -, hm4, hmtag⟩ := hole₂.next
    refine Returns.bind_eq ((sizeOf_eq hnext).trans (congrArg some hmtag)) ?_
    rw [prevFree, word_set_prev hm4]
    refine Returns.bind_eq (setSize_eq hnext) ?_
    have hole₃ := hole₂.retag true hmws
    refine Returns.mono (insertRest_spec (t := { t with lists := _ }) ⟨hole₃, h.exact⟩ hus hvs hfirst
      (k := s) (p := false) ?_ hs4 hr4 hr hn4 (by omega) ?_ ?_) ?_
    · dsimp only
      rw [Function.update_of_ne (by omega), Function.update_of_ne (by omega),
        Function.update_of_ne (by omega), htag]
    · dsimp only
      rw [Function.update_of_ne (by omega), Function.update_of_ne (by omega), Function.update_self]
    · dsimp only
      rw [Function.update_of_ne (by omega), Function.update_self]
    · rintro t' ⟨L', hrep, htag', hused, hdata, hkept⟩
      refine ⟨_, L', r + 8, .inr ⟨by omega, rfl⟩, Nat.le_refl _, hrep, htag', hused, hdata,
        fun a hlo hhi => (hkept a hlo (by omega)).trans ?_⟩
      dsimp only
      rw [Function.update_of_ne (by omega), Function.update_of_ne (by omega),
        Function.update_of_ne (by omega)]
  · rw [if_neg (mt (ge_sizeofBhdr (by omega)).mp hge)]
    obtain ⟨rfl, rfl⟩ := hsmall (by omega)
    exact .pure ⟨_, L, n, .inl ⟨rfl, rfl⟩, hrn, ⟨h.hole.close_used hn hus hvs htag, h.exact⟩, htag, rfl,
      h.hole.data, fun _ _ _ => rfl⟩

variable (hP) in
theorem joinNext_spec (h : t.Work (P.geometry hP) us vs x (x + n) false L none d)
    (hn : Fits ⟨n, false⟩) (hvs : Coalesced vs) :
    Returns (joinNext P t (BitVec.ofNat 32 (x + n)) (BitVec.ofNat 32 (n - 8)))
      fun r => ∃ vs' m q L', r.1 = BitVec.ofNat 32 (x + m) ∧ r.2.1 = BitVec.ofNat 32 (m - 8) ∧
        r.2.2.Work (P.geometry hP) us vs' x (x + m) q L' none d ∧ Fits ⟨m, false⟩ ∧
        Coalesced vs' ∧ firstFree vs' = false ∧
        (∀ a, x ≤ a → a < x + n → r.2.2.lists.mem a = t.lists.mem a) ∧
        r.2.2.usedSize = t.usedSize ∧
        SameUsed (P.geometry hP) us vs (x + n) us vs' (x + m) ∧
        freeSpan vs' + m = freeSpan vs + n ∧ (m = n ∧ q = false ∨ n + 16 ≤ m) := by
  have hn16 : 16 ≤ n := hn.1
  have hn4 : 4 ∣ n := hn.2
  have hfirst := h.hole.first_le
  have hlast := h.hole.le_last
  have hnext : P.area.Has (x + n + 4) := has_header hP h.hole.dvd (by omega) hlast
  obtain ⟨m, ws, hm, hmf, hm4, hmtag⟩ := h.hole.next
  refine Returns.bind_eq ((sizeOf_eq hnext).trans (congrArg some hmtag)) ?_
  rw [freeBlock]
  by_cases hfree : firstFree vs = true
  · obtain ⟨k, vs, rfl⟩ := firstFree_split hfree
    have hk : Fits ⟨k, true⟩ := h.hole.fits _ (by simp)
    have hk16 : 16 ≤ k := hk.1
    have hk4 : 4 ∣ k := hk.2
    obtain ⟨hnot, hvs'⟩ := coalesced_cons.mp hvs
    have hktag : t.lists.mem (x + n + 4) = word (k - 8) true false := h.hole.right.1
    rw [if_pos ((word_free hm4).mpr (hmf.trans hfree))]
    refine Returns.bind h.takeOffNext ?_
    rintro t' ⟨L', hwork, hmem, hused⟩
    have hktag' : t'.lists.mem (x + n + 4) = word (k - 8) true false := by
      rw [hmem _ (by omega) (by omega), hktag]
    refine Returns.bind_eq ((sizeOf_eq hnext).trans (congrArg some hktag')) ?_
    rw [tlsfBlockSize, word_size (Nat.dvd_sub hk4 (by decide)), bhdrOverhead]
    dsimp only
    have hend : x + n + 8 + (k - 8) = x + (n + k) := by omega
    have hsum : n - 8 + (k - 8 + 8) = n + k - 8 := by omega
    rw [next_eq, ← BitVec.ofNat_add, ← BitVec.ofNat_add, hend, hsum]
    have hhole := hwork.hole
    rw [Nat.add_assoc] at hhole
    refine .pure ⟨vs, n + k, true, L', rfl, rfl, ⟨hhole, hwork.exact⟩, fits_mk (by omega) (by omega),
      hvs', by simpa using hnot, fun a hlo hhi => hmem a hlo (by omega), hused, fun z m => ?_, ?_,
      .inr (by omega)⟩
    · simp [Around, placed, Nat.add_assoc]
    · simp only [freeSpan_cons, if_true]
      omega
  · rw [if_neg (mt (word_free hm4).mp (by rwa [hmf]))]
    exact .pure ⟨vs, n, false, L, rfl, rfl, h, hn, hvs, by simpa using hfree, fun _ _ _ => rfl, rfl,
      fun _ _ => Iff.rfl, rfl, .inl ⟨rfl, rfl⟩⟩

/-- What becomes of a block in use whose size changes where it stands. Its contents stay, as
many as both sizes have. -/
def Resized (G : Geometry) (t : Tlsf) (us vs : List BoundaryTags.Block) (x n r : Nat)
    (res : Word × Tlsf) : Prop :=
  res.1 = BitVec.ofNat 32 (x + 8) ∧ ∃ n' vs' mid k L', Cut n' k mid ∧ r + 8 ≤ k ∧
    res.2.Rep G (us ++ (mid ++ vs')) L' ∧
    res.2.usedSize = t.usedSize - BitVec.ofNat 32 n + BitVec.ofNat 32 k ∧
    SameUsed G us vs (x + n) us vs' (x + n') ∧ freeSpan vs' + n' = freeSpan vs + n ∧
    (∀ z, Payload G us vs (x + n) z → res.2.lists.mem z = t.lists.mem z) ∧
    ∀ a, x + 8 ≤ a → a < x + n → a < x + 8 + r → res.2.lists.mem a = t.lists.mem a

theorem shrink_spec (h : t.Rep (P.geometry hP) (us ++ ⟨n, false⟩ :: vs) L)
    (hx : stop (P.geometry hP).first us = x) (hr4 : 4 ∣ r) (hr : 8 ≤ r) (hrn : r + 8 ≤ n) :
    Returns (shrink P t (BitVec.ofNat 32 x) (BitVec.ofNat 32 (x + n)) (BitVec.ofNat 32 r)
      (BitVec.ofNat 32 (n - 8))) (Resized (P.geometry hP) t us vs x n r) := by
  obtain ⟨hus, hvs', -⟩ := coalesced_append.mp h.blocks.coalesced
  obtain ⟨-, hvs⟩ := coalesced_cons.mp hvs'
  have hole := h.blocks.open
  rw [hx] at hole
  have htag : t.lists.mem (x + 4) = word (n - 8) false (lastFree false us) := hole.right.1
  have hole₀ := hole.take
  have hfit : Fits ⟨n, false⟩ := h.blocks.fits _ (by simp)
  have hn16 : 16 ≤ n := hfit.1
  have hn4 : 4 ∣ n := hfit.2
  have hfirst := hole₀.first_le
  have hlast := hole₀.le_last
  have hx4 : 4 ∣ x := hole.dvd
  have hn8 : 4 ∣ n - 8 := Nat.dvd_sub hn4 (by decide)
  have hheader : P.area.Has (x + 4) := has_header hP hx4 hfirst (by omega)
  refine Returns.bind_eq (subUsed_eq hheader hn8 htag) ?_
  refine Returns.bind (joinNext_spec hP ⟨hole₀, h.exact⟩ hfit hvs)
    fun ⟨nextB, tmp, t₁⟩ ⟨vs', m, q, L₁, hb, htmp, hwork, hm, hvs', hfirst', hmem₁, hused₁, hsame, hsum,
      hcase⟩ => ?_
  have htag₁ := hmem₁ (x + 4) (by omega) (by omega)
  dsimp only at hb htmp hwork hmem₁ htag₁ hused₁ ⊢
  have hspan := span_lt hwork.hole
  subst hb htmp
  rw [ofNat_sub (by omega) (by omega)]
  have hsame' : m - 8 - r < 16 → n - 8 = m - 8 ∧ q = false := by
    intro hlt
    rcases hcase with ⟨rfl, hq⟩ | hge
    · exact ⟨rfl, hq⟩
    · omega
  refine Returns.bind (splitRest_spec hwork hm hus hvs' hfirst' (htag₁.trans htag) hn8 hr4 hr
    (by omega) hsame') fun t₂ ⟨mid, L₂, k, hcut, hk, hrep, htag₂, hused₂, hdata, hkept⟩ => ?_
  have hk8 : 4 ∣ k - 8 := hcut.four_dvd hrep.blocks
  refine Returns.bind_eq (addUsed_eq hheader hk8 htag₂) (.pure ⟨ofNat_add_eight x, m, vs',
    mid, k, L₂, hcut, hk, ⟨hrep.blocks, hrep.exact⟩, ?_, hsame, hsum,
    fun z hz => hdata z (hsame.payload hz),
    fun a hlo hhi hr => (hkept a hlo hr).trans (hmem₁ a (by omega) hhi)⟩)
  dsimp only
  rw [hused₂, hused₁, Nat.sub_add_cancel (show 8 ≤ n by omega),
    Nat.sub_add_cancel (show 8 ≤ k by omega)]

theorem grow_spec (h : t.Rep (P.geometry hP) (us ++ ⟨n, false⟩ :: ⟨k, true⟩ :: vs) L)
    (hx : stop (P.geometry hP).first us = x) (hr4 : 4 ∣ r) (hr : 8 ≤ r) (hrn : r + 16 ≤ n + k) :
    Returns (grow P t (BitVec.ofNat 32 x) (BitVec.ofNat 32 (x + n)) (BitVec.ofNat 32 r))
      (Resized (P.geometry hP) t us (⟨k, true⟩ :: vs) x n r) := by
  obtain ⟨hus, hvs', -⟩ := coalesced_append.mp h.blocks.coalesced
  obtain ⟨-, hvs₂⟩ := coalesced_cons.mp hvs'
  obtain ⟨hnot, hvs⟩ := coalesced_cons.mp hvs₂
  have hole := h.blocks.open
  rw [hx] at hole
  have htag : t.lists.mem (x + 4) = word (n - 8) false (lastFree false us) := hole.right.1
  have hole₀ := hole.take
  have hktag : t.lists.mem (x + n + 4) = word (k - 8) true false := hole₀.right.1
  have hfit : Fits ⟨n, false⟩ := h.blocks.fits _ (by simp)
  have hk : Fits ⟨k, true⟩ := h.blocks.fits _ (by simp)
  have hn16 : 16 ≤ n := hfit.1
  have hn4 : 4 ∣ n := hfit.2
  have hk16 : 16 ≤ k := hk.1
  have hk4 : 4 ∣ k := hk.2
  have hfirst := hole₀.first_le
  have hx4 : 4 ∣ x := hole.dvd
  have hn8 : 4 ∣ n - 8 := Nat.dvd_sub hn4 (by decide)
  have hlast := hole₀.le_last
  have hheader : P.area.Has (x + 4) := has_header hP hx4 hfirst (by omega)
  have hnext : P.area.Has (x + n + 4) := has_header hP hole₀.dvd (by omega) hlast
  refine Returns.bind_eq (subUsed_eq hheader hn8 htag) ?_
  refine Returns.bind (Tlsf.Work.takeOffNext (t := { t with usedSize := _ }) ⟨hole₀, h.exact⟩) ?_
  rintro t₁ ⟨L₁, hwork, hmem, hused₁⟩
  have hspan := span_lt hwork.hole
  have hend := hwork.hole.le_last
  have hole₁ := hwork.hole
  rw [Nat.add_assoc] at hole₁
  have htag₁ : t₁.lists.mem (x + 4) = word (n - 8) false (lastFree false us) := by
    rw [hmem _ (by omega) (by omega)]
    exact htag
  have hktag₁ : t₁.lists.mem (x + n + 4) = word (k - 8) true false := by
    rw [hmem _ (by omega) (by omega)]
    exact hktag
  refine Returns.bind_eq ((sizeOf_eq hheader).trans (congrArg some htag₁)) ?_
  refine Returns.bind_eq ((sizeOf_eq hnext).trans (congrArg some hktag₁)) ?_
  have hsum : n - 8 + (k - 8 + 8) = n + k - 8 := by omega
  rw [tlsfBlockSize, word_size (Nat.dvd_sub hk4 (by decide)), bhdrOverhead, ← BitVec.ofNat_add,
    word_add, hsum]
  refine Returns.bind_eq (setSize_eq hheader) ?_
  have hole₂ := hole₁.set (a := x + 4) (v := word (n + k - 8) false (lastFree false us)) (by omega)
    (by omega)
  have hnk8 : 4 ∣ n + k - 8 := Nat.dvd_sub (Nat.dvd_add hn4 hk4) (by decide)
  refine Returns.bind_eq ((sizeOf_eq hheader).trans (congrArg some (Function.update_self ..))) ?_
  have hnext₂ : x + 8 + (n + k - 8) = x + (n + k) := by omega
  rw [word_size hnk8, next_eq, hnext₂]
  have hy4 : 4 ∣ x + (n + k) := hole₁.dvd
  have hhas : P.area.Has (x + (n + k)) := (P.geometry hP).has hy4 (by omega) (by omega)
  have hhas' : P.area.Has (x + (n + k) + 4) := has_header hP hy4 (by omega) (by omega)
  refine Returns.bind_eq (setPrevHdr_eq hhas) ?_
  have hole₃ := hole₂.set (a := x + (n + k)) (v := BitVec.ofNat 32 x) (by omega) (Nat.le_refl _)
  obtain ⟨m, ws, hm, -, hm4, hmtag⟩ := hole₃.next
  refine Returns.bind_eq ((sizeOf_eq hhas').trans (congrArg some hmtag)) ?_
  rw [prevFree, word_clear_prev hm4]
  refine Returns.bind_eq (setSize_eq hhas') ?_
  have hole₄ := hole₃.retag false hm
  have htag₄ : Function.update (Function.update (Function.update t₁.lists.mem (x + 4)
      (word (n + k - 8) false (lastFree false us))) (x + (n + k)) (BitVec.ofNat 32 x))
      (x + (n + k) + 4) ((P.geometry hP).tag false m) (x + 4) =
      word (n + k - 8) false (lastFree false us) := by
    rw [Function.update_of_ne (by omega), Function.update_of_ne (by omega), Function.update_self]
  refine Returns.bind_eq ((sizeOf_eq hheader).trans (congrArg some htag₄)) ?_
  rw [word_size hnk8, ofNat_sub (by omega) (by omega)]
  refine Returns.bind (splitRest_spec (t := { t₁ with lists := _ }) ⟨hole₄, hwork.exact⟩
    (fits_mk (by omega) (by omega)) hus hvs (by simpa using hnot) htag₄ hnk8 hr4 hr (by omega)
    fun _ => ⟨rfl, rfl⟩) ?_
  rintro t₂ ⟨mid, L₂, j, hcut, hj, hrep, htag₂, hused₂, hdata, hkept⟩
  have hsame : SameUsed (P.geometry hP) us (⟨k, true⟩ :: vs) (x + n) us vs (x + (n + k)) :=
    fun z m => by simp [Around, placed, Nat.add_assoc]
  have hj8 : 4 ∣ j - 8 := hcut.four_dvd hrep.blocks
  refine Returns.bind_eq (addUsed_eq hheader hj8 htag₂) (.pure ⟨ofNat_add_eight x, n + k, vs,
    mid, j, L₂, hcut, hj, ⟨hrep.blocks, hrep.exact⟩, ?_, hsame, ?_,
    fun z hz => hdata z (hsame.payload hz), fun a hlo hhi hr => (hkept a hlo hr).trans ?_⟩)
  · dsimp only
    rw [hused₂]
    dsimp only
    rw [hused₁, Nat.sub_add_cancel (show 8 ≤ n by omega), Nat.sub_add_cancel (show 8 ≤ j by omega)]
  · simp only [freeSpan_cons, if_true]
    omega
  · dsimp only
    rw [Function.update_of_ne (by omega), Function.update_of_ne (by omega),
      Function.update_of_ne (by omega), hmem a (by omega) (by omega)]

end

end Xmertl.Xtratum
