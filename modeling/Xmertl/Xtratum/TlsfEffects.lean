import Xmertl.Xtratum.TlsfRealloc

/-!
# What the calls mean to their callers

Each call of the allocator takes a block in use away, gives one, or both, and leaves the
others as they are. What `used_size` gains, the free blocks lose.
-/

namespace Xmertl.Xtratum

open BoundaryTags SizeClasses ThreadedLists TlsfPool TotalCorrectness

/-- From `t` to `t'` the block in use at `gone` goes and that at `come` comes. -/
structure Tlsf.Turns (t t' : Tlsf) (G : Geometry) (bs bs' : List BoundaryTags.Block)
    (gone : Option Nat) (come : Option (Nat × Nat)) : Prop where
  rep : ∃ L, t'.Rep G bs' L
  changed : Changed G t.lists.mem t'.lists.mem bs bs' gone come
  account : t'.usedSize + BitVec.ofNat 32 (freeSpan bs') =
    t.usedSize + BitVec.ofNat 32 (freeSpan bs)

section
variable {P : Pool} {hP : P.Usable} {t t' : Tlsf} {us vs bs : List BoundaryTags.Block}
  {x y z n k r j : Nat} {L : Fin 24 × Fin 32 → List Nat} {v : Word}

theorem mallocEx_turns (h : t.Rep (P.geometry hP) bs L) (hv : v.toNat ≤ 2 ^ 30 - 2 ^ 24) :
    Returns (mallocEx P t v) fun q =>
      (q = (0#32, t) ∧ ¬Offers (P.geometry hP) bs (roundUp 5 (fitted v.toNat))) ∨
      (Offers (P.geometry hP) bs (roundUp 5 (fitted v.toNat)) ∧ ∃ bs' x k, q.1 = pointerTo (some x) ∧
        v.toNat + 8 ≤ k ∧ t.Turns q.2 (P.geometry hP) bs bs' none (some (x, k))) := by
  refine (mallocEx_spec h hv).mono fun q hq => ?_
  rcases hq with hq | ⟨us, vs, n, mid, k, L', rfl, hn, hcut, hk, hptr, hrep, hused, hdata⟩
  · exact .inl hq
  · have hfit := (le_fitted v.toNat).1
    have hround := le_roundUp (k := 5) (r := fitted v.toNat)
    refine .inr ⟨⟨n, by simp, hn⟩, _, stop (P.geometry hP).first us, k, hptr, by omega, ⟨L', hrep⟩,
      ?_, ?_⟩
    · refine Changed.of_payload h.blocks rfl (fun z j => ?_) (fun z j he => ?_) hdata
      · rw [used_fill vs mid rfl hcut.stop, hcut.used]
      · obtain ⟨rfl, rfl⟩ := Prod.mk.inj (Option.some.inj he)
        have hfit : Fits ⟨n, true⟩ := h.blocks.fits _ (by simp)
        have hn16 : 16 ≤ n := hfit.1
        omega
    · have hsum := hcut.freeSpan
      have hfree : freeSpan (us ++ ⟨n, true⟩ :: vs) = k + freeSpan (us ++ (mid ++ vs)) := by
        simp only [freeSpan_append, freeSpan_cons, if_true]
        omega
      rw [hused, hfree, BitVec.ofNat_add, BitVec.add_assoc]

theorem freeEx_turns (h : t.Rep (P.geometry hP) bs L) (hx : Used (P.geometry hP) bs x n) :
    Returns (freeEx P t (pointerTo (some x))) fun t' => ∃ bs',
      t.Turns t' (P.geometry hP) bs bs' (some x) none := by
  obtain ⟨us, vs, rfl, hat⟩ := placed_split hx
  refine (freeEx_spec h hat.symm).mono fun t' ⟨us', m, vs', L', hrep, hsame, hsum, hused, hdata⟩ => ?_
  refine ⟨_, ⟨L', hrep⟩, ?_, ?_⟩
  · refine Changed.of_payload (f := false) h.blocks hat.symm (fun z j => ?_) nofun hdata
    rw [used_fill vs' [⟨m, true⟩] rfl rfl]
    simpa [placed, BoundaryTags.stop] using hsame z j
  · have hfree : freeSpan (us' ++ ([⟨m, true⟩] ++ vs')) = n + freeSpan (us ++ ⟨n, false⟩ :: vs) := by
      simp only [freeSpan_append, freeSpan_cons, freeSpan_nil, if_true, Bool.false_eq_true, if_false]
      omega
    rw [hused, hfree, BitVec.ofNat_add, ← BitVec.add_assoc, BitVec.sub_add_cancel]

theorem Resized.turns {q : Word × Tlsf} (hr : Resized (P.geometry hP) t us vs x n r q)
    (h : t.Rep (P.geometry hP) (us ++ ⟨n, false⟩ :: vs) L) (hx : stop (P.geometry hP).first us = x) :
    ∃ bs' k, q.1 = pointerTo (some x) ∧ r + 8 ≤ k ∧
      t.Turns q.2 (P.geometry hP) (us ++ ⟨n, false⟩ :: vs) bs' (some x) (some (x, k)) ∧
      Carried t.lists.mem q.2.lists.mem x x (min (n - 8) r) := by
  obtain ⟨hptr, n', vs', mid, k, L', hcut, hk, hrep, hused, hsame, hsum, hdata, hkept⟩ := hr
  have hx4 : 4 ∣ x := hx ▸ h.blocks.open.dvd
  refine ⟨_, k, hptr, hk, ⟨⟨L', hrep⟩, ?_, ?_⟩, .of_words hx4 hx4 fun i _ hi =>
    hkept _ (by omega) (by omega) (by omega)⟩
  · refine Changed.of_payload (f := false) h.blocks hx (fun z j => ?_) (fun z j he => ?_) hdata
    · rw [used_fill vs' mid hx hcut.stop, hcut.used, hsame z j]
    · obtain ⟨rfl, rfl⟩ := Prod.mk.inj (Option.some.inj he)
      have hfit : Fits ⟨n, false⟩ := h.blocks.fits _ (by simp)
      have hn16 : 16 ≤ n := hfit.1
      omega
  · have hfree : k + freeSpan (us ++ (mid ++ vs')) = n + freeSpan (us ++ ⟨n, false⟩ :: vs) := by
      have hmid := hcut.freeSpan
      simp only [freeSpan_append, freeSpan_cons, Bool.false_eq_true, if_false]
      omega
    rw [hused, BitVec.add_assoc, ← BitVec.ofNat_add, hfree, BitVec.ofNat_add, ← BitVec.add_assoc,
      BitVec.sub_add_cancel]

-- ---------------------------------------------------------------------------
-- realloc_ex
-- ---------------------------------------------------------------------------

theorem copyWords_spec {A : Area} {mem : Nat → Word} (hdst : ∀ i < n, A.Has (y + 4 * i))
    (hsrc : ∀ i < n, A.Has (x + 4 * i)) (hapart : x + 4 * n ≤ y ∨ y + 4 * n ≤ x) :
    Returns (copyWords A n mem (BitVec.ofNat 32 y) (BitVec.ofNat 32 x)) fun mem' =>
      (∀ i < n, mem' (y + 4 * i) = mem (x + 4 * i)) ∧
        ∀ b, b < y ∨ y + 4 * n ≤ b → mem' b = mem b := by
  induction n generalizing x y mem with
  | zero => exact .pure ⟨nofun, fun _ _ => rfl⟩
  | succ n ih =>
    refine Returns.bind_eq (load_ofNat (hsrc 0 (Nat.succ_pos n))) ?_
    refine Returns.bind_eq (store_ofNat (hdst 0 (Nat.succ_pos n))) ?_
    have hadd : ∀ z, BitVec.ofNat 32 z + 4#32 = BitVec.ofNat 32 (z + 4) := ofNat_add_four
    have hsucc : ∀ z i, z + 4 * (i + 1) = z + 4 + 4 * i := fun z i => by omega
    rw [hadd, hadd]
    refine (ih (fun i hi => ?_) (fun i hi => ?_) (by omega)).mono fun mem' ⟨hcopy, hkept⟩ =>
      ⟨fun i hi => ?_, fun b hb => ?_⟩
    · have hhas := hdst (i + 1) (by omega)
      rwa [hsucc] at hhas
    · have hhas := hsrc (i + 1) (by omega)
      rwa [hsucc] at hhas
    · cases i with
      | zero =>
        rw [hkept _ (by omega)]
        exact Function.update_self ..
      | succ i =>
        have hstep := hcopy i (by omega)
        rw [Function.update_of_ne (by omega)] at hstep
        rw [hsucc, hsucc, hstep]
    · rw [hkept b (by omega), Function.update_of_ne (by omega)]

theorem copyWords_null {A : Area} {mem : Nat → Word} (hn : 0 < n) :
    copyWords A n mem 0#32 v = none := by
  cases n with
  | zero => exact absurd hn (Nat.lt_irrefl 0)
  | succ n =>
    have habove := A.above
    have hhas : ¬A.Has 0 := fun h0 => by
      have hlo := h0.1
      omega
    cases hl : A.load mem v <;> simp [copyWords, hl, Area.store, hhas]

theorem cpsize_eq (hn : n < 2 ^ 32) (hr : r < 2 ^ 32) :
    (if BitVec.ofNat 32 n > BitVec.ofNat 32 r then BitVec.ofNat 32 r else BitVec.ofNat 32 n).toNat =
      min n r := by
  simp only [gt_iff_lt, BitVec.lt_def, toNat_ofNat hn, toNat_ofNat hr]
  split
  · rw [toNat_ofNat hr]
    omega
  · rw [toNat_ofNat hn]
    omega

theorem Tlsf.Rep.sizeOf_used (h : t.Rep (P.geometry hP) bs L) (hx : Used (P.geometry hP) bs x n) :
    ∃ p, t.sizeOf P (BitVec.ofNat 32 x) = some (word (n - 8) false p) ∧ 4 ∣ n - 8 := by
  obtain ⟨us, vs, rfl, rfl⟩ := placed_split hx
  have hole := h.blocks.open
  have hfit : Fits ⟨n, false⟩ := h.blocks.fits _ (by simp)
  exact ⟨_, (sizeOf_eq (has_header hP hole.dvd hole.first_le hole.le_last)).trans
    (congrArg some hole.right.1), Nat.dvd_sub hfit.2 (by decide)⟩

theorem move_null (h : t.Rep (P.geometry hP) bs L) (hx : Used (P.geometry hP) bs x n) (hr8 : 8 ≤ r)
    (hr : r < 2 ^ 32) (hm : mallocEx P t (BitVec.ofNat 32 r) = some (0#32, t)) :
    move P t (pointerTo (some x)) (BitVec.ofNat 32 x) (BitVec.ofNat 32 r) = none := by
  have hlt := (h.blocks.used_lt hx).2
  have hhi := (P.geometry hP).le_hi
  have htop := (P.geometry hP).area.top
  have hn16 : 16 ≤ n := (h.blocks.fits _ (mem_of_placed hx)).1
  obtain ⟨f, hsize, hn4⟩ := h.sizeOf_used hx
  simp only [move, hm, hsize, tlsfBlockSize, word_size hn4, Option.bind_eq_bind, Option.bind_some]
  rw [cpsize_eq (by omega) hr, copyWords_null (by omega), Option.bind_none]

theorem move_turns (h : t.Rep (P.geometry hP) bs L) (hx : Used (P.geometry hP) bs x n)
    (hr : r ≤ 2 ^ 30 - 2 ^ 24) (hr8 : 8 ≤ r) (hdvd : 4 ∣ r) :
    (Offers (P.geometry hP) bs (roundUp 5 (fitted r)) ∧
      Returns (move P t (pointerTo (some x)) (BitVec.ofNat 32 x) (BitVec.ofNat 32 r)) fun q =>
        ∃ bs' y k, q.1 = pointerTo (some y) ∧ r + 8 ≤ k ∧
          t.Turns q.2 (P.geometry hP) bs bs' (some x) (some (y, k)) ∧
          Carried t.lists.mem q.2.lists.mem x y (min (n - 8) r)) ∨
      ¬Offers (P.geometry hP) bs (roundUp 5 (fitted r)) ∧
        move P t (pointerTo (some x)) (BitVec.ofNat 32 x) (BitVec.ofNat 32 r) = none ∧
        mallocEx P t (BitVec.ofNat 32 r) = some (0#32, t) := by
  have hrn := toNat_ofNat (show r < 2 ^ 32 by omega)
  have hlt := (h.blocks.used_lt hx).2
  have hhi := (P.geometry hP).le_hi
  have htop := (P.geometry hP).area.top
  have hfit : Fits ⟨n, false⟩ := h.blocks.fits _ (mem_of_placed hx)
  have hn16 : 16 ≤ n := hfit.1
  have hcp := cpsize_eq (n := n - 8) (r := r) (by omega) (by omega)
  have hmalloc := mallocEx_turns h (v := BitVec.ofNat 32 r) (by omega)
  rw [hrn] at hmalloc
  obtain ⟨⟨p, t₁⟩, hm, ⟨hnull, hnone⟩ | ⟨hsome, bs₁, y, k, hp, hk, ⟨L₁, hrep₁⟩, hch₁, hacc₁⟩⟩ := hmalloc
  · obtain ⟨rfl, rfl⟩ := Prod.mk.inj hnull
    exact .inr ⟨hnone, move_null h hx hr8 (by omega) hm, hm⟩
  · refine .inl ⟨hsome, Returns.bind_eq hm ?_⟩
    dsimp only at hp hrep₁ hch₁ hacc₁ ⊢
    have hx₁ : Used (P.geometry hP) bs₁ x n := (hch₁.used x n).mpr (.inl ⟨hx, (Option.some_ne_none x).symm⟩)
    have hy₁ : Used (P.geometry hP) bs₁ y k := (hch₁.used y k).mpr (.inr rfl)
    obtain ⟨f, hsize, hn4⟩ := hrep₁.sizeOf_used hx₁
    refine Returns.bind_eq hsize ?_
    rw [tlsfBlockSize, word_size hn4]
    rw [hcp, hp]
    have hylt := (hrep₁.blocks.used_lt hy₁).2
    have hxb := hrep₁.blocks.used_bounds hx₁
    have hyb := hrep₁.blocks.used_bounds hy₁
    have hxy : x ≠ y := by
      rintro rfl
      cases hch₁.fresh x k n rfl hx
    have hap := hx₁.apart hy₁ hxy
    have hyk : Fits ⟨k, false⟩ := hrep₁.blocks.fits _ (mem_of_placed hy₁)
    have hk4 : 4 ∣ k := hyk.2
    refine Returns.bind (copyWords_spec (fun i hi => ?_) (fun i hi => ?_) (by omega)) ?_
    · exact (P.geometry hP).has (by omega) (by omega) (by omega)
    · exact (P.geometry hP).has (by omega) (by omega) (by omega)
    · rintro mem ⟨hcopy, hkept⟩
      have hb : Blocks (P.geometry hP) cellOf { t₁.lists with mem } bs₁ L₁ :=
        hrep₁.blocks.rewrite hy₁ fun a ha => hkept a (by omega)
      refine Returns.bind (freeEx_turns ⟨hb, hrep₁.exact⟩ hx₁) ?_
      rintro t₂ ⟨bs₂, hrep₂, hch₂, hacc₂⟩
      refine .pure ⟨bs₂, y, k, rfl, by omega, ⟨hrep₂, hch₁.replace hb (fun a ha => hkept a (by omega))
        hch₂ hx, hacc₂.trans hacc₁⟩, ?_⟩
      have hcopied : Carried t₁.lists.mem mem x y (min (n - 8) r) := by
        refine .of_words hxb.2 hyb.2 fun i hi hlt => ?_
        obtain ⟨j, rfl⟩ := hi
        exact hcopy j (by omega)
      have hout := hch₁.carried hx (Option.some_ne_none x).symm hxb.2
      have hin := hch₂.carried hy₁ (by simpa using hxy) hyb.2
      exact ((hout.mono (by omega)).trans hcopied).trans (hin.mono (by omega))

/-- The block can have `r` bytes where it stands. -/
def Resizes (G : Geometry) (bs : List BoundaryTags.Block) (x n r : Nat) : Prop :=
  r + 8 ≤ n ∨ ∃ k, (x + n, ⟨k, true⟩) ∈ placed G.first bs ∧ r + 16 ≤ n + k

theorem Resizes.le {G : Geometry} {w : FreeLists (Fin 24 × Fin 32)} (h : Resizes G bs x n r)
    (hb : Blocks G cellOf w bs L) (hx : Used G bs x n) : G.first + r + 8 ≤ G.last := by
  have hfirst := (hb.used_bounds hx).1
  have hlast := (hb.used_lt hx).2
  rcases h with hin | ⟨k, hk, hin⟩
  · omega
  · have hkb := (placed_bounds hk).2
    rw [hb.fin] at hkb
    dsimp only at hkb
    omega

theorem reallocEx_cases (h : t.Rep (P.geometry hP) bs L) (hx : Used (P.geometry hP) bs x n)
    (hv : v.toNat + 8 ≤ 2 ^ 32) (hv₀ : v ≠ 0#32) :
    (Resizes (P.geometry hP) bs x n (fitted v.toNat) ∧
      Returns (reallocEx P t (pointerTo (some x)) v) fun q => ∃ bs' k, q.1 = pointerTo (some x) ∧
        fitted v.toNat + 8 ≤ k ∧ t.Turns q.2 (P.geometry hP) bs bs' (some x) (some (x, k)) ∧
        Carried t.lists.mem q.2.lists.mem x x (min (n - 8) (fitted v.toNat))) ∨
      ¬Resizes (P.geometry hP) bs x n (fitted v.toNat) ∧
        reallocEx P t (pointerTo (some x)) v =
          move P t (pointerTo (some x)) (BitVec.ofNat 32 x) (BitVec.ofNat 32 (fitted v.toNat)) := by
  obtain ⟨-, hr8, hr4⟩ := le_fitted v.toNat
  have hr := blockSize_eq hv
  have hr32 : fitted v.toNat < 2 ^ 32 := by
    rw [fitted]
    omega
  generalize fitted v.toNat = r at *
  have hptr := pointerTo_ne_zero h.blocks hx
  have hlt := h.blocks.used_lt hx
  have htop := (P.geometry hP).area.top
  have hhi := (P.geometry hP).le_hi
  have hfit : Fits ⟨n, false⟩ := h.blocks.fits _ (mem_of_placed hx)
  have hn16 : 16 ≤ n := hfit.1
  obtain ⟨f, hsize, hn4⟩ := h.sizeOf_used hx
  have hb : pointerTo (some x) - bhdrOverhead = BitVec.ofNat 32 x := by
    rw [pointerTo, bhdrOverhead, ofNat_sub (by omega) (by omega), Nat.add_sub_cancel]
  have hend : x + 8 + (n - 8) = x + n := by omega
  obtain ⟨us, vs, rfl, hat⟩ := placed_split hx
  have hole := h.blocks.open
  obtain ⟨m, ws, hm, hmf, hm4, hmtag⟩ := hole.take.next
  rw [← hat] at hmtag
  have hdvd := hole.take.dvd
  have hle := hole.take.le_last
  rw [← hat] at hdvd hle
  have hlo := (h.blocks.used_bounds hx).1
  have hnext := (sizeOf_eq (has_header hP hdvd (by omega) hle)).trans (congrArg some hmtag)
  have heq : reallocEx P t (pointerTo (some x)) v =
      if BitVec.ofNat 32 r ≤ BitVec.ofNat 32 (n - 8) then
        shrink P t (BitVec.ofNat 32 x) (BitVec.ofNat 32 (x + n)) (BitVec.ofNat 32 r)
          (BitVec.ofNat 32 (n - 8))
      else if word (m.span - 8) m.free false &&& freeBlock ≠ 0#32 ∧
          BitVec.ofNat 32 r ≤ BitVec.ofNat 32 (n - 8) + BitVec.ofNat 32 (m.span - 8) then
        grow P t (BitVec.ofNat 32 x) (BitVec.ofNat 32 (x + n)) (BitVec.ofNat 32 r)
      else move P t (pointerTo (some x)) (BitVec.ofNat 32 x) (BitVec.ofNat 32 r) := by
    rw [reallocEx, if_neg hptr, if_neg hv₀, hb]
    simp only [hsize, Option.bind_eq_bind, Option.bind_some, tlsfBlockSize, word_size hn4, next_eq, hend,
      hnext, word_size hm4, hr]
    rfl
  have hle_iff : ∀ s, s < 2 ^ 32 → (BitVec.ofNat 32 r ≤ BitVec.ofNat 32 s ↔ r ≤ s) := by
    intro s hs
    rw [BitVec.le_def, toNat_ofNat hs, toNat_ofNat hr32]
  rw [heq]
  by_cases hshrink : r ≤ n - 8
  · rw [if_pos ((hle_iff _ (by omega)).mpr hshrink)]
    exact .inl ⟨.inl (by omega), (shrink_spec h hat.symm hr4 hr8 (by omega)).mono
      fun q hq => hq.turns h hat.symm⟩
  · rw [if_neg (mt (hle_iff _ (by omega)).mp hshrink)]
    have hbound : ∀ k, (x + n, ⟨k, true⟩) ∈ placed (P.geometry hP).first (us ++ ⟨n, false⟩ :: vs) →
        16 ≤ k ∧ x + n + k ≤ (P.geometry hP).last := by
      intro k hk
      have hkb := (placed_bounds hk).2
      rw [h.blocks.fin] at hkb
      exact ⟨(h.blocks.fits _ (mem_of_placed hk)).1, hkb⟩
    split
    · rename_i hgrow
      obtain ⟨hfree, hsum⟩ := hgrow
      obtain ⟨k, vs, rfl⟩ := firstFree_split (hmf.symm.trans ((word_free hm4).mp hfree))
      obtain ⟨rfl, rfl⟩ := List.cons.inj hm
      have hkat : (x + n, ⟨k, true⟩) ∈ placed (P.geometry hP).first
          (us ++ ⟨n, false⟩ :: ⟨k, true⟩ :: vs) := by
        simp [placed, hat]
      obtain ⟨hk16, hkb⟩ := hbound k hkat
      dsimp only at hsum
      rw [← BitVec.ofNat_add, hle_iff _ (by omega)] at hsum
      exact .inl ⟨.inr ⟨k, hkat, by omega⟩, (grow_spec h hat.symm hr4 hr8 (by omega)).mono
        fun q hq => hq.turns h hat.symm⟩
    · rename_i hgrow
      refine .inr ⟨?_, rfl⟩
      rintro (hin | ⟨k, hkat, hrk⟩)
      · omega
      · obtain ⟨hk16, hkb⟩ := hbound k hkat
        -- the block there is the one whose header was read
        cases vs with
        | nil =>
          have hend := h.blocks.fin
          rw [stop_append, ← hat] at hend
          change x + n = _ at hend
          omega
        | cons b vs =>
          obtain ⟨rfl, rfl⟩ := List.cons.inj hm
          have hbat : (x + n, b) ∈ placed (P.geometry hP).first (us ++ ⟨n, false⟩ :: b :: vs) := by
            simp [placed, hat]
          have hb16 : 16 ≤ b.span := (h.blocks.fits _ (mem_of_placed hbat)).1
          rcases placed_apart hbat hkat with ⟨-, rfl⟩ | hap
          · refine hgrow ⟨(word_free hm4).mpr rfl, ?_⟩
            dsimp only
            rw [← BitVec.ofNat_add, hle_iff _ (by omega)]
            omega
          · simp only at hap
            omega

theorem reallocEx_turns (h : t.Rep (P.geometry hP) bs L) (hx : Used (P.geometry hP) bs x n)
    (hv : v.toNat ≤ 2 ^ 30 - 2 ^ 24) (hv₀ : v ≠ 0#32) :
    Returns (reallocEx P t (pointerTo (some x)) v) (fun q => ∃ bs' y k, q.1 = pointerTo (some y) ∧
      v.toNat + 8 ≤ k ∧ t.Turns q.2 (P.geometry hP) bs bs' (some x) (some (y, k)) ∧
      Carried t.lists.mem q.2.lists.mem x y (min (n - 8) v.toNat)) ∨
      ¬Offers (P.geometry hP) bs (roundUp 5 (fitted v.toNat)) ∧
        reallocEx P t (pointerTo (some x)) v = none ∧
        mallocEx P t (blockSize v) = some (0#32, t) := by
  obtain ⟨hvr, hr8, hr4⟩ := le_fitted v.toNat
  rcases reallocEx_cases h hx (by omega) hv₀ with ⟨-, hr⟩ | ⟨-, hr⟩
  · refine .inl (hr.mono ?_)
    rintro q ⟨bs', k, hp, hk, hturns, hcarried⟩
    exact ⟨bs', x, k, hp, by omega, hturns, hcarried.mono (by omega)⟩
  · rw [hr, blockSize_eq (by omega)]
    have hmove := move_turns h hx (fitted_le hv) hr8 hr4
    rw [fitted_fitted] at hmove
    rcases hmove with ⟨-, hret⟩ | hfail
    · refine .inl (hret.mono ?_)
      rintro q ⟨bs', y, k, hp, hk, hturns, hcarried⟩
      exact ⟨bs', y, k, hp, by omega, hturns, hcarried.mono (by omega)⟩
    · exact .inr hfail

end

end Xmertl.Xtratum
