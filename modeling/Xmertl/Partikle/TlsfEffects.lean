import Xmertl.Partikle.TlsfFree

/-!
# What the calls mean to their callers

Each call of the allocator takes a block in use away, gives one, or both, and leaves the
others as they are. `realloc_ex` always takes a new block.
-/

namespace Xmertl.Partikle.MemoryPool

open BoundaryTags SizeClasses ThreadedLists TlsfPool TotalCorrectness

def reallocEx (P : Pool) (t : Tlsf) (ptr newSize : Word) : Option (Word × Tlsf) := do
  if ptr = 0#32 then
    if newSize ≠ 0#32 then mallocEx P t newSize else return (0#32, t)
  else if newSize = 0#32 then return (0#32, ← freeEx P t ptr)
  else
    let (ptrAux, t) ← mallocEx P t newSize
    let size := (← t.sizeOf P (ptr - 8#32)) &&& blockSize
    let cpsize := if size > newSize then newSize else size
    let mem ← memcpy P.area cpsize.toNat t.lists.mem ptrAux ptr
    let t ← freeEx P { t with lists := { t.lists with mem } } ptr
    return (ptrAux, t)

/-- From `t` to `t'` the block in use at `gone` goes and that at `come` comes. -/
structure Tlsf.Turns (t t' : Tlsf) (G : Geometry) (bs bs' : List BoundaryTags.Block)
    (gone : Option Nat) (come : Option (Nat × Nat)) : Prop where
  rep : ∃ L, t'.Rep G bs' L
  changed : Changed G t.lists.mem t'.lists.mem bs bs' gone come

section
variable {P : Pool} {hP : P.Usable} {t t' : Tlsf} {bs : List BoundaryTags.Block} {x n : Nat}
  {L : ListId → List Nat} {v : Word}

theorem mallocEx_turns (h : t.Rep (P.geometry hP) bs L) (hv : v.toNat ≤ 2 ^ 30 - 2 ^ 24) :
    Returns (mallocEx P t v) fun q =>
      (q = (0#32, t) ∧ ¬Offers (P.geometry hP) bs (roundUp 5 (fitted v.toNat))) ∨
      (Offers (P.geometry hP) bs (roundUp 5 (fitted v.toNat)) ∧ ∃ bs' x k, q.1 = pointerTo (some x) ∧
        v.toNat + 4 ≤ k ∧ t.Turns q.2 (P.geometry hP) bs bs' none (some (x, k))) := by
  refine (mallocEx_spec h hv).mono fun q hq => hq.imp_right fun ⟨hoffers, hgives⟩ => ⟨hoffers, ?_⟩
  obtain ⟨us, vs, n, mid, k, L', rfl, hcut, hk, hptr, hrep, hdata⟩ := hgives
  have hfit := (le_fitted v.toNat).1
  refine ⟨_, stop (P.geometry hP).first us, k, hptr, by omega, ⟨L', hrep⟩, ?_⟩
  refine Changed.of_payload h.blocks rfl (fun z j => ?_) (fun z j he => ?_) hdata
  · rw [used_fill vs mid rfl hcut.stop, hcut.used]
  · obtain ⟨rfl, rfl⟩ := Prod.mk.inj (Option.some.inj he)
    have hn16 : 16 ≤ n := (h.blocks.fits ⟨n, true⟩ (by simp)).1
    omega

theorem freeEx_turns (h : t.Rep (P.geometry hP) bs L) (hx : Used (P.geometry hP) bs x n) :
    Returns (freeEx P t (pointerTo (some x))) fun t' => ∃ bs',
      t.Turns t' (P.geometry hP) bs bs' (some x) none := by
  obtain ⟨us, vs, rfl, hat⟩ := placed_split hx
  refine (freeEx_spec h hat.symm).mono fun t' ⟨us', m, vs', L', hrep, hsame, hdata⟩ =>
    ⟨_, ⟨L', hrep⟩, ?_⟩
  refine Changed.of_payload (f := false) h.blocks hat.symm (fun z j => ?_) nofun hdata
  rw [used_fill vs' [⟨m, true⟩] rfl rfl]
  simpa [placed, BoundaryTags.stop] using hsame z j

-- ---------------------------------------------------------------------------
-- realloc_ex
-- ---------------------------------------------------------------------------

theorem Tlsf.Rep.sizeOf_used (h : t.Rep (P.geometry hP) bs L) (hx : Used (P.geometry hP) bs x n) :
    ∃ p, t.sizeOf P (BitVec.ofNat 32 x) = some (word (n - 4) false p) ∧ 4 ∣ n - 4 := by
  obtain ⟨us, vs, rfl, rfl⟩ := placed_split hx
  have hole := h.blocks.open
  have hfit : Fits ⟨n, false⟩ := h.blocks.fits _ (by simp)
  exact ⟨_, (sizeOf_eq (has_header hP hole.dvd hole.first_le hole.le_last)).trans
    (congrArg some hole.right.1), Nat.dvd_sub hfit.2 (by decide)⟩

theorem cpsize_eq (hn : n < 2 ^ 32) :
    (if BitVec.ofNat 32 n > v then v else BitVec.ofNat 32 n).toNat = min n v.toNat := by
  simp only [gt_iff_lt, BitVec.lt_def, toNat_ofNat hn]
  split
  · omega
  · rw [toNat_ofNat hn]
    omega

theorem Tlsf.Rep.buffer (h : t.Rep (P.geometry hP) bs L) (hx : Used (P.geometry hP) bs x n) :
    pointerTo (some x) - 8#32 = BitVec.ofNat 32 x := by
  have hlt := (h.blocks.used_lt hx).1
  rw [pointerTo, ofNat_sub (by omega) hlt, Nat.add_sub_cancel]

theorem reallocEx_null (h : t.Rep (P.geometry hP) bs L) (hx : Used (P.geometry hP) bs x n)
    (hv : v ≠ 0#32) (hm : mallocEx P t v = some (0#32, t)) :
    reallocEx P t (pointerTo (some x)) v = none := by
  obtain ⟨f, hsize, hn4⟩ := h.sizeOf_used hx
  have hn16 : 16 ≤ n := (h.blocks.fits _ (mem_of_placed hx)).1
  have hlt := h.blocks.used_lt hx
  have hhi := (P.geometry hP).le_hi
  have htop := (P.geometry hP).area.top
  have hpos : 0 < v.toNat := Nat.pos_of_ne_zero fun h0 => hv (BitVec.eq_of_toNat_eq h0)
  have hcp := cpsize_eq (n := n - 4) (v := v) (by omega)
  rw [reallocEx, if_neg (pointerTo_ne_zero h.blocks hx), if_neg hv, h.buffer hx]
  simp only [hm, hsize, blockSize, word_size hn4, Option.bind_eq_bind, Option.bind_some]
  rw [hcp, memcpy_null (by omega), Option.bind_none]

theorem reallocEx_turns (h : t.Rep (P.geometry hP) bs L) (hx : Used (P.geometry hP) bs x n)
    (hv : v.toNat ≤ 2 ^ 30 - 2 ^ 24) (hv₀ : v ≠ 0#32) :
    (Offers (P.geometry hP) bs (roundUp 5 (fitted v.toNat)) ∧
      Returns (reallocEx P t (pointerTo (some x)) v) fun q => ∃ bs' y k, q.1 = pointerTo (some y) ∧
        v.toNat + 4 ≤ k ∧ t.Turns q.2 (P.geometry hP) bs bs' (some x) (some (y, k)) ∧
        Carried t.lists.mem q.2.lists.mem x y (min (n - 4) v.toNat)) ∨
      ¬Offers (P.geometry hP) bs (roundUp 5 (fitted v.toNat)) ∧
        reallocEx P t (pointerTo (some x)) v = none := by
  obtain ⟨⟨p, t₁⟩, hm, ⟨hnull, hnone⟩ | ⟨hsome, bs₁, y, k, hp, hk, ⟨L₁, hrep₁⟩, hch₁⟩⟩ :=
    mallocEx_turns h hv
  · rw [hnull] at hm
    exact .inr ⟨hnone, reallocEx_null h hx hv₀ hm⟩
  · refine .inl ⟨hsome, ?_⟩
    dsimp only at hp hrep₁ hch₁
    rw [reallocEx, if_neg (pointerTo_ne_zero h.blocks hx), if_neg hv₀, h.buffer hx]
    refine Returns.bind_eq hm ?_
    have hx₁ : Used (P.geometry hP) bs₁ x n := (hch₁.used x n).mpr (.inl ⟨hx, nofun⟩)
    have hy₁ : Used (P.geometry hP) bs₁ y k := (hch₁.used y k).mpr (.inr rfl)
    have hxlt := (hrep₁.blocks.used_lt hx₁).2
    have hylt := (hrep₁.blocks.used_lt hy₁).2
    obtain ⟨hxfirst, hx4⟩ := hrep₁.blocks.used_bounds hx₁
    obtain ⟨hyfirst, hy4⟩ := hrep₁.blocks.used_bounds hy₁
    have hn4' : 4 ∣ n := (hrep₁.blocks.fits _ (mem_of_placed hx₁)).2
    have hk4 : 4 ∣ k := (hrep₁.blocks.fits _ (mem_of_placed hy₁)).2
    have hk16 : 16 ≤ k := (hrep₁.blocks.fits _ (mem_of_placed hy₁)).1
    have hhi := (P.geometry hP).le_hi
    have htop := (P.geometry hP).area.top
    have hxy : x ≠ y := by
      rintro rfl
      cases hch₁.fresh x k n rfl hx
    have hap := hx₁.apart hy₁ hxy
    obtain ⟨f, hsize, hn4⟩ := hrep₁.sizeOf_used hx₁
    refine Returns.bind_eq hsize ?_
    have hcp := cpsize_eq (n := n - 4) (v := v) (by omega)
    rw [blockSize, word_size hn4]
    dsimp only
    rw [hcp, hp]
    refine Returns.bind (memcpy_spec (fun i hi => ?_) (fun i hi => ?_) (by omega)) ?_
    · exact (P.geometry hP).has (by omega) (by omega) (by omega)
    · exact (P.geometry hP).has (by omega) (by omega) (by omega)
    · rintro mem ⟨hcopy, -, hword⟩
      have hb : Blocks (P.geometry hP) cellOf { t₁.lists with mem } bs₁ L₁ :=
        hrep₁.blocks.rewrite hy₁ fun a ha => hword a fun i hi => by omega
      refine Returns.bind (freeEx_turns ⟨hb, hrep₁.exact.of_lists⟩ hx₁) ?_
      rintro t₂ ⟨bs₂, hrep₂, hch₂⟩
      refine .pure ⟨bs₂, y, k, rfl, hk, ⟨hrep₂, hch₁.replace hb (fun a ha => hword a fun i hi => by omega) hch₂ hx⟩,
        ?_⟩
      have hcopied : Carried t₁.lists.mem mem x y (min (n - 4) v.toNat) := hcopy
      have hout := hch₁.carried hx nofun hx4
      have hin := hch₂.carried hy₁ (by simpa using hxy) hy4
      exact ((hout.mono (by omega)).trans hcopied).trans (hin.mono (by omega))

end

end Xmertl.Partikle.MemoryPool
