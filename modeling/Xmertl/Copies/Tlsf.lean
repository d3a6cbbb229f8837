import Xmertl.Partikle.TlsfRequests
import Xmertl.Partikle.TlsfRuns
import Xmertl.Xtratum.TlsfRequests
import Xmertl.Xtratum.TlsfRuns

/-!
# The two copies of the allocator

What holds of the hypervisor's copy of `tlsf.c` and of the kernel's, side by side.
-/

namespace Xmertl.TlsfCopies

open BoundaryTags Partikle SizeClasses TlsfPool TotalCorrectness

-- ---------------------------------------------------------------------------
-- init_memory_pool
-- ---------------------------------------------------------------------------

/-- The hypervisor's copy sets the pool up exactly where it refuses its arguments, where the
block of a fresh pool is not too large and ends in time for the header of the sentinel, and
where the link of the first block of an initialised pool is its size; the kernel's copy,
where it refuses its arguments or the pool has eight bytes more than the least size. -/
theorem initMemoryPool_setsUp (P : Xtratum.Pool) (t : Xtratum.Tlsf) (Q : MemoryPool.Pool)
    (u : MemoryPool.Tlsf) : (P.SetsUp t ↔ ¬P.Accepted ∨
      t.signature ≠ Xtratum.tlsfSignature ∧ P.size % 8 < 4 ∧ P.room < 2 ^ 30 ∨
      t.signature = Xtratum.tlsfSignature ∧ P.LinkIsSize t) ∧
    (Q.SetsUp u ↔ ¬Q.Accepted ∨ 3312 ≤ Q.size) :=
  ⟨Xtratum.setsUp_iff, MemoryPool.setsUp_iff⟩

/-- A pool of 8196 bytes at 0x10000, which the hypervisor's copy leaves by the header of the
sentinel; one of 2^30 + 3200 bytes, which it refuses and then takes for initialised; and one
of 3304 bytes, for which the kernel's copy has no list. -/
theorem pools_not_set_up :
    (∃ t, ¬(Xtratum.Pool.mk 0x10000 8196 (by decide)).SetsUp t) ∧
      (∃ t, ¬(Xtratum.Pool.mk 0x10000 (2 ^ 30 + 3200) (by decide)).SetsUp t) ∧
      ∃ t, ¬(MemoryPool.Pool.mk 0x10000 3304 (by decide)).SetsUp t := by
  refine ⟨⟨⟨0#32, 0#32, ⟨0#32, fun _ => 0#32⟩, fun _ => 0#32, fun _ => 0#32⟩, ?_⟩,
    ⟨⟨0#32, 0#32, ⟨0#32, fun _ => 0#32⟩, fun _ => 0#32, fun _ => 0#32⟩, ?_⟩,
    ⟨⟨0#32, 0#32, ⟨0#32, fun _ => 0#32⟩, fun _ => 0#32, fun _ => 0#32⟩, ?_⟩⟩
  · rw [Xtratum.setsUp_iff]
    decide
  · rw [Xtratum.setsUp_iff]
    decide
  · rw [MemoryPool.setsUp_iff]
    decide

section
variable {P : Xtratum.Pool} {hP : P.Usable} {t : Xtratum.Tlsf} {bs : List BoundaryTags.Block}
  {L : Fin 24 × Fin 32 → List Nat} {Q : MemoryPool.Pool} {hQ : Q.Usable} {u : MemoryPool.Tlsf}
  {cs : List BoundaryTags.Block} {M : MemoryPool.ListId → List Nat} {x y n m : Nat}

-- ---------------------------------------------------------------------------
-- malloc_ex and calloc_ex
-- ---------------------------------------------------------------------------

/-- Both copies serve the requests up to 2^30 - 2^24 bytes, and of the others those that get
NULL: the ones for which a class in the tables is searched that has no block, nor any later
one. -/
theorem requests_served (h : t.Rep (P.geometry hP) bs L) (h' : u.Rep (Q.geometry hQ) cs M) :
    ((∀ v : Word, Returns (Xtratum.mallocEx P t v) (t.Serves (P.geometry hP) v.toNat) ↔
        v.toNat ≤ 2 ^ 30 - 2 ^ 24 ∨
          ∃ s, Xtratum.searched v.toNat = some s ∧ ¬Offers (P.geometry hP) bs s) ∧
      ∀ v e : Word,
        Returns (Xtratum.callocEx P t v e) (t.Serves (P.geometry hP) (v.toNat * e.toNat)) ↔
          v.toNat * e.toNat ≤ 2 ^ 30 - 2 ^ 24 ∨
            ∃ s, Xtratum.searched (v * e).toNat = some s ∧ ¬Offers (P.geometry hP) bs s) ∧
    (∀ v : Word, Returns (MemoryPool.mallocEx Q u v) (u.Serves (Q.geometry hQ) v.toNat) ↔
        v.toNat ≤ 2 ^ 30 - 2 ^ 24 ∨
          ∃ s, MemoryPool.searched v.toNat = some s ∧ ¬Offers (Q.geometry hQ) cs s) ∧
      ∀ v e : Word,
        Returns (MemoryPool.callocEx Q u v e) (u.Serves (Q.geometry hQ) (v.toNat * e.toNat)) ↔
          v.toNat * e.toNat ≤ 2 ^ 30 - 2 ^ 24 ∨
            ∃ s, MemoryPool.searched (v * e).toNat = some s ∧ ¬Offers (Q.geometry hQ) cs s :=
  ⟨⟨fun _ => Xtratum.mallocEx_serves_iff h, fun _ _ => Xtratum.callocEx_serves_iff h⟩,
    fun _ => MemoryPool.mallocEx_serves_iff h', fun _ _ => MemoryPool.callocEx_serves_iff h'⟩

theorem hypervisor_fresh : ∃ (r : Word × Xtratum.Tlsf) (hP : Xtratum.examplePool.Usable)
    (L : Fin 24 × Fin 32 → List Nat),
    Xtratum.initMemoryPool Xtratum.examplePool Xtratum.exampleTlsf = some r ∧
      r.2.Rep (Xtratum.examplePool.geometry hP) [⟨5000, true⟩] L := by
  have hok : (Xtratum.initMemoryPool Xtratum.examplePool Xtratum.exampleTlsf).any fun r =>
      decide (r.1 ≠ -1#32) := by
    decide +kernel
  obtain ⟨r, hr, hbad | ⟨hP, L, hrep, -⟩⟩ := Xtratum.initMemoryPool_spec
    (P := Xtratum.examplePool) (t := Xtratum.exampleTlsf) (by decide) (by decide)
  · rw [hr, Option.any_some] at hok
    exact absurd hbad (of_decide_eq_true hok)
  · exact ⟨r, hP, L, hr, hrep⟩

theorem kernel_fresh : ∃ (r : Word × MemoryPool.Tlsf) (hQ : MemoryPool.examplePool.Usable)
    (M : MemoryPool.ListId → List Nat),
    MemoryPool.initMemoryPool MemoryPool.examplePool MemoryPool.exampleTlsf = some r ∧
      r.2.Rep (MemoryPool.examplePool.geometry hQ) [⟨5012, true⟩] M := by
  have hQ : MemoryPool.examplePool.Usable := ⟨by decide, by decide, by decide⟩
  obtain ⟨r, hr, -, M, hrep⟩ := MemoryPool.initMemoryPool_rep
    (t := MemoryPool.exampleTlsf) (by decide) hQ
  exact ⟨r, hQ, M, hr, hrep⟩

/-- Requests of 100 bytes, at once and as 25 times 4, on fresh pools. -/
theorem requests_served_fresh : ∃ (r : Word × Xtratum.Tlsf) (hP : Xtratum.examplePool.Usable)
    (s : Word × MemoryPool.Tlsf) (hQ : MemoryPool.examplePool.Usable),
    Xtratum.initMemoryPool Xtratum.examplePool Xtratum.exampleTlsf = some r ∧
    MemoryPool.initMemoryPool MemoryPool.examplePool MemoryPool.exampleTlsf = some s ∧
    Returns (Xtratum.mallocEx Xtratum.examplePool r.2 100#32)
      (r.2.Serves (Xtratum.examplePool.geometry hP) 100) ∧
    Returns (Xtratum.callocEx Xtratum.examplePool r.2 25#32 4#32)
      (r.2.Serves (Xtratum.examplePool.geometry hP) 100) ∧
    Returns (MemoryPool.mallocEx MemoryPool.examplePool s.2 100#32)
      (s.2.Serves (MemoryPool.examplePool.geometry hQ) 100) ∧
    Returns (MemoryPool.callocEx MemoryPool.examplePool s.2 25#32 4#32)
      (s.2.Serves (MemoryPool.examplePool.geometry hQ) 100) := by
  obtain ⟨r, hP, L, hr, hrep⟩ := hypervisor_fresh
  obtain ⟨s, hQ, M, hs, hrep'⟩ := kernel_fresh
  obtain ⟨⟨hmalloc, hcalloc⟩, hmalloc', hcalloc'⟩ := requests_served hrep hrep'
  exact ⟨r, hP, s, hQ, hr, hs, (hmalloc 100#32).mpr (.inl (by decide)),
    (hcalloc 25#32 4#32).mpr (.inl (by decide)), (hmalloc' 100#32).mpr (.inl (by decide)),
    (hcalloc' 25#32 4#32).mpr (.inl (by decide))⟩

theorem not_served {p : Prop} {o : Option Nat} {G : Geometry} (hp : ¬p)
    (ho : o.all fun s => decide (s + G.overhead ≤ n)) (hn : ⟨n, true⟩ ∈ bs) :
    ¬(p ∨ ∃ s, o = some s ∧ ¬Offers G bs s) := by
  rintro (h | ⟨s, rfl, hnone⟩)
  · exact hp h
  · exact hnone ⟨n, hn, of_decide_eq_true ho⟩

/-- On fresh pools 2^30 bytes are looked for outside the tables, 2^32 - 1 bytes are 0 once
they are rounded up and 2^16 times 2^16 bytes are 0 in 32 bits, for which a block is given. -/
theorem requests_not_served :
    (∃ (r : Word × Xtratum.Tlsf) (hP : Xtratum.examplePool.Usable),
      Xtratum.initMemoryPool Xtratum.examplePool Xtratum.exampleTlsf = some r ∧
      ¬Returns (Xtratum.mallocEx Xtratum.examplePool r.2 0x40000000#32)
        (r.2.Serves (Xtratum.examplePool.geometry hP) 0x40000000) ∧
      ¬Returns (Xtratum.mallocEx Xtratum.examplePool r.2 0xFFFFFFFF#32)
        (r.2.Serves (Xtratum.examplePool.geometry hP) 0xFFFFFFFF) ∧
      ¬Returns (Xtratum.callocEx Xtratum.examplePool r.2 0x10000#32 0x10000#32)
        (r.2.Serves (Xtratum.examplePool.geometry hP) 0x100000000)) ∧
    ∃ (s : Word × MemoryPool.Tlsf) (hQ : MemoryPool.examplePool.Usable),
      MemoryPool.initMemoryPool MemoryPool.examplePool MemoryPool.exampleTlsf = some s ∧
      ¬Returns (MemoryPool.mallocEx MemoryPool.examplePool s.2 0x40000000#32)
        (s.2.Serves (MemoryPool.examplePool.geometry hQ) 0x40000000) ∧
      ¬Returns (MemoryPool.mallocEx MemoryPool.examplePool s.2 0xFFFFFFFF#32)
        (s.2.Serves (MemoryPool.examplePool.geometry hQ) 0xFFFFFFFF) ∧
      ¬Returns (MemoryPool.callocEx MemoryPool.examplePool s.2 0x10000#32 0x10000#32)
        (s.2.Serves (MemoryPool.examplePool.geometry hQ) 0x100000000) := by
  obtain ⟨r, hP, L, hr, hrep⟩ := hypervisor_fresh
  obtain ⟨s, hQ, M, hs, hrep'⟩ := kernel_fresh
  have hin : (⟨5000, true⟩ : BoundaryTags.Block) ∈ [⟨5000, true⟩] := List.mem_singleton_self _
  have hin' : (⟨5012, true⟩ : BoundaryTags.Block) ∈ [⟨5012, true⟩] := List.mem_singleton_self _
  refine ⟨⟨r, hP, hr, ?_, ?_, ?_⟩, s, hQ, hs, ?_, ?_, ?_⟩
  · exact mt (Xtratum.mallocEx_serves_iff hrep (v := 0x40000000#32)).mp
      (not_served (by decide) rfl hin)
  · exact mt (Xtratum.mallocEx_serves_iff hrep (v := 0xFFFFFFFF#32)).mp
      (not_served (by decide) rfl hin)
  · exact mt (Xtratum.callocEx_serves_iff hrep (v := 0x10000#32) (e := 0x10000#32)).mp
      (not_served (by decide) rfl hin)
  · exact mt (MemoryPool.mallocEx_serves_iff hrep' (v := 0x40000000#32)).mp
      (not_served (by decide) rfl hin')
  · exact mt (MemoryPool.mallocEx_serves_iff hrep' (v := 0xFFFFFFFF#32)).mp
      (not_served (by decide) rfl hin')
  · exact mt (MemoryPool.callocEx_serves_iff hrep' (v := 0x10000#32) (e := 0x10000#32)).mp
      (not_served (by decide) rfl hin')

-- ---------------------------------------------------------------------------
-- realloc_ex
-- ---------------------------------------------------------------------------

/-- Both copies keep what was in the block where it is given up, and where there is a free
block for the new size, which is not beyond 2^30 - 2^24; the hypervisor's copy also where the
block can have the new size where it stands. -/
theorem contents_kept (h : t.Rep (P.geometry hP) bs L) (hx : Used (P.geometry hP) bs x n)
    (h' : u.Rep (Q.geometry hQ) cs M) (hy : Used (Q.geometry hQ) cs y m) :
    (∀ v : Word, Returns (Xtratum.reallocEx P t (pointerTo (some x)) v)
      (t.Keeps (P.geometry hP) x (n - 8) v.toNat) ↔
        v = 0#32 ∨ Xtratum.Resizes (P.geometry hP) bs x n (Xtratum.fitted v.toNat) ∨
          v.toNat ≤ 2 ^ 30 - 2 ^ 24 ∧
            Offers (P.geometry hP) bs (roundUp 5 (Xtratum.fitted v.toNat))) ∧
    ∀ v : Word, Returns (MemoryPool.reallocEx Q u (pointerTo (some y)) v)
      (u.Keeps (Q.geometry hQ) y (m - 4) v.toNat) ↔
        v = 0#32 ∨ v.toNat ≤ 2 ^ 30 - 2 ^ 24 ∧
          Offers (Q.geometry hQ) cs (roundUp 5 (MemoryPool.fitted v.toNat)) :=
  ⟨fun _ => Xtratum.reallocEx_keeps_iff h hx, fun _ => MemoryPool.reallocEx_keeps_iff h' hy⟩

theorem hypervisor_block : ∃ (r q : Word × Xtratum.Tlsf) (hP : Xtratum.examplePool.Usable)
    (bs : List BoundaryTags.Block) (L : Fin 24 × Fin 32 → List Nat) (x n : Nat),
    Xtratum.initMemoryPool Xtratum.examplePool Xtratum.exampleTlsf = some r ∧
      Xtratum.mallocEx Xtratum.examplePool r.2 100#32 = some q ∧ q.1 = pointerTo (some x) ∧
      q.2.Rep (Xtratum.examplePool.geometry hP) bs L ∧
      Used (Xtratum.examplePool.geometry hP) bs x n ∧ 108 ≤ n := by
  obtain ⟨r, hP, L, hr, hrep⟩ := hypervisor_fresh
  obtain ⟨q, hq, ⟨-, hnone⟩ | ⟨-, bs, x, n, hp, hn, ⟨L', hrep'⟩, hch, -⟩⟩ :=
    Xtratum.mallocEx_turns hrep (v := 100#32) (by decide)
  · have hfits : roundUp 5 (Xtratum.fitted 100) + 8 ≤ 5000 := by decide
    exact absurd ⟨5000, List.mem_singleton_self _, hfits⟩ hnone
  · exact ⟨r, q, hP, bs, L', x, n, hr, hq, hp, hrep', (hch.used x n).mpr (.inr rfl), hn⟩

theorem kernel_block : ∃ (s q : Word × MemoryPool.Tlsf) (hQ : MemoryPool.examplePool.Usable)
    (cs : List BoundaryTags.Block) (M : MemoryPool.ListId → List Nat) (y m : Nat),
    MemoryPool.initMemoryPool MemoryPool.examplePool MemoryPool.exampleTlsf = some s ∧
      MemoryPool.mallocEx MemoryPool.examplePool s.2 100#32 = some q ∧ q.1 = pointerTo (some y) ∧
      q.2.Rep (MemoryPool.examplePool.geometry hQ) cs M ∧
      Used (MemoryPool.examplePool.geometry hQ) cs y m ∧
      Offers (MemoryPool.examplePool.geometry hQ) cs (roundUp 5 (MemoryPool.fitted 200)) := by
  obtain ⟨s, hQ, M, hs, hrep⟩ := kernel_fresh
  obtain ⟨q, hq, ⟨-, hnone⟩ | ⟨-, cs, y, m, hp, -, ⟨M', hrep'⟩, hch⟩⟩ :=
    MemoryPool.mallocEx_turns hrep (v := 100#32) (by decide)
  · have hfits : roundUp 5 (MemoryPool.fitted 100) + 4 ≤ 5012 := by decide
    exact absurd ⟨5012, List.mem_singleton_self _, hfits⟩ hnone
  have hy : Used (MemoryPool.examplePool.geometry hQ) cs y m := (hch.used y m).mpr (.inr rfl)
  refine ⟨s, q, hQ, cs, M', y, m, hs, hq, hp, hrep', hy, ?_⟩
  -- more bytes are found for it
  have hrun : (MemoryPool.initMemoryPool MemoryPool.examplePool MemoryPool.exampleTlsf).any fun s =>
      (MemoryPool.mallocEx MemoryPool.examplePool s.2 100#32).any fun q =>
        (MemoryPool.reallocEx MemoryPool.examplePool q.2 q.1 200#32).isSome := by
    decide +kernel
  rw [hs, Option.any_some, hq, Option.any_some, hp] at hrun
  rcases MemoryPool.reallocEx_turns hrep' hy (v := 200#32) (by decide) (by decide) with
    ⟨hsome, -⟩ | ⟨-, hnone⟩
  · exact hsome
  · rw [hnone] at hrun
    cases hrun

/-- Blocks of 100 bytes get 50 and 200 instead. -/
theorem contents_kept_fresh :
    (∃ (r q : Word × Xtratum.Tlsf) (hP : Xtratum.examplePool.Usable) (x n : Nat),
      Xtratum.initMemoryPool Xtratum.examplePool Xtratum.exampleTlsf = some r ∧
      Xtratum.mallocEx Xtratum.examplePool r.2 100#32 = some q ∧ q.1 = pointerTo (some x) ∧
      Returns (Xtratum.reallocEx Xtratum.examplePool q.2 (pointerTo (some x)) 50#32)
        (q.2.Keeps (Xtratum.examplePool.geometry hP) x (n - 8) 50)) ∧
    ∃ (s q : Word × MemoryPool.Tlsf) (hQ : MemoryPool.examplePool.Usable) (y m : Nat),
      MemoryPool.initMemoryPool MemoryPool.examplePool MemoryPool.exampleTlsf = some s ∧
      MemoryPool.mallocEx MemoryPool.examplePool s.2 100#32 = some q ∧ q.1 = pointerTo (some y) ∧
      Returns (MemoryPool.reallocEx MemoryPool.examplePool q.2 (pointerTo (some y)) 200#32)
        (q.2.Keeps (MemoryPool.examplePool.geometry hQ) y (m - 4) 200) := by
  obtain ⟨r, q, hP, bs, L, x, n, hr, hq, hp, hrep, hx, hn⟩ := hypervisor_block
  obtain ⟨s, w, hQ, cs, M, y, m, hs, hw, hp', hrep', hy, hoffers⟩ := kernel_block
  obtain ⟨hkept, hkept'⟩ := contents_kept hrep hx hrep' hy
  have hfitted : Xtratum.fitted 50 + 8 ≤ 108 := by decide
  exact ⟨⟨r, q, hP, x, n, hr, hq, hp, (hkept 50#32).mpr (.inr (.inl (.inl (hfitted.trans hn))))⟩,
    s, w, hQ, y, m, hs, hw, hp', (hkept' 200#32).mpr (.inr ⟨by decide, hoffers⟩)⟩

/-- There are 8000 bytes for no block of these pools, and with 2^32 - 1 the hypervisor's copy
cuts the block to nothing. Neither comes back with NULL. -/
theorem contents_not_kept :
    (∃ (r q : Word × Xtratum.Tlsf) (hP : Xtratum.examplePool.Usable) (x n : Nat),
      Xtratum.initMemoryPool Xtratum.examplePool Xtratum.exampleTlsf = some r ∧
      Xtratum.mallocEx Xtratum.examplePool r.2 100#32 = some q ∧ q.1 = pointerTo (some x) ∧
      ¬Returns (Xtratum.reallocEx Xtratum.examplePool q.2 (pointerTo (some x)) 8000#32)
        (q.2.Keeps (Xtratum.examplePool.geometry hP) x (n - 8) 8000) ∧
      ¬Returns (Xtratum.reallocEx Xtratum.examplePool q.2 (pointerTo (some x)) 0xFFFFFFFF#32)
        (q.2.Keeps (Xtratum.examplePool.geometry hP) x (n - 8) 0xFFFFFFFF)) ∧
    ∃ (s q : Word × MemoryPool.Tlsf) (hQ : MemoryPool.examplePool.Usable) (y m : Nat),
      MemoryPool.initMemoryPool MemoryPool.examplePool MemoryPool.exampleTlsf = some s ∧
      MemoryPool.mallocEx MemoryPool.examplePool s.2 100#32 = some q ∧ q.1 = pointerTo (some y) ∧
      ¬Returns (MemoryPool.reallocEx MemoryPool.examplePool q.2 (pointerTo (some y)) 8000#32)
        (q.2.Keeps (MemoryPool.examplePool.geometry hQ) y (m - 4) 8000) := by
  obtain ⟨r, q, hP, bs, L, x, n, hr, hq, hp, hrep, hx, -⟩ := hypervisor_block
  obtain ⟨s, w, hQ, cs, M, y, m, hs, hw, hp', hrep', hy, -⟩ := kernel_block
  have hlarge : ∀ v : Word, 8000 ≤ v.toNat →
      ¬Returns (Xtratum.reallocEx Xtratum.examplePool q.2 (pointerTo (some x)) v)
        (q.2.Keeps (Xtratum.examplePool.geometry hP) x (n - 8) v.toNat) := by
    intro v hv hret
    have hspan : (Xtratum.examplePool.geometry hP).last =
      (Xtratum.examplePool.geometry hP).first + 5000 := rfl
    have hfit := (Xtratum.le_fitted v.toNat).1
    rcases (Xtratum.reallocEx_keeps_iff hrep hx).mp hret with rfl | hin | ⟨-, k, hk, hle⟩
    · exact absurd hv (by decide)
    · have hle := hin.le hrep.blocks hx
      omega
    · have hkb := hrep.blocks.span_le hk
      have hround := le_roundUp (k := 5) (r := Xtratum.fitted v.toNat)
      have hle' : roundUp 5 (Xtratum.fitted v.toNat) + 8 ≤ k := hle
      dsimp only at hkb
      omega
  refine ⟨⟨r, q, hP, x, n, hr, hq, hp, hlarge 8000#32 (by decide), hlarge 0xFFFFFFFF#32 (by decide)⟩,
    s, w, hQ, y, m, hs, hw, hp', fun hret => ?_⟩
  have hspan : (MemoryPool.examplePool.geometry hQ).last =
    (MemoryPool.examplePool.geometry hQ).first + 5012 := rfl
  rcases (MemoryPool.reallocEx_keeps_iff hrep' hy (v := 8000#32)).mp hret with h0 | ⟨-, k, hk, hle⟩
  · exact absurd h0 (by decide)
  · have hkb := hrep'.blocks.span_le hk
    have hround : 8000 ≤ roundUp 5 (MemoryPool.fitted 8000) := by decide
    have hle' : roundUp 5 (MemoryPool.fitted 8000) + 4 ≤ k := hle
    dsimp only at hkb
    omega

end

end Xmertl.TlsfCopies
