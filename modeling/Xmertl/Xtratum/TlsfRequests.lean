import Xmertl.Xtratum.TlsfEffects

/-!
# Requests of any size

What `malloc_ex` does with the sizes that its arithmetic of 32 bits does not bear, and
`calloc_ex`.
-/

namespace Xmertl.Xtratum

open BoundaryTags SizeClasses ThreadedLists TlsfPool TotalCorrectness

def callocEx (P : Pool) (t : Tlsf) (nelem elemSize : Word) : Option (Word × Tlsf) := do
  if nelem = 0#32 ∨ elemSize = 0#32 then return (0#32, t)
  let (ptr, t) ← mallocEx P t (nelem * elemSize)
  if ptr = 0#32 then return (0#32, t)
  let mem ← memset P.area 0#8 (nelem * elemSize).toNat t.lists.mem ptr
  return (ptr, { t with lists := { t.lists with mem } })

/-- The size from which on a free block is found for a request of `n` bytes, where the class
that is searched is one of the matrix. -/
def searched (n : Nat) : Option Nat :=
  if n ≤ 2 ^ 30 - 2 ^ 24 then some (roundUp 5 (fitted n))
  -- the request rounded up is 0
  else if 2 ^ 32 - 8 < n then some 0
  -- the sum with the step of the class is beyond 2^32
  else if 2 ^ 32 - 2 ^ 26 + 64 < n then some (leastIn (fitted n + (2 ^ 26 - 1) - 2 ^ 32))
  else none

/-- What a call for `n` bytes is to give: NULL, or a block in use that has them. -/
def Tlsf.Serves (t : Tlsf) (G : Geometry) (n : Nat) (q : Word × Tlsf) : Prop :=
  q = (0#32, t) ∨ ∃ bs L z k, q.2.Rep G bs L ∧ Used G bs z k ∧ q.1 = pointerTo (some z) ∧
    n + G.overhead ≤ k

/-- What a call for `n` bytes instead of the `old` of the block at `x` is to give: a block in
use that has them and begins with what the old one had, or NULL, with the old block as it
was. With 0 bytes the block is given up. -/
def Tlsf.Keeps (t : Tlsf) (G : Geometry) (x old n : Nat) (q : Word × Tlsf) : Prop :=
  (q.1 ≠ 0#32 → ∃ bs L z k, q.2.Rep G bs L ∧ Used G bs z k ∧ q.1 = pointerTo (some z) ∧
    n + G.overhead ≤ k ∧ Carried t.lists.mem q.2.lists.mem x z (min old n)) ∧
  (q.1 = 0#32 → n = 0 ∨ ∃ bs L, q.2.Rep G bs L ∧ Used G bs x (old + G.overhead) ∧
    Carried t.lists.mem q.2.lists.mem x x old)

section
variable {P : Pool} {hP : P.Usable} {t t' : Tlsf} {bs bs' : List BoundaryTags.Block}
  {n m r s x z k old : Nat} {L : Fin 24 × Fin 32 → List Nat} {c : Fin 24 × Fin 32} {fl sl : Int}
  {v b : Word}

-- ---------------------------------------------------------------------------
-- MAPPING_SEARCH beyond 2^30 - 2^24
-- ---------------------------------------------------------------------------

theorem mappingSearch_levels (h : 128 ≤ r) (hr : r < 2 ^ 32) :
    (mappingSearch (BitVec.ofNat 32 r)).2 =
      (msBit (BitVec.ofNat 32 (r + (width 5 r - 1))) - 6,
        ((BitVec.ofNat 32 (r + (width 5 r - 1)) >>>
          (msBit (BitVec.ofNat 32 (r + (width 5 r - 1))) - 5).toNat) - 32#32).toInt) := by
  have hsum : BitVec.ofNat 32 r + BitVec.ofNat 32 (width 5 r - 1) =
      BitVec.ofNat 32 (r + (width 5 r - 1)) := (BitVec.ofNat_add ..).symm
  simp only [mappingSearch, lt_smallBlock hr, Nat.not_lt.mpr h, if_false,
    msBit_eq (show 0 < r by omega) hr, step_eq r, hsum]

theorem findSuitableBlock_outside (h : fl < 0 ∨ 24 ≤ fl) : findSuitableBlock t fl sl = none := by
  have hindex : index 24 fl = none := dif_neg fun ⟨h₀, h₁⟩ => by omega
  simp only [findSuitableBlock, findIn, hindex, Option.bind_eq_bind, Option.bind_none]

theorem mallocEx_outside (h : (mappingSearch (blockSize v)).2.1 < 0 ∨
    24 ≤ (mappingSearch (blockSize v)).2.1) : mallocEx P t v = none := by
  simp only [mallocEx, findSuitableBlock_outside h, Option.bind_eq_bind, Option.bind_none]

theorem searched_none (h₁ : 2 ^ 30 - 2 ^ 24 < v.toNat) (h₂ : v.toNat ≤ 2 ^ 32 - 2 ^ 26 + 64) :
    mallocEx P t v = none := by
  refine mallocEx_outside ?_
  rw [blockSize_eq (by omega)]
  have hfit : v.toNat ≤ fitted v.toNat ∧ fitted v.toNat ≤ 2 ^ 32 - 2 ^ 26 + 64 := by
    rw [fitted]
    omega
  generalize fitted v.toNat = r at *
  have hw := width_large (r := r) (by omega) (by omega)
  rw [mappingSearch_levels (by omega) (by omega)]
  dsimp only
  rcases Nat.lt_or_ge (r + (width 5 r - 1)) (2 ^ 32) with hlt | hge
  · have hlog : 30 ≤ (r + (width 5 r - 1)).log2 := (Nat.le_log2 (by omega)).mpr (by omega)
    rw [msBit_eq (by omega) hlt]
    omega
  · -- the sum wraps round to less than 64
    obtain ⟨m, hm⟩ := Nat.exists_eq_add_of_le hge
    rw [hm, ofNat_wrap]
    rcases Nat.eq_zero_or_pos m with rfl | hpos
    · exact .inl (by decide)
    · have hlog : m.log2 < 6 := (Nat.log2_lt (Nat.ne_of_gt hpos)).mpr (by omega)
      rw [msBit_eq hpos (by omega)]
      omega

theorem searched_wrapped (h : t.Rep (P.geometry hP) bs L) (h₁ : 2 ^ 32 - 2 ^ 26 + 64 < v.toNat)
    (h₂ : v.toNat + 8 ≤ 2 ^ 32) :
    Returns (findSuitableBlock t (mappingSearch (blockSize v)).2.1 (mappingSearch (blockSize v)).2.2)
      fun q => (q.1 = 0#32 ∧
        ¬Offers (P.geometry hP) bs (leastIn (fitted v.toNat + (2 ^ 26 - 1) - 2 ^ 32))) ∨
      ((∃ c, q.1 = t.lists.head c ∧ L c ≠ []) ∧
        Offers (P.geometry hP) bs (leastIn (fitted v.toNat + (2 ^ 26 - 1) - 2 ^ 32))) := by
  rw [blockSize_eq h₂]
  have hfit : 2 ^ 32 - 2 ^ 26 + 72 ≤ fitted v.toNat ∧ fitted v.toNat ≤ 2 ^ 32 - 8 := by
    rw [fitted]
    omega
  generalize fitted v.toNat = r at *
  have hw : width 5 r = 2 ^ 26 := by
    have hlarge := width_large (r := r) (by omega) (by omega)
    omega
  rw [mappingSearch_levels (by omega) (by omega), hw]
  obtain ⟨m, hm⟩ := Nat.exists_eq_add_of_le (show 2 ^ 32 ≤ r + (2 ^ 26 - 1) by omega)
  have hm64 : 64 ≤ m := by omega
  have hm26 : m < 2 ^ 26 := by omega
  have hlog6 : 6 ≤ m.log2 := (Nat.le_log2 (by omega)).mpr hm64
  have hlog26 : m.log2 < 26 := (Nat.log2_lt (by omega)).mpr hm26
  rw [hm, Nat.add_sub_cancel_left, ofNat_wrap, msBit_eq (by omega) (by omega),
    sl_eq (by omega) (by omega)]
  have hfl : (m.log2 : Int) - 6 = ((m.log2 - 6 : Nat) : Int) := by omega
  rw [hfl]
  have hlater : ∀ n c, ⟨n, true⟩ ∈ bs → cellOf n = some c →
      ((m.log2 - 6 < c.1.val ∨ m.log2 - 6 = c.1.val ∧ second 5 m ≤ c.2.val) ↔
        leastIn m + 8 ≤ n) := by
    intro n c hn hc
    have hn16 : 16 ≤ n := (h.blocks.fits _ hn).1
    have hspan : n < 2 ^ 30 + 8 := h.span_lt hn
    rw [later_iff hm64 (by omega) hspan hc]
    omega
  refine (findIn_spec lsBit_finds h.exact (by decide) ⟨m.log2 - 6, by omega⟩
    ⟨second 5 m, second_lt (k := 5) (show 2 ^ 5 ≤ m by omega)⟩).mono ?_
  rintro q (⟨hq, hnone⟩ | ⟨c, rfl, hc, hcls⟩)
  · refine .inl ⟨hq, ?_⟩
    rintro ⟨n, hn, hle⟩
    obtain ⟨c, hc⟩ := h.cell_of_mem hn
    have hnot := hnone c (h.blocks.ne_nil hn hc)
    simp only [Fin.lt_def, Fin.ext_iff, Fin.le_def] at hnot
    exact hnot ((hlater n c hn hc).mpr hle)
  · obtain ⟨us, vs, n, xs, rfl, -, -, -, hcell, -⟩ := h.blocks.head_block hc
    simp only [Fin.lt_def, Fin.ext_iff, Fin.le_def] at hcls
    exact .inr ⟨⟨c, rfl, hc⟩, n, by simp, (hlater n c (by simp) hcell).mp hcls⟩

theorem blockSize_zero (h : 2 ^ 32 - 8 < v.toNat) : blockSize v = 0#32 := by
  have hge : ¬v < minBlockSize := by
    rw [BitVec.lt_def, minBlockSize, BitVec.toNat_ofNat]
    omega
  rw [blockSize, if_neg hge]
  exact roundup_zero (k := 3) (by decide) h

theorem searched_zero (h : t.Rep (P.geometry hP) bs L) (h₁ : 2 ^ 32 - 8 < v.toNat) :
    Returns (findSuitableBlock t (mappingSearch (blockSize v)).2.1 (mappingSearch (blockSize v)).2.2)
      fun q => (q.1 = 0#32 ∧ ¬Offers (P.geometry hP) bs 0) ∨
      ((∃ c, q.1 = t.lists.head c ∧ L c ≠ []) ∧ Offers (P.geometry hP) bs 0) := by
  have hlevels : (mappingSearch 0#32).2 = (0, 0) := by decide
  rw [blockSize_zero h₁, hlevels]
  refine (findIn_spec lsBit_finds h.exact (by decide) ⟨0, by decide⟩ ⟨0, by decide⟩).mono ?_
  rintro q (⟨hq, hnone⟩ | ⟨c, rfl, hc, -⟩)
  · refine .inl ⟨hq, ?_⟩
    rintro ⟨n, hn, -⟩
    obtain ⟨c, hc⟩ := h.cell_of_mem hn
    have hnot := hnone c (h.blocks.ne_nil hn hc)
    simp only [Fin.lt_def, Fin.ext_iff, Fin.le_def] at hnot
    omega
  · obtain ⟨us, vs, n, xs, rfl, -⟩ := h.blocks.head_block hc
    have hn16 : 16 ≤ n := (h.blocks.fits ⟨n, true⟩ (by simp)).1
    have hn8 : 0 + 8 ≤ n := by omega
    exact .inr ⟨⟨c, rfl, hc⟩, n, by simp, hn8⟩

-- ---------------------------------------------------------------------------
-- What malloc_ex answers
-- ---------------------------------------------------------------------------

theorem mallocEx_found {q : Word × Tlsf} (hf : findSuitableBlock t (mappingSearch (blockSize v)).2.1
    (mappingSearch (blockSize v)).2.2 = some (b, fl, sl)) (hb : b ≠ 0#32)
    (hq : mallocEx P t v = some q) : q.1 = b + 8#32 := by
  simp only [mallocEx, hf, if_neg hb, Option.bind_eq_bind, Option.bind_some, Option.pure_def,
    Option.bind_eq_some_iff, Option.some.injEq] at hq
  obtain ⟨_, -, _, -, _, -, _, -, rfl⟩ := hq
  rfl

theorem answers_found (h : t.Rep (P.geometry hP) bs L)
    (hlooks : Returns (findSuitableBlock t (mappingSearch (blockSize v)).2.1
      (mappingSearch (blockSize v)).2.2) fun q => (q.1 = 0#32 ∧ ¬Offers (P.geometry hP) bs s) ∨
        ((∃ c, q.1 = t.lists.head c ∧ L c ≠ []) ∧ Offers (P.geometry hP) bs s)) :
    Answers (P.geometry hP) bs t (some s) (mallocEx P t v) := by
  obtain ⟨⟨b, fl, sl⟩, hf, ⟨hb, hnone⟩ | ⟨⟨c, hb, hc⟩, hsome⟩⟩ := hlooks
  · dsimp only at hb
    refine .inl ⟨hnone, ?_⟩
    simp only [mallocEx, hf, if_pos hb, Option.bind_eq_bind, Option.bind_some, Option.pure_def]
  · dsimp only at hb
    subst hb
    obtain ⟨hne, hptr⟩ := h.blocks.head_ne hc
    refine .inr ⟨hsome, fun q hq => ?_⟩
    rw [mallocEx_found hf hne hq]
    exact hptr

/-- `malloc_ex` fails where the class to be searched is not in the tables, and answers NULL
just where there is no block in that class or a later one. -/
theorem mallocEx_answers (h : t.Rep (P.geometry hP) bs L) :
    Answers (P.geometry hP) bs t (searched v.toNat) (mallocEx P t v) := by
  rw [searched]
  split
  · rename_i hv
    obtain ⟨q, hq, hnull | ⟨hsome, bs', x, k, hp, -, ⟨L', hrep⟩, hch, -⟩⟩ := mallocEx_turns h hv
    · exact .inl ⟨hnull.2, hnull.1 ▸ hq⟩
    · refine .inr ⟨hsome, fun q' hq' => ?_⟩
      obtain rfl := Option.some.inj (hq.symm.trans hq')
      rw [hp]
      exact pointerTo_ne_zero hrep.blocks ((hch.used x k).mpr (.inr rfl))
  · split
    · rename_i hv
      exact answers_found h (searched_zero h hv)
    · split
      · rename_i hv
        exact answers_found h (searched_wrapped h hv (by omega))
      · exact searched_none (by omega) (by omega)

theorem Tlsf.Serves.lt {q : Word × Tlsf} (h : t.Serves (P.geometry hP) n q) (hq : q.1 ≠ 0#32) :
    n < 2 ^ 30 := by
  rcases h with rfl | ⟨bs', L', z, k, hrep, hz, -, hk⟩
  · exact absurd rfl hq
  · have hspan : k < 2 ^ 30 + 8 := hrep.span_lt (mem_of_placed hz)
    have hk8 : n + 8 ≤ k := hk
    omega

theorem searched_large (h : searched n = some s) (hn : 2 ^ 30 - 2 ^ 24 < n) : 2 ^ 31 ≤ n := by
  rw [searched, if_neg (by omega)] at h
  split at h
  · omega
  · split at h
    · omega
    · cases h

/-- `malloc_ex` serves the sizes up to 2^30 - 2^24, and those others for which it does find
nothing. -/
theorem mallocEx_serves_iff (h : t.Rep (P.geometry hP) bs L) :
    Returns (mallocEx P t v) (t.Serves (P.geometry hP) v.toNat) ↔ v.toNat ≤ 2 ^ 30 - 2 ^ 24 ∨
      ∃ s, searched v.toNat = some s ∧ ¬Offers (P.geometry hP) bs s := by
  by_cases hv : v.toNat ≤ 2 ^ 30 - 2 ^ 24
  · refine iff_of_true ((mallocEx_turns h hv).mono fun q hq => ?_) (.inl hv)
    rcases hq with ⟨hq, -⟩ | ⟨-, bs', x, k, hp, hk, ⟨L', hrep⟩, hch, -⟩
    · exact .inl hq
    · exact .inr ⟨bs', L', x, k, hrep, (hch.used x k).mpr (.inr rfl), hp, hk⟩
  · rw [or_iff_right hv]
    refine (mallocEx_answers h).serves_iff (.inl rfl) fun q s hs hq hserves => ?_
    have hlt := hserves.lt hq
    have hlarge := searched_large hs (by omega)
    omega

-- ---------------------------------------------------------------------------
-- calloc_ex
-- ---------------------------------------------------------------------------

theorem callocEx_spec {e : Word} (h : t.Rep (P.geometry hP) bs L)
    (hv : v.toNat * e.toNat ≤ 2 ^ 30 - 2 ^ 24) :
    Returns (callocEx P t v e) fun q => q = (0#32, t) ∨ ∃ bs' L' x k, q.2.Rep (P.geometry hP) bs' L' ∧
      Used (P.geometry hP) bs' x k ∧ q.1 = pointerTo (some x) ∧ v.toNat * e.toNat + 8 ≤ k ∧
      ∀ i < v.toNat * e.toNat, byteAt q.2.lists.mem (x + 8 + i) = 0#8 := by
  rw [callocEx]
  split
  · exact .pure (.inl rfl)
  · have hmul : (v * e).toNat = v.toNat * e.toNat := by
      rw [BitVec.toNat_mul, Nat.mod_eq_of_lt (by omega)]
    have hm := mallocEx_turns h (v := v * e) (by omega)
    rw [hmul] at hm
    refine Returns.bind hm ?_
    rintro ⟨p, t₁⟩ (⟨hq, -⟩ | ⟨-, bs₁, x, k, hp, hk, ⟨L₁, hrep⟩, hch, -⟩)
    · obtain ⟨rfl, rfl⟩ := Prod.mk.inj hq
      exact .pure (.inl rfl)
    · dsimp only at hp hrep ⊢
      have hx : Used (P.geometry hP) bs₁ x k := (hch.used x k).mpr (.inr rfl)
      have hlast := (hrep.blocks.used_lt hx).2
      obtain ⟨hfirst, hx4⟩ := hrep.blocks.used_bounds hx
      have hk4 : 4 ∣ k := (hrep.blocks.fits _ (mem_of_placed hx)).2
      rw [if_neg (hp ▸ pointerTo_ne_zero hrep.blocks hx), hmul, hp, pointerTo]
      refine Returns.bind (memset_spec fun i hi => (P.geometry hP).has (by omega) (by omega) (by omega)) ?_
      rintro mem ⟨hset, -, hword⟩
      exact .pure (.inr ⟨bs₁, L₁, x, k, ⟨hrep.blocks.rewrite hx fun a ha => hword a fun i hi => by omega, hrep.exact⟩,
        hx, rfl, hk, hset⟩)

theorem callocEx_answers {e : Word} (h : t.Rep (P.geometry hP) bs L) (hne : ¬(v = 0#32 ∨ e = 0#32)) :
    Answers (P.geometry hP) bs t (searched (v * e).toNat) (callocEx P t v e) := by
  rw [callocEx, if_neg hne]
  refine (mallocEx_answers h).bind (if_pos rfl) ?_
  rintro ⟨p, t'⟩ q hp hq
  dsimp only at hp hq
  rw [if_neg hp] at hq
  obtain ⟨mem, -, hres⟩ := Option.bind_eq_some_iff.mp hq
  cases hres
  rfl

/-- `calloc_ex` serves the products up to 2^30 - 2^24, and those others for which `malloc_ex`
finds nothing, given what is left of them in 32 bits. -/
theorem callocEx_serves_iff {e : Word} (h : t.Rep (P.geometry hP) bs L) :
    Returns (callocEx P t v e) (t.Serves (P.geometry hP) (v.toNat * e.toNat)) ↔
      v.toNat * e.toNat ≤ 2 ^ 30 - 2 ^ 24 ∨
      ∃ s, searched (v * e).toNat = some s ∧ ¬Offers (P.geometry hP) bs s := by
  by_cases hv : v.toNat * e.toNat ≤ 2 ^ 30 - 2 ^ 24
  · refine iff_of_true ((callocEx_spec h hv).mono fun q hq => ?_) (.inl hv)
    rcases hq with hq | ⟨bs', L', x, k, hrep, hx, hp, hk, -⟩
    · exact .inl hq
    · exact .inr ⟨bs', L', x, k, hrep, hx, hp, hk⟩
  · rw [or_iff_right hv]
    have hne : ¬(v = 0#32 ∨ e = 0#32) := by
      rintro (rfl | rfl)
      · simp at hv
      · simp at hv
    refine (callocEx_answers h hne).serves_iff (.inl rfl) fun q s hs hq hserves => ?_
    have hlt := hserves.lt hq
    -- the product is beyond 2^30, in 32 bits or not
    have hmod : (v * e).toNat = v.toNat * e.toNat := by
      rw [BitVec.toNat_mul, Nat.mod_eq_of_lt (by omega)]
    have hlarge := searched_large hs (by omega)
    omega

-- ---------------------------------------------------------------------------
-- realloc_ex
-- ---------------------------------------------------------------------------

theorem Tlsf.Turns.keeps (h : t.Turns t' (P.geometry hP) bs bs' (some x) (some (z, k)))
    (hk : n + 8 ≤ k) (hc : Carried t.lists.mem t'.lists.mem x z (min old n)) :
    t.Keeps (P.geometry hP) x old n (pointerTo (some z), t') := by
  obtain ⟨L', hrep⟩ := h.rep
  have hz : Used (P.geometry hP) bs' z k := (h.changed.used z k).mpr (.inr rfl)
  exact ⟨fun _ => ⟨bs', L', z, k, hrep, hz, rfl, hk, hc⟩,
    fun h0 => absurd h0 (pointerTo_ne_zero hrep.blocks hz)⟩

theorem Tlsf.Keeps.lt {q : Word × Tlsf} (h : t.Keeps (P.geometry hP) x old n q) (hq : q.1 ≠ 0#32) :
    n < 2 ^ 30 := by
  obtain ⟨bs', L', z, k, hrep, hz, -, hk, -⟩ := h.1 hq
  have hspan : k < 2 ^ 30 + 8 := hrep.span_lt (mem_of_placed hz)
  have hk8 : n + 8 ≤ k := hk
  omega

/-- A size that is 0 once it is rounded up: the block is cut to that, and its pointer is the
result. -/
theorem reallocEx_zero {q : Word × Tlsf} (h : t.Rep (P.geometry hP) bs L)
    (hx : Used (P.geometry hP) bs x n) (hv : 2 ^ 32 - 8 < v.toNat)
    (hq : reallocEx P t (pointerTo (some x)) v = some q) : q.1 = pointerTo (some x) := by
  have hv₀ : v ≠ 0#32 := by
    rintro rfl
    simp at hv
  rw [reallocEx, if_neg (pointerTo_ne_zero h.blocks hx), if_neg hv₀] at hq
  obtain ⟨w, -, hq⟩ := Option.bind_eq_some_iff.mp hq
  obtain ⟨w', -, hq⟩ := Option.bind_eq_some_iff.mp hq
  rw [blockSize_zero hv, if_pos (BitVec.le_def.mpr (Nat.zero_le _))] at hq
  simp only [shrink, Option.bind_eq_bind, Option.pure_def, Option.bind_eq_some_iff,
    Option.some.injEq] at hq
  obtain ⟨_, -, _, -, _, -, _, -, rfl⟩ := hq
  exact BitVec.sub_add_cancel ..

theorem move_ptr {q : Word × Tlsf} {p : Word} (hq : move P t p b v = some q) :
    ∃ q', mallocEx P t v = some q' ∧ q.1 = q'.1 := by
  obtain ⟨q', hm, hq⟩ := Option.bind_eq_some_iff.mp hq
  simp only [Option.bind_eq_bind, Option.pure_def, Option.bind_eq_some_iff, Option.some.injEq] at hq
  obtain ⟨_, -, _, -, _, -, rfl⟩ := hq
  exact ⟨q', hm, rfl⟩

/-- Where the block cannot have the size where it stands and the size is beyond 2^30 - 2^24,
no call keeps what was in it. -/
theorem move_large (h : t.Rep (P.geometry hP) bs L) (hx : Used (P.geometry hP) bs x n)
    (hv : 2 ^ 30 - 2 ^ 24 < m) (hm : fitted m < 2 ^ 32) :
    ¬Returns (move P t (pointerTo (some x)) (BitVec.ofNat 32 x) (BitVec.ofNat 32 (fitted m)))
      (t.Keeps (P.geometry hP) x old m) := by
  have hle : m ≤ fitted m ∧ fitted m ≤ m + 7 := by
    rw [fitted]
    omega
  rintro ⟨q, hq, hkeeps⟩
  obtain ⟨q', hmalloc, hptr⟩ := move_ptr hq
  have hans := mallocEx_answers h (v := BitVec.ofNat 32 (fitted m))
  rw [toNat_ofNat hm] at hans
  cases hs : searched (fitted m) with
  | none =>
    rw [hs] at hans
    cases hmalloc.symm.trans hans
  | some s =>
    rw [hs] at hans
    rcases hans with ⟨-, hnull⟩ | ⟨-, hne⟩
    · rw [move_null h hx (by omega) (by omega) hnull] at hq
      cases hq
    · have hlt := hkeeps.lt (hptr ▸ hne q' hmalloc)
      have hlarge := searched_large hs (by omega)
      omega

/-- `realloc_ex` keeps what was in the block where it gives it up, where the block can have the
size where it stands, and where there is a free block for a size up to 2^30 - 2^24. -/
theorem reallocEx_keeps_iff (h : t.Rep (P.geometry hP) bs L) (hx : Used (P.geometry hP) bs x n) :
    Returns (reallocEx P t (pointerTo (some x)) v) (t.Keeps (P.geometry hP) x (n - 8) v.toNat) ↔
      v = 0#32 ∨ Resizes (P.geometry hP) bs x n (fitted v.toNat) ∨
        v.toNat ≤ 2 ^ 30 - 2 ^ 24 ∧ Offers (P.geometry hP) bs (roundUp 5 (fitted v.toNat)) := by
  by_cases hv₀ : v = 0#32
  · subst hv₀
    refine iff_of_true ?_ (.inl rfl)
    rw [reallocEx, if_neg (pointerTo_ne_zero h.blocks hx), if_pos rfl]
    exact Returns.bind (freeEx_turns h hx) fun t' _ => .pure ⟨fun hne => absurd rfl hne, fun _ => .inl rfl⟩
  rw [or_iff_right hv₀]
  obtain ⟨hle, hr8, hr4⟩ := le_fitted v.toNat
  rcases Nat.lt_or_ge (2 ^ 32) (v.toNat + 8) with hwrap | hwrap
  · refine iff_of_false ?_ ?_
    · rintro ⟨q, hq, hkeeps⟩
      have hptr := reallocEx_zero h hx (by omega) hq
      have hlt := hkeeps.lt (hptr ▸ pointerTo_ne_zero h.blocks hx)
      omega
    · have hhi := (P.geometry hP).le_hi
      have htop := (P.geometry hP).area.top
      rintro (hin | ⟨hv, -⟩)
      · have hle := hin.le h.blocks hx
        omega
      · omega
  rcases reallocEx_cases h hx hwrap hv₀ with ⟨hin, hr⟩ | ⟨hout, hr⟩
  · refine iff_of_true (hr.mono ?_) (.inl hin)
    rintro ⟨p, t'⟩ ⟨bs', k, rfl, hk, hturns, hcarried⟩
    exact hturns.keeps (by omega) (hcarried.mono (by omega))
  · rw [or_iff_right hout, hr]
    by_cases hv : v.toNat ≤ 2 ^ 30 - 2 ^ 24
    · rw [and_iff_right hv]
      have hmove := move_turns h hx (fitted_le hv) hr8 hr4
      rw [fitted_fitted] at hmove
      rcases hmove with ⟨hsome, hret⟩ | ⟨hnone, hfail, -⟩
      · refine iff_of_true (hret.mono ?_) hsome
        rintro ⟨p, t'⟩ ⟨bs', z, k, rfl, hk, hturns, hcarried⟩
        exact hturns.keeps (by omega) (hcarried.mono (by omega))
      · rw [hfail]
        exact iff_of_false returns_none hnone
    · refine iff_of_false (move_large h hx (by omega) ?_) fun hv' => hv hv'.1
      rw [fitted]
      omega

end

end Xmertl.Xtratum
