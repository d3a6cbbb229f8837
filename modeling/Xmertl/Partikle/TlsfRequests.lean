import Xmertl.Partikle.TlsfEffects

/-!
# Requests of any size

What `malloc_ex` does with the sizes that its arithmetic of 32 bits does not bear, and
`calloc_ex`.
-/

namespace Xmertl.Partikle.MemoryPool

open BoundaryTags SizeClasses ThreadedLists TlsfPool TotalCorrectness

def callocEx (P : Pool) (t : Tlsf) (nelem elemSize : Word) : Option (Word × Tlsf) := do
  if nelem = 0#32 ∨ elemSize = 0#32 then return (0#32, t)
  let (ptr, t) ← mallocEx P t (nelem * elemSize)
  if ptr = 0#32 then return (0#32, t)
  let mem ← TlsfPool.memset P.area 0#8 (nelem * elemSize).toNat t.lists.mem ptr
  return (ptr, { t with lists := { t.lists with mem } })

/-- The size from which on blocks of the matrix are in the class that `m` is mapped to or in a
later one. -/
def leastIn (m : Nat) : Nat := if m < 128 then 128 else least 5 m.log2 (second 5 m)

/-- The size from which on a free block is found for a request of `n` bytes, where the class
that is searched is one of the matrix. -/
def searched (n : Nat) : Option Nat :=
  if n ≤ 2 ^ 30 - 2 ^ 24 then some (roundUp 5 (fitted n))
  -- the request rounded up is 0
  else if 2 ^ 32 - 4 < n then some 0
  -- the sum with the step of the class is beyond 2^32
  else if 2 ^ 32 - 2 ^ 26 < n then some (leastIn (fitted n + (2 ^ 26 - 1) - 2 ^ 32))
  else none

/-- What a call for `n` bytes is to give: NULL, or a block in use that has them. -/
def Tlsf.Serves (t : Tlsf) (G : Geometry) (n : Nat) (q : Word × Tlsf) : Prop :=
  q = (0#32, t) ∨ ∃ bs L z k, q.2.Rep G bs L ∧ Used G bs z k ∧ q.1 = pointerTo (some z) ∧
    n + G.overhead ≤ k

/-- What a call for `n` bytes instead of the `old` of the block at `x` is to give: a block in
use that has them and begins with what the old one had, or NULL, with the old block as it
was. With 0 bytes the block is given up. -/
def Tlsf.Keeps (t : Tlsf) (G : Geometry) (x old n : Nat) (q : Word × Tlsf) : Prop :=
  (q.1 ≠ 0#32 → ∃ bs L z k, q.2.Rep G bs L ∧ Used G bs z k ∧ q.1 = pointerTo (some z) ∧
    n + G.overhead ≤ k ∧ Carried t.lists.mem q.2.lists.mem x z (min old n)) ∧
  (q.1 = 0#32 → n = 0 ∨ ∃ bs L, q.2.Rep G bs L ∧ Used G bs x (old + G.overhead) ∧
    Carried t.lists.mem q.2.lists.mem x x old)

section
variable {P : Pool} {hP : P.Usable} {t t' : Tlsf} {bs bs' : List BoundaryTags.Block}
  {n m r s x z k old : Nat} {L : ListId → List Nat} {j : ListId} {c : Fin 23 × Fin 32} {fl sl : Int} {v b size : Word}

-- ---------------------------------------------------------------------------
-- MAPPING_SEARCH beyond 2^30 - 2^24
-- ---------------------------------------------------------------------------

theorem findSmall_large (h : 128 ≤ r) (hr : r < 2 ^ 32) :
    findSmallSuitableBlock (BitVec.ofNat 32 r) t = some (0#32, -1) := by
  have hge : BitVec.ofNat 32 r ≥ smallBlock :=
    BitVec.not_lt.mp (mt (lt_smallBlock hr).mp (Nat.not_lt.mpr h))
  rw [findSmallSuitableBlock, if_pos hge]
  rfl

theorem searchFrom_levels (h : 128 ≤ r) (hr : r < 2 ^ 32) :
    (searchFrom (BitVec.ofNat 32 r)).2 =
      if fls (BitVec.ofNat 32 (r + (width 5 r - 1))) - 7 < 0 then (0, 0)
      else (fls (BitVec.ofNat 32 (r + (width 5 r - 1))) - 7,
        ((BitVec.ofNat 32 (r + (width 5 r - 1)) >>>
          (fls (BitVec.ofNat 32 (r + (width 5 r - 1))) - 5).toNat) - 32#32).toInt) := by
  have hge : ¬BitVec.ofNat 32 r < 32#32 := by
    rw [BitVec.lt_def, toNat_ofNat hr, BitVec.toNat_ofNat]
    omega
  have hsum : BitVec.ofNat 32 r + BitVec.ofNat 32 (width 5 r - 1) =
      BitVec.ofNat 32 (r + (width 5 r - 1)) := (BitVec.ofNat_add ..).symm
  rw [searchFrom, if_neg hge]
  simp only [mappingSearch, fls_eq (show 0 < r by omega) hr, step_eq r, hsum]
  split <;> rfl

theorem findSuitableBlock_outside (h : fl < 0 ∨ 23 ≤ fl) : findSuitableBlock t fl sl = none := by
  have hindex : index 23 fl = none := dif_neg fun ⟨h₀, h₁⟩ => by omega
  simp only [findSuitableBlock, findIn, hindex, Option.bind_eq_bind, Option.bind_none]

theorem mallocEx_large (hsmall : findSmallSuitableBlock (requestSize v) t = some (0#32, fl)) :
    mallocEx P t v = (findSuitableBlock t (searchFrom (requestSize v)).2.1
      (searchFrom (requestSize v)).2.2 >>= fun q =>
        if q.1 = 0#32 then some (0#32, t) else extractBlockHdr P t q.1 q.2.1 q.2.2 >>= fun t =>
          found P t q.1 (searchFrom (requestSize v)).1) := by
  simp only [mallocEx, hsmall, Option.bind_eq_bind, Option.bind_some, ne_eq, not_true, if_false]
  rfl

theorem searched_none (h₁ : 2 ^ 30 - 2 ^ 24 < v.toNat) (h₂ : v.toNat ≤ 2 ^ 32 - 2 ^ 26) :
    mallocEx P t v = none := by
  have hfit : v.toNat ≤ fitted v.toNat ∧ fitted v.toNat ≤ 2 ^ 32 - 2 ^ 26 := by
    rw [fitted]
    omega
  have hrequest := requestSize_eq (v := v) (by omega)
  generalize fitted v.toNat = r at *
  have hw := width_large (r := r) (by omega) (by omega)
  have hlt : r + (width 5 r - 1) < 2 ^ 32 := by omega
  have hlog : 30 ≤ (r + (width 5 r - 1)).log2 := (Nat.le_log2 (by omega)).mpr (by omega)
  have hsmall := findSmall_large (t := t) (r := r) (by omega) (by omega)
  rw [← hrequest] at hsmall
  rw [mallocEx_large hsmall, hrequest, searchFrom_levels (by omega) (by omega), fls_eq (by omega) hlt,
    if_neg (by omega), findSuitableBlock_outside (.inr (by dsimp only; omega))]
  rfl

/-- What a search for blocks of `s` bytes and more comes back with. -/
def Tlsf.Looks (t : Tlsf) (G : Geometry) (bs : List BoundaryTags.Block) (L : ListId → List Nat)
    (s : Nat) (b : Word) : Prop :=
  (b = 0#32 ∧ ¬Offers G bs s) ∨ ((∃ j, b = t.lists.head j ∧ L j ≠ []) ∧ Offers G bs s)

theorem le_leastIn : 128 ≤ leastIn m := by
  rw [leastIn]
  split
  · exact Nat.le_refl _
  · rename_i hm
    have hlog := seven_le_log2 (Nat.le_of_not_lt hm)
    have hleast : 2 ^ 5 * 2 ^ (7 - 5) ≤ least 5 m.log2 (second 5 m) :=
      Nat.mul_le_mul (Nat.le_add_right _ _) (Nat.pow_le_pow_right (by decide) (by omega))
    omega

theorem searched_wrapped (h : t.Rep (P.geometry hP) bs L) (h₁ : 2 ^ 32 - 2 ^ 26 < v.toNat)
    (h₂ : v.toNat + 4 ≤ 2 ^ 32) :
    Returns (findSuitableBlock t (searchFrom (requestSize v)).2.1 (searchFrom (requestSize v)).2.2)
      fun q => t.Looks (P.geometry hP) bs L (leastIn (fitted v.toNat + (2 ^ 26 - 1) - 2 ^ 32)) q.1 := by
  rw [requestSize_eq h₂]
  have hfit : 2 ^ 32 - 2 ^ 26 + 4 ≤ fitted v.toNat ∧ fitted v.toNat ≤ 2 ^ 32 - 4 := by
    rw [fitted]
    omega
  generalize fitted v.toNat = r at *
  have hw : width 5 r = 2 ^ 26 := by
    have hlarge := width_large (r := r) (by omega) (by omega)
    omega
  rw [searchFrom_levels (by omega) (by omega), hw]
  obtain ⟨m, hm⟩ := Nat.exists_eq_add_of_le (show 2 ^ 32 ≤ r + (2 ^ 26 - 1) by omega)
  have hm26 : m < 2 ^ 26 := by omega
  rw [hm, Nat.add_sub_cancel_left, ofNat_wrap, fls_eq (by omega) (by omega)]
  -- which blocks of the matrix are in the class or in a later one
  obtain ⟨fl, sl, hlevels, hlater⟩ : ∃ (fl : Fin 23) (sl : Fin 32),
      (if (m.log2 : Int) - 7 < 0 then ((0, 0) : Int × Int) else ((m.log2 : Int) - 7,
        ((BitVec.ofNat 32 m >>> ((m.log2 : Int) - 5).toNat) - 32#32).toInt)) = (↑fl.val, ↑sl.val) ∧
      ∀ s c, s < 2 ^ 30 → listOf (BitVec.ofNat 32 s) = some (.inr c) →
        ((fl < c.1 ∨ fl = c.1 ∧ sl ≤ c.2) ↔ leastIn m ≤ s) := by
    by_cases hm7 : m < 128
    · have hlog : m.log2 < 7 := (Nat.log2_lt (by omega)).mpr hm7
      refine ⟨⟨0, by decide⟩, ⟨0, by decide⟩, if_pos (by omega), fun s c hs hc => ?_⟩
      have hlarge := (size_of_large hs hc).1
      simp only [Fin.lt_def, Fin.ext_iff, Fin.le_def, leastIn, if_pos hm7]
      omega
    · have hlog := seven_le_log2 (Nat.le_of_not_lt hm7)
      have hlog26 : m.log2 < 26 := (Nat.log2_lt (by omega)).mpr hm26
      refine ⟨⟨m.log2 - 7, by omega⟩, ⟨second 5 m, second_lt (k := 5) (show 2 ^ 5 ≤ m by omega)⟩, ?_,
        fun s c hs hc => ?_⟩
      · rw [if_neg (by omega), sl_eq (by omega) (by omega), Prod.mk.injEq]
        exact ⟨by dsimp only; omega, rfl⟩
      · simp only [Fin.lt_def, Fin.ext_iff, Fin.le_def, leastIn, if_neg hm7]
        exact later_iff (Nat.le_of_not_lt hm7) hs hc
  rw [hlevels]
  refine (findIn_spec ffs_finds h.exact.levels (by decide) fl sl).mono ?_
  rintro q (⟨hq, hnone⟩ | ⟨c, rfl, hc, hcls⟩)
  · refine .inl ⟨hq, ?_⟩
    rintro ⟨n, hn, hle⟩
    have hle' : leastIn m + 4 ≤ n := hle
    have hm128 : 128 ≤ leastIn m := le_leastIn
    obtain ⟨j, hj, -, hlt, h4⟩ := h.cell_of_mem hn
    cases j with
    | inl i =>
      have hsize := size_of_small hlt h4 hj
      have hi := i.isLt
      omega
    | inr c => exact hnone c (h.blocks.ne_nil hn hj) ((hlater _ c hlt hj).mpr (by omega))
  · obtain ⟨us, vs, n, xs, rfl, -, -, -, hcell, -⟩ := h.blocks.head_block hc
    obtain ⟨-, -, h12, hlt, -⟩ := h.cell_of_mem (n := n) (by simp)
    have hle := (hlater _ c hlt hcell).mp hcls
    have hle' : leastIn m + 4 ≤ n := by omega
    exact .inr ⟨⟨_, rfl, hc⟩, n, by simp, hle'⟩

theorem requestSize_zero (h : 2 ^ 32 - 4 < v.toNat) : requestSize v = 0#32 := by
  have hge : ¬v < minBlockSize := by
    rw [BitVec.lt_def, minBlockSize, BitVec.toNat_ofNat]
    omega
  rw [requestSize, if_neg hge]
  exact roundup_zero (k := 2) (by decide) h

-- ---------------------------------------------------------------------------
-- What malloc_ex answers
-- ---------------------------------------------------------------------------

theorem found_ptr {q : Word × Tlsf} (hq : found P t b size = some q) : q.1 = b + 8#32 := by
  obtain ⟨w, -, hq⟩ := Option.bind_eq_some_iff.mp hq
  dsimp only at hq
  split at hq
  · obtain ⟨_, -, hq⟩ := Option.bind_eq_some_iff.mp hq
    obtain ⟨_, -, hq⟩ := Option.bind_eq_some_iff.mp hq
    obtain ⟨_, -, hq⟩ := Option.bind_eq_some_iff.mp hq
    cases hq
    rfl
  · obtain ⟨_, -, hq⟩ := Option.bind_eq_some_iff.mp hq
    obtain ⟨_, -, hq⟩ := Option.bind_eq_some_iff.mp hq
    obtain ⟨_, -, hq⟩ := Option.bind_eq_some_iff.mp hq
    obtain ⟨_, -, hq⟩ := Option.bind_eq_some_iff.mp hq
    cases hq
    rfl

theorem answers_large (h : t.Rep (P.geometry hP) bs L)
    (hsmall : findSmallSuitableBlock (requestSize v) t = some (0#32, fl))
    (hlooks : Returns (findSuitableBlock t (searchFrom (requestSize v)).2.1
      (searchFrom (requestSize v)).2.2) fun q => t.Looks (P.geometry hP) bs L s q.1) :
    Answers (P.geometry hP) bs t (some s) (mallocEx P t v) := by
  rw [mallocEx_large hsmall]
  obtain ⟨⟨b, fl', sl'⟩, hf, ⟨hb, hnone⟩ | ⟨⟨j, hb, hj⟩, hsome⟩⟩ := hlooks
  · dsimp only at hb
    refine .inl ⟨hnone, ?_⟩
    rw [hf, Option.bind_eq_bind, Option.bind_some, if_pos hb]
  · dsimp only at hb
    subst hb
    obtain ⟨hne, hptr⟩ := h.blocks.head_ne hj
    refine .inr ⟨hsome, fun q hq => ?_⟩
    rw [hf, Option.bind_eq_bind, Option.bind_some, if_neg hne] at hq
    obtain ⟨t', -, hq'⟩ := Option.bind_eq_some_iff.mp hq
    rw [found_ptr hq']
    exact hptr

theorem answers_zero (h : t.Rep (P.geometry hP) bs L) (h₁ : 2 ^ 32 - 4 < v.toNat) :
    Answers (P.geometry hP) bs t (some 0) (mallocEx P t v) := by
  have hzero := requestSize_zero h₁
  have hany : ∀ j, L j ≠ [] → Offers (P.geometry hP) bs 0 := by
    intro j hj
    obtain ⟨us, vs, n, xs, rfl, -⟩ := h.blocks.head_block hj
    have hn16 : 16 ≤ n := (h.blocks.fits ⟨n, true⟩ (by simp)).1
    have hn4 : 0 + 4 ≤ n := by omega
    exact ⟨n, by simp, hn4⟩
  obtain ⟨⟨b, k⟩, hf, ⟨hb, hnone⟩ | ⟨i, hb, hi, -⟩⟩ := findSmall_spec (r := 0) h.exact (by decide)
  · dsimp only at hb
    subst hb
    have hsmall : findSmallSuitableBlock (requestSize v) t = some (0#32, k) := by
      rw [hzero]
      exact hf
    refine answers_large h hsmall ?_
    have hlevels : (searchFrom 0#32).2 = (0, 0) := by decide
    rw [hzero, hlevels]
    refine (findIn_spec ffs_finds h.exact.levels (by decide) ⟨0, by decide⟩ ⟨0, by decide⟩).mono ?_
    rintro q (⟨hq, hnone'⟩ | ⟨c, rfl, hc, -⟩)
    · refine .inl ⟨hq, ?_⟩
      rintro ⟨n, hn, -⟩
      obtain ⟨j, hj, -⟩ := h.cell_of_mem hn
      have hfull := h.blocks.ne_nil hn hj
      cases j with
      | inl i => exact hnone i hfull (Nat.zero_le _)
      | inr c =>
        have hnot := hnone' c hfull
        simp only [Fin.lt_def, Fin.ext_iff, Fin.le_def] at hnot
        omega
    · exact .inr ⟨⟨_, rfl, hc⟩, hany _ hc⟩
  · obtain ⟨rfl, rfl⟩ : b = t.lists.head (.inl i) ∧ k = i.val := by simpa using hb
    obtain ⟨hne, hptr⟩ := h.blocks.head_ne hi
    refine .inr ⟨hany _ hi, fun q hq => ?_⟩
    simp only [mallocEx, hzero, hf, Option.bind_eq_bind, Option.bind_some, if_pos hne] at hq
    obtain ⟨t', -, hq'⟩ := Option.bind_eq_some_iff.mp hq
    rw [found_ptr hq']
    exact hptr

/-- `malloc_ex` fails where the class to be searched is not in the tables, and answers NULL
just where there is no block in that class or a later one. -/
theorem mallocEx_answers (h : t.Rep (P.geometry hP) bs L) :
    Answers (P.geometry hP) bs t (searched v.toNat) (mallocEx P t v) := by
  rw [searched]
  split
  · rename_i hv
    obtain ⟨q, hq, hnull | ⟨hsome, bs', x, k, hp, -, ⟨L', hrep⟩, hch⟩⟩ := mallocEx_turns h hv
    · exact .inl ⟨hnull.2, hnull.1 ▸ hq⟩
    · refine .inr ⟨hsome, fun q' hq' => ?_⟩
      obtain rfl := Option.some.inj (hq.symm.trans hq')
      rw [hp]
      exact pointerTo_ne_zero hrep.blocks ((hch.used x k).mpr (.inr rfl))
  · split
    · rename_i hv
      exact answers_zero h hv
    · split
      · rename_i hv
        have hsmall := findSmall_large (t := t) (r := fitted v.toNat)
          (by have hle := (le_fitted v.toNat).1; omega) (by rw [fitted]; omega)
        rw [← requestSize_eq (by omega)] at hsmall
        exact answers_large h hsmall (searched_wrapped h hv (by omega))
      · exact searched_none (by omega) (by omega)

theorem Tlsf.Serves.lt {q : Word × Tlsf} (h : t.Serves (P.geometry hP) n q) (hq : q.1 ≠ 0#32) :
    n < 2 ^ 30 := by
  rcases h with rfl | ⟨bs', L', z, k, hrep, hz, -, hk⟩
  · exact absurd rfl hq
  · have hspan : k < 2 ^ 30 + 4 := hrep.span_lt (mem_of_placed hz)
    have hk4 : n + 4 ≤ k := hk
    omega

theorem searched_large (h : searched n = some s) (hn : 2 ^ 30 - 2 ^ 24 < n) : 2 ^ 30 ≤ n := by
  rw [searched, if_neg (by omega)] at h
  split at h
  · omega
  · split at h
    · omega
    · cases h

/-- `malloc_ex` serves the sizes up to 2^30 - 2^24, and those others for which it does find
nothing. -/
theorem mallocEx_serves_iff (h : t.Rep (P.geometry hP) bs L) :
    Returns (mallocEx P t v) (t.Serves (P.geometry hP) v.toNat) ↔ v.toNat ≤ 2 ^ 30 - 2 ^ 24 ∨
      ∃ s, searched v.toNat = some s ∧ ¬Offers (P.geometry hP) bs s := by
  by_cases hv : v.toNat ≤ 2 ^ 30 - 2 ^ 24
  · refine iff_of_true ((mallocEx_turns h hv).mono fun q hq => ?_) (.inl hv)
    rcases hq with ⟨hq, -⟩ | ⟨-, bs', x, k, hp, hk, ⟨L', hrep⟩, hch⟩
    · exact .inl hq
    · exact .inr ⟨bs', L', x, k, hrep, (hch.used x k).mpr (.inr rfl), hp, hk⟩
  · rw [or_iff_right hv]
    refine (mallocEx_answers h).serves_iff (.inl rfl) fun q s hs hq hserves => ?_
    have hlt := hserves.lt hq
    have hlarge := searched_large hs (by omega)
    omega

-- ---------------------------------------------------------------------------
-- calloc_ex
-- ---------------------------------------------------------------------------

theorem callocEx_spec {e : Word} (h : t.Rep (P.geometry hP) bs L)
    (hv : v.toNat * e.toNat ≤ 2 ^ 30 - 2 ^ 24) :
    Returns (callocEx P t v e) fun q => q = (0#32, t) ∨ ∃ bs' L' x k, q.2.Rep (P.geometry hP) bs' L' ∧
      Used (P.geometry hP) bs' x k ∧ q.1 = pointerTo (some x) ∧ v.toNat * e.toNat + 4 ≤ k ∧
      ∀ i < v.toNat * e.toNat, byteAt q.2.lists.mem (x + 8 + i) = 0#8 := by
  rw [callocEx]
  split
  · exact .pure (.inl rfl)
  · have hmul : (v * e).toNat = v.toNat * e.toNat := by
      rw [BitVec.toNat_mul, Nat.mod_eq_of_lt (by omega)]
    have hm := mallocEx_turns h (v := v * e) (by omega)
    rw [hmul] at hm
    refine Returns.bind hm ?_
    rintro ⟨p, t₁⟩ (⟨hq, -⟩ | ⟨-, bs₁, x, k, hp, hk, ⟨L₁, hrep⟩, hch⟩)
    · obtain ⟨rfl, rfl⟩ := Prod.mk.inj hq
      exact .pure (.inl rfl)
    · dsimp only at hp hrep ⊢
      have hx : Used (P.geometry hP) bs₁ x k := (hch.used x k).mpr (.inr rfl)
      have hlast := (hrep.blocks.used_lt hx).2
      obtain ⟨hfirst, hx4⟩ := hrep.blocks.used_bounds hx
      have hk4 : 4 ∣ k := (hrep.blocks.fits _ (mem_of_placed hx)).2
      rw [if_neg (hp ▸ pointerTo_ne_zero hrep.blocks hx), hmul, hp, pointerTo]
      refine Returns.bind (memset_spec fun i hi => (P.geometry hP).has (by omega) (by omega) (by omega)) ?_
      rintro mem ⟨hset, -, hword⟩
      exact .pure (.inr ⟨bs₁, L₁, x, k, ⟨hrep.blocks.rewrite hx fun a ha => hword a fun i hi => by omega,
        hrep.exact.of_lists⟩, hx, rfl, hk, hset⟩)

theorem callocEx_answers {e : Word} (h : t.Rep (P.geometry hP) bs L) (hne : ¬(v = 0#32 ∨ e = 0#32)) :
    Answers (P.geometry hP) bs t (searched (v * e).toNat) (callocEx P t v e) := by
  rw [callocEx, if_neg hne]
  refine (mallocEx_answers h).bind (if_pos rfl) ?_
  rintro ⟨p, t'⟩ q hp hq
  dsimp only at hp hq
  rw [if_neg hp] at hq
  obtain ⟨mem, -, hres⟩ := Option.bind_eq_some_iff.mp hq
  cases hres
  rfl

/-- `calloc_ex` serves the products up to 2^30 - 2^24, and those others for which `malloc_ex`
finds nothing, given what is left of them in 32 bits. -/
theorem callocEx_serves_iff {e : Word} (h : t.Rep (P.geometry hP) bs L) :
    Returns (callocEx P t v e) (t.Serves (P.geometry hP) (v.toNat * e.toNat)) ↔
      v.toNat * e.toNat ≤ 2 ^ 30 - 2 ^ 24 ∨
      ∃ s, searched (v * e).toNat = some s ∧ ¬Offers (P.geometry hP) bs s := by
  by_cases hv : v.toNat * e.toNat ≤ 2 ^ 30 - 2 ^ 24
  · refine iff_of_true ((callocEx_spec h hv).mono fun q hq => ?_) (.inl hv)
    rcases hq with hq | ⟨bs', L', x, k, hrep, hx, hp, hk, -⟩
    · exact .inl hq
    · exact .inr ⟨bs', L', x, k, hrep, hx, hp, hk⟩
  · rw [or_iff_right hv]
    have hne : ¬(v = 0#32 ∨ e = 0#32) := by
      rintro (rfl | rfl)
      · simp at hv
      · simp at hv
    refine (callocEx_answers h hne).serves_iff (.inl rfl) fun q s hs hq hserves => ?_
    have hlt := hserves.lt hq
    -- the product is beyond 2^30, in 32 bits or not
    have hmod : (v * e).toNat = v.toNat * e.toNat := by
      rw [BitVec.toNat_mul, Nat.mod_eq_of_lt (by omega)]
    have hlarge := searched_large hs (by omega)
    omega

-- ---------------------------------------------------------------------------
-- realloc_ex
-- ---------------------------------------------------------------------------

theorem Tlsf.Turns.keeps (h : t.Turns t' (P.geometry hP) bs bs' (some x) (some (z, k)))
    (hk : n + 4 ≤ k) (hc : Carried t.lists.mem t'.lists.mem x z (min old n)) :
    t.Keeps (P.geometry hP) x old n (pointerTo (some z), t') := by
  obtain ⟨L', hrep⟩ := h.rep
  have hz : Used (P.geometry hP) bs' z k := (h.changed.used z k).mpr (.inr rfl)
  exact ⟨fun _ => ⟨bs', L', z, k, hrep, hz, rfl, hk, hc⟩,
    fun h0 => absurd h0 (pointerTo_ne_zero hrep.blocks hz)⟩

theorem Tlsf.Keeps.lt {q : Word × Tlsf} (h : t.Keeps (P.geometry hP) x old n q) (hq : q.1 ≠ 0#32) :
    n < 2 ^ 30 := by
  obtain ⟨bs', L', z, k, hrep, hz, -, hk, -⟩ := h.1 hq
  have hspan : k < 2 ^ 30 + 4 := hrep.span_lt (mem_of_placed hz)
  have hk4 : n + 4 ≤ k := hk
  omega

theorem reallocEx_ptr {q : Word × Tlsf} {p : Word} (hp : p ≠ 0#32) (hv : v ≠ 0#32)
    (hq : reallocEx P t p v = some q) : ∃ q', mallocEx P t v = some q' ∧ q.1 = q'.1 := by
  rw [reallocEx, if_neg hp, if_neg hv] at hq
  obtain ⟨q', hm, hq⟩ := Option.bind_eq_some_iff.mp hq
  simp only [Option.bind_eq_bind, Option.pure_def, Option.bind_eq_some_iff, Option.some.injEq] at hq
  obtain ⟨_, -, _, -, _, -, rfl⟩ := hq
  exact ⟨q', hm, rfl⟩

theorem reallocEx_large (h : t.Rep (P.geometry hP) bs L) (hx : Used (P.geometry hP) bs x n)
    (hv : 2 ^ 30 - 2 ^ 24 < v.toNat) :
    ¬Returns (reallocEx P t (pointerTo (some x)) v) (t.Keeps (P.geometry hP) x old v.toNat) := by
  have hv₀ : v ≠ 0#32 := by
    rintro rfl
    simp at hv
  rintro ⟨q, hq, hkeeps⟩
  obtain ⟨q', hmalloc, hptr⟩ := reallocEx_ptr (pointerTo_ne_zero h.blocks hx) hv₀ hq
  have hans := mallocEx_answers h (v := v)
  cases hs : searched v.toNat with
  | none =>
    rw [hs] at hans
    cases hmalloc.symm.trans hans
  | some s =>
    rw [hs] at hans
    rcases hans with ⟨-, hnull⟩ | ⟨-, hne⟩
    · rw [reallocEx_null h hx hv₀ hnull] at hq
      cases hq
    · have hlt := hkeeps.lt (hptr ▸ hne q' hmalloc)
      have hlarge := searched_large hs hv
      omega

/-- `realloc_ex` keeps what was in the block where it gives it up, and where there is a free
block for a size up to 2^30 - 2^24. -/
theorem reallocEx_keeps_iff (h : t.Rep (P.geometry hP) bs L) (hx : Used (P.geometry hP) bs x n) :
    Returns (reallocEx P t (pointerTo (some x)) v) (t.Keeps (P.geometry hP) x (n - 4) v.toNat) ↔
      v = 0#32 ∨
        v.toNat ≤ 2 ^ 30 - 2 ^ 24 ∧ Offers (P.geometry hP) bs (roundUp 5 (fitted v.toNat)) := by
  by_cases hv₀ : v = 0#32
  · subst hv₀
    refine iff_of_true ?_ (.inl rfl)
    rw [reallocEx, if_neg (pointerTo_ne_zero h.blocks hx), if_pos rfl]
    exact Returns.bind (freeEx_turns h hx) fun t' _ => .pure ⟨fun hne => absurd rfl hne, fun _ => .inl rfl⟩
  rw [or_iff_right hv₀]
  by_cases hv : v.toNat ≤ 2 ^ 30 - 2 ^ 24
  · rw [and_iff_right hv]
    rcases reallocEx_turns h hx hv hv₀ with ⟨hsome, hret⟩ | ⟨hnone, hfail⟩
    · refine iff_of_true (hret.mono ?_) hsome
      rintro ⟨p, t'⟩ ⟨bs', z, k, rfl, hk, hturns, hcarried⟩
      exact hturns.keeps hk hcarried
    · rw [hfail]
      exact iff_of_false returns_none hnone
  · exact iff_of_false (reallocEx_large h hx (Nat.lt_of_not_le hv)) fun hv' => hv hv'.1

end

end Xmertl.Partikle.MemoryPool
