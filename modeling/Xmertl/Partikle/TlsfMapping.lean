import Xmertl.Common.TlsfClasses
import Xmertl.Partikle.Tlsf

/-!
# Sizes and their free lists

`_ffs` and `_fls` find the bits they are named after, each size has one small-block list or
one list of the matrix, and whatever block is on a list where the two searches look is as
large as `malloc_ex` makes the request.
-/

namespace Xmertl.Partikle.MemoryPool

open TlsfPool SizeClasses TotalCorrectness

/-- The list of the free blocks of `size` bytes. -/
def listOf (size : Word) : Option ListId :=
  if size < smallBlock then (index 32 (fliSb size)).map .inl
  else (cell 23 (mappingInsert size).1 (mappingInsert size).2).map .inr

/-- The list of a free block of `n` bytes with its header. -/
def cellOf (n : Nat) : Option ListId := listOf (BitVec.ofNat 32 (n - 4))

/-- The bitmaps are set where `full` says that a list is not empty. -/
structure Tlsf.Exact (t : Tlsf) (full : ListId → Prop) : Prop where
  sb : ∀ i, t.sbBitmap.Has i ↔ full (.inl i)
  levels : t.levels.Exact fun c => full (.inr c)

section
variable {r s : Nat} {t : Tlsf} {full : ListId → Prop} {i : Fin 32} {c : Fin 23 × Fin 32}

theorem Tlsf.Exact.of_lists (h : t.Exact full) {w : FreeLists ListId} :
    Tlsf.Exact { t with lists := w } full :=
  ⟨h.sb, h.levels⟩

theorem fls_eq (h₀ : 0 < r) (h : r < 2 ^ 32) : fls (BitVec.ofNat 32 r) = (r.log2 : Int) := by
  have hn := toNat_ofNat h
  have hne : BitVec.ofNat 32 r ≠ 0#32 := fun hz => by
    rw [hz] at hn
    exact absurd hn (Nat.ne_of_lt h₀)
  rw [fls, if_neg hne, hn]

theorem ffs_finds : FindsBit ffs where
  zero := by
    have hnone : (0#32).first = none := BitVec.first_eq_none.mpr fun _ => BitVec.has_zero
    rw [ffs, hnone]
  found w hw := by
    obtain ⟨i, hi⟩ := BitVec.first_isSome hw
    exact ⟨i, by rw [ffs, hi], BitVec.has_of_first hi⟩

theorem seven_le_log2 (h : 128 ≤ s) : 7 ≤ s.log2 := (Nat.le_log2 (by omega)).mpr h

theorem lt_smallBlock (h : s < 2 ^ 32) : BitVec.ofNat 32 s < smallBlock ↔ s < 128 := by
  rw [BitVec.lt_def, toNat_ofNat h]
  rfl

theorem fliSb_eq (h : s < 2 ^ 32) : fliSb (BitVec.ofNat 32 s) = s / 4 := by
  rw [fliSb, ofNat_shiftRight h]
  exact toNat_ofNat (by omega)

theorem mappingInsert_eq (h₁ : 128 ≤ s) (h₂ : s < 2 ^ 30) :
    mappingInsert (BitVec.ofNat 32 s) = (((s.log2 - 7 : Nat) : Int), (second 5 s : Int)) := by
  have hlog := seven_le_log2 h₁
  simp only [mappingInsert, fls_eq (show 0 < s by omega) (show s < 2 ^ 32 by omega),
    sl_eq (show 32 ≤ s by omega) (show s < 2 ^ 31 by omega), Prod.mk.injEq, and_true]
  omega

theorem mappingInsert_cell (h₁ : 128 ≤ s) (h₂ : s < 2 ^ 30) : ∃ c : Fin 23 × Fin 32,
    mappingInsert (BitVec.ofNat 32 s) = ((c.1.val : Int), (c.2.val : Int)) ∧
      c.1.val = s.log2 - 7 ∧ c.2.val = second 5 s := by
  have hlog : s.log2 < 30 := (Nat.log2_lt (by omega)).mpr h₂
  have hlt : s.log2 - 7 < 23 := by omega
  exact ⟨(⟨_, hlt⟩, ⟨_, second_lt (k := 5) (show 2 ^ 5 ≤ s by omega)⟩), mappingInsert_eq h₁ h₂, rfl, rfl⟩

theorem listOf_small (h : s < 128) (hi : i.val = s / 4) :
    listOf (BitVec.ofNat 32 s) = some (.inl i) := by
  rw [listOf, if_pos ((lt_smallBlock (by omega)).mpr h), fliSb_eq (by omega), ← hi, index_val,
    Option.map_some]

theorem listOf_large (h₁ : 128 ≤ s) (h₂ : s < 2 ^ 30)
    (hc : mappingInsert (BitVec.ofNat 32 s) = ((c.1.val : Int), (c.2.val : Int))) :
    listOf (BitVec.ofNat 32 s) = some (.inr c) := by
  rw [listOf, if_neg (mt (lt_smallBlock (by omega)).mp (Nat.not_lt.mpr h₁)), hc, cell_val,
    Option.map_some]

theorem listOf_cases {size : Word} {j : ListId} (h : listOf size = some j) :
    (size < smallBlock ∧ ∃ i, index 32 (fliSb size) = some i ∧ j = .inl i) ∨
      (¬size < smallBlock ∧ ∃ c,
        cell 23 (mappingInsert size).1 (mappingInsert size).2 = some c ∧ j = .inr c) := by
  rw [listOf] at h
  split at h
  · rename_i hlt
    obtain ⟨i, hi, rfl⟩ := Option.map_eq_some_iff.mp h
    exact .inl ⟨hlt, i, hi, rfl⟩
  · rename_i hge
    obtain ⟨c, hc, rfl⟩ := Option.map_eq_some_iff.mp h
    exact .inr ⟨hge, c, hc, rfl⟩

theorem listOf_exists (h : s < 2 ^ 30) : ∃ j, listOf (BitVec.ofNat 32 s) = some j := by
  rcases Nat.lt_or_ge s 128 with hs | hs
  · exact ⟨_, listOf_small (i := ⟨s / 4, by omega⟩) hs rfl⟩
  · obtain ⟨c, hc, -⟩ := mappingInsert_cell hs h
    exact ⟨_, listOf_large hs h hc⟩

theorem size_of_small (h : s < 2 ^ 30) (h4 : 4 ∣ s)
    (hl : listOf (BitVec.ofNat 32 s) = some (.inl i)) : s = 4 * i.val := by
  rcases Nat.lt_or_ge s 128 with hs | hs
  · have hl' := listOf_small (i := ⟨s / 4, by omega⟩) hs rfl
    obtain rfl := Sum.inl.inj (Option.some.inj (hl.symm.trans hl'))
    exact (Nat.mul_div_cancel' h4).symm
  · obtain ⟨c, hc, -⟩ := mappingInsert_cell hs h
    cases Option.some.inj (hl.symm.trans (listOf_large hs h hc))

theorem size_of_large (h : s < 2 ^ 30) (hl : listOf (BitVec.ofNat 32 s) = some (.inr c)) :
    128 ≤ s ∧ c.1.val = s.log2 - 7 ∧ c.2.val = second 5 s := by
  rcases Nat.lt_or_ge s 128 with hs | hs
  · have hl' := listOf_small (i := ⟨s / 4, by omega⟩) hs rfl
    cases Option.some.inj (hl.symm.trans hl')
  · obtain ⟨c', hc', h₁, h₂⟩ := mappingInsert_cell hs h
    obtain rfl := Sum.inr.inj (Option.some.inj (hl.symm.trans (listOf_large hs h hc')))
    exact ⟨hs, h₁, h₂⟩

-- ---------------------------------------------------------------------------
-- The searches
-- ---------------------------------------------------------------------------

/-- What is found is the first block of a list for blocks that are large enough, where such a
list is not empty. -/
theorem findSmall_spec (he : t.Exact full) (h : r < 2 ^ 32) :
    Returns (findSmallSuitableBlock (BitVec.ofNat 32 r) t) fun q =>
      (q.1 = 0#32 ∧ ∀ i : Fin 32, full (.inl i) → ¬r / 4 ≤ i.val) ∨
      ∃ i : Fin 32, q = (t.lists.head (.inl i), (i.val : Int)) ∧ full (.inl i) ∧ r / 4 ≤ i.val := by
  rw [findSmallSuitableBlock]
  split
  · rename_i hge
    have hlarge := mt (lt_smallBlock h).mpr (BitVec.not_lt.mpr hge)
    exact .pure (.inl ⟨rfl, fun i _ hle => by omega⟩)
  · rw [fliSb_eq h]
    by_cases hz : t.sbBitmap &&& (BitVec.allOnes 32 <<< (r / 4)) = 0#32
    · rw [hz, ffs_finds.zero]
      refine .pure (.inl ⟨rfl, fun i hi hle => ?_⟩)
      have hfrom := has_from.mpr ⟨(he.sb i).mpr hi, hle⟩
      rw [hz] at hfrom
      exact BitVec.has_zero hfrom
    · obtain ⟨i, hi, hbit⟩ := ffs_finds.found _ hz
      obtain ⟨hsb, hle⟩ := has_from.mp hbit
      have hpos : (i.val : Int) > -1 := by omega
      simp only [hi, if_pos hpos, index_val]
      exact .pure (.inr ⟨i, rfl, (he.sb i).mp hsb, hle⟩)

theorem mappingSearch_eq (h₀ : 32 ≤ r) (h : r ≤ 2 ^ 30 - 2 ^ 24) :
    mappingSearch (BitVec.ofNat 32 r) =
      if (r + (width 5 r - 1)).log2 < 7 then (BitVec.ofNat 32 (roundUp 5 r), 0, 0)
      else (BitVec.ofNat 32 (roundUp 5 r), (((r + (width 5 r - 1)).log2 - 7 : Nat) : Int),
        (second 5 (r + (width 5 r - 1)) : Int)) := by
  have hm := step_lt h₀ h
  have hsum : BitVec.ofNat 32 r + BitVec.ofNat 32 (width 5 r - 1) =
      BitVec.ofNat 32 (r + (width 5 r - 1)) := (BitVec.ofNat_add ..).symm
  simp only [mappingSearch, fls_eq (show 0 < r by omega) (show r < 2 ^ 32 by omega),
    step_eq r, hsum,
    fls_eq (show 0 < r + (width 5 r - 1) by omega) (show r + (width 5 r - 1) < 2 ^ 32 by omega),
    sl_eq (show 32 ≤ r + (width 5 r - 1) by omega) (show r + (width 5 r - 1) < 2 ^ 31 by omega),
    round_eq]
  split
  · rw [if_pos (by omega)]
  · rw [if_neg (by omega), Prod.mk.injEq, Prod.mk.injEq]
    exact ⟨rfl, by omega, rfl⟩

theorem later_iff {m : Nat} (hm₁ : 128 ≤ m) (hs : s < 2 ^ 30)
    (hc : listOf (BitVec.ofNat 32 s) = some (.inr c)) :
    (m.log2 - 7 < c.1.val ∨ m.log2 - 7 = c.1.val ∧ second 5 m ≤ c.2.val) ↔
      least 5 m.log2 (second 5 m) ≤ s := by
  obtain ⟨hlarge, h₁, h₂⟩ := size_of_large hs hc
  have hlog := seven_le_log2 hm₁
  have hlogs := seven_le_log2 hlarge
  rw [h₁, h₂, least_le_iff (show 2 ^ 5 ≤ s by omega) (by omega)
    (second_lt (k := 5) (show 2 ^ 5 ≤ m by omega))]
  omega

/-- The matrix is searched for `roundUp 5 r`, and a block is in the class that the search
begins at or in a later one just where it is as large as that. -/
theorem searchFrom_spec (h4 : 4 ∣ r) (h : r ≤ 2 ^ 30 - 2 ^ 24) :
    ∃ (fl : Fin 23) (sl : Fin 32), searchFrom (BitVec.ofNat 32 r) =
        (BitVec.ofNat 32 (roundUp 5 r), (fl.val : Int), (sl.val : Int)) ∧
      ∀ s c, s < 2 ^ 30 → listOf (BitVec.ofNat 32 s) = some (.inr c) →
        ((fl < c.1 ∨ fl = c.1 ∧ sl ≤ c.2) ↔ roundUp 5 r ≤ s) := by
  have hlt32 : BitVec.ofNat 32 r < 32#32 ↔ r < 32 := by
    rw [BitVec.lt_def, toNat_ofNat (by omega)]
    rfl
  -- every block of the matrix is as large as a small request
  have hfirst : r < 128 → ∀ s c, s < 2 ^ 30 → listOf (BitVec.ofNat 32 s) = some (.inr c) →
      (((⟨0, by decide⟩ : Fin 23) < c.1 ∨ ⟨0, by decide⟩ = c.1 ∧ (⟨0, by decide⟩ : Fin 32) ≤ c.2) ↔
        roundUp 5 r ≤ s) := by
    intro hr s c hs hc
    have hlarge := (size_of_large hs hc).1
    rw [roundUp_small hr h4]
    simp only [Fin.lt_def, Fin.ext_iff, Fin.le_def]
    omega
  rw [searchFrom]
  by_cases hr : r < 32
  · rw [if_pos (hlt32.mpr hr)]
    refine ⟨⟨0, by decide⟩, ⟨0, by decide⟩, ?_, hfirst (by omega)⟩
    rw [roundUp_small (by omega) h4]
    rfl
  · rw [if_neg (mt hlt32.mp hr), mappingSearch_eq (Nat.le_of_not_lt hr) h]
    have hm : r + (width 5 r - 1) < 2 ^ 30 := step_lt (by omega) h
    by_cases hlog : (r + (width 5 r - 1)).log2 < 7
    · rw [if_pos hlog]
      have hlt : r + (width 5 r - 1) < 128 := (Nat.log2_lt (by omega)).mp hlog
      exact ⟨⟨0, by decide⟩, ⟨0, by decide⟩, rfl, hfirst (by omega)⟩
    · rw [if_neg hlog]
      have hlog30 : (r + (width 5 r - 1)).log2 < 30 := (Nat.log2_lt (by omega)).mpr hm
      have hsecond := second_lt (k := 5) (show 2 ^ 5 ≤ r + (width 5 r - 1) by omega)
      refine ⟨⟨(r + (width 5 r - 1)).log2 - 7, by omega⟩, ⟨second 5 (r + (width 5 r - 1)), hsecond⟩,
        rfl, fun s c hs hc => ?_⟩
      have hm128 : 128 ≤ r + (width 5 r - 1) := by
        have hpow := (Nat.le_log2 (by omega)).mp (Nat.le_of_not_lt hlog)
        omega
      simp only [Fin.lt_def, Fin.ext_iff, Fin.le_def]
      rw [roundUp_eq (show 2 ^ 5 ≤ r by omega), later_iff hm128 hs hc]

end

end Xmertl.Partikle.MemoryPool
