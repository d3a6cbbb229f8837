import Mathlib.Data.Finset.Image
import Mathlib.Order.Interval.Finset.Nat
import Xmertl.Partikle.VmmTables

/-!
# Regions of virtual memory

What `alloc_region` does on whatever a run of the memory manager leaves, where its search ends
before the last page and the region that it finds can be served, and what `dealloc_region`
then does to the region.
-/

namespace Xmertl.Partikle.Vmm

open FreshMaps

-- ---------------------------------------------------------------------------
-- Regions
-- ---------------------------------------------------------------------------

/-- From `x` to `y` there is a table more. -/
def NewPgt (x y : Vmm) (e : Nat) : Prop := x.pgd e = .zero ∧ y.pgd e ≠ .zero

def created (x y : Vmm) : Set Nat := {p | ∃ e, NewPgt x y e ∧ p = window e}

def pages (size : Nat) : Nat := (size + 0xfff) / 0x1000

/-- The pages of `[r, r + size)`, for a page address `r`. -/
def region (r size : Nat) : Finset Nat := Finset.Ico (r / 0x1000) (r / 0x1000 + pages size)

def missing (x : Vmm) (ps : Finset Nat) : Finset Nat :=
  (ps.image (· / 0x400)).filter fun e => x.pgd e = .zero

/-- Each page of a region got a free frame of its own, and so did each new table. -/
structure Allocated (x y : Vmm) (ps : Finset Nat) : Prop where
  maps : Extends x.space y.space (ps ∪ created x y)
  apart : ∀ p ∈ ps, p ∉ created x y

/-- Apart from the new tables, the same pages are mapped and the same frames are free. -/
structure Restored (x y : Vmm) : Prop where
  mapped : ∀ p, p ∉ created x y → ((y.translate p).isSome ↔ (x.translate p).isSome)
  free : ∀ f, (∀ e, NewPgt x y e → f ≠ (y.pgd e).frame) → (y.Free f ↔ x.Free f)

-- ---------------------------------------------------------------------------
-- The second loop
-- ---------------------------------------------------------------------------

/-- These pages are mapped, with tables for some of these entries. -/
structure Mapped (i : Image) (x y : Vmm) (ps es : Finset Nat) : Prop where
  inv : Inv i y
  maps : Extends x.space y.space (ps ∪ created x y)
  mono : ∀ e, x.pgd e ≠ .zero → y.pgd e ≠ .zero
  within : ∀ e, NewPgt x y e → e ∈ es
  count : y.pageTable.bits.card + ps.card + es.card = x.pageTable.bits.card

section
variable {i : Image} {x y z : Vmm} {a b e f p n : Nat} {ps qs es ds : Finset Nat}

theorem mem_missing : e ∈ x.missing ps ↔ (∃ p ∈ ps, p / 0x400 = e) ∧ x.pgd e = .zero := by
  simp [missing]

theorem created_trans (h : ∀ e, x.pgd e ≠ .zero → y.pgd e ≠ .zero)
    (h' : ∀ e, y.pgd e ≠ .zero → z.pgd e ≠ .zero) :
    created x z = created x y ∪ created y z := by
  ext p
  constructor
  · rintro ⟨e, ⟨hx, hz⟩, rfl⟩
    by_cases hy : y.pgd e = .zero
    · exact .inr ⟨e, ⟨hy, hz⟩, rfl⟩
    · exact .inl ⟨e, ⟨hx, hy⟩, rfl⟩
  · rintro (⟨e, ⟨hx, hy⟩, rfl⟩ | ⟨e, ⟨hy, hz⟩, rfl⟩)
    · exact ⟨e, ⟨hx, h' e hy⟩, rfl⟩
    · exact ⟨e, ⟨by_contra fun hx => h e hx hy, hz⟩, rfl⟩

theorem created_self : created x x = ∅ := by
  apply Set.eq_empty_of_forall_notMem
  rintro p ⟨e, ⟨hx, hx'⟩, -⟩
  exact hx' hx

theorem Mapped.refl (h : Inv i x) : Mapped i x x ∅ ∅ where
  inv := h
  maps := by
    rw [created_self, Finset.coe_empty, Set.union_empty]
    exact .refl h.sound
  mono _ he := he
  within e he := absurd he.1 he.2
  count := rfl

theorem Mapped.trans (h : Mapped i x y ps es) (h' : Mapped i y z qs ds) (hps : Disjoint ps qs)
    (hes : Disjoint es ds) : Mapped i x z (ps ∪ qs) (es ∪ ds) where
  inv := h'.inv
  maps := by
    have hmaps := h.maps.trans h'.maps
    rwa [Set.union_union_union_comm, ← Finset.coe_union, ← created_trans h.mono h'.mono] at hmaps
  mono e he := h'.mono e (h.mono e he)
  within e he := by
    rw [Finset.mem_union]
    by_cases hy : y.pgd e = .zero
    · exact .inr (h'.within e ⟨hy, he.2⟩)
    · exact .inl (h.within e ⟨he.1, hy⟩)
  count := by
    have hcount := h.count
    have hcount' := h'.count
    rw [Finset.card_union_of_disjoint hps, Finset.card_union_of_disjoint hes]
    omega

theorem Inv.entry_frame (h : Inv i x) (hd : x.pgd (p / 0x400) ≠ .zero)
    (hp : x.translate p = none) : (x.entry p).frame = 0 := by
  rcases h.translate_eq_none.mp hp with hor | hor
  · exact absurd hor hd
  · rw [hor]
    rfl

theorem Inv.findfbs (h : Inv i x) (hcard : 0 < x.pageTable.bits.card) :
    ∃ f, x.pageTable.findfbsCbitmap = some f ∧ x.Free f := by
  obtain ⟨g, hg⟩ := Finset.card_pos.mp hcard
  obtain ⟨f, hf⟩ := Cbitmap.findfbs_isSome h.bounded ((Cbitmap.mem_bits h.bounded).mp hg)
  exact ⟨f, hf, Cbitmap.has_of_findfbs hf⟩

theorem card_clearbit (h : Inv i x) (hf : x.Free f) :
    (x.pageTable.clearbitCbitmap f).bits.card + 1 = x.pageTable.bits.card := by
  rw [Cbitmap.bits_clearbit h.bounded]
  exact Finset.card_erase_add_one ((Cbitmap.mem_bits h.bounded).mpr hf)

theorem withPgt_mapped (h : Inv i x) (he : x.pgd e = .zero) (hlt : e < 0x400) (hf : x.Free f)
    (hw : x.translate (window e) = none) : Mapped i x (x.withPgt e f) ∅ {e} where
  inv := h.withPgt he hlt hf
  maps := by
    have hcreated : created x (x.withPgt e f) = {window e} := by
      ext p
      constructor
      · rintro ⟨d, ⟨hx, hd⟩, rfl⟩
        by_cases hde : d = e
        · rw [hde]
          rfl
        · rw [withPgt_pgd_ne hde] at hd
          exact absurd hx hd
      · rintro rfl
        refine ⟨e, ⟨he, ?_⟩, rfl⟩
        rw [withPgt_pgd_self]
        exact kernelFlags_ne
    rw [hcreated, Finset.coe_empty, Set.empty_union]
    exact .assign h.sound hw ((Cbitmap.mem_bits h.bounded).mpr hf)
      (fun _ => withPgt_translate h he hlt hf) (Cbitmap.bits_clearbit h.bounded)
  mono d hd := by
    by_cases hde : d = e
    · rw [hde, withPgt_pgd_self]
      exact kernelFlags_ne
    · rwa [withPgt_pgd_ne hde]
  within d hd := by
    by_contra hde
    rw [Finset.mem_singleton] at hde
    have hnew := hd.2
    rw [withPgt_pgd_ne hde] at hnew
    exact hnew hd.1
  count := card_clearbit h hf

theorem give_mapped (h : Inv i x) (hd : x.pgd (p / 0x400) ≠ .zero) (hp : x.translate p = none)
    (hf : x.Free f) : Mapped i x ((x.take f).place p f) {p} ∅ where
  inv := h.give hd (h.entry_frame hd hp) hf
  maps := by
    have hcreated : created x ((x.take f).place p f) = ∅ := created_self (x := x)
    rw [hcreated, Finset.coe_singleton, Set.union_empty]
    exact .assign h.sound hp ((Cbitmap.mem_bits h.bounded).mpr hf)
      (fun _ => place_translate h.take hd) (Cbitmap.bits_clearbit h.bounded)
  mono _ he := he
  within e he := absurd he.1 he.2
  count := card_clearbit h hf

theorem give_eq (h : Inv i x) (hd : x.pgd (p / 0x400) ≠ .zero) (hp : x.translate p = none)
    (hcard : 0 < x.pageTable.bits.card) :
    ∃ y, Mapped i x y {p} ∅ ∧ (x.pageTable.findfbsCbitmap.bind fun f =>
      if (x.entry p).frame ≠ 0 then none else some ((x.take f).place p f)) = some y := by
  obtain ⟨f, hf, hfree⟩ := h.findfbs hcard
  refine ⟨_, give_mapped h hd hp hfree, ?_⟩
  rw [hf, Option.bind_some, if_neg (not_ne_iff.mpr (h.entry_frame hd hp))]

theorem needPgt_mapped (h : Inv i x) (hlt : p < 0x100000)
    (hw : ∀ e ∈ x.missing {p}, x.translate (window e) = none)
    (hcard : (x.missing {p}).card < x.pageTable.bits.card) :
    ∃ z, x.needPgt (p / 0x400) = some z ∧ Mapped i x z ∅ (x.missing {p}) := by
  unfold needPgt
  by_cases he : x.pgd (p / 0x400) = .zero
  · obtain ⟨f, hf, hfree⟩ := h.findfbs (Nat.zero_lt_of_lt hcard)
    have hmissing : x.missing {p} = {p / 0x400} := by
      ext e
      simp only [mem_missing, Finset.mem_singleton, exists_eq_left]
      exact ⟨fun h => h.1.symm, fun h => ⟨h.symm, h ▸ he⟩⟩
    rw [if_pos he, hmissing]
    rw [hmissing] at hw
    have hlt' : p / 0x400 < 0x400 := by omega
    exact ⟨_, newPgt_eq h he hlt' hf,
      withPgt_mapped h he hlt' hfree (hw _ (Finset.mem_singleton_self _))⟩
  · have hmissing : x.missing {p} = ∅ := by
      apply Finset.eq_empty_of_forall_notMem
      intro e hmem
      simp only [mem_missing, Finset.mem_singleton, exists_eq_left] at hmem
      exact he (hmem.1 ▸ hmem.2)
    rw [if_neg he, hmissing]
    exact ⟨x, rfl, .refl h⟩

theorem mapPage_mapped (h : Inv i x) (hlt : p < 0x100000) (hp : x.translate p = none)
    (hw : ∀ e ∈ x.missing {p}, x.translate (window e) = none)
    (hcard : (x.missing {p}).card < x.pageTable.bits.card) :
    ∃ y, x.mapPage (p * 0x1000) = some y ∧ Mapped i x y {p} (x.missing {p}) := by
  have haddr : p * 0x1000 / 0x1000 = p := Nat.mul_div_cancel _ (by decide)
  have hdir : va2pgd (p * 0x1000) = p / 0x400 := by rw [va2pgd_eq, haddr]
  obtain ⟨z, hz, hmap⟩ := needPgt_mapped h hlt hw hcard
  have hd : z.pgd (p / 0x400) ≠ .zero := (needPgt_inv h (by omega) hz).2
  have hpz : z.translate p = none := by
    refine (hmap.maps.old p ?_).trans hp
    simp only [Finset.coe_empty, Set.empty_union]
    rintro ⟨e, he, rfl⟩
    obtain ⟨⟨q, hq, hqe⟩, -⟩ := mem_missing.mp (hmap.within e he)
    rw [Finset.mem_singleton.mp hq] at hqe
    rw [window_div (by omega)] at hqe
    subst hqe
    exact h.self.1 he.1
  have hcount := hmap.count
  rw [Finset.card_empty] at hcount
  obtain ⟨y, hgive, hy⟩ := give_eq hmap.inv hd hpz (by omega)
  refine ⟨y, ?_, ?_⟩
  · rw [mapPage_of_needPgt (by rwa [hdir]) hmap.inv (by rwa [hdir]), haddr, hy]
  · have hboth := hmap.trans hgive (Finset.disjoint_empty_left _) (Finset.disjoint_empty_right _)
    rwa [Finset.empty_union, Finset.union_empty] at hboth

theorem missing_mono (h : ps ⊆ qs) : x.missing ps ⊆ x.missing qs := by
  intro e he
  obtain ⟨⟨p, hp, hpe⟩, hzero⟩ := mem_missing.mp he
  exact mem_missing.mpr ⟨⟨p, h hp, hpe⟩, hzero⟩

theorem Mapped.missing_union (h : Mapped i x y ps (x.missing ps)) :
    x.missing ps ∪ y.missing qs = x.missing (ps ∪ qs) := by
  ext e
  rw [Finset.mem_union]
  constructor
  · rintro (he | he)
    · exact missing_mono Finset.subset_union_left he
    · obtain ⟨⟨p, hp, hpe⟩, hzero⟩ := mem_missing.mp he
      refine mem_missing.mpr ⟨⟨p, Finset.mem_union_right _ hp, hpe⟩, ?_⟩
      exact by_contra fun hx => h.mono e hx hzero
  · intro he
    obtain ⟨⟨p, hp, hpe⟩, hzero⟩ := mem_missing.mp he
    by_cases hy : y.pgd e = .zero
    · rcases Finset.mem_union.mp hp with hp | hp
      · exact .inl (mem_missing.mpr ⟨⟨p, hp, hpe⟩, hzero⟩)
      · exact .inr (mem_missing.mpr ⟨⟨p, hp, hpe⟩, hy⟩)
    · exact .inl (h.within e ⟨hzero, hy⟩)

theorem Mapped.missing_disjoint (h : Mapped i x y ps (x.missing ps)) :
    Disjoint (x.missing ps) (y.missing qs) := by
  rw [Finset.disjoint_left]
  intro e hx hy
  obtain ⟨⟨p, hp, rfl⟩, -⟩ := mem_missing.mp hx
  obtain ⟨-, f, -, hf⟩ := h.maps.fresh p (.inl hp)
  exact (h.inv.translate_eq_some.mp hf).1 (mem_missing.mp hy).2

/-- A page is left alone that is not among those mapped, nor shows a table they lack. -/
theorem Mapped.translate_old (h : Mapped i x y ps es) (hp : p ∉ ps)
    (hw : ∀ e ∈ es, p ≠ window e) : y.translate p = x.translate p := by
  refine h.maps.old p ?_
  rintro (hmem | ⟨e, he, rfl⟩)
  · exact hp hmem
  · exact hw e (h.within e he) rfl

theorem Ico_cons (a m : Nat) :
    Finset.Ico a (a + (m + 1)) = {a} ∪ Finset.Ico (a + 1) (a + 1 + m) := by
  ext p
  simp only [Finset.mem_union, Finset.mem_singleton, Finset.mem_Ico]
  omega

theorem next_page (hlt : a + 1 < 0x100000) : next (a * 0x1000) = (a + 1) * 0x1000 := by
  unfold next
  omega

/-- What can be served: no page is mapped, nor the windows of the tables they lack, and there
are frames for all of them. -/
structure Room (x : Vmm) (ps : Finset Nat) : Prop where
  unmapped : ∀ p ∈ ps, x.translate p = none
  windows : ∀ e ∈ x.missing ps, x.translate (window e) = none ∧ window e ∉ ps
  frames : ps.card + (x.missing ps).card ≤ x.pageTable.bits.card

theorem Room.rest (h : Room x (ps ∪ qs)) (hdisj : Disjoint ps qs)
    (hmap : Mapped i x y ps (x.missing ps)) : Room y qs where
  unmapped p hp := by
    rw [hmap.translate_old (Finset.disjoint_right.mp hdisj hp)]
    · exact h.unmapped p (Finset.mem_union_right _ hp)
    · rintro e he rfl
      have hmem := missing_mono (Finset.subset_union_left : ps ⊆ ps ∪ qs) he
      exact (h.windows e hmem).2 (Finset.mem_union_right _ hp)
  windows e he := by
    have hmem : e ∈ x.missing (ps ∪ qs) := by
      rw [← hmap.missing_union]
      exact Finset.mem_union_right _ he
    obtain ⟨hnone, hnot⟩ := h.windows e hmem
    rw [Finset.notMem_union] at hnot
    refine ⟨?_, hnot.2⟩
    rw [hmap.translate_old hnot.1]
    · exact hnone
    · intro d hd heq
      rw [window_inj] at heq
      subst heq
      exact Finset.disjoint_left.mp hmap.missing_disjoint hd he
  frames := by
    have hframes := h.frames
    have hcount := hmap.count
    rw [← hmap.missing_union, Finset.card_union_of_disjoint hdisj,
      Finset.card_union_of_disjoint hmap.missing_disjoint] at hframes
    omega

theorem mapLoop_mapped {stop m : Nat} (h : Inv i x) (hlt : a + m < 0x100000)
    (hstop : ∀ k, k * 0x1000 < stop ↔ k < a + m) (hroom : Room x (Finset.Ico a (a + m)))
    (hn : m < n) : ∃ y, mapLoop stop n (a * 0x1000) x = some y ∧
      Mapped i x y (Finset.Ico a (a + m)) (x.missing (Finset.Ico a (a + m))) := by
  induction m generalizing a x n with
  | zero =>
    obtain ⟨n, rfl⟩ : ∃ n', n = n' + 1 := ⟨n - 1, by omega⟩
    refine ⟨x, ?_, ?_⟩
    · rw [mapLoop, if_pos]
      rw [hstop]
      omega
    · rw [Nat.add_zero, Finset.Ico_self]
      exact .refl h
  | succ m ih =>
    obtain ⟨n, rfl⟩ : ∃ n', n = n' + 1 := ⟨n - 1, by omega⟩
    rw [Ico_cons] at hroom ⊢
    have hdisj : Disjoint {a} (Finset.Ico (a + 1) (a + 1 + m)) := by simp
    have hsub : x.missing {a} ⊆ x.missing ({a} ∪ Finset.Ico (a + 1) (a + 1 + m)) :=
      missing_mono Finset.subset_union_left
    have hframes := hroom.frames
    rw [Finset.card_union_of_disjoint hdisj, Finset.card_singleton] at hframes
    have hcard := Finset.card_le_card hsub
    obtain ⟨y, hy, hmap⟩ := mapPage_mapped h (by omega)
      (hroom.unmapped a (Finset.mem_union_left _ (Finset.mem_singleton_self a)))
      (fun e he => (hroom.windows e (hsub he)).1) (by omega)
    obtain ⟨z, hz, hrest⟩ := ih (a := a + 1) (x := y) (n := n) hmap.inv (by omega)
      (fun k => by rw [hstop]; omega) (hroom.rest hdisj hmap) (by omega)
    refine ⟨z, ?_, ?_⟩
    · rw [mapLoop, if_neg (not_not.mpr ((hstop a).mpr (by omega))), hy, next_page (by omega)]
      exact hz
    · rw [← hmap.missing_union]
      exact hmap.trans hrest hdisj hmap.missing_disjoint

end

-- ---------------------------------------------------------------------------
-- The search
-- ---------------------------------------------------------------------------

/-- A page that `alloc_region` takes to be free. -/
def Unused (x : Vmm) (page : Nat) : Prop :=
  x.pgd (page / 0x400) = .zero ∨ (x.entry page).frame = 0

/-- Between the bounds, the pages of `size` bytes at `r` and one page more are unused. -/
structure Hole (x : Vmm) (lo hi size r : Nat) : Prop where
  above : lo ≤ r
  below : r + pages size * 0x1000 < hi
  page : r % 0x1000 = 0
  unused : ∀ p, r / 0x1000 ≤ p → p ≤ r / 0x1000 + pages size → x.Unused p

def Lowest (x : Vmm) (lo hi size r : Nat) : Prop :=
  x.Hole lo hi size r ∧ ∀ r', x.Hole lo hi size r' → r ≤ r'

/-- The search stays below the last page of the address space. -/
def Ends (x : Vmm) (lo hi size : Nat) : Prop := hi ≤ 0xfffff000 ∨ ∃ r, x.Hole lo hi size r

section
variable {i : Image} {x : Vmm} {lo hi size r n a s p : Nat}

theorem va2pgt_page : va2pgt (p * 0x1000) = p % 0x400 := by
  unfold va2pgt
  omega

theorem va2pgd_page : va2pgd (p * 0x1000) = p / 0x400 := by
  unfold va2pgd
  omega

theorem Inv.inUse_eq (h : Inv i x) : ∃ used : Bool,
    x.inUse (p * 0x1000) = some used ∧ (used = false ↔ x.Unused p) := by
  unfold inUse Unused
  rw [va2pgd_page, va2pgt_page]
  split
  case isTrue hd => exact ⟨false, rfl, by simp [hd]⟩
  case isFalse hd =>
    rw [h.pgt_eq hd]
    exact ⟨_, rfl, by simp [hd, entry]⟩

/-- What the search knows at page `a` about the pages from `s` on. -/
structure Searched (x : Vmm) (lo hi size s a : Nat) : Prop where
  le : s ≤ a
  above : lo ≤ s * 0x1000
  short : a ≤ s + pages size
  unused : ∀ p, s ≤ p → p < a → x.Unused p
  before : ∀ r, x.Hole lo hi size r → s * 0x1000 ≤ r

namespace Searched

theorem used (h : Searched x lo hi size s a) (hused : ¬x.Unused a) :
    Searched x lo hi size (a + 1) (a + 1) where
  le := Nat.le_refl _
  above := by
    have hle := h.le
    have habove := h.above
    by_contra hlt
    omega
  short := Nat.le_add_right _ _
  unused p hp hlt := by omega
  before r hr := by
    have hs := h.before r hr
    have hshort := h.short
    by_contra hlt
    exact hused (hr.unused a (by omega) (by omega))

theorem unused_step (h : Searched x lo hi size s a) (hunused : x.Unused a)
    (hshort : a < s + pages size) : Searched x lo hi size s (a + 1) where
  le := by
    have hle := h.le
    omega
  above := h.above
  short := hshort
  unused p hp hlt := by
    rcases Nat.lt_succ_iff_lt_or_eq.mp hlt with hlt | rfl
    · exact h.unused p hp hlt
    · exact hunused
  before := h.before

theorem found (h : Searched x lo hi size s a) (hunused : x.Unused a) (ha : a * 0x1000 < hi)
    (hlong : s + pages size ≤ a) : x.Lowest lo hi size (s * 0x1000) := by
  have hshort := h.short
  have hbelow : s * 0x1000 + pages size * 0x1000 < hi := by
    by_contra hlt
    omega
  refine ⟨⟨h.above, hbelow, Nat.mul_mod_left _ _, fun p hp hle => ?_⟩, h.before⟩
  by_cases hpa : p = a
  · exact hpa ▸ hunused
  · exact h.unused p (by omega) (by omega)

theorem no_hole (h : Searched x lo hi size s a) (ha : hi ≤ a * 0x1000) (r : Nat) :
    ¬x.Hole lo hi size r := by
  intro hr
  have hs := h.before r hr
  have hbelow := hr.below
  have hshort := h.short
  omega

theorem room (h : Searched x lo hi size s (a + 1)) (ha : a * 0x1000 < hi) (hhi : hi ≤ 0xffffffff)
    (hends : x.Ends lo hi size) : a + 1 < 0x100000 := by
  rcases hends with hends | ⟨r, hr⟩
  · omega
  · have hs := h.before r hr
    have hbelow := hr.below
    have hshort := h.short
    omega

end Searched

theorem searchLoop_spec (h : Inv i x) (hhi : hi ≤ 0xffffffff) (hends : x.Ends lo hi size)
    (hs : Searched x lo hi size s a) (ha : a < 0x100000) (hn : 0x100000 < a + n) :
    ∃ found, x.searchLoop hi size n (a * 0x1000) (s * 0x1000) = some found ∧
      (found = none → ∀ r, ¬x.Hole lo hi size r) ∧
      (∀ r, found = some r → x.Lowest lo hi size r) := by
  induction n generalizing a s with
  | zero => omega
  | succ n ih =>
    rw [searchLoop]
    split
    case isTrue hout =>
      exact ⟨none, rfl, fun _ => hs.no_hole (Nat.le_of_not_lt hout), by simp⟩
    case isFalse hin =>
      have hin := not_not.mp hin
      obtain ⟨used, hused, hunused⟩ := h.inUse_eq (p := a)
      simp only [hused, Option.bind_eq_bind, Option.bind_some]
      cases used with
      | true =>
        have hnext := hs.used fun hu => Bool.noConfusion (hunused.mpr hu)
        have hroom := hnext.room hin hhi hends
        rw [if_pos rfl, next_page hroom]
        exact ih hnext hroom (by omega)
      | false =>
        have hu : x.Unused a := hunused.mp rfl
        have hle := hs.le
        have hlong : (a * 0x1000 + 0x100000000 - s * 0x1000) % 0x100000000 ≥ size ↔
            s + pages size ≤ a := by
          unfold pages
          omega
        rw [if_neg (by decide)]
        split
        case isTrue hsize =>
          refine ⟨_, rfl, by simp, ?_⟩
          rintro r hr
          obtain rfl := Option.some.inj hr
          exact hs.found hu hin (hlong.mp hsize)
        case isFalse hsize =>
          have hnext := hs.unused_step hu (Nat.lt_of_not_le (hlong.not.mp hsize))
          have hroom := hnext.room hin hhi hends
          rw [next_page hroom]
          exact ih hnext hroom (by omega)

end

-- ---------------------------------------------------------------------------
-- The calls
-- ---------------------------------------------------------------------------

/-- The region at `r` has the first page of the kernel not in it, nor the windows of the tables
that it lacks, which show no page yet, and there are frames for it and them. -/
structure Serves (x : Vmm) (r size : Nat) : Prop where
  bios : biosPage ∉ region r size
  windows : ∀ e ∈ x.missing (region r size),
    x.translate (window e) = none ∧ window e ∉ region r size
  frames : (region r size).card + (x.missing (region r size)).card ≤ x.pageTable.bits.card

def Finds (x : Vmm) (lo hi size : BitVec 32) : Prop :=
  startAddr lo % 0x1000 = 0 ∧ ∃ r, x.Hole (startAddr lo) (stopAddr hi) size.toNat r

def Fits (x : Vmm) (lo hi size : BitVec 32) : Prop :=
  startAddr lo % 0x1000 = 0 →
    x.Ends (startAddr lo) (stopAddr hi) size.toNat ∧
      ∀ r, x.Lowest (startAddr lo) (stopAddr hi) size.toNat r → x.Serves r size.toNat

/-- `alloc_region` comes back, with nothing changed or with a region. -/
def Allocates (x : Vmm) (lo hi size : BitVec 32) : Prop :=
  ∃ n₀, ∀ n ≥ n₀, ∃ y r, x.allocRegion n lo hi size = some (y, r) ∧
    (r = 0 → y = x) ∧ (r ≠ 0 → Allocated x y (region r size.toNat))

/-- `dealloc_region` undoes what `alloc_region` did. -/
def Releases (x : Vmm) (lo hi size : BitVec 32) : Prop :=
  ∀ n y r, x.allocRegion n lo hi size = some (y, r) → r ≠ 0 →
    ∃ n₀, ∀ m ≥ n₀, ∃ z, y.deallocRegion m r size.toNat = some z ∧ Restored x z

section
variable {i : Image} {x y z : Vmm} {lo hi size : BitVec 32} {r n m : Nat} {ps : Finset Nat}

theorem Serves.room (h : Serves x r size.toNat) (hinv : Inv i x) {lo hi : Nat}
    (hr : x.Hole lo hi size.toNat r) : Room x (region r size.toNat) where
  unmapped p hp := by
    have hrange := Finset.mem_Ico.mp hp
    rw [hinv.translate_eq_none]
    rcases hr.unused p hrange.1 (by omega) with hzero | hzero
    · exact .inl hzero
    · refine or_iff_not_imp_left.mpr fun hd => ?_
      by_contra hentry
      exact h.bios (hinv.bios p hd hentry hzero ▸ hp)
  windows := h.windows
  frames := h.frames

theorem stopAddr_le : stopAddr hi ≤ 0xffffffff := by
  unfold stopAddr
  split
  · exact Nat.le_refl _
  · exact Nat.le_of_lt_succ hi.isLt

theorem startAddr_pos : 0 < startAddr lo := by
  unfold startAddr
  split
  case isTrue => decide
  case isFalse hne => exact Nat.pos_of_ne_zero fun h => hne (BitVec.eq_of_toNat_eq h)

theorem startAddr_lt (lo : BitVec 32) : startAddr lo < 0x100000000 := by
  unfold startAddr
  split
  · decide
  · exact lo.isLt

theorem mapLoop_region (h : Inv i x) {lo hi : Nat} (hr : x.Hole lo hi size.toNat r)
    (hhi : hi ≤ 0xffffffff) (hserves : Serves x r size.toNat) (hn : 0x100000 < n) :
    ∃ y, mapLoop ((r + size.toNat) % 0x100000000) n r x = some y ∧
      Mapped i x y (region r size.toNat) (x.missing (region r size.toNat)) := by
  obtain ⟨a, rfl⟩ : ∃ a, r = a * 0x1000 := ⟨r / 0x1000, by have := hr.page; omega⟩
  have hbelow := hr.below
  have hpage : a * 0x1000 / 0x1000 = a := Nat.mul_div_cancel _ (by decide)
  have hsize : size.toNat ≤ pages size.toNat * 0x1000 := by
    unfold pages
    omega
  have hstop (k : Nat) :
      k * 0x1000 < (a * 0x1000 + size.toNat) % 0x100000000 ↔ k < a + pages size.toNat := by
    rw [Nat.mod_eq_of_lt (by omega)]
    unfold pages
    omega
  have hroom := hserves.room h hr
  unfold region at hroom ⊢
  rw [hpage] at hroom ⊢
  exact mapLoop_mapped h (by omega) hstop hroom (by omega)

theorem allocRegion_found (h : Inv i x) (hfits : x.Fits lo hi size) (hn : 0x100000 < n) :
    (¬x.Finds lo hi size ∧ x.allocRegion n lo hi size = some (x, 0)) ∨
    ∃ y r, x.allocRegion n lo hi size = some (y, r) ∧ 0 < r ∧ x.Finds lo hi size ∧
      Mapped i x y (region r size.toNat) (x.missing (region r size.toNat)) ∧
      x.Serves r size.toNat := by
  unfold allocRegion
  by_cases hpage : startAddr lo % 0x1000 = 0
  · rw [if_neg (not_not.mpr hpage)]
    obtain ⟨a, ha⟩ : ∃ a, startAddr lo = a * 0x1000 := ⟨startAddr lo / 0x1000, by omega⟩
    obtain ⟨hends, hserves⟩ := hfits hpage
    have hlt := startAddr_lt lo
    have hs : Searched x (startAddr lo) (stopAddr hi) size.toNat a a := by
      refine ⟨Nat.le_refl _, Nat.le_of_eq ha, Nat.le_add_right _ _, fun p hp hlt => ?_,
        fun r hr => ?_⟩
      · omega
      · rw [← ha]
        exact hr.above
    obtain ⟨found, hfound, hnone, hsome⟩ :=
      searchLoop_spec h stopAddr_le hends hs (n := n) (by omega) (by omega)
    rw [← ha] at hfound
    simp only [hfound, Option.bind_eq_bind, Option.bind_some]
    cases found with
    | none => exact .inl ⟨fun hf => hf.2.elim (hnone rfl), rfl⟩
    | some r =>
      have hlow := hsome r rfl
      obtain ⟨y, hy, hmap⟩ := mapLoop_region h hlow.1 stopAddr_le (hserves r hlow) hn
      refine .inr ⟨y, r, ?_, ?_, ⟨hpage, r, hlow.1⟩, hmap, hserves r hlow⟩
      · simp only [hy]
        rfl
      · exact Nat.lt_of_lt_of_le startAddr_pos hlow.1.above
  · rw [if_pos hpage]
    exact .inl ⟨fun hf => hpage hf.1, rfl⟩

theorem Mapped.allocated (h : Mapped i x y ps (x.missing ps))
    (hw : ∀ e ∈ x.missing ps, window e ∉ ps) : Allocated x y ps where
  maps := h.maps
  apart p hp := by
    rintro ⟨e, he, rfl⟩
    exact hw e (h.within e he) hp

theorem Mapped.restored_iff (hinv : Inv i x) (h : Mapped i x y ps (x.missing ps))
    (hw : ∀ e ∈ x.missing ps, window e ∉ ps) : Restored x y ↔ ps = ∅ := by
  constructor
  · intro hres
    apply Finset.eq_empty_of_forall_notMem
    intro p hp
    obtain ⟨hnone, f, -, hf⟩ := h.maps.fresh p (.inl hp)
    have hsome : (y.translate p).isSome := Option.isSome_iff_exists.mpr ⟨f, hf⟩
    have hback := (hres.mapped p ((h.allocated hw).apart p hp)).mp hsome
    rw [show x.translate p = none from hnone] at hback
    exact Bool.false_ne_true hback
  · rintro rfl
    have hcreated : created x y = ∅ := by
      apply Set.eq_empty_of_forall_notMem
      rintro p ⟨e, he, -⟩
      exact absurd (h.within e he) (by simp [missing])
    have hmaps := h.maps
    rw [hcreated, Finset.coe_empty, Set.union_empty] at hmaps
    refine ⟨fun p _ => ?_, fun f _ => ?_⟩
    · rw [show y.translate p = x.translate p from hmaps.old p (Set.notMem_empty p)]
    · have hfree := hmaps.free f
      simp only [space, Cbitmap.mem_bits h.inv.bounded, Cbitmap.mem_bits hinv.bounded] at hfree
      refine hfree.trans (and_iff_left_of_imp fun hf p hp => ?_)
      have hold : y.translate p = x.translate p := hmaps.old p (Set.notMem_empty p)
      exact hinv.sound p f (hold.symm.trans hp) ((Cbitmap.mem_bits hinv.bounded).mpr hf)

theorem deallocRegion_eq (hm : 0 < m) : y.deallocRegion m r n = some y := by
  obtain ⟨m, rfl⟩ : ∃ m', m = m' + 1 := ⟨m - 1, by omega⟩
  unfold deallocRegion
  split
  · rfl
  · rw [unmapLoop, if_pos (Nat.lt_irrefl r)]

theorem deallocRegion_same (h : y.deallocRegion m r n = some z) : z = y := by
  cases m with
  | zero =>
    unfold deallocRegion at h
    split at h
    · exact (Option.some.inj h).symm
    · cases h
  | succ m => exact Option.some.inj (h.symm.trans (deallocRegion_eq (Nat.succ_pos m)))

end

end Xmertl.Partikle.Vmm
