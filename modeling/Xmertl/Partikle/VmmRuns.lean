import Xmertl.Partikle.VmmRegions

/-!
# Runs of the virtual memory manager

From `init_vmm` on, any calls in any order. The bitmap is taken to end within a page: where
it ends with one, `init_vmm` maps the page after it, which it also takes to be free.
-/

namespace Xmertl.Partikle.Vmm

open FreshMaps Runs

-- ---------------------------------------------------------------------------
-- Booting
-- ---------------------------------------------------------------------------

section
variable {i : Image} {b : Cbitmap} {memUpper n page p e f addr size : Nat}
  {mem : Nat → Nat → Entry}

theorem addRegionLoop_bounded (hb : b.Bounded) : (addRegionLoop b n page).Bounded := by
  induction n generalizing b page with
  | zero => exact hb
  | succ n ih => exact ih hb.setbit

theorem addRegionLoop_has (h : (addRegionLoop b n page).Has p) : b.Has p ∨ page ≤ p := by
  induction n generalizing b page with
  | zero => exact .inl h
  | succ n ih =>
    rcases ih h with h | h
    · rcases Cbitmap.has_setbit.mp h with h | h
      · exact .inl h
      · exact .inr (Nat.le_of_eq h.1.symm)
    · exact .inr (Nat.le_of_succ_le h)

theorem init_bounded : (Cbitmap.initCbitmap n).Bounded :=
  fun _ hp => absurd hp Cbitmap.not_has_init

theorem freePages_bounded : (freePages i memUpper).Bounded := by
  unfold freePages
  simp only
  split
  · exact addRegionLoop_bounded init_bounded
  · exact init_bounded

theorem freePages_above (h : (freePages i memUpper).Has f) :
    i.sfreemem * 0x1000 + bitmapBytes memUpper ≤ f * 0x1000 := by
  unfold freePages at h
  simp only at h
  split at h
  · unfold addRegion at h
    rcases addRegionLoop_has h with h | h
    · exact absurd h Cbitmap.not_has_init
    · split at h
      · by_contra hlt
        omega
      · by_contra hlt
        omega
  · exact absurd h Cbitmap.not_has_init

theorem init_entry_kernel (hp : p / 0x400 = kernelPgdStart) :
    (initVmm i memUpper mem).entry p = pg0Entries i memUpper (p % 0x400) := by
  simp [entry, initVmm, hp]

theorem init_entry_pgts (hp : p / 0x400 = pgtsEntry) : (initVmm i memUpper mem).entry p =
    if p % 0x400 = kernelPgdStart then ⟨i.pg0, kernelFlags⟩
    else if p % 0x400 = pgtsEntry then ⟨i.pgPgt, kernelFlags⟩
    else .zero := by
  have hmem : (initVmm i memUpper mem).mem i.pgPgt = fun pgtE =>
      if pgtE = kernelPgdStart then ⟨i.pg0, kernelFlags⟩
      else if pgtE = kernelPgdStart + 1 then ⟨i.pgPgt, kernelFlags⟩
      else .zero := by
    simp only [initVmm, i.tables.symm, if_false, if_true]
  rw [entry, hp]
  show (initVmm i memUpper mem).mem i.pgPgt _ = _
  rw [hmem]
  rfl

theorem init_pgts_mapped (hp : p / 0x400 = pgtsEntry)
    (he : (initVmm i memUpper mem).entry p ≠ .zero) :
    ∃ f, (initVmm i memUpper mem).entry p = ⟨f, kernelFlags⟩ ∧ (f = i.pg0 ∨ f = i.pgPgt) := by
  rw [init_entry_pgts hp] at he ⊢
  split
  case isTrue => exact ⟨_, rfl, .inl rfl⟩
  case isFalse hne =>
    rw [if_neg hne] at he
    split
    case isTrue => exact ⟨_, rfl, .inr rfl⟩
    case isFalse hne' =>
      rw [if_neg hne'] at he
      exact absurd rfl he

theorem pgRw_present : (⟨f, pgPresent ||| pgRw⟩ : Entry).present = true := by
  show decide ((pgPresent ||| pgRw) &&& pgPresent = pgPresent) = true
  decide

theorem init_pgd (he : (initVmm i memUpper mem).pgd e ≠ .zero) :
    e = kernelPgdStart ∨ e = pgtsEntry := by
  by_contra hne
  rw [not_or] at hne
  exact he (by simp [initVmm, hne])

theorem pg0Entries_mapped (hslack : bitmapBytes memUpper % 0x1000 ≠ 0) {t : Nat}
    (h : pg0Entries i memUpper t ≠ .zero) :
    pg0Entries i memUpper t = ⟨t, kernelFlags⟩ ∧
      t * 0x1000 < i.sfreemem * 0x1000 + bitmapBytes memUpper := by
  unfold pg0Entries at h ⊢
  split
  case isTrue hlt => exact ⟨rfl, by omega⟩
  case isFalse hge =>
    rw [if_neg hge] at h
    split
    case isTrue hle =>
      refine ⟨by rw [Nat.add_sub_cancel' (Nat.le_of_not_lt hge)], ?_⟩
      unfold va2pgt at hle
      by_contra hlt
      omega
    case isFalse hgt =>
      rw [if_neg hgt] at h
      exact absurd rfl h

theorem init_inv (hslack : bitmapBytes memUpper % 0x1000 ≠ 0) :
    Inv i (initVmm i memUpper mem) := by
  have hlow := i.low
  have hbound := i.bound
  have hpos : i.pg0 ≠ 0 := by omega
  have hpos' : i.pgPgt ≠ 0 := by omega
  have habove : ∀ f, (initVmm i memUpper mem).Free f → i.sfreemem ≤ f := by
    intro f hf
    have := freePages_above hf
    omega
  have hpgd : (initVmm i memUpper mem).pgd pgtsEntry = ⟨i.pgPgt, kernelFlags⟩ := rfl
  have hkernel : (initVmm i memUpper mem).pgd kernelPgdStart = ⟨i.pg0, pgPresent ||| pgRw⟩ := rfl
  constructor
  case bounded => exact freePages_bounded
  case above => exact habove
  case self =>
    rw [hpgd]
    exact ⟨kernelFlags_ne, rfl⟩
  case directory =>
    intro e he
    rcases init_pgd he with rfl | rfl
    · rw [hkernel]
      refine ⟨by decide, pgRw_present, hpos, fun hf => ?_⟩
      have hle : i.sfreemem ≤ i.pg0 := habove _ hf
      omega
    · rw [hpgd]
      refine ⟨by decide, kernelFlags_present, hpos', fun hf => ?_⟩
      have hle : i.sfreemem ≤ i.pgPgt := habove _ hf
      omega
  case windows =>
    intro e he
    rcases init_pgd he with rfl | rfl
    · rw [init_entry_pgts (window_div (by decide)), window_mod (by decide), if_pos rfl, hkernel]
      exact ⟨kernelFlags_present, rfl⟩
    · rw [init_entry_pgts (window_div (by decide)), window_mod (by decide), if_neg (by decide),
        if_pos rfl, hpgd]
      exact ⟨kernelFlags_present, rfl⟩
  case distinct =>
    intro e e' he he' hframe
    rcases init_pgd he with rfl | rfl
    · rcases init_pgd he' with rfl | rfl
      · rfl
      · exact absurd hframe i.tables
    · rcases init_pgd he' with rfl | rfl
      · exact absurd hframe.symm i.tables
      · rfl
  case mapped =>
    intro p hd hp
    rcases init_pgd hd with hpd | hpd
    · rw [init_entry_kernel hpd] at hp ⊢
      obtain ⟨heq, hlt⟩ := pg0Entries_mapped hslack hp
      rw [heq]
      refine ⟨kernelFlags_present, fun hf => ?_⟩
      have hle : i.sfreemem * 0x1000 + bitmapBytes memUpper ≤ p % 0x400 * 0x1000 :=
        freePages_above hf
      omega
    · obtain ⟨f, heq, hf⟩ := init_pgts_mapped hpd hp
      rw [heq]
      refine ⟨kernelFlags_present, fun hfree => ?_⟩
      have hle : i.sfreemem ≤ f := habove _ hfree
      omega
  case bios =>
    intro p hd hp hzero
    rcases init_pgd hd with hpd | hpd
    · rw [init_entry_kernel hpd] at hp hzero
      obtain ⟨heq, hlt⟩ := pg0Entries_mapped hslack hp
      rw [heq] at hzero
      have hmod : p % 0x400 = 0 := hzero
      unfold kernelPgdStart at hpd
      unfold biosPage
      omega
    · obtain ⟨f, heq, hf⟩ := init_pgts_mapped hpd hp
      rw [heq] at hzero
      have hf0 : f = 0 := hzero
      omega

-- ---------------------------------------------------------------------------
-- Steps
-- ---------------------------------------------------------------------------

theorem next_lt (addr : Nat) : next addr < 0x100000000 := Nat.mod_lt _ (by decide)

theorem mapLoop_inv {stop : Nat} {x y : Vmm} (h : Inv i x) (hlt : addr < 0x100000000)
    (hy : mapLoop stop n addr x = some y) : Inv i y := by
  induction n generalizing addr x with
  | zero => simp [mapLoop] at hy
  | succ n ih =>
    rw [mapLoop] at hy
    split at hy
    case isTrue => exact Option.some.inj hy ▸ h
    case isFalse =>
      obtain ⟨z, hz, hy⟩ := Option.bind_eq_some_iff.mp hy
      exact ih (mapPage_inv h hlt hz) (next_lt addr) hy

theorem searchLoop_lt {hi saddr r : Nat} {x : Vmm} (hs : saddr < 0x100000000)
    (hr : x.searchLoop hi size n addr saddr = some (some r)) : r < 0x100000000 := by
  induction n generalizing addr saddr with
  | zero => simp [searchLoop] at hr
  | succ n ih =>
    rw [searchLoop] at hr
    split at hr
    case isTrue => simp at hr
    case isFalse =>
      obtain ⟨used, -, hr⟩ := Option.bind_eq_some_iff.mp hr
      split at hr
      · exact ih (next_lt addr) hr
      · split at hr
        · simp only [Option.some.injEq] at hr
          exact hr ▸ hs
        · exact ih hs hr

theorem placeLoop_inv {frame : Nat} {x y : Vmm} (h : Inv i x)
    (haddr : addr + n * 0x1000 ≤ 0xC0400000) (hpos : 0 < frame) (hframe : frame + n ≤ i.sfreemem)
    (hy : placeLoop n addr frame x = some y) : Inv i y := by
  induction n generalizing addr frame x with
  | zero => exact Option.some.inj hy ▸ h
  | succ n ih =>
    have hdir : va2pgd addr < 0x400 := by
      unfold va2pgd
      omega
    obtain ⟨z, hz, hy⟩ := Option.bind_eq_some_iff.mp hy
    obtain ⟨hinv, hd⟩ := needPgt_inv h hdir hz
    rw [hinv.pgt_eq hd, Option.bind_eq_bind, Option.bind_some] at hy
    have hplace : z.fill (z.pgd (va2pgd addr)).frame (va2pgt addr) ⟨frame, kernelFlags⟩ =
        z.place (addr / 0x1000) frame := by
      rw [place, ← va2pgd_eq]
      rfl
    have hnext : next addr = addr + 0x1000 := Nat.mod_eq_of_lt (by omega)
    rw [hplace, hnext] at hy
    refine ih (hinv.place ?_ (fun e _ => ?_) (fun hf => ?_) (by omega)) (by omega) (by omega)
      (by omega) hy
    · rwa [← va2pgd_eq]
    · simp only [window, pgtsEntry, kernelPgdStart]
      omega
    · have habove := hinv.above _ hf
      omega

theorem allocRegion_inv {lo hi size : BitVec 32} {x y : Vmm} {r : Nat} (h : Inv i x)
    (hy : x.allocRegion n lo hi size = some (y, r)) : Inv i y := by
  unfold allocRegion at hy
  split at hy
  case isTrue => exact (Prod.mk.inj (Option.some.inj hy)).1 ▸ h
  case isFalse =>
    obtain ⟨found, hfound, hy⟩ := Option.bind_eq_some_iff.mp hy
    cases found with
    | none => exact (Prod.mk.inj (Option.some.inj hy)).1 ▸ h
    | some saddr =>
      obtain ⟨z, hz, hy⟩ := Option.bind_eq_some_iff.mp hy
      have hlt := searchLoop_lt (startAddr_lt lo) hfound
      exact (Prod.mk.inj (Option.some.inj hy)).1 ▸ mapLoop_inv h hlt hz

theorem step_inv {x y : Vmm} {act : Action} (h : Inv i x) (hy : step i x act = some y) :
    Inv i y := by
  have hlow := i.low
  have hbound := i.bound
  have hfits := i.fits
  cases act with
  | allocRegion n lo hi size =>
    obtain ⟨⟨z, r⟩, hz, rfl⟩ := Option.map_eq_some_iff.mp hy
    exact allocRegion_inv h hz
  | deallocRegion n saddr size =>
    have hz : x.deallocRegion n saddr size = some y := hy
    exact deallocRegion_same hz ▸ h
  | configureStack =>
    exact placeLoop_inv h (by decide) (by omega) hbound.2.2.1 hy
  | createAppMap => exact placeLoop_inv h (by omega) (by omega) (by omega) hy

theorem run_inv {tr : List (Vmm × Action)} {x : Vmm}
    (hslack : bitmapBytes memUpper % 0x1000 ≠ 0)
    (hr : Run (step i) (initVmm i memUpper mem) tr x) : Inv i x := by
  refine hr.invariant (C := fun _ _ => True) (init_inv hslack) ?_ fun _ _ => trivial
  intro x act y hinv _ hy
  exact step_inv hinv hy

-- ---------------------------------------------------------------------------
-- A call
-- ---------------------------------------------------------------------------

theorem searchLoop_mono {hi saddr m : Nat} {found : Option Nat} {x : Vmm} (hnm : n ≤ m)
    (h : x.searchLoop hi size n addr saddr = some found) :
    x.searchLoop hi size m addr saddr = some found := by
  induction n generalizing addr saddr m with
  | zero => simp [searchLoop] at h
  | succ n ih =>
    obtain ⟨m, rfl⟩ : ∃ m', m = m' + 1 := ⟨m - 1, by omega⟩
    rw [searchLoop] at h ⊢
    split at h
    case isTrue hout => rwa [if_pos hout]
    case isFalse hin =>
      rw [if_neg hin]
      obtain ⟨used, hused, h⟩ := Option.bind_eq_some_iff.mp h
      rw [Option.bind_eq_bind, hused, Option.bind_some]
      split at h
      case isTrue hu =>
        rw [if_pos hu]
        exact ih (by omega) h
      case isFalse hu =>
        rw [if_neg hu]
        split at h
        case isTrue hsize => rwa [if_pos hsize]
        case isFalse hsize =>
          rw [if_neg hsize]
          exact ih (by omega) h

theorem mapLoop_mono {stop m : Nat} {x y : Vmm} (hnm : n ≤ m)
    (h : mapLoop stop n addr x = some y) : mapLoop stop m addr x = some y := by
  induction n generalizing addr x m with
  | zero => simp [mapLoop] at h
  | succ n ih =>
    obtain ⟨m, rfl⟩ : ∃ m', m = m' + 1 := ⟨m - 1, by omega⟩
    rw [mapLoop] at h ⊢
    split at h
    case isTrue hout => rwa [if_pos hout]
    case isFalse hin =>
      rw [if_neg hin]
      obtain ⟨z, hz, h⟩ := Option.bind_eq_some_iff.mp h
      rw [Option.bind_eq_bind, hz, Option.bind_some]
      exact ih (by omega) h

theorem allocRegion_mono {lo hi size : BitVec 32} {m : Nat} {x : Vmm} {res : Vmm × Nat}
    (hnm : n ≤ m) (h : x.allocRegion n lo hi size = some res) :
    x.allocRegion m lo hi size = some res := by
  unfold allocRegion at h ⊢
  split at h
  case isTrue hpage => rwa [if_pos hpage]
  case isFalse hpage =>
    rw [if_neg hpage]
    obtain ⟨found, hfound, h⟩ := Option.bind_eq_some_iff.mp h
    rw [Option.bind_eq_bind, searchLoop_mono hnm hfound, Option.bind_some]
    cases found with
    | none => exact h
    | some saddr =>
      obtain ⟨z, hz, h⟩ := Option.bind_eq_some_iff.mp h
      simp only [Option.bind_eq_bind, mapLoop_mono hnm hz, Option.bind_some]
      exact h

theorem region_eq_empty {r : Nat} {size : BitVec 32} : region r size.toNat = ∅ ↔ size = 0 := by
  unfold region pages
  rw [Finset.Ico_eq_empty_iff]
  constructor
  · intro h
    apply BitVec.eq_of_toNat_eq
    show size.toNat = 0
    omega
  · rintro rfl
    exact Nat.lt_irrefl _

theorem Inv.calls {x : Vmm} {lo hi size : BitVec 32} (h : Inv i x) (hfits : x.Fits lo hi size) :
    x.Allocates lo hi size ∧ (x.Releases lo hi size ↔ size = 0 ∨ ¬x.Finds lo hi size) := by
  refine ⟨⟨0x100001, fun n hn => ?_⟩, fun hrel => ?_, fun hcond n y r hy hpos => ?_⟩
  · rcases allocRegion_found h hfits hn with ⟨-, heq⟩ | ⟨y, r, heq, hpos, -, hmap, hserves⟩
    · exact ⟨x, 0, heq, fun _ => rfl, fun hne => absurd rfl hne⟩
    · refine ⟨y, r, heq, fun hr => absurd hr (Nat.ne_of_gt hpos), fun _ => ?_⟩
      exact hmap.allocated fun e he => (hserves.windows e he).2
  · rcases allocRegion_found h hfits (Nat.lt_succ_self 0x100000) with
      ⟨hnot, -⟩ | ⟨y, r, heq, hpos, -, hmap, hserves⟩
    · exact .inr hnot
    · obtain ⟨n₀, hn₀⟩ := hrel _ y r heq (Nat.ne_of_gt hpos)
      obtain ⟨z, hz, hres⟩ := hn₀ n₀ (Nat.le_refl _)
      rw [deallocRegion_same hz] at hres
      exact .inl (region_eq_empty.mp
        ((hmap.restored_iff h fun e he => (hserves.windows e he).2).mp hres))
  · have hlate := allocRegion_mono (Nat.le_add_right n 0x100001) hy
    rcases allocRegion_found h hfits (n := n + 0x100001) (by omega) with
      ⟨-, heq⟩ | ⟨y', r', heq, -, hfinds, hmap, hserves⟩
    · exact absurd (Prod.mk.inj (Option.some.inj (hlate.symm.trans heq))).2 hpos
    · obtain ⟨rfl, rfl⟩ := Prod.mk.inj (Option.some.inj (hlate.symm.trans heq))
      refine ⟨1, fun m hm => ⟨y, deallocRegion_eq hm, ?_⟩⟩
      rw [hmap.restored_iff h fun e he => (hserves.windows e he).2]
      exact region_eq_empty.mpr (hcond.resolve_right (not_not.mpr hfinds))

end

/-- At any time, a call of `alloc_region` that fits comes back with nothing changed or with pages
of the caller's own, and `dealloc_region` undoes it if and only if there was nothing to undo. -/
theorem region_calls {i : Image} {memUpper : Nat} {mem : Nat → Nat → Entry}
    {tr : List (Vmm × Action)} {x : Vmm} {lo hi size : BitVec 32}
    (hslack : bitmapBytes memUpper % 0x1000 ≠ 0)
    (hr : Run (step i) (initVmm i memUpper mem) tr x) (hfits : x.Fits lo hi size) :
    x.Allocates lo hi size ∧ (x.Releases lo hi size ↔ size = 0 ∨ ¬x.Finds lo hi size) :=
  (run_inv hslack hr).calls hfits

def kernelImage : Image where
  pg0 := 0x101
  pgPgt := 0x102
  sstack := 0x103
  sapp := 0x107
  eapp := 0x110
  sfreemem := 0x110
  low := by decide
  tables := by decide
  bound := by decide
  fits := by decide

def booted : Vmm := initVmm kernelImage 128 fun _ _ => .zero

theorem booted_inv : Inv kernelImage booted := init_inv (by decide)

theorem booted_unused (p : Nat) (hp : freeVmmEntry * 0x400 ≤ p) : booted.Unused p := by
  refine .inl (by_contra fun hd => ?_)
  have hentry := init_pgd hd
  simp only [kernelPgdStart, pgtsEntry, freeVmmEntry] at hp hentry
  omega

theorem booted_hole : booted.Hole (startAddr 0) (stopAddr 0xffffffff) 0x1000 0xC0800000 where
  above := by decide
  below := by decide
  page := by decide
  unused p hp _ := booted_unused p hp

theorem booted_frames : 2 ≤ booted.pageTable.bits.card := by
  have hsub : ({0x111, 0x112} : Finset Nat) ⊆ booted.pageTable.bits := by
    intro f hf
    rw [Cbitmap.mem_bits booted_inv.bounded]
    simp only [Finset.mem_insert, Finset.mem_singleton] at hf
    rcases hf with rfl | rfl
    · decide +kernel
    · decide +kernel
  exact Finset.card_le_card hsub

theorem booted_fits : booted.Fits 0 0xffffffff 0x1000 := by
  intro _
  refine ⟨.inr ⟨_, booted_hole⟩, fun r hr => ?_⟩
  obtain rfl : r = 0xC0800000 := Nat.le_antisymm (hr.2 _ booted_hole) hr.1.above
  have hregion : region 0xC0800000 (0x1000 : BitVec 32).toNat = {0xC0800} := by decide
  have hmissing : booted.missing {0xC0800} = {freeVmmEntry} := by
    ext e
    simp only [mem_missing, Finset.mem_singleton, exists_eq_left]
    constructor
    · exact fun he => he.1.symm
    · rintro rfl
      exact ⟨rfl, rfl⟩
  constructor
  · rw [hregion]
    decide
  · rw [hregion, hmissing]
    intro e he
    rw [Finset.mem_singleton.mp he]
    refine ⟨?_, by decide⟩
    rw [booted_inv.translate_eq_none]
    exact .inr rfl
  · rw [hregion, hmissing]
    exact booted_frames

/-- A page for a new region, on the machine that has just booted. -/
theorem region_calls_booted : booted.Allocates 0 0xffffffff 0x1000 ∧
    (booted.Releases 0 0xffffffff 0x1000 ↔ (0x1000 : BitVec 32) = 0 ∨
      ¬booted.Finds 0 0xffffffff 0x1000) :=
  region_calls (by decide) .start booted_fits

/-- The page is never given back. -/
theorem page_not_released :
    ¬(booted.Allocates 0 0xffffffff 0x1000 ∧ booted.Releases 0 0xffffffff 0x1000) := by
  rintro ⟨-, hrel⟩
  rcases (booted_inv.calls booted_fits).2.mp hrel with hsize | hnot
  · revert hsize
    decide
  · exact hnot ⟨by decide, _, booted_hole⟩

end Xmertl.Partikle.Vmm
