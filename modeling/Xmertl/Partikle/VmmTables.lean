import Xmertl.Lib.FreshMaps
import Xmertl.Partikle.Vmm

/-!
# The tables of the virtual memory manager

On whatever a run of the memory manager leaves, the windows lead where the directory does,
each table has a frame of its own, and no free frame is mapped. A page that is mapped keeps this.
-/

namespace Xmertl.Partikle.Vmm

open FreshMaps

def Free (x : Vmm) (frame : Nat) : Prop := x.pageTable.Has frame

def entry (x : Vmm) (page : Nat) : Entry := x.mem (x.pgd (page / 0x400)).frame (page % 0x400)

/-- The first page of the kernel, whose frame is 0. -/
def biosPage : Nat := 0xC0000

structure Inv (i : Image) (x : Vmm) : Prop where
  bounded : x.pageTable.Bounded
  above : ∀ f, x.Free f → i.sfreemem ≤ f
  self : x.pgd pgtsEntry ≠ .zero ∧ (x.pgd pgtsEntry).frame = x.pgPgt
  directory : ∀ e, x.pgd e ≠ .zero →
    e < 0x400 ∧ (x.pgd e).present = true ∧ (x.pgd e).frame ≠ 0 ∧ ¬x.Free (x.pgd e).frame
  windows : ∀ e, x.pgd e ≠ .zero →
    (x.entry (window e)).present = true ∧ (x.entry (window e)).frame = (x.pgd e).frame
  distinct : ∀ e e', x.pgd e ≠ .zero → x.pgd e' ≠ .zero → (x.pgd e).frame = (x.pgd e').frame → e = e'
  mapped : ∀ p, x.pgd (p / 0x400) ≠ .zero → x.entry p ≠ .zero →
    (x.entry p).present = true ∧ ¬x.Free (x.entry p).frame
  bios : ∀ p, x.pgd (p / 0x400) ≠ .zero → x.entry p ≠ .zero → (x.entry p).frame = 0 → p = biosPage

def space (x : Vmm) : Space Nat Nat := ⟨x.translate, x.pageTable.bits⟩

def take (x : Vmm) (f : Nat) : Vmm := { x with pageTable := x.pageTable.clearbitCbitmap f }

def place (x : Vmm) (page f : Nat) : Vmm :=
  x.fill (x.pgd (page / 0x400)).frame (page % 0x400) ⟨f, kernelFlags⟩

/-- `x` after a table is made in a frame for a directory entry. -/
def withPgt (x : Vmm) (e f : Nat) : Vmm where
  pageTable := x.pageTable.clearbitCbitmap f
  pgd := Function.update x.pgd e ⟨f, kernelFlags⟩
  mem := Function.update (Function.update x.mem x.pgPgt
    (Function.update (x.mem x.pgPgt) e ⟨f, kernelFlags⟩)) f fun _ => .zero
  pgPgt := x.pgPgt

section
variable {i : Image} {x y z : Vmm} {e f p q addr : Nat}

@[simp] theorem kernelFlags_present : (⟨f, kernelFlags⟩ : Entry).present = true := by
  show decide (kernelFlags &&& pgPresent = pgPresent) = true
  decide

@[simp] theorem empty_not_present : Entry.zero.present = false := rfl

theorem kernelFlags_ne : (⟨f, kernelFlags⟩ : Entry) ≠ .zero := by
  intro h
  have hflags : kernelFlags = 0 := congrArg Entry.flags h
  revert hflags
  decide

theorem window_div (he : e < 0x400) : window e / 0x400 = pgtsEntry := by
  simp only [window, pgtsEntry, kernelPgdStart]
  omega

theorem window_mod (he : e < 0x400) : window e % 0x400 = e := by
  simp only [window, pgtsEntry, kernelPgdStart]
  omega

theorem window_inj : window e = window f ↔ e = f := Nat.add_left_cancel_iff

theorem entry_window (he : e < 0x400) : x.entry (window e) = x.mem (x.pgd pgtsEntry).frame e := by
  rw [entry, window_div he, window_mod he]

theorem translate_eq : x.translate p =
    if (x.pgd (p / 0x400)).present ∧ (x.entry p).present then some (x.entry p).frame else none := rfl

namespace Inv

theorem pgd_present (h : Inv i x) : (x.pgd e).present = true ↔ x.pgd e ≠ .zero := by
  constructor
  · intro hp he
    rw [he] at hp
    cases hp
  · exact fun he => (h.directory e he).2.1

theorem translate_eq_some (h : Inv i x) :
    x.translate p = some f ↔ x.pgd (p / 0x400) ≠ .zero ∧ x.entry p ≠ .zero ∧ (x.entry p).frame = f := by
  simp only [translate_eq, h.pgd_present]
  by_cases htable : x.pgd (p / 0x400) ≠ .zero
  · have hpresent : (x.entry p).present = true ↔ x.entry p ≠ .zero := by
      constructor
      · intro hp he
        rw [he] at hp
        cases hp
      · exact fun he => (h.mapped p htable he).1
    simp only [hpresent, htable, not_false_eq_true, ne_eq, true_and]
    split
    case isTrue he => simp [he]
    case isFalse he => simp [he]
  · simp [htable]

theorem translate_eq_none (h : Inv i x) :
    x.translate p = none ↔ x.pgd (p / 0x400) = .zero ∨ x.entry p = .zero := by
  constructor
  · intro hnone
    by_contra hnot
    rw [not_or] at hnot
    have hsome := h.translate_eq_some.mpr ⟨hnot.1, hnot.2, rfl⟩
    rw [hnone] at hsome
    cases hsome
  · intro hor
    cases ht : x.translate p with
    | none => rfl
    | some f =>
      obtain ⟨hd, he, -⟩ := h.translate_eq_some.mp ht
      rcases hor with hor | hor
      · exact absurd hor hd
      · exact absurd hor he

theorem sound (h : Inv i x) : x.space.Sound := by
  intro p f hp hf
  obtain ⟨hd, he, rfl⟩ := h.translate_eq_some.mp hp
  exact (h.mapped p hd he).2 ((Cbitmap.mem_bits h.bounded).mp hf)

theorem pgt_eq (h : Inv i x) (he : x.pgd e ≠ .zero) : x.pgt e = some (x.pgd e).frame := by
  obtain ⟨hp, hf⟩ := h.windows e he
  rw [pgt, translate_eq, window_div (h.directory e he).1, if_pos ⟨h.pgd_present.mpr h.self.1, hp⟩, hf]

theorem frame_ne (h : Inv i x) (he : x.pgd e ≠ .zero) (hf : x.Free f) : (x.pgd e).frame ≠ f := by
  rintro rfl
  exact (h.directory e he).2.2.2 hf

end Inv

theorem withPgt_pgd_ne (hne : q ≠ e) : (x.withPgt e f).pgd q = x.pgd q :=
  Function.update_of_ne hne _ _

theorem withPgt_pgd_self : (x.withPgt e f).pgd e = ⟨f, kernelFlags⟩ := Function.update_self ..

theorem withPgt_entry (h : Inv i x) (hlt : e < 0x400) (hf : x.Free f)
    (hp : (x.withPgt e f).pgd (p / 0x400) ≠ .zero) :
    (x.withPgt e f).entry p =
      if p / 0x400 = e then .zero else if p = window e then ⟨f, kernelFlags⟩ else x.entry p := by
  by_cases hpe : p / 0x400 = e
  · rw [if_pos hpe, entry, hpe, withPgt_pgd_self]
    simp only [withPgt, Function.update_self]
  · rw [withPgt_pgd_ne hpe] at hp
    have hne : (x.pgd (p / 0x400)).frame ≠ f := h.frame_ne hp hf
    rw [if_neg hpe, entry, withPgt_pgd_ne hpe]
    simp only [withPgt, Function.update_of_ne hne]
    by_cases hrow : (x.pgd (p / 0x400)).frame = x.pgPgt
    · have htable : p / 0x400 = pgtsEntry := h.distinct _ _ hp h.self.1 (hrow.trans h.self.2.symm)
      have hwindow : p = window e ↔ p % 0x400 = e := by
        simp only [window, ← htable]
        omega
      rw [hrow, Function.update_self, Function.update_apply]
      simp only [hwindow]
      split
      · rfl
      · rw [entry, hrow]
    · rw [Function.update_of_ne hrow]
      have hwindow : p ≠ window e := by
        rintro rfl
        rw [window_div hlt] at hrow
        exact hrow h.self.2
      rw [if_neg hwindow]
      rfl

theorem withPgt_free (h : Inv i x) : (x.withPgt e f).Free q ↔ x.Free q ∧ q ≠ f :=
  h.bounded.has_clearbit

theorem take_free (h : Inv i x) : (x.take f).Free q ↔ x.Free q ∧ q ≠ f := h.bounded.has_clearbit

theorem place_entry (h : Inv i x) (hp : x.pgd (p / 0x400) ≠ .zero)
    (hq : x.pgd (q / 0x400) ≠ .zero) :
    (x.place p f).entry q = if q = p then ⟨f, kernelFlags⟩ else x.entry q := by
  simp only [entry, place, fill, Function.update_apply]
  by_cases hframe : (x.pgd (q / 0x400)).frame = (x.pgd (p / 0x400)).frame
  · have htable : q / 0x400 = p / 0x400 := h.distinct _ _ hq hp hframe
    have heq : q % 0x400 = p % 0x400 ↔ q = p := by omega
    rw [if_pos hframe, Function.update_apply]
    simp only [heq, hframe]
  · have hne : q ≠ p := by
      rintro rfl
      exact hframe rfl
    rw [if_neg hframe, if_neg hne]

namespace Inv

theorem frame_pos (h : Inv i x) (hf : x.Free f) : f ≠ 0 := by
  have habove := h.above f hf
  have hlow := i.low
  have hbound := i.bound
  omega

theorem take (h : Inv i x) : Inv i (x.take f) where
  bounded := h.bounded.clearbit
  above g hg := h.above g ((take_free h).mp hg).1
  self := h.self
  directory e he := by
    obtain ⟨hlt, hp, hpos, hfree⟩ := h.directory e he
    exact ⟨hlt, hp, hpos, fun hf => hfree ((take_free h).mp hf).1⟩
  windows := h.windows
  distinct := h.distinct
  mapped p hd he := by
    obtain ⟨hp, hfree⟩ := h.mapped p hd he
    exact ⟨hp, fun hf => hfree ((take_free h).mp hf).1⟩
  bios := h.bios

theorem place (h : Inv i x) (hp : x.pgd (p / 0x400) ≠ .zero)
    (hw : ∀ e, x.pgd e ≠ .zero → p ≠ window e) (hf : ¬x.Free f) (hpos : f ≠ 0) :
    Inv i (x.place p f) where
  bounded := h.bounded
  above := h.above
  self := h.self
  directory := h.directory
  windows e he := by
    have hd : x.pgd (window e / 0x400) ≠ .zero := by
      rw [window_div (h.directory e he).1]
      exact h.self.1
    rw [place_entry h hp hd, if_neg (hw e he).symm]
    exact h.windows e he
  distinct := h.distinct
  mapped q hd he := by
    rw [place_entry h hp hd] at he ⊢
    split at he
    case isTrue hq =>
      rw [if_pos hq]
      exact ⟨kernelFlags_present, hf⟩
    case isFalse hq =>
      rw [if_neg hq]
      exact h.mapped q hd he
  bios q hd he hzero := by
    rw [place_entry h hp hd] at he hzero
    split at hzero
    case isTrue => exact absurd hzero hpos
    case isFalse hq =>
      rw [if_neg hq] at he
      exact h.bios q hd he hzero

theorem withPgt (h : Inv i x) (he : x.pgd e = .zero) (hlt : e < 0x400) (hf : x.Free f) :
    Inv i (x.withPgt e f) := by
  have hself : pgtsEntry ≠ e := by
    rintro rfl
    exact h.self.1 he
  have hold (e' : Nat) (hne : e' ≠ e) (hd : (x.withPgt e f).pgd e' ≠ .zero) :
      x.pgd e' ≠ .zero := by
    rwa [withPgt_pgd_ne hne] at hd
  constructor
  case bounded => exact h.bounded.clearbit
  case above => exact fun g hg => h.above g ((withPgt_free h).mp hg).1
  case self =>
    rw [withPgt_pgd_ne hself]
    exact h.self
  case directory =>
    intro e' hd
    by_cases hne : e' = e
    · subst hne
      rw [withPgt_pgd_self]
      exact ⟨hlt, kernelFlags_present, h.frame_pos hf, fun hfree => ((withPgt_free h).mp hfree).2 rfl⟩
    · obtain ⟨hlt, hp, hpos, hfree⟩ := h.directory e' (hold e' hne hd)
      rw [withPgt_pgd_ne hne]
      exact ⟨hlt, hp, hpos, fun hf => hfree ((withPgt_free h).mp hf).1⟩
  case windows =>
    intro e' hd
    have hlt' : e' < 0x400 := by
      by_cases hne : e' = e
      · rwa [hne]
      · exact (h.directory e' (hold e' hne hd)).1
    have htable : (x.withPgt e f).pgd (window e' / 0x400) ≠ .zero := by
      rw [window_div hlt', withPgt_pgd_ne hself]
      exact h.self.1
    rw [withPgt_entry h hlt hf htable, if_neg (by rwa [window_div hlt'])]
    by_cases hne : e' = e
    · subst hne
      rw [if_pos rfl, withPgt_pgd_self]
      exact ⟨kernelFlags_present, rfl⟩
    · rw [if_neg (window_inj.not.mpr hne), withPgt_pgd_ne hne]
      exact h.windows e' (hold e' hne hd)
  case distinct =>
    intro e₁ e₂ h₁ h₂ heq
    by_cases hne₁ : e₁ = e
    · by_cases hne₂ : e₂ = e
      · rw [hne₁, hne₂]
      · subst hne₁
        rw [withPgt_pgd_self, withPgt_pgd_ne hne₂] at heq
        exact absurd heq.symm (h.frame_ne (hold e₂ hne₂ h₂) hf)
    · by_cases hne₂ : e₂ = e
      · subst hne₂
        rw [withPgt_pgd_self, withPgt_pgd_ne hne₁] at heq
        exact absurd heq (h.frame_ne (hold e₁ hne₁ h₁) hf)
      · rw [withPgt_pgd_ne hne₁, withPgt_pgd_ne hne₂] at heq
        exact h.distinct e₁ e₂ (hold e₁ hne₁ h₁) (hold e₂ hne₂ h₂) heq
  case mapped =>
    intro p hd hp
    rw [withPgt_entry h hlt hf hd] at hp ⊢
    split at hp
    case isTrue => exact absurd rfl hp
    case isFalse hne =>
      rw [if_neg hne]
      split at hp
      case isTrue hw =>
        rw [if_pos hw]
        exact ⟨kernelFlags_present, fun hfree => ((withPgt_free h).mp hfree).2 rfl⟩
      case isFalse hw =>
        obtain ⟨hpresent, hfree⟩ := h.mapped p (hold _ hne hd) hp
        rw [if_neg hw]
        exact ⟨hpresent, fun hf => hfree ((withPgt_free h).mp hf).1⟩
  case bios =>
    intro p hd hp hzero
    rw [withPgt_entry h hlt hf hd] at hp hzero
    split at hp
    case isTrue => exact absurd rfl hp
    case isFalse hne =>
      rw [if_neg hne] at hzero
      split at hp
      case isTrue hw =>
        rw [if_pos hw] at hzero
        exact absurd hzero (h.frame_pos hf)
      case isFalse hw =>
        rw [if_neg hw] at hzero
        exact h.bios p (hold _ hne hd) hp hzero

end Inv

-- ---------------------------------------------------------------------------
-- One page
-- ---------------------------------------------------------------------------

theorem Inv.translate_ite (h : Inv i x) : x.translate p =
    if x.pgd (p / 0x400) ≠ .zero ∧ x.entry p ≠ .zero then some (x.entry p).frame else none := by
  split
  case isTrue he => exact h.translate_eq_some.mpr ⟨he.1, he.2, rfl⟩
  case isFalse he =>
    rw [h.translate_eq_none, ← not_ne_iff, ← not_ne_iff (a := x.entry p), ← not_and_or]
    exact he

theorem withPgt_translate (h : Inv i x) (he : x.pgd e = .zero) (hlt : e < 0x400) (hf : x.Free f) :
    (x.withPgt e f).translate p = if p = window e then some f else x.translate p := by
  have hself : pgtsEntry ≠ e := by
    rintro rfl
    exact h.self.1 he
  rw [(h.withPgt he hlt hf).translate_ite, h.translate_ite]
  by_cases hpe : p / 0x400 = e
  · have hw : p ≠ window e := by
      rintro rfl
      exact hself ((window_div hlt).symm.trans hpe)
    have hd : (x.withPgt e f).pgd (p / 0x400) ≠ .zero := by
      rw [hpe, withPgt_pgd_self]
      exact kernelFlags_ne
    have hentry : (x.withPgt e f).entry p = .zero := by
      rw [withPgt_entry h hlt hf hd, if_pos hpe]
    rw [if_neg hw, if_neg fun hor => hor.2 hentry, if_neg fun hor => hor.1 (hpe ▸ he)]
  · rw [withPgt_pgd_ne hpe]
    by_cases hd : x.pgd (p / 0x400) = .zero
    · have hw : p ≠ window e := by
        rintro rfl
        rw [window_div hlt] at hd
        exact h.self.1 hd
      rw [if_neg hw, if_neg fun hor => hor.1 hd, if_neg fun hor => hor.1 hd]
    · rw [withPgt_entry h hlt hf (by rwa [withPgt_pgd_ne hpe]), if_neg hpe]
      by_cases hw : p = window e
      · rw [if_pos hw, if_pos hw, if_pos ⟨hd, kernelFlags_ne⟩]
      · rw [if_neg hw, if_neg hw]

theorem place_translate (h : Inv i x) (hp : x.pgd (p / 0x400) ≠ .zero) :
    (x.place p f).translate q = if q = p then some f else x.translate q := by
  rw [translate_eq, translate_eq]
  show (if (x.pgd (q / 0x400)).present ∧ ((x.place p f).entry q).present then
    some ((x.place p f).entry q).frame else none) = _
  by_cases hq : x.pgd (q / 0x400) = .zero
  · have hne : q ≠ p := by
      rintro rfl
      exact hp hq
    rw [if_neg hne, hq, empty_not_present, if_neg fun hor => Bool.false_ne_true hor.1,
      if_neg fun hor => Bool.false_ne_true hor.1]
  · rw [place_entry h hp hq]
    by_cases hqp : q = p
    · rw [if_pos hqp, if_pos hqp, if_pos ⟨h.pgd_present.mpr hq, kernelFlags_present⟩]
    · rw [if_neg hqp, if_neg hqp]

theorem newPgt_eq (h : Inv i x) (he : x.pgd e = .zero) (hlt : e < 0x400)
    (hf : x.pageTable.findfbsCbitmap = some f) : x.newPgt e = some (x.withPgt e f) := by
  have hself : pgtsEntry ≠ e := by
    rintro rfl
    exact h.self.1 he
  let z : Vmm := { x.take f with pgd := Function.update x.pgd e ⟨f, kernelFlags⟩ }
  have hpgd : z.pgd pgtsEntry = x.pgd pgtsEntry := Function.update_of_ne hself _ _
  have hpgt : (z.fill x.pgPgt e ⟨f, kernelFlags⟩).pgt e = some f := by
    have hentry : (z.fill x.pgPgt e ⟨f, kernelFlags⟩).entry (window e) = ⟨f, kernelFlags⟩ := by
      rw [entry_window hlt]
      simp only [fill, hpgd, h.self.2, Function.update_self]
    rw [pgt, translate_eq, hentry, window_div hlt, if_pos]
    refine ⟨?_, kernelFlags_present⟩
    show (z.pgd pgtsEntry).present = true
    rw [hpgd]
    exact h.pgd_present.mpr h.self.1
  simp only [newPgt, allocPhysPage, hf, Option.bind_eq_bind, Option.bind_some, Option.pure_def]
  show ((z.fill x.pgPgt e ⟨f, kernelFlags⟩).pgt e).bind _ = _
  rw [hpgt]
  rfl

theorem needPgt_cases (h : Inv i x) (hlt : e < 0x400) (hy : x.needPgt e = some y) :
    x.pgd e ≠ .zero ∧ y = x ∨ x.pgd e = .zero ∧ ∃ f, x.Free f ∧ y = x.withPgt e f := by
  unfold needPgt at hy
  split at hy
  case isTrue he =>
    cases hf : x.pageTable.findfbsCbitmap with
    | none => simp [newPgt, allocPhysPage, hf] at hy
    | some f =>
      rw [newPgt_eq h he hlt hf] at hy
      exact .inr ⟨he, f, Cbitmap.has_of_findfbs hf, (Option.some.inj hy).symm⟩
  case isFalse he => exact .inl ⟨he, (Option.some.inj hy).symm⟩

theorem needPgt_inv (h : Inv i x) (hlt : e < 0x400) (hy : x.needPgt e = some y) :
    Inv i y ∧ y.pgd e ≠ .zero := by
  rcases needPgt_cases h hlt hy with ⟨he, rfl⟩ | ⟨he, f, hf, rfl⟩
  · exact ⟨h, he⟩
  · refine ⟨h.withPgt he hlt hf, ?_⟩
    rw [withPgt_pgd_self]
    exact kernelFlags_ne

theorem Inv.ne_window (h : Inv i x) (hframe : (x.entry p).frame = 0) (he : x.pgd e ≠ .zero) :
    p ≠ window e := by
  rintro rfl
  exact (h.directory e he).2.2.1 ((h.windows e he).2.symm.trans hframe)

theorem Inv.give (h : Inv i x) (hp : x.pgd (p / 0x400) ≠ .zero) (hframe : (x.entry p).frame = 0)
    (hf : x.Free f) : Inv i ((x.take f).place p f) :=
  h.take.place hp (fun _ he => h.ne_window hframe he) (fun hfree => ((take_free h).mp hfree).2 rfl)
    (h.frame_pos hf)

theorem va2pgd_eq (addr : Nat) : va2pgd addr = addr / 0x1000 / 0x400 := by
  rw [va2pgd, Nat.div_div_eq_div_mul]

theorem mapPage_of_needPgt (hz : x.needPgt (va2pgd addr) = some z) (hinv : Inv i z)
    (hd : z.pgd (va2pgd addr) ≠ .zero) :
    x.mapPage addr = z.pageTable.findfbsCbitmap.bind fun f =>
      if (z.entry (addr / 0x1000)).frame ≠ 0 then none
      else some ((z.take f).place (addr / 0x1000) f) := by
  have hentry : z.entry (addr / 0x1000) = z.mem (z.pgd (va2pgd addr)).frame (va2pgt addr) := by
    rw [entry, ← va2pgd_eq]
    rfl
  simp only [mapPage, hz, hinv.pgt_eq hd, allocPhysPage, Option.bind_eq_bind, Option.bind_some,
    hentry, Option.pure_def, Option.bind_assoc]
  refine congrArg _ (funext fun f => ?_)
  show (if (z.mem _ _).frame ≠ 0 then none else _) = _
  split
  · rfl
  · rw [place, ← va2pgd_eq]
    rfl

theorem mapPage_inv (h : Inv i x) (hlt : addr < 0x100000000) (hy : x.mapPage addr = some y) :
    Inv i y := by
  have hlt' : va2pgd addr < 0x400 := by
    unfold va2pgd
    omega
  cases hz : x.needPgt (va2pgd addr) with
  | none => simp [mapPage, hz] at hy
  | some z =>
    obtain ⟨hinv, hd⟩ := needPgt_inv h hlt' hz
    rw [mapPage_of_needPgt hz hinv hd, Option.bind_eq_some_iff] at hy
    obtain ⟨f, hf, hy⟩ := hy
    split at hy
    case isTrue => cases hy
    case isFalse hframe =>
      obtain rfl := Option.some.inj hy
      exact hinv.give (by rwa [← va2pgd_eq]) (not_ne_iff.mp hframe) (Cbitmap.has_of_findfbs hf)

end

end Xmertl.Partikle.Vmm
