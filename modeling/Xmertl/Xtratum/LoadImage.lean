import Mathlib.Data.Finset.Card
import Mathlib.Data.List.TakeWhile
import Xmertl.Xtratum.LoadFails

/-!
# What a loaded domain reads

A load takes a page for every page of every section, and `allocate_user_page` answers 0 for a
page that is there already. So a load with enough memory goes through, with every section's
bytes in the domain's address space, where no page has two sections in it.
-/

namespace Xmertl.Xtratum

open Runs Stages

/-- The loader allocates page number `p` for the section. -/
def ElfSection.Touches (s : ElfSection) (p : Nat) : Prop :=
  s.stAddr / 0x1000 ≤ p ∧ p * 0x1000 < s.stAddr + s.size

def DomainImage.PagesApart (dimg : DomainImage) : Prop :=
  dimg.sections.Pairwise fun s t => ∀ p, ¬(s.Touches p ∧ t.Touches p)

/-- The pages of the events and of the heap, by their numbers. -/
def Fixed (p : Nat) : Prop := p = defaultEventAddr / 0x1000 ∨ p * 0x1000 ∈ Mm.heapPages

def sectionPages (secs : List ElfSection) : Nat :=
  (secs.map fun s => (pagesOf s.stAddr s.size).length).sum

def DomainImage.tables (dimg : DomainImage) : Finset Nat :=
  ((dimg.sections.flatMap fun s => pagesOf s.stAddr s.size) ++
    defaultEventAddr :: Mm.heapPages).toFinset.image va2pd

/-- The directory, the tables, and the pages of the sections, the events and the heap. -/
def DomainImage.frames (dimg : DomainImage) : Nat :=
  1 + dimg.tables.card + sectionPages dimg.sections + 1 + Mm.heapPages.length

theorem pagesOf_touches {s : ElfSection} (hs : s.stAddr + s.size ≤ pageOffset) :
    ∃ n, pagesOf s.stAddr s.size = pagesFrom (s.stAddr / 0x1000 * 0x1000) n ∧
      s.stAddr % 0x1000 + s.size ≤ n * 0x1000 ∧ s.stAddr / 0x1000 * 0x1000 + n * 0x1000 ≤ pageOffset ∧
        ∀ p, s.Touches p ↔ s.stAddr / 0x1000 ≤ p ∧ p < s.stAddr / 0x1000 + n := by
  refine ⟨_, rfl, ?_⟩
  unfold pageEnd ElfSection.Touches
  unfold pageOffset at hs ⊢
  refine ⟨by omega, by omega, fun p => by omega⟩

theorem Fixed.le {p : Nat} (h : Fixed p) : 0x2000 ≤ p := by
  rcases h with rfl | h
  · decide
  · obtain ⟨i, -, hi⟩ := mem_pagesFrom.mp h
    unfold defaultEventAddr at hi
    omega

theorem DomainImage.frames_le (dimg : DomainImage) :
    dimg.frames ≤ 2 * sectionPages dimg.sections + 1539 := by
  have hcard : dimg.tables.card ≤ sectionPages dimg.sections + 769 := by
    refine (Finset.card_image_le.trans (List.toFinset_card_le _)).trans ?_
    simp [sectionPages, List.length_flatMap, Mm.heapPages, pagesFrom_length]
  have hheap : Mm.heapPages.length = 768 := pagesFrom_length _ _
  rw [frames, hheap]
  omega

namespace Xm

variable {D : Type}

/-- The byte at an address of the domain that is being loaded. -/
def Holds (x : Xm D) (a : Nat) (b : BitVec 8) : Prop :=
  ∃ f, (x.mm.mapping a).own = some f ∧ x.bytes f (a % 0x1000) = b

/-- Pages of `V` are mapped, and what was there stays. -/
structure Keeps (V : Nat → Prop) (x y : Xm D) : Prop where
  mm : Mm.Grows V x.mm y.mm
  bytes : ∀ f ∈ x.mm.pool, y.bytes f = x.bytes f
  pd : ∀ d, (y.node d).pd = (x.node d).pd

def read (x : Xm D) (d : D) (a : Nat) : Option (BitVec 8) :=
  let e := ({ x.mm with pd := (x.node d).pd } : Mm).mapping a
  if e.present then some (x.bytes e.frame (a % 0x1000)) else none

/-- There is memory for the domain's stack and its pages. The domain has no frames yet, and
the frames of the devices are not the page allocator's to give. -/
structure Roomy (x : Xm D) (c : LoadCall D) : Prop where
  sstack : c.sstack.isSome
  pool : x.mm.pool = []
  sound : x.mm.Sound
  supply : c.dimg.frames ≤ x.mm.supply
  fifo : ∀ dev, x.fifo = some dev → x.mm.foreign dev.fpage = true ∧
    ∀ i < xmFifoCount.toNat, x.mm.foreign (dev.fpages i) = true
  serial : ∀ dev, x.serial = some dev → ∀ i < xmSerialCount,
    x.mm.foreign (dev.xmSerials i).inSerf = true ∧ x.mm.foreign (dev.xmSerials i).outSerf = true

/-- The load goes through, and the domain reads every section's bytes at its addresses. -/
def Loads [DecidableEq D] [Fintype D] (x : Xm D) (c : LoadCall D) : Prop :=
  ∃ d y id, c.node = some d ∧ x.loadDomainSys c = some (y, .ok id) ∧
    ∀ s ∈ c.dimg.sections, ∀ k < s.size, y.read d (s.stAddr + k) = some (s.img k)

section
variable {V V' : Nat → Prop} {x y z : Xm D} {d : D} {e : Option XmError} {a n : Nat} {b : BitVec 8}

theorem Keeps.refl (hx : x.mm.Built) : Keeps V x x := ⟨.refl hx, fun _ _ => rfl, fun _ => rfl⟩

theorem Keeps.mono (h : Keeps V x y) (hV : ∀ p, V p → V' p) : Keeps V' x y :=
  ⟨h.mm.mono hV, h.bytes, h.pd⟩

theorem Keeps.trans (h : Keeps V x y) (h' : Keeps V y z) : Keeps V x z := by
  refine ⟨h.mm.trans h'.mm, fun f hf => ?_, fun d => (h'.pd d).trans (h.pd d)⟩
  exact (h'.bytes f (h.mm.pool.subset hf)).trans (h.bytes f hf)

theorem Holds.keeps (h : x.Holds a b) (ha : a < pageOffset) (hx : x.mm.Built)
    (hk : Keeps V x y) : y.Holds a b := by
  obtain ⟨f, hown, hb⟩ := h
  have hpresent : (x.mm.mapping a).present = true := by
    by_contra hp
    rw [Mm.own_absent (Bool.not_eq_true _ ▸ hp)] at hown
    cases hown
  have hpool : f ∈ x.mm.pool :=
    hx.own.given (.page (va2pd a) (va2pt a)) f
      ((Mm.holds_page (Mm.va2pd_lt ha) (Mm.va2pt_lt a)).trans hown)
  refine ⟨f, by rw [hk.mm.present ha hpresent, hown], ?_⟩
  rw [hk.bytes f hpool, hb]

-- ---------------------------------------------------------------------------
-- The pages of a section
-- ---------------------------------------------------------------------------

theorem loadPages_loaded {img : Nat → BitVec 8} {imgAddr offset lsize csize start : Nat}
    (hx : x.mm.Built)
    (h : loadPages img imgAddr offset lsize csize (pagesFrom start n) x = some (y, none))
    (hstart : start % 0x1000 = 0) (hoffset : offset < 0x1000)
    (hcsize : csize = if 0x1000 - offset < lsize then 0x1000 - offset else lsize)
    (hsize : offset + lsize ≤ n * 0x1000 ∨ lsize = 0) (hend : start + n * 0x1000 ≤ pageOffset) :
    Keeps (fun p => start / 0x1000 ≤ p ∧ p < start / 0x1000 + n) x y ∧
      (∀ k < lsize, y.Holds (start + offset + k) (img (imgAddr + k))) ∧
      ∀ v ∈ pagesFrom start n,
        (x.mm.mapping v).present = false ∧ (y.mm.mapping v).present = true := by
  induction n generalizing x start imgAddr offset lsize csize with
  | zero =>
    obtain ⟨rfl, -⟩ := Prod.mk.inj (Option.some.inj h)
    exact ⟨.refl hx, fun k hk => absurd hk (by omega), fun v hv => absurd hv List.not_mem_nil⟩
  | succ n ih =>
    rw [pagesFrom_succ, loadPages] at h
    split at h
    · cases h
    · cases (Prod.mk.inj (Option.some.inj h)).2
    rename_i mm page halloc
    obtain ⟨hgrows, hpage⟩ := Mm.allocateUserPage_grows hx halloc
    obtain ⟨hv, hnew, hgiven, habsent, hmapped⟩ := hpage page rfl
    have hz : Keeps (· = start / 0x1000) x { x with
        mm
        bytes := Function.update x.bytes page (memcpy (fun _ => 0) offset img imgAddr csize) } := by
      refine ⟨hgrows, fun f hf => ?_, fun _ => rfl⟩
      have hne : f ≠ page := fun he => hnew (he ▸ hf)
      exact Function.update_of_ne hne _ _
    obtain ⟨hkeeps, hholds, hpages⟩ := ih hgrows.built h (by omega) (by decide) (by simp)
      (by split at hcsize <;> omega) (by omega)
    refine ⟨(hz.mono fun p hp => ?_).trans (hkeeps.mono fun p hp => ?_), fun k hk => ?_,
      fun v hv => ?_⟩
    · omega
    · omega
    · by_cases hkc : k < csize
      · -- within the bytes copied to this page
        have hcs : offset + csize ≤ 0x1000 := by split at hcsize <;> omega
        refine Holds.keeps ⟨page, ?_, ?_⟩ (by omega) hgrows.built hkeeps
        · rw [Mm.mapping_page (w := start) (by omega), hmapped]
          exact Mm.own_user page
        · have hmod : (start + offset + k) % 0x1000 = offset + k := by omega
          simp only [Function.update_self, memcpy, hmod]
          rw [if_pos (by omega)]
          congr 1
          omega
      · have hnext := hholds (k - csize) (by omega)
        have haddr : start + 0x1000 + 0 + (k - csize) = start + offset + k := by
          split at hcsize <;> omega
        have himg : imgAddr + csize + (k - csize) = imgAddr + k := by omega
        rwa [haddr, himg] at hnext
    · rw [pagesFrom_succ] at hv
      rcases List.mem_cons.mp hv with rfl | hv
      · have hpresent : (mm.mapping v).present = true := by
          rw [hmapped]
          exact Mm.present_user page
        refine ⟨habsent, ?_⟩
        rw [hkeeps.mm.present (by omega) hpresent]
        exact hpresent
      · obtain ⟨hv0, hv1⟩ := hpages v hv
        obtain ⟨i, hi, rfl⟩ := mem_pagesFrom.mp hv
        rw [← hgrows.other (by omega) (by omega)]
        exact ⟨hv0, hv1⟩

theorem loadPages_supplied {img : Nat → BitVec 8} {imgAddr offset lsize csize start k : Nat}
    {T : Finset Nat} (hx : x.mm.Built) (hs : x.mm.Sound) (hend : start + k * 0x1000 ≤ pageOffset)
    (habsent : ∀ v ∈ pagesFrom start k, (x.mm.mapping v).present = false ∧ va2pd v ∈ T)
    (hn : n + k + x.mm.missing T ≤ x.mm.supply) :
    ∃ y, loadPages img imgAddr offset lsize csize (pagesFrom start k) x = some (y, none) ∧
      y.mm.Sound ∧ n + y.mm.missing T ≤ y.mm.supply := by
  induction k generalizing x start imgAddr offset lsize csize with
  | zero => exact ⟨x, rfl, hs, hn⟩
  | succ k ih =>
    rw [pagesFrom_succ] at habsent ⊢
    obtain ⟨hfirst, hT⟩ := habsent start List.mem_cons_self
    obtain ⟨mm, page, halloc, hmm, hnmm⟩ :=
      Mm.allocateUserPage_supplied (n := n + k) hx hs (by omega) hfirst hT (by omega)
    obtain ⟨hgrows, -⟩ := Mm.allocateUserPage_grows hx halloc
    have hrest : ∀ v ∈ pagesFrom (start + 0x1000) k,
        (mm.mapping v).present = false ∧ va2pd v ∈ T := by
      intro v hv
      obtain ⟨hv0, hvT⟩ := habsent v (List.mem_cons_of_mem _ hv)
      obtain ⟨i, hi, rfl⟩ := mem_pagesFrom.mp hv
      rw [hgrows.other (by omega) (by omega)]
      exact ⟨hv0, hvT⟩
    rw [loadPages, halloc]
    exact ih hgrows.built hmm (by omega) hrest hnmm

theorem loadPages_devices {img : Nat → BitVec 8} {imgAddr offset lsize csize : Nat}
    {pages : List Nat} (h : loadPages img imgAddr offset lsize csize pages x = some (y, e)) :
    y.fifo = x.fifo ∧ y.serial = x.serial := by
  induction pages generalizing x imgAddr offset lsize csize with
  | nil =>
    obtain ⟨rfl, -⟩ := Prod.mk.inj (Option.some.inj h)
    exact ⟨rfl, rfl⟩
  | cons addr pages ih =>
    rw [loadPages] at h
    split at h
    · cases h
    · obtain ⟨rfl, -⟩ := Prod.mk.inj (Option.some.inj h)
      exact ⟨rfl, rfl⟩
    · have hrest := ih h
      exact hrest

theorem loadSections_devices {secs : List ElfSection}
    (h : run (secs.map loadSection) x = some (y, e)) :
    y.fifo = x.fifo ∧ y.serial = x.serial := by
  refine run_rel (R := fun x y : Xm D => y.fifo = x.fifo ∧ y.serial = x.serial)
    (fun _ => ⟨rfl, rfl⟩) (fun _ _ _ h h' => ⟨h'.1.trans h.1, h'.2.trans h.2⟩)
    (fun f hf s t e hs => ?_) h
  obtain ⟨sec, -, rfl⟩ := List.mem_map.mp hf
  exact loadPages_devices hs

theorem loadSection_loaded {s : ElfSection} (hx : x.mm.Built)
    (hbelow : s.stAddr + s.size ≤ pageOffset) (h : loadSection s x = some (y, none)) :
    Keeps s.Touches x y ∧ (∀ k < s.size, y.Holds (s.stAddr + k) (s.img k)) ∧
      ∀ p, s.Touches p → (x.mm.mapping (p * 0x1000)).present = false ∧
        (y.mm.mapping (p * 0x1000)).present = true := by
  obtain ⟨n, hpages, hsize, hend, htouches⟩ := pagesOf_touches hbelow
  rw [loadSection, hpages] at h
  obtain ⟨hkeeps, hholds, hmapped⟩ :=
    loadPages_loaded hx h (by omega) (by omega) rfl (.inl hsize) hend
  refine ⟨hkeeps.mono fun p hp => (htouches p).mpr (by omega), fun k hk => ?_, fun p hp => ?_⟩
  · have haddr : s.stAddr / 0x1000 * 0x1000 + s.stAddr % 0x1000 + k = s.stAddr + k := by omega
    have hk := hholds k hk
    rwa [haddr, Nat.zero_add] at hk
  · obtain ⟨hp, hpn⟩ := (htouches p).mp hp
    exact hmapped _ (mem_pagesFrom.mpr ⟨p - s.stAddr / 0x1000, by omega, by omega⟩)

/-- Sections that are all loaded have no page in common, and none that was mapped before. -/
theorem loadSections_loaded {secs : List ElfSection} (hx : x.mm.Built)
    (hbelow : ∀ s ∈ secs, s.stAddr + s.size ≤ pageOffset)
    (h : run (secs.map loadSection) x = some (y, none)) :
    Keeps (fun p => ∃ s ∈ secs, s.Touches p) x y ∧
      (∀ s ∈ secs, ∀ k < s.size, y.Holds (s.stAddr + k) (s.img k)) ∧
      (∀ s ∈ secs, ∀ p, s.Touches p → (x.mm.mapping (p * 0x1000)).present = false) ∧
      secs.Pairwise fun s t => ∀ p, ¬(s.Touches p ∧ t.Touches p) := by
  induction secs generalizing x with
  | nil =>
    obtain ⟨rfl, -⟩ := Prod.mk.inj (Option.some.inj h)
    exact ⟨.refl hx, nofun, nofun, .nil⟩
  | cons s secs ih =>
    rw [List.map_cons] at h
    obtain ⟨u, hs, h⟩ := run_cons_iff.mp h
    have hsbelow : s.stAddr + s.size ≤ pageOffset := hbelow s List.mem_cons_self
    have hrest : ∀ t ∈ secs, t.stAddr + t.size ≤ pageOffset := fun t ht =>
      hbelow t (List.mem_cons_of_mem _ ht)
    obtain ⟨hxu, hholds, hmapped⟩ := loadSection_loaded hx hsbelow hs
    obtain ⟨huy, hholds', habsent, hpairs⟩ := ih hxu.mm.built hrest h
    have hpage : ∀ t : ElfSection, t.stAddr + t.size ≤ pageOffset → ∀ p, t.Touches p →
        p * 0x1000 < pageOffset := fun t ht p hp => Nat.lt_of_lt_of_le hp.2 ht
    refine ⟨?_, ?_, ?_, List.pairwise_cons.mpr ⟨?_, hpairs⟩⟩
    · refine (hxu.mono fun p hp => ⟨s, List.mem_cons_self, hp⟩).trans (huy.mono ?_)
      rintro p ⟨t, ht, hp⟩
      exact ⟨t, List.mem_cons_of_mem _ ht, hp⟩
    · intro t ht k hk
      rcases List.mem_cons.mp ht with rfl | ht
      · exact (hholds k hk).keeps (by omega) hxu.mm.built huy
      · exact hholds' t ht k hk
    · intro t ht p hp
      rcases List.mem_cons.mp ht with rfl | ht
      · exact (hmapped p hp).1
      · by_contra hpresent
        have hsame := hxu.mm.present (hpage t (hrest t ht) p hp) (Bool.not_eq_false _ ▸ hpresent)
        rw [← hsame] at hpresent
        exact hpresent (habsent t ht p hp)
    · rintro t ht p ⟨hsp, htp⟩
      have hpresent := (hmapped p hsp).2
      rw [habsent t ht p htp] at hpresent
      cases hpresent

theorem loadSections_supplied {secs : List ElfSection} {T : Finset Nat} (hx : x.mm.Built)
    (hs : x.mm.Sound) (hbelow : ∀ s ∈ secs, s.stAddr + s.size ≤ pageOffset)
    (habsent : ∀ s ∈ secs, ∀ p, s.Touches p →
      (x.mm.mapping (p * 0x1000)).present = false ∧ va2pd (p * 0x1000) ∈ T)
    (hpairs : secs.Pairwise fun s t => ∀ p, ¬(s.Touches p ∧ t.Touches p))
    (hn : n + sectionPages secs + x.mm.missing T ≤ x.mm.supply) :
    ∃ y, run (secs.map loadSection) x = some (y, none) ∧ y.mm.Sound ∧
      n + y.mm.missing T ≤ y.mm.supply := by
  induction secs generalizing x with
  | nil => exact ⟨x, rfl, hs, hn⟩
  | cons s secs ih =>
    obtain ⟨hapart, hpairs⟩ := List.pairwise_cons.mp hpairs
    have hsbelow : s.stAddr + s.size ≤ pageOffset := hbelow s List.mem_cons_self
    obtain ⟨k, hpages, -, hend, htouches⟩ := pagesOf_touches hsbelow
    have hfirst : ∀ v ∈ pagesFrom (s.stAddr / 0x1000 * 0x1000) k,
        (x.mm.mapping v).present = false ∧ va2pd v ∈ T := by
      intro v hv
      obtain ⟨i, hi, rfl⟩ := mem_pagesFrom.mp hv
      have hp := habsent s List.mem_cons_self (s.stAddr / 0x1000 + i)
        ((htouches _).mpr (by omega))
      rwa [Nat.add_mul] at hp
    rw [sectionPages, List.map_cons, List.sum_cons, hpages, pagesFrom_length] at hn
    have hsec : ∃ u, loadSection s x = some (u, none) ∧ u.mm.Sound ∧
        n + sectionPages secs + u.mm.missing T ≤ u.mm.supply := by
      rw [loadSection, hpages]
      exact loadPages_supplied hx hs hend hfirst (by rw [sectionPages]; omega)
    obtain ⟨u, hsec, hu, hnu⟩ := hsec
    obtain ⟨hxu, -, -⟩ := loadSection_loaded hx hsbelow hsec
    have hrest : ∀ t ∈ secs, ∀ p, t.Touches p →
        (u.mm.mapping (p * 0x1000)).present = false ∧ va2pd (p * 0x1000) ∈ T := by
      intro t ht p hp
      have htbelow := hbelow t (List.mem_cons_of_mem _ ht)
      have hlt : p * 0x1000 < pageOffset := Nat.lt_of_lt_of_le hp.2 htbelow
      have hpage : p * 0x1000 / 0x1000 = p := Nat.mul_div_cancel p (by decide)
      have hnot : ¬s.Touches (p * 0x1000 / 0x1000) := by
        rw [hpage]
        exact fun hsp => hapart t ht p ⟨hsp, hp⟩
      rw [hxu.mm.other hlt hnot]
      exact habsent t (List.mem_cons_of_mem _ ht) p hp
    rw [List.map_cons, run_cons_done hsec]
    exact ih hxu.mm.built hu (fun t ht => hbelow t (List.mem_cons_of_mem _ ht)) hrest hpairs hnu

-- ---------------------------------------------------------------------------
-- The other stages
-- ---------------------------------------------------------------------------

variable [DecidableEq D] {node : DomainNode}

theorem setNode_pd (hx : y.node = (x.setNode d node).node) (hpd : node.pd = (x.node d).pd)
    (d' : D) : (y.node d').pd = (x.node d').pd := by
  have hnode : y.node = Function.update x.node d node := hx
  by_cases hd : d' = d
  · rw [hnode, hd, Function.update_self, hpd]
  · rw [hnode, Function.update_of_ne hd]

theorem loadPageDirectory_loaded (hpool : x.mm.pool = [])
    (h : loadPageDirectory d x = some (y, none)) :
    y.mm.Built ∧ (∀ v < pageOffset, (y.mm.mapping v).present = false) ∧
      (y.node d).pd = y.mm.pd ∧ y.fifo = x.fifo ∧ y.serial = x.serial ∧
        y.mm.foreign = x.mm.foreign := by
  rw [loadPageDirectory] at h
  split at h
  · cases h
  · cases (Prod.mk.inj (Option.some.inj h)).2
  obtain ⟨mm, hcreate, h⟩ := Option.map_eq_some_iff.mp h
  obtain ⟨rfl, -⟩ := Prod.mk.inj h
  refine ⟨Mm.createPageDirectory_built hpool hcreate, fun v hv => ?_, ?_, rfl, rfl, ?_⟩
  · obtain ⟨⟨z, r⟩, -, hcreate⟩ := Option.bind_eq_some_iff.mp hcreate
    obtain ⟨f, rfl, hcreate⟩ := Option.bind_eq_some_iff.mp hcreate
    obtain rfl := Option.some.inj hcreate
    have hi : va2pd v < va2pd pageOffset := Mm.va2pd_lt hv
    have habsent : (Function.update z.mem f (fun i => if i < va2pd pageOffset then {} else
        x.kernel i) f (va2pd v)).present = false := by
      rw [Function.update_self, if_pos hi]
      rfl
    exact congrArg Entry.present (Mm.entry_absent habsent)
  · change (Function.update x.node d { x.node d with pd := mm.pd } d).pd = mm.pd
    rw [Function.update_self]
  · obtain ⟨⟨z, r⟩, halloc, hcreate⟩ := Option.bind_eq_some_iff.mp hcreate
    obtain ⟨f, rfl, hcreate⟩ := Option.bind_eq_some_iff.mp hcreate
    obtain rfl := Option.some.inj hcreate
    exact (Mm.allocPage_extends halloc).foreign

theorem loadPageDirectory_supplied (hs : x.mm.Sound) (hn : n + 1 ≤ x.mm.supply) :
    ∃ y, loadPageDirectory d x = some (y, none) ∧ y.mm.Sound ∧ n ≤ y.mm.supply := by
  obtain ⟨f, answers, -, -, halloc, hs', hn'⟩ := Mm.allocPage_supplied hs hn
  rw [loadPageDirectory, Mm.createPageDirectory, halloc]
  exact ⟨_, rfl, ⟨hs'.once, hs'.free⟩, hn'⟩

theorem loadStack_keeps {entryPoint : Nat} {sstack : Option Nat} (hx : x.mm.Built)
    (h : loadStack d entryPoint sstack x = some (y, e)) :
    Keeps (fun _ => False) x y ∧ y.fifo = x.fifo ∧ y.serial = x.serial := by
  cases sstack with
  | none =>
    obtain ⟨rfl, -⟩ := Prod.mk.inj (Option.some.inj h)
    exact ⟨.refl hx, rfl, rfl⟩
  | some sstackSt =>
    obtain ⟨rfl, -⟩ := Prod.mk.inj (Option.some.inj h)
    exact ⟨⟨.refl hx, fun _ _ => rfl, setNode_pd (d := d) rfl rfl⟩, rfl, rfl⟩

theorem loadEvents_keeps (hx : x.mm.Built) (h : loadEvents d x = some (y, e)) :
    Keeps (fun _ => True) x y ∧ y.fifo = x.fifo ∧ y.serial = x.serial := by
  rw [loadEvents] at h
  split at h
  · cases h
  · rename_i mm hloop
    obtain ⟨rfl, -⟩ := Prod.mk.inj (Option.some.inj h)
    exact ⟨⟨Mm.eventsLoop_grows hx hloop, fun _ _ => rfl, fun _ => rfl⟩, rfl, rfl⟩
  · rename_i mm addr hloop
    obtain ⟨rfl, -⟩ := Prod.mk.inj (Option.some.inj h)
    exact ⟨⟨Mm.eventsLoop_grows hx hloop, fun _ _ => rfl, setNode_pd (d := d) rfl rfl⟩, rfl, rfl⟩

theorem loadHeap_keeps (hx : x.mm.Built) (h : loadHeap d x = some (y, e)) :
    Keeps (fun _ => True) x y ∧ y.fifo = x.fifo ∧ y.serial = x.serial := by
  obtain ⟨⟨mm, heap⟩, hrange, h⟩ := Option.map_eq_some_iff.mp h
  obtain ⟨rfl, -⟩ := Prod.mk.inj h
  exact ⟨⟨Mm.allocFreeUserRange_grows hx hrange, fun _ _ => rfl, setNode_pd (d := d) rfl rfl⟩, rfl,
    rfl⟩

theorem loadFifo_keeps (hx : x.mm.Built) (h : loadFifo d x = some (y, none)) :
    Keeps (fun _ => True) x y ∧ x.fifo.isSome ∧ y.serial = x.serial := by
  rw [loadFifo] at h
  split at h
  · cases (Prod.mk.inj (Option.some.inj h)).2
  rename_i dev hdev
  obtain ⟨⟨mm, ret⟩, hmap, h⟩ := Option.map_eq_some_iff.mp h
  dsimp only at h
  split at h
  · cases (Prod.mk.inj h).2
  obtain ⟨rfl, -⟩ := Prod.mk.inj h
  exact ⟨⟨Mm.fifoMap_grows hx hmap, fun _ _ => rfl, setNode_pd (d := d) rfl rfl⟩, by simp [hdev], rfl⟩

theorem loadSerial_keeps (hx : x.mm.Built) (h : loadSerial d x = some (y, none)) :
    Keeps (fun _ => True) x y ∧ x.serial.isSome := by
  rw [loadSerial] at h
  split at h
  · cases (Prod.mk.inj (Option.some.inj h)).2
  rename_i dev hdev
  refine ⟨?_, by simp [hdev]⟩
  split at h
  · obtain ⟨⟨mm, s, ret⟩, hmap, h⟩ := Option.map_eq_some_iff.mp h
    obtain ⟨rfl, -⟩ := Prod.mk.inj h
    exact ⟨Mm.serialMap_grows hx hmap, fun _ _ => rfl, setNode_pd (d := d) rfl rfl⟩
  · obtain ⟨rfl, -⟩ := Prod.mk.inj (Option.some.inj h)
    exact ⟨.refl hx, fun _ _ => rfl, fun _ => rfl⟩

theorem loadStages_loaded {c : LoadCall D} (hpool : x.mm.pool = [])
    (hbelow : ∀ s ∈ c.dimg.sections, s.stAddr + s.size ≤ pageOffset)
    (h : run (loadStages d c) x = some (y, none)) :
    (∀ s ∈ c.dimg.sections, ∀ k < s.size, y.Holds (s.stAddr + k) (s.img k)) ∧
      (y.node d).pd = y.mm.pd ∧ c.dimg.PagesApart ∧ x.fifo.isSome ∧ x.serial.isSome := by
  obtain ⟨x₁, h₁, h⟩ := run_cons_iff.mp h
  obtain ⟨x₂, h₂, h⟩ := run_cons_iff.mp h
  obtain ⟨x₃, h₃, h⟩ := run_cons_iff.mp h
  obtain ⟨x₄, h₄, h⟩ := run_cons_iff.mp h
  obtain ⟨x₅, h₅, h⟩ := run_cons_iff.mp h
  obtain ⟨x₆, h₆, h⟩ := run_cons_iff.mp h
  obtain ⟨x₇, h₇, h⟩ := run_cons_iff.mp h
  obtain rfl : x₇ = y := (Prod.mk.inj (Option.some.inj h)).1
  obtain ⟨hb₁, -, hpd, hfifo₁, hserial₁, -⟩ := loadPageDirectory_loaded hpool h₁
  obtain ⟨hk₂, hholds, -, hpairs⟩ := loadSections_loaded hb₁ hbelow h₂
  obtain ⟨hfifo₂, hserial₂⟩ := loadSections_devices h₂
  obtain ⟨hk₃, hfifo₃, hserial₃⟩ := loadStack_keeps hk₂.mm.built h₃
  obtain ⟨hk₄, hfifo₄, hserial₄⟩ := loadEvents_keeps hk₃.mm.built h₄
  obtain ⟨hk₅, hfifo₅, hserial₅⟩ := loadHeap_keeps hk₄.mm.built h₅
  obtain ⟨hk₆, hfifo₆, hserial₆⟩ := loadFifo_keeps hk₅.mm.built h₆
  obtain ⟨hk₇, hserial₇⟩ := loadSerial_keeps hk₆.mm.built h₇
  have hlater : Keeps (fun _ => True) x₂ x₇ :=
    (hk₃.mono fun _ _ => trivial).trans (hk₄.trans (hk₅.trans (hk₆.trans hk₇)))
  refine ⟨fun s hs k hk => ?_, ?_, hpairs, ?_, ?_⟩
  · have ha : s.stAddr + k < pageOffset := by
      have hsbelow := hbelow s hs
      omega
    exact (hholds s hs k hk).keeps ha hk₂.mm.built hlater
  · rw [hlater.pd, hk₂.pd, hpd, hlater.mm.pd, hk₂.mm.pd]
  · rwa [hfifo₅, hfifo₄, hfifo₃, hfifo₂, hfifo₁] at hfifo₆
  · rwa [hserial₆, hserial₅, hserial₄, hserial₃, hserial₂, hserial₁] at hserial₇

theorem loadEvents_supplied {T : Finset Nat} (hx : x.mm.Built) (hs : x.mm.Sound)
    (habsent : (x.mm.mapping defaultEventAddr).present = false) (hT : va2pd defaultEventAddr ∈ T)
    (hn : n + 1 + x.mm.missing T ≤ x.mm.supply) :
    ∃ y, loadEvents d x = some (y, none) ∧ y.mm.Sound ∧ n + y.mm.missing T ≤ y.mm.supply ∧
      (y.node d).eventsUserAddr = defaultEventAddr ∧
        Mm.Grows (· = defaultEventAddr / 0x1000) x.mm y.mm := by
  obtain ⟨mm, f, halloc, hmm, hnmm⟩ :=
    Mm.allocateUserPage_supplied hx hs (by decide) habsent hT hn
  obtain ⟨hgrows, -⟩ := Mm.allocateUserPage_grows hx halloc
  have hpages : (pageOffset - defaultEventAddr) / 0x1000 = 778239 + 1 := rfl
  have haddr : pageOffset - (778239 + 1) * 0x1000 = defaultEventAddr := rfl
  have hloop := Mm.eventsLoop_first (n := 778239) (haddr ▸ halloc)
  rw [loadEvents, hpages, hloop]
  refine ⟨_, rfl, hmm, hnmm, ?_, hgrows⟩
  rw [haddr]
  simp [setNode]

theorem loadHeap_supplied {T : Finset Nat} (hx : x.mm.Built) (hs : x.mm.Sound)
    (haddr : (x.node d).eventsUserAddr = defaultEventAddr)
    (habsent : ∀ v ∈ Mm.heapPages, (x.mm.mapping v).present = false ∧ va2pd v ∈ T)
    (hn : n + Mm.heapPages.length + x.mm.missing T ≤ x.mm.supply) :
    ∃ y, loadHeap d x = some (y, none) ∧ y.mm.Sound := by
  obtain ⟨mm, hheap, hmm, -⟩ := Mm.heap_supplied hx hs habsent hn
  rw [loadHeap, haddr, hheap]
  exact ⟨_, rfl, hmm⟩

theorem loadFifo_supplied {dev : RtFifo} (hs : x.mm.Sound) (hdev : x.fifo = some dev)
    (hf : x.mm.foreign dev.fpage = true ∧
      ∀ i < xmFifoCount.toNat, x.mm.foreign (dev.fpages i) = true) :
    ∃ y, loadFifo d x = some (y, none) ∧ y.mm.Sound := by
  have hcomes : ∃ mm, x.mm.fifoMap dev defaultFifoAddr = some (mm, 0) ∧ mm.Sound :=
    Mm.fifoMap_comes hs (by decide) hf
  obtain ⟨mm, hmap, hmm⟩ := hcomes
  rw [loadFifo, hdev]
  simp only [hmap, Option.map_some]
  exact ⟨_, rfl, hmm⟩

theorem loadSerial_supplied {dev : SerialDev D} (hs : x.mm.Sound) (hdev : x.serial = some dev)
    (hf : ∀ i < xmSerialCount, x.mm.foreign (dev.xmSerials i).inSerf = true ∧
      x.mm.foreign (dev.xmSerials i).outSerf = true) :
    ∃ y, loadSerial d x = some (y, none) := by
  rw [loadSerial, hdev]
  dsimp only
  split
  · have hcomes : ∃ mm s ret, x.mm.serialMap defaultSerialAddr dev.xmSerials
        (List.range xmSerialCount) = some (mm, s, ret) :=
      Mm.serialMap_comes hs List.nodup_range fun i hi => hf i (List.mem_range.mp hi)
    obtain ⟨mm, s, ret, hmap⟩ := hcomes
    rw [hmap]
    exact ⟨_, rfl⟩
  · exact ⟨_, rfl⟩

omit [DecidableEq D] in
theorem Holds.read (h : x.Holds a b) (hpd : (x.node d).pd = x.mm.pd) :
    x.read d a = some b := by
  obtain ⟨f, hown, hb⟩ := h
  obtain ⟨hflags, hf⟩ : ((x.mm.mapping a).present && !(x.mm.mapping a).unused1) = true ∧
      (x.mm.mapping a).frame = f := by simpa [Entry.own] using hown
  have hpresent : (x.mm.mapping a).present = true := (Bool.and_eq_true_iff.mp hflags).1
  have hmm : ({ x.mm with pd := (x.node d).pd } : Mm) = x.mm := by rw [hpd]
  simp only [Xm.read, hmm, hpresent, if_true, hf, hb]

/-- With memory for it, an image whose sections share no page goes through every stage. -/
theorem loadStages_supplied {c : LoadCall D} (hroom : x.Roomy c)
    (hbelow : ∀ s ∈ c.dimg.sections, s.stAddr + s.size ≤ pageOffset)
    (hclear : ∀ s ∈ c.dimg.sections, ∀ p, s.Touches p → ¬Fixed p)
    (hfifo : x.fifo.isSome) (hserial : x.serial.isSome) (hapart : c.dimg.PagesApart) :
    ∃ y, run (loadStages d c) x = some (y, none) := by
  have hsupply := hroom.supply
  rw [DomainImage.frames] at hsupply
  obtain ⟨x₁, h₁, hs₁, hn₁⟩ := loadPageDirectory_supplied (d := d)
    (n := c.dimg.tables.card + sectionPages c.dimg.sections + 1 + Mm.heapPages.length)
    hroom.sound (by omega)
  obtain ⟨hb₁, hempty, -, hfifo₁, hserial₁, hforeign₁⟩ := loadPageDirectory_loaded hroom.pool h₁
  have hmissing : x₁.mm.missing c.dimg.tables ≤ c.dimg.tables.card := Finset.card_filter_le _ _
  have htables : ∀ v, v ∈ (c.dimg.sections.flatMap fun s => pagesOf s.stAddr s.size) ++
      defaultEventAddr :: Mm.heapPages → va2pd v ∈ c.dimg.tables := fun v hv =>
    Finset.mem_image_of_mem _ (List.mem_toFinset.mpr hv)
  have htouched : ∀ s ∈ c.dimg.sections, ∀ p, s.Touches p →
      (x₁.mm.mapping (p * 0x1000)).present = false ∧ va2pd (p * 0x1000) ∈ c.dimg.tables := by
    intro s hs p hp
    refine ⟨hempty _ (Nat.lt_of_lt_of_le hp.2 (hbelow s hs)), htables _ ?_⟩
    refine List.mem_append_left _ (List.mem_flatMap.mpr ⟨s, hs, ?_⟩)
    obtain ⟨k, hpages, -, -, htouches⟩ := pagesOf_touches (hbelow s hs)
    obtain ⟨hp₀, hp₁⟩ := (htouches p).mp hp
    rw [hpages]
    exact mem_pagesFrom.mpr ⟨p - s.stAddr / 0x1000, by omega, by omega⟩
  obtain ⟨x₂, h₂, hs₂, hn₂⟩ := loadSections_supplied (n := 1 + Mm.heapPages.length)
    hb₁ hs₁ hbelow htouched hapart (by omega)
  obtain ⟨hk₂, -⟩ := loadSections_loaded hb₁ hbelow h₂
  obtain ⟨hfifo₂, hserial₂⟩ := loadSections_devices h₂
  obtain ⟨sstackSt, hsstack⟩ := Option.isSome_iff_exists.mp hroom.sstack
  have h₃ : ∃ x₃, loadStack d c.dimg.entryPoint c.sstack x₂ = some (x₃, none) ∧
      x₃.mm = x₂.mm := by
    rw [hsstack]
    exact ⟨_, rfl, rfl⟩
  obtain ⟨x₃, h₃, hmm₃⟩ := h₃
  obtain ⟨hk₃, hfifo₃, hserial₃⟩ := loadStack_keeps hk₂.mm.built h₃
  -- the fixed pages are not mapped by the sections
  have hfixed : ∀ v < pageOffset, Fixed (v / 0x1000) → (x₃.mm.mapping v).present = false := by
    intro v hv hf
    have hnot : ¬∃ s ∈ c.dimg.sections, s.Touches (v / 0x1000) :=
      fun ⟨s, hs, hp⟩ => hclear s hs _ hp hf
    rw [hmm₃, hk₂.mm.other hv hnot]
    exact hempty v hv
  obtain ⟨x₄, h₄, hs₄, hn₄, haddr₄, hgrows₄⟩ := loadEvents_supplied (d := d)
    (n := Mm.heapPages.length) hk₃.mm.built (hmm₃ ▸ hs₂) (hfixed _ (by decide) (.inl rfl))
    (htables _ (List.mem_append_right _ List.mem_cons_self))
    (by rw [hmm₃, Nat.add_comm Mm.heapPages.length 1]; exact hn₂)
  obtain ⟨hk₄, hfifo₄, hserial₄⟩ := loadEvents_keeps hk₃.mm.built h₄
  have hheap : ∀ v ∈ Mm.heapPages,
      (x₄.mm.mapping v).present = false ∧ va2pd v ∈ c.dimg.tables := by
    intro v hv
    refine ⟨?_, htables _ (List.mem_append_right _ (List.mem_cons_of_mem _ hv))⟩
    obtain ⟨i, hi, hvi⟩ := mem_pagesFrom.mp hv
    unfold defaultEventAddr at hvi
    have hlt : v < pageOffset := by
      unfold pageOffset
      omega
    have hpage : v / 0x1000 * 0x1000 = v := by omega
    have hother : v / 0x1000 ≠ defaultEventAddr / 0x1000 := by
      unfold defaultEventAddr
      omega
    rw [hgrows₄.other hlt hother]
    exact hfixed v hlt (.inr (by rw [hpage]; exact hv))
  obtain ⟨x₅, h₅, hs₅⟩ := loadHeap_supplied (n := 0) hk₄.mm.built hs₄ haddr₄ hheap (by omega)
  obtain ⟨hk₅, hfifo₅, hserial₅⟩ := loadHeap_keeps hk₄.mm.built h₅
  have hforeign₅ : x₅.mm.foreign = x.mm.foreign := by
    rw [hk₅.mm.foreign, hk₄.mm.foreign, hmm₃, hk₂.mm.foreign, hforeign₁]
  obtain ⟨dev, hdev⟩ := Option.isSome_iff_exists.mp hfifo
  have hdev₅ : x₅.fifo = some dev := by
    rw [hfifo₅, hfifo₄, hfifo₃, hfifo₂, hfifo₁, hdev]
  obtain ⟨x₆, h₆, hs₆⟩ := loadFifo_supplied (d := d) hs₅ hdev₅
    (by rw [hforeign₅]; exact hroom.fifo dev hdev)
  obtain ⟨hk₆, -, hserial₆⟩ := loadFifo_keeps hk₅.mm.built h₆
  obtain ⟨sdev, hsdev⟩ := Option.isSome_iff_exists.mp hserial
  have hsdev₆ : x₆.serial = some sdev := by
    rw [hserial₆, hserial₅, hserial₄, hserial₃, hserial₂, hserial₁, hsdev]
  obtain ⟨x₇, h₇⟩ := loadSerial_supplied (d := d) hs₆ hsdev₆
    (by rw [hk₆.mm.foreign, hforeign₅]; exact hroom.serial sdev hsdev)
  refine ⟨x₇, ?_⟩
  rw [loadStages, run_cons_done h₁, run_cons_done h₂, run_cons_done h₃, run_cons_done h₄,
    run_cons_done h₅, run_cons_done h₆, run_cons_done h₇]
  rfl

end

/-- With memory for an image clear of the fixed pages, a load goes through and the domain reads
the image, if and only if the call is not refused, both devices are registered, and no page has
two sections in it. -/
theorem load_reads_back [DecidableEq D] [Fintype D] {root : D} {x₀ : DomainList D}
    (h₀ : DomainList.init root = some x₀) {x : Xm D} {tr : List (DomainList D × DomainList.Act D)}
    (hr : Run DomainList.step x₀ tr x.domains) {c : LoadCall D} {d : D} (hd : c.node = some d)
    (hlive : d ∉ x.domains.live) (hroom : x.Roomy c)
    (hbelow : ∀ s ∈ c.dimg.sections, s.stAddr + s.size ≤ pageOffset)
    (hclear : ∀ s ∈ c.dimg.sections, ∀ p, s.Touches p → ¬Fixed p) :
    x.Loads c ↔ ¬x.Refused c ∧ x.fifo.isSome ∧ x.serial.isSome ∧ c.dimg.PagesApart := by
  constructor
  · rintro ⟨d, y, id, -, hload, -⟩
    rcases loadDomainSys_cases hload with ⟨-, -, e, he⟩ |
      ⟨hgo, d, domains, z, e, -, -, -, hrun, ⟨rfl, -, -⟩ | ⟨e', -, -, he⟩⟩
    · cases he
    · obtain ⟨-, -, hapart, hfifo, hserial⟩ := loadStages_loaded (x := x.created d c.dname domains)
        hroom.pool hbelow hrun
      exact ⟨hgo, hfifo, hserial, hapart⟩
    · cases he
  · rintro ⟨hgo, hfifo, hserial, hapart⟩
    obtain ⟨hc, hp⟩ := not_or.mp hgo
    obtain ⟨L, hl⟩ := DomainList.run_listed h₀ hr
    have hprio : c.prio.toNat ≤ minPriority := by
      unfold minPriority maxPriority at hp
      unfold minPriority
      omega
    obtain ⟨domains, hcreate, -⟩ := hl.createDomain hlive hprio
    have hroom' : (x.created d c.dname domains).Roomy c :=
      ⟨hroom.sstack, hroom.pool, hroom.sound, hroom.supply, hroom.fifo, hroom.serial⟩
    obtain ⟨y, hrun⟩ := loadStages_supplied (d := d) hroom' hbelow hclear hfifo hserial hapart
    obtain ⟨hholds, hpd, -⟩ := loadStages_loaded (x := x.created d c.dname domains)
      hroom.pool hbelow hrun
    refine ⟨d, y, y.domains.id d, hd, ?_, fun s hs k hk => (hholds s hs k hk).read hpd⟩
    rw [loadDomainSys.eq_def, if_neg hc, if_neg hp, hd]
    simp [hlive, hcreate, hrun]

/-- With the two devices, and `n` free frames in front of theirs. -/
def equipped (domains : DomainList D) (n : Nat) : Xm D :=
  let x := bare domains ((List.range n).map some)
  { x with
    mm := { x.mm with foreign := fun f => n ≤ f }
    fifo := some ⟨n, fun i => n + i, 0⟩
    serial := some ⟨fun i => { inSerf := n + i, outSerf := n + i }, 0⟩ }

theorem equipped_roomy {domains : DomainList D} {n : Nat} {c : LoadCall D} (hc : c.sstack.isSome)
    (hn : c.dimg.frames ≤ n) : (equipped domains n).Roomy c where
  sstack := hc
  pool := rfl
  sound := by
    have hgiven : ((List.range n).map some).reduceOption = List.range n := by
      simp [List.reduceOption]
    refine ⟨?_, fun f hf => ⟨List.not_mem_nil, ?_⟩⟩
    · change ((List.range n).map some).reduceOption.Nodup
      rw [hgiven]
      exact List.nodup_range
    · change f ∈ ((List.range n).map some).reduceOption at hf
      rw [hgiven] at hf
      exact decide_eq_false (Nat.not_le.mpr (List.mem_range.mp hf))
  supply := by
    have hall : ((List.range n).map some).takeWhile Option.isSome = (List.range n).map some :=
      List.takeWhile_eq_self_iff.mpr (by simp)
    change c.dimg.frames ≤ (((List.range n).map some).takeWhile Option.isSome).length
    rw [hall, List.length_map, List.length_range]
    exact hn
  fifo dev hdev := by
    obtain rfl := Option.some.inj hdev
    exact ⟨decide_eq_true (Nat.le_refl n), fun i _ => decide_eq_true (Nat.le_add_right n i)⟩
  serial dev hdev i _ := by
    obtain rfl := Option.some.inj hdev
    exact ⟨decide_eq_true (Nat.le_add_right n i), decide_eq_true (Nat.le_add_right n i)⟩

theorem low_clear {image : DomainImage}
    (h : ∀ s ∈ image.sections, s.stAddr + s.size ≤ 0x4000) :
    ∀ s ∈ image.sections, ∀ p, s.Touches p → ¬Fixed p := by
  intro s hs p hp hf
  have hle := hf.le
  have hend := h s hs
  have hlt := hp.2
  omega

/-- A section in two pages and one behind it are loaded. -/
theorem load_reads_back_run : ∃ (x₀ : DomainList Bool)
    (tr : List (DomainList Bool × DomainList.Act Bool)) (x : Xm Bool) (c : LoadCall Bool),
    DomainList.init false = some x₀ ∧ Run DomainList.step x₀ tr x.domains ∧
      c.dimg.sections.length = 2 ∧ x.Loads c := by
  let image : DomainImage :=
    ⟨[⟨BitVec.ofNat 8, 0x1FFC, 8⟩, ⟨BitVec.ofNat 8, 0x3000, 0x1000⟩], 0x1FFC⟩
  let c : LoadCall Bool :=
    { current := false, dname := "", prio := 5, dimg := image, node := some true, sstack := some 1 }
  have hinit : (DomainList.init false).any fun x₀ => decide (x₀.root = false ∧ true ∉ x₀.live) := by
    decide +kernel
  obtain ⟨x₀, h₀, hlive⟩ := Option.any_eq_true _ _ |>.mp hinit
  obtain ⟨hroot, hlive⟩ := of_decide_eq_true hlive
  have hroom : (equipped x₀ 2000).Roomy c :=
    equipped_roomy rfl (image.frames_le.trans (by decide +kernel))
  have hclear : ∀ s ∈ image.sections, ∀ p, s.Touches p → ¬Fixed p := low_clear (by decide)
  have hapart : image.PagesApart := by
    simp only [DomainImage.PagesApart, ElfSection.Touches, image, List.pairwise_cons]
    refine ⟨fun t ht p hp => ?_, fun t ht => absurd ht List.not_mem_nil, .nil⟩
    obtain rfl := List.mem_singleton.mp ht
    dsimp only at hp
    omega
  refine ⟨x₀, [], equipped x₀ 2000, c, h₀, .start, rfl, ?_⟩
  refine (load_reads_back h₀ .start rfl hlive hroom (by decide) hclear).mpr
    ⟨not_or.mpr ⟨fun h => h hroot.symm, by decide⟩, rfl, rfl, hapart⟩

/-- Two sections in one page. -/
theorem load_shared_page : ∃ (x₀ : DomainList Bool)
    (tr : List (DomainList Bool × DomainList.Act Bool)) (x : Xm Bool) (c : LoadCall Bool) (d : Bool),
    DomainList.init false = some x₀ ∧ Run DomainList.step x₀ tr x.domains ∧
      c.node = some d ∧ d ∉ x.domains.live ∧ x.Roomy c ∧
      (∀ s ∈ c.dimg.sections, s.stAddr + s.size ≤ pageOffset) ∧
      (∀ s ∈ c.dimg.sections, ∀ p, s.Touches p → ¬Fixed p) ∧
      (c.dimg.sections.Pairwise fun s t =>
        s.stAddr + s.size ≤ t.stAddr ∨ t.stAddr + t.size ≤ s.stAddr) ∧
      ¬x.Refused c ∧ x.fifo.isSome ∧ x.serial.isSome ∧
      (∃ y, x.loadDomainSys c = some (y, .error .outOfMemory)) ∧ ¬x.Loads c := by
  let image : DomainImage := ⟨[⟨BitVec.ofNat 8, 0x1000, 4⟩, ⟨BitVec.ofNat 8, 0x1800, 4⟩], 0x1000⟩
  let c : LoadCall Bool :=
    { current := false, dname := "", prio := 5, dimg := image, node := some true, sstack := some 1 }
  have hrun : (DomainList.init false).any fun x₀ =>
      decide (x₀.root = false ∧ true ∉ x₀.live) &&
        ((equipped x₀ 2000).loadDomainSys c).any fun r => decide (r.2 = .error .outOfMemory) := by
    decide +kernel
  obtain ⟨x₀, h₀, hrun⟩ := Option.any_eq_true _ _ |>.mp hrun
  obtain ⟨hlive, hload⟩ := Bool.and_eq_true_iff.mp hrun
  obtain ⟨hroot, hlive⟩ := of_decide_eq_true hlive
  obtain ⟨⟨y, r⟩, hload, hr⟩ := Option.any_eq_true _ _ |>.mp hload
  obtain rfl : r = .error .outOfMemory := of_decide_eq_true hr
  have hroom : (equipped x₀ 2000).Roomy c :=
    equipped_roomy rfl (image.frames_le.trans (by decide +kernel))
  have hclear : ∀ s ∈ image.sections, ∀ p, s.Touches p → ¬Fixed p := low_clear (by decide)
  refine ⟨x₀, [], equipped x₀ 2000, c, true, h₀, .start, rfl, hlive, hroom, by decide, hclear,
    by decide, not_or.mpr ⟨fun h => h hroot.symm, by decide⟩, rfl, rfl, ⟨y, hload⟩, ?_⟩
  rintro ⟨d, z, id, -, hok, -⟩
  cases (Prod.mk.inj (Option.some.inj (hload.symm.trans hok))).2

end Xm

end Xmertl.Xtratum
