import Xmertl.Xtratum.PageAllocs

/-!
# Loads that fail

After the page directory each stage of a load only takes frames, and `destroy_domain` gives
none back. So a load that fails leaves everything as it was if it takes none.
-/

namespace Xmertl.Xtratum

open Runs Stages IntrusiveList

namespace Xm

variable {D : Type}

structure Took (x y : Xm D) : Prop where
  domains : y.domains = x.domains
  mm : Mm.Extends x.mm y.mm

section
variable {x y z : Xm D} {d : D} {e : Option XmError}

theorem Took.refl (x : Xm D) : Took x x := ⟨rfl, .refl _⟩

theorem Took.trans (h : Took x y) (h' : Took y z) : Took x z :=
  ⟨h'.domains.trans h.domains, h.mm.trans h'.mm⟩

theorem loadPages_took {img : Nat → BitVec 8} {imgAddr offset lsize csize : Nat}
    {pages : List Nat} (h : loadPages img imgAddr offset lsize csize pages x = some (y, e)) :
    Took x y := by
  induction pages generalizing x imgAddr offset lsize csize with
  | nil =>
    obtain ⟨rfl, -⟩ := Prod.mk.inj (Option.some.inj h)
    exact .refl x
  | cons addr pages ih =>
    rw [loadPages] at h
    split at h
    · cases h
    · rename_i mm halloc
      obtain ⟨rfl, -⟩ := Prod.mk.inj (Option.some.inj h)
      exact ⟨rfl, Mm.allocateUserPage_extends halloc⟩
    · rename_i mm page halloc
      refine Took.trans ?_ (ih h)
      exact ⟨rfl, Mm.allocateUserPage_extends halloc⟩

variable [DecidableEq D]

theorem loadStack_took {entryPoint : Nat} {sstack : Option Nat}
    (h : loadStack d entryPoint sstack x = some (y, e)) : Took x y := by
  cases sstack with
  | none =>
    obtain ⟨rfl, -⟩ := Prod.mk.inj (Option.some.inj h)
    exact .refl x
  | some sstackSt =>
    obtain ⟨rfl, -⟩ := Prod.mk.inj (Option.some.inj h)
    exact ⟨rfl, .refl _⟩

theorem loadEvents_took (h : loadEvents d x = some (y, e)) : Took x y := by
  rw [loadEvents] at h
  split at h
  · cases h
  · rename_i mm hloop
    obtain ⟨rfl, -⟩ := Prod.mk.inj (Option.some.inj h)
    exact ⟨rfl, Mm.eventsLoop_extends hloop⟩
  · rename_i mm addr hloop
    obtain ⟨rfl, -⟩ := Prod.mk.inj (Option.some.inj h)
    exact ⟨rfl, Mm.eventsLoop_extends hloop⟩

theorem loadHeap_took (h : loadHeap d x = some (y, e)) : Took x y := by
  obtain ⟨⟨mm, heap⟩, hrange, h⟩ := Option.map_eq_some_iff.mp h
  obtain ⟨rfl, -⟩ := Prod.mk.inj h
  exact ⟨rfl, Mm.allocFreeUserRange_extends hrange⟩

theorem fifoMap_extends {x y : Mm} {dev : RtFifo} {vaddr : Nat} {ret : Int}
    (h : x.fifoMap dev vaddr = some (y, ret)) : Mm.Extends x y :=
  Mm.fifoMap_rel Mm.Extends.refl (fun _ _ _ => Mm.Extends.trans)
    (fun _ _ _ _ _ _ => Mm.xmMapPage_extends) h

theorem loadFifo_took (h : loadFifo d x = some (y, e)) : Took x y := by
  rw [loadFifo] at h
  split at h
  · obtain ⟨rfl, -⟩ := Prod.mk.inj (Option.some.inj h)
    exact .refl x
  · obtain ⟨⟨mm, ret⟩, hmap, h⟩ := Option.map_eq_some_iff.mp h
    have hmm := fifoMap_extends hmap
    dsimp only at h
    split at h
    · obtain ⟨rfl, -⟩ := Prod.mk.inj h
      exact ⟨rfl, hmm⟩
    · obtain ⟨rfl, -⟩ := Prod.mk.inj h
      exact ⟨rfl, hmm⟩

theorem loadSerial_took (h : loadSerial d x = some (y, e)) : Took x y := by
  rw [loadSerial] at h
  split at h
  · obtain ⟨rfl, -⟩ := Prod.mk.inj (Option.some.inj h)
    exact .refl x
  split at h
  · obtain ⟨⟨mm, s, ret⟩, hmap, h⟩ := Option.map_eq_some_iff.mp h
    obtain ⟨rfl, -⟩ := Prod.mk.inj h
    exact ⟨rfl, Mm.serialMap_rel Mm.Extends.refl (fun _ _ _ => Mm.Extends.trans)
      (fun _ _ _ _ _ _ => Mm.xmMapPage_extends) hmap⟩
  · obtain ⟨rfl, -⟩ := Prod.mk.inj (Option.some.inj h)
    exact ⟨rfl, .refl _⟩

def lateStages (d : D) (c : LoadCall D) : List (Stage (Xm D) XmError) := (loadStages d c).tail

theorem lateStages_took {c : LoadCall D} (h : run (lateStages d c) x = some (y, e)) :
    Took x y := by
  refine run_rel Took.refl (fun _ _ _ => Took.trans) (fun f hf s t e hs => ?_) h
  simp only [lateStages, loadStages, List.tail_cons, List.mem_cons, List.not_mem_nil,
    or_false] at hf
  rcases hf with rfl | rfl | rfl | rfl | rfl | rfl
  · refine run_rel Took.refl (fun _ _ _ => Took.trans) (fun g hg s t e hs => ?_) hs
    obtain ⟨sec, -, rfl⟩ := List.mem_map.mp hg
    exact loadPages_took hs
  · exact loadStack_took hs
  · exact loadEvents_took hs
  · exact loadHeap_took hs
  · exact loadFifo_took hs
  · exact loadSerial_took hs

theorem loadPageDirectory_cases (h : loadPageDirectory d x = some (y, e)) :
    (e = some .outOfMemory ∧ x.mm.NoPage ∧ ∃ answers, y = { x with mm := { x.mm with answers } }) ∨
    e = none ∧ ¬x.mm.NoPage ∧ y.domains = x.domains ∧ ∃ pd, pd ∉ x.mm.pool ∧ y.mm.pool = pd :: x.mm.pool := by
  rw [loadPageDirectory] at h
  split at h
  · cases h
  · rename_i mm halloc
    obtain ⟨rfl, rfl⟩ := Prod.mk.inj (Option.some.inj h)
    rcases Mm.allocPage_cases halloc with ⟨answers, rfl, -⟩ | ⟨f, answers, -, -, -, hr⟩
    · exact .inl ⟨rfl, Mm.allocPage_none halloc, answers, rfl⟩
    · cases hr
  · rename_i mm pd halloc
    obtain ⟨mm', hcreate, h⟩ := Option.map_eq_some_iff.mp h
    obtain ⟨rfl, rfl⟩ := Prod.mk.inj h
    obtain ⟨⟨z, r⟩, halloc', hcreate⟩ := Option.bind_eq_some_iff.mp hcreate
    obtain ⟨f, rfl, hcreate⟩ := Option.bind_eq_some_iff.mp hcreate
    obtain rfl := Option.some.inj hcreate
    rcases Mm.allocPage_cases halloc' with ⟨answers, -, hr⟩ | ⟨f', answers, hf, -, rfl, hr⟩
    · cases hr
    · obtain rfl := Option.some.inj hr
      exact .inr ⟨rfl, Mm.allocPage_some halloc, rfl, f, hf, rfl⟩

variable [Fintype D] {c : LoadCall D} {r : Except XmError (BitVec 32)}

def Refused (x : Xm D) (c : LoadCall D) : Prop :=
  c.current ≠ x.domains.root ∨ c.prio > minPriority ∨ c.prio < maxPriority

theorem loadDomainSys_cases (h : x.loadDomainSys c = some (y, r)) :
    (x.Refused c ∧ y = x ∧ ∃ e, r = .error e) ∨
    ¬x.Refused c ∧ ∃ d domains z e, c.node = some d ∧ d ∉ x.domains.live ∧
      x.domains.createDomain d c.prio.toNat = some domains ∧
      run (loadStages d c) (x.created d c.dname domains) = some (z, e) ∧
      (e = none ∧ y = z ∧ r = .ok (z.domains.id d) ∨
        ∃ e', e = some e' ∧ y = { z with domains := z.domains.destroyDomain d } ∧
          r = .error e') := by
  unfold loadDomainSys at h
  split at h
  · rename_i hc
    obtain ⟨rfl, rfl⟩ := Prod.mk.inj (Option.some.inj h)
    exact .inl ⟨.inl hc, rfl, _, rfl⟩
  rename_i hc
  split at h
  · rename_i hp
    obtain ⟨rfl, rfl⟩ := Prod.mk.inj (Option.some.inj h)
    exact .inl ⟨.inr hp, rfl, _, rfl⟩
  rename_i hp
  split at h
  · cases h
  rename_i d hd
  split at h
  · cases h
  rename_i hlive
  obtain ⟨domains, hcreate, h⟩ := Option.bind_eq_some_iff.mp h
  obtain ⟨⟨z, e⟩, hrun, h⟩ := Option.bind_eq_some_iff.mp h
  refine .inr ⟨not_or.mpr ⟨hc, hp⟩, d, domains, z, e, hd, hlive, hcreate, hrun, ?_⟩
  cases e with
  | none =>
    obtain ⟨rfl, rfl⟩ := Prod.mk.inj (Option.some.inj h)
    exact .inl ⟨rfl, rfl, rfl⟩
  | some e =>
    obtain ⟨rfl, rfl⟩ := Prod.mk.inj (Option.some.inj h)
    exact .inr ⟨e, rfl, rfl, rfl⟩

omit [Fintype D] in
theorem loadStages_domains (h : run (loadStages d c) x = some (y, e)) :
    y.domains = x.domains := by
  have hstages : loadStages d c = loadPageDirectory d :: lateStages d c := rfl
  rw [hstages, run] at h
  split at h
  · cases h
  · rename_i z e' hdir
    obtain ⟨rfl, -⟩ := Prod.mk.inj (Option.some.inj h)
    rcases loadPageDirectory_cases hdir with ⟨-, -, answers, rfl⟩ | ⟨he, -⟩
    · rfl
    · cases he
  · rename_i z hdir
    rcases loadPageDirectory_cases hdir with ⟨he, -⟩ | ⟨-, -, hz, -⟩
    · cases he
    · exact (lateStages_took h).domains.trans hz

theorem loadDomainSys_domains (h : x.loadDomainSys c = some (y, r)) :
    ∃ rest r', x.domains.loadDomainSys c.current c.prio c.node rest = some (y.domains, r') := by
  rcases loadDomainSys_cases h with ⟨hrefused, rfl, -⟩ |
    ⟨hgo, d, domains, z, e, hd, hlive, hcreate, hrun, hend⟩
  · by_cases hc : c.current ≠ y.domains.root
    · exact ⟨none, _, by rw [DomainList.loadDomainSys.eq_def, if_pos hc]⟩
    · exact ⟨none, _, by
        rw [DomainList.loadDomainSys.eq_def, if_neg hc, if_pos (hrefused.resolve_left hc)]⟩
  · obtain ⟨hc, hp⟩ := not_or.mp hgo
    have hz : z.domains = domains := loadStages_domains hrun
    rcases hend with ⟨rfl, rfl, -⟩ | ⟨e', rfl, rfl, -⟩
    · refine ⟨none, .ok (domains.id d), ?_⟩
      rw [DomainList.loadDomainSys.eq_def, if_neg hc, if_neg hp, hd]
      simp [hlive, hcreate, hz]
    · refine ⟨some e', .error e', ?_⟩
      rw [DomainList.loadDomainSys.eq_def, if_neg hc, if_neg hp, hd]
      simp [hlive, hcreate, hz]

/-- The list of the domains, the pages that are allocated, the page tables and the clients of
the devices. -/
def Unchanged (x y : Xm D) : Prop :=
  y.domains.list = x.domains.list ∧ (∀ f, f ∈ y.mm.pool ↔ f ∈ x.mm.pool) ∧
    y.mm.mem = x.mm.mem ∧ y.fifo.map RtFifo.client = x.fifo.map RtFifo.client ∧
      y.serial.map SerialDev.client = x.serial.map SerialDev.client

end

/-- A load that fails leaves everything unchanged if and only if it fails before it takes a
page. -/
theorem load_error_unchanged [DecidableEq D] [Fintype D] {root : D} {x₀ : DomainList D}
    (h₀ : DomainList.init root = some x₀) {x y : Xm D} {tr : List (DomainList D × DomainList.Act D)}
    (hr : Run DomainList.step x₀ tr x.domains) {c : LoadCall D} {e : XmError}
    (h : x.loadDomainSys c = some (y, .error e)) :
    x.Unchanged y ↔ x.Refused c ∨ x.mm.NoPage := by
  rcases loadDomainSys_cases h with ⟨hrefused, rfl, -⟩ |
    ⟨hgo, d, domains, z, e', hd, hlive, hcreate, hrun, hend⟩
  · exact iff_of_true ⟨rfl, fun _ => Iff.rfl, rfl, rfl, rfl⟩ (.inl hrefused)
  rcases hend with ⟨-, -, hok⟩ | ⟨e', rfl, rfl, -⟩
  · cases hok
  have hstages : loadStages d c = loadPageDirectory d :: lateStages d c := rfl
  rw [hstages, run] at hrun
  split at hrun
  · cases hrun
  · rename_i z' e'' hdir
    obtain ⟨rfl, -⟩ := Prod.mk.inj (Option.some.inj hrun)
    rcases loadPageDirectory_cases hdir with ⟨-, hpage, answers, rfl⟩ | ⟨hnone, -⟩
    · obtain ⟨L, hl⟩ := DomainList.run_listed h₀ hr
      have hlist := hl.createDestroy hlive hcreate
      exact iff_of_true ⟨hlist, fun _ => Iff.rfl, rfl, rfl, rfl⟩ (.inr hpage)
    · cases hnone
  · rename_i z' hdir
    rcases loadPageDirectory_cases hdir with ⟨hsome, -⟩ | ⟨-, hpage, -, pd, hpd, hpool⟩
    · cases hsome
    · have hlate := lateStages_took hrun
      have hmem : pd ∈ z.mm.pool :=
        hlate.mm.pool.subset (by rw [hpool]; exact List.mem_cons_self)
      exact iff_of_false (fun hu => hpd ((hu.2.1 pd).mp hmem)) (not_or.mpr ⟨hgo, hpage⟩)

/-- There is no page at all. -/
theorem load_error_unchanged_run : ∃ (x₀ : DomainList Bool)
    (tr : List (DomainList Bool × DomainList.Act Bool)) (x y : Xm Bool) (c : LoadCall Bool),
    DomainList.init false = some x₀ ∧ Run DomainList.step x₀ tr x.domains ∧
      x.loadDomainSys c = some (y, .error .outOfMemory) ∧ x.Unchanged y := by
  let c : LoadCall Bool :=
    { current := false, dname := "", prio := 5, dimg := ⟨[], 0⟩, node := some true, sstack := none }
  have hrun : (DomainList.init false).any fun x₀ =>
      ((bare x₀ []).loadDomainSys c).any fun r => decide (r.2 = .error .outOfMemory) := by
    decide +kernel
  obtain ⟨x₀, h₀, hload⟩ := Option.any_eq_true _ _ |>.mp hrun
  obtain ⟨⟨y, r⟩, hload, hr⟩ := Option.any_eq_true _ _ |>.mp hload
  obtain rfl : r = .error .outOfMemory := of_decide_eq_true hr
  exact ⟨x₀, [], bare x₀ [], y, c, h₀, .start, hload,
    (load_error_unchanged h₀ .start hload).mpr (.inr rfl)⟩

/-- There is a page for the directory, and none for the image. -/
theorem load_keeps_directory : ∃ (x₀ : DomainList Bool)
    (tr : List (DomainList Bool × DomainList.Act Bool)) (x y : Xm Bool) (c : LoadCall Bool),
    DomainList.init false = some x₀ ∧ Run DomainList.step x₀ tr x.domains ∧
      x.loadDomainSys c = some (y, .error .outOfMemory) ∧ x.mm.pool = [] ∧ y.mm.pool = [7] ∧
        ¬x.Unchanged y := by
  let image : DomainImage := ⟨[⟨fun _ => 0, 0x1000, 4⟩], 0x1000⟩
  let c : LoadCall Bool :=
    { current := false, dname := "", prio := 5, dimg := image, node := some true, sstack := none }
  have hrun : (DomainList.init false).any fun x₀ =>
      ((bare x₀ [some 7]).loadDomainSys c).any fun r =>
        decide (r.2 = .error .outOfMemory ∧ r.1.mm.pool = [7]) := by
    decide +kernel
  obtain ⟨x₀, h₀, hload⟩ := Option.any_eq_true _ _ |>.mp hrun
  obtain ⟨⟨y, r⟩, hload, hr⟩ := Option.any_eq_true _ _ |>.mp hload
  obtain ⟨rfl, hpool⟩ : r = .error .outOfMemory ∧ y.mm.pool = [7] := of_decide_eq_true hr
  refine ⟨x₀, [], bare x₀ [some 7], y, c, h₀, .start, hload, rfl, hpool, fun hu => ?_⟩
  have hmem : 7 ∈ (bare x₀ [some 7]).mm.pool := (hu.2.1 7).mp (by simp [hpool])
  exact List.not_mem_nil hmem

end Xm

end Xmertl.Xtratum
