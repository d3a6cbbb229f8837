import Xmertl.Xtratum.LoadImage
import Xmertl.Xtratum.Xmloader

/-!
# Loading a domain from its file

`main` of `xmloader.c` hands the image that `process_img` has made to `load_domain`. What the
domain then reads in its segments is what the file has in them.
-/

namespace Xmertl.Xtratum

open Runs Stages

namespace Xmloader

/-- The image as the hypervisor gets it. In byte `k` of section `i` that has not been written to
is what `malloc` left, `fill i k`. -/
def DomainImage.handed (img : DomainImage) (fill : Nat → Nat → BitVec 8) : Xtratum.DomainImage where
  entryPoint := img.entryPoint
  sections := img.sections.mapIdx fun i e =>
    { img := fun k => (e.2.img[k]?.join.map UInt8.toBitVec).getD (fill i k)
      stAddr := e.2.stAddr
      size := e.2.size }

section
variable {bs : List UInt8} {pos n k off : Nat}

-- ---------------------------------------------------------------------------
-- The table in the file
-- ---------------------------------------------------------------------------

theorem halfAt_window (h : off + 2 ≤ n) :
    halfAt ((bs.drop pos).take n) off = halfAt bs (pos + off) := by
  have hbyte (i : Nat) (hi : i < n) : ((bs.drop pos).take n)[i]? = bs[pos + i]? := by
    rw [List.getElem?_take_of_lt hi, List.getElem?_drop]
  rw [halfAt, halfAt, hbyte off (by omega), hbyte (off + 1) (by omega), Nat.add_assoc]

theorem wordAt_window (h : off + 4 ≤ n) :
    wordAt ((bs.drop pos).take n) off = wordAt bs (pos + off) := by
  rw [wordAt, wordAt, halfAt_window (by omega), halfAt_window (by omega), Nat.add_assoc]

theorem phdrAt_window (h : off + sizeofPhdr ≤ n) :
    phdrAt ((bs.drop pos).take n) off = phdrAt bs (pos + off) := by
  unfold sizeofPhdr at h
  have hword (i : Nat) (hi : i ≤ 28) :
      wordAt ((bs.drop pos).take n) (off + i) = wordAt bs (pos + off + i) := by
    rw [wordAt_window (by omega), Nat.add_assoc]
  rw [phdrAt, phdrAt, hword 4 (by omega), hword 8 (by omega), hword 16 (by omega),
    hword 20 (by omega), hword 24 (by omega), hword 28 (by omega)]

theorem loads_window (h : off + sizeofPhdr * k ≤ n) :
    loads ((bs.drop pos).take n) sizeofPhdr k off = loads bs sizeofPhdr k (pos + off) := by
  induction k generalizing off with
  | zero => rfl
  | succ k ih =>
    rw [Nat.mul_succ] at h
    have hhdr : off + sizeofPhdr ≤ n := by omega
    have htype : off + 4 ≤ n := by
      unfold sizeofPhdr at hhdr
      omega
    rw [loads, loads, wordAt_window htype, phdrAt_window hhdr, ih (by omega), Nat.add_assoc]

end

namespace ElfFile

variable {f : ElfFile} {img : DomainImage} {hs : List Elf32Phdr} {e : Elf32Phdr × ElfSection}
  {fill : Nat → Nat → BitVec 8} {k : Nat} {b : UInt8}

theorem ePhoff_lt (h : f.segments = some hs) (hne : f.ePhnum ≠ 0) : f.ePhoff < 0x80000000 := by
  obtain ⟨n, hn⟩ := Nat.exists_eq_succ_of_ne_zero hne
  rw [segments, hn, loads] at h
  obtain ⟨type, htype, -⟩ := Option.bind_eq_some_iff.mp h
  obtain ⟨h₀, hhalf, -⟩ := Option.bind_eq_some_iff.mp htype
  obtain ⟨b₀, hbyte, -⟩ := Option.bind_eq_some_iff.mp hhalf
  exact (List.getElem?_eq_some_iff.mp hbyte).1.trans f.length_lt

theorem processImg_load (hp : f.processImg true = some (0, some img)) :
    img.entryPoint = f.eEntry ∧ ∃ table pos, f.ePhdr = some (table, pos) ∧
      f.load table f.ePhnum 0 pos = some (0, img.sections) := by
  have hcheck : f.check = 0 := by
    by_contra hne
    simp [processImg, hne] at hp
  have himg : (f.ePhdr.bind fun t => (f.load t.1 f.ePhnum 0 t.2).bind fun r =>
      some (r.1, some ({ entryPoint := f.eEntry, sections := r.2 } : DomainImage))) =
        some (0, some img) := by simpa [processImg, hcheck] using hp
  obtain ⟨⟨table, pos⟩, htable, himg⟩ := Option.bind_eq_some_iff.mp himg
  obtain ⟨⟨status, secs⟩, hload, himg⟩ := Option.bind_eq_some_iff.mp himg
  dsimp only at hload himg
  obtain ⟨rfl, hsecs⟩ := Prod.mk.inj (Option.some.inj himg)
  obtain rfl := Option.some.inj hsecs
  exact ⟨rfl, table, pos, htable, hload⟩

theorem processImg_made (hp : f.processImg true = some (0, some img))
    (hent : f.ePhentsize = sizeofPhdr) (hsegs : f.segments = some hs) :
    hs = img.sections.map Prod.fst ∧ ∀ e ∈ img.sections, f.Made e := by
  obtain ⟨-, table, pos, htable, hload⟩ := processImg_load hp
  have hfit := fits_of_load hload
  have hdyn : ¬Dynamic table f.ePhnum 0 := by
    intro hdyn
    obtain ⟨secs, hstop⟩ := load_dynamic hfit hdyn
    cases (Prod.mk.inj (Option.some.inj (hload.symm.trans hstop))).1
  obtain ⟨secs, hload', hloads, hmade⟩ := load_segments hfit hdyn
  obtain rfl : img.sections = secs := (Prod.mk.inj (Option.some.inj (hload.symm.trans hload'))).2
  refine ⟨?_, hmade⟩
  rw [segments, hent] at hsegs
  by_cases hnum : f.ePhnum = 0
  · rw [hnum] at hsegs hloads
    exact (Option.some.inj hsegs).symm.trans (Option.some.inj hloads)
  · -- the table is where the header says, and its headers are the file's
    have hoff : f.ePhoff ≠ 0 := by
      intro hzero
      rw [ePhdr, if_neg (not_not.mpr hzero)] at htable
      obtain ⟨rfl, -⟩ := Prod.mk.inj (Option.some.inj htable)
      obtain ⟨n, hn⟩ := Nat.exists_eq_succ_of_ne_zero hnum
      rw [hn] at hfit
      exact hfit
    have hwindow : table = (f.bytes.drop f.ePhoff).take (sizeofPhdr * f.ePhnum) := by
      rw [ePhdr, if_pos hoff, lseek, if_pos (ePhoff_lt (hent ▸ hsegs) hnum)] at htable
      dsimp only at htable
      split at htable
      · exact (Prod.mk.inj (Option.some.inj htable)).1.symm
      · cases htable
    rw [hwindow, loads_window (by omega), Nat.add_zero, hsegs] at hloads
    exact Option.some.inj hloads

theorem Made.byte (hm : f.Made e) (hk : k < e.1.pFilesz)
    (hb : f.bytes[e.1.pOffset + k]? = some b) :
    k < e.2.size ∧ e.2.img[k]? = some (some b) ∧ e.2.stAddr = e.1.pVaddr := by
  obtain ⟨h, s⟩ := e
  obtain ⟨pos, hle, hs⟩ := hm
  dsimp only at hle hs hk hb ⊢
  subst hs
  have hend := (List.getElem?_eq_some_iff.mp hb).1
  have hlt := f.length_lt
  have hpos : lseek pos h.pOffset = h.pOffset := if_pos (by omega)
  rw [hpos] at hle ⊢
  have hread : (f.read h.pOffset h.pFilesz)[k]? = some b := by
    rw [read, List.getElem?_take_of_lt hk, List.getElem?_drop, hb]
  have hlen := (List.getElem?_eq_some_iff.mp hread).1
  refine ⟨Nat.lt_of_lt_of_le hlen hle, ?_, rfl⟩
  rw [sectionOf, List.getElem?_append_left (by rwa [List.length_map]), List.getElem?_map, hread]
  rfl

theorem handed_byte (fill : Nat → Nat → BitVec 8) (hm : ∀ e ∈ img.sections, f.Made e)
    (he : e ∈ img.sections) (hk : k < e.1.pFilesz) (hb : f.bytes[e.1.pOffset + k]? = some b) :
    ∃ s ∈ (img.handed fill).sections,
      k < s.size ∧ s.img k = b.toBitVec ∧ s.stAddr = e.1.pVaddr := by
  obtain ⟨hsize, himg, haddr⟩ := (hm e he).byte hk hb
  obtain ⟨i, hi⟩ := List.mem_iff_getElem?.mp he
  refine ⟨_, List.mem_of_getElem? (by rw [DomainImage.handed, List.getElem?_mapIdx, hi]; rfl),
    hsize, ?_, haddr⟩
  simp only [himg, Option.join_some, Option.map_some, Option.getD_some]

end ElfFile

end Xmloader

-- ---------------------------------------------------------------------------
-- The stack
-- ---------------------------------------------------------------------------

namespace Xm

variable {D : Type} [DecidableEq D] {x y : Xm D} {d : D} {e : Option XmError}

def SameStack (d : D) (x y : Xm D) : Prop := (y.node d).sstack = (x.node d).sstack

theorem setNode_sstack {node : DomainNode} {l : List StackWord}
    (hx : y.node = (x.setNode d node).node) (hl : node.sstack = l) : (y.node d).sstack = l := by
  have hnode : y.node = Function.update x.node d node := hx
  rw [hnode, Function.update_self, hl]

theorem loadStack_sstack {entryPoint : Nat} {sstack : Option Nat}
    (h : loadStack d entryPoint sstack x = some (y, none)) :
    (y.node d).sstack = initSstack [] entryPoint := by
  cases sstack with
  | none => cases (Prod.mk.inj (Option.some.inj h)).2
  | some sstackSt =>
    obtain ⟨rfl, -⟩ := Prod.mk.inj (Option.some.inj h)
    exact setNode_sstack (x := x) rfl rfl

theorem loadEvents_sstack (h : loadEvents d x = some (y, e)) : SameStack d x y := by
  rw [loadEvents] at h
  split at h
  · cases h
  · obtain ⟨rfl, -⟩ := Prod.mk.inj (Option.some.inj h)
    rfl
  · obtain ⟨rfl, -⟩ := Prod.mk.inj (Option.some.inj h)
    exact setNode_sstack (x := x) rfl rfl

theorem loadHeap_sstack (h : loadHeap d x = some (y, e)) : SameStack d x y := by
  obtain ⟨r, -, h⟩ := Option.map_eq_some_iff.mp h
  obtain ⟨rfl, -⟩ := Prod.mk.inj h
  exact setNode_sstack (x := x) rfl rfl

theorem loadFifo_sstack (h : loadFifo d x = some (y, e)) : SameStack d x y := by
  rw [loadFifo] at h
  split at h
  · obtain ⟨rfl, -⟩ := Prod.mk.inj (Option.some.inj h)
    rfl
  · obtain ⟨r, -, h⟩ := Option.map_eq_some_iff.mp h
    dsimp only at h
    split at h
    · obtain ⟨rfl, -⟩ := Prod.mk.inj h
      rfl
    · obtain ⟨rfl, -⟩ := Prod.mk.inj h
      exact setNode_sstack (x := x) rfl rfl

theorem loadSerial_sstack (h : loadSerial d x = some (y, e)) : SameStack d x y := by
  rw [loadSerial] at h
  split at h
  · obtain ⟨rfl, -⟩ := Prod.mk.inj (Option.some.inj h)
    rfl
  · split at h
    · obtain ⟨r, -, h⟩ := Option.map_eq_some_iff.mp h
      obtain ⟨rfl, -⟩ := Prod.mk.inj h
      exact setNode_sstack (x := x) rfl rfl
    · obtain ⟨rfl, -⟩ := Prod.mk.inj (Option.some.inj h)
      rfl

theorem loadStages_sstack {c : LoadCall D} (h : run (loadStages d c) x = some (y, none)) :
    (y.node d).sstack = initSstack [] c.dimg.entryPoint := by
  obtain ⟨x₁, -, h⟩ := run_cons_iff.mp h
  obtain ⟨x₂, -, h⟩ := run_cons_iff.mp h
  obtain ⟨x₃, h₃, h⟩ := run_cons_iff.mp h
  obtain ⟨x₄, h₄, h⟩ := run_cons_iff.mp h
  obtain ⟨x₅, h₅, h⟩ := run_cons_iff.mp h
  obtain ⟨x₆, h₆, h⟩ := run_cons_iff.mp h
  obtain ⟨x₇, h₇, h⟩ := run_cons_iff.mp h
  obtain rfl : x₇ = y := (Prod.mk.inj (Option.some.inj h)).1
  calc (x₇.node d).sstack = (x₆.node d).sstack := loadSerial_sstack h₇
    _ = (x₅.node d).sstack := loadFifo_sstack h₆
    _ = (x₄.node d).sstack := loadHeap_sstack h₅
    _ = (x₃.node d).sstack := loadEvents_sstack h₄
    _ = initSstack [] c.dimg.entryPoint := loadStack_sstack h₃

-- ---------------------------------------------------------------------------
-- From the file to the domain
-- ---------------------------------------------------------------------------

open Xmloader ElfFile

/-- A domain whose load goes through is to start at the entry point of its file, and reads
every byte that the file has in a segment. -/
theorem loaded_file [Fintype D] {f : ElfFile} {img : Xmloader.DomainImage}
    {fill : Nat → Nat → BitVec 8} {c : LoadCall D} {id : BitVec 32}
    (hp : f.processImg true = some (0, some img)) (hent : f.ePhentsize = sizeofPhdr)
    (hc : c.dimg = img.handed fill) (hpool : x.mm.pool = [])
    (hbelow : ∀ s ∈ c.dimg.sections, s.stAddr + s.size ≤ pageOffset)
    (h : x.loadDomainSys c = some (y, .ok id)) :
    ∃ d, c.node = some d ∧ (y.node d).sstack = initSstack [] f.eEntry ∧
      ∀ hs, f.segments = some hs → ∀ p ∈ hs, ∀ k < p.pFilesz, ∀ b,
        f.bytes[p.pOffset + k]? = some b → y.read d (p.pVaddr + k) = some b.toBitVec := by
  rcases loadDomainSys_cases h with ⟨-, -, e, he⟩ |
    ⟨-, d, domains, z, e, hd, -, -, hrun, ⟨rfl, rfl, -⟩ | ⟨e', -, -, he⟩⟩
  · cases he
  · obtain ⟨hholds, hpd, -⟩ :=
      loadStages_loaded (x := x.created d c.dname domains) hpool hbelow hrun
    refine ⟨d, hd, ?_, fun hs hsegs p hp' k hk b hb => ?_⟩
    · rw [loadStages_sstack hrun, hc, ← (processImg_load hp).1]
      rfl
    · obtain ⟨rfl, hmade⟩ := processImg_made hp hent hsegs
      obtain ⟨e, he, rfl⟩ := List.mem_map.mp hp'
      obtain ⟨s, hs, hsize, hbyte, haddr⟩ := handed_byte fill hmade he hk hb
      rw [← haddr, ← hbyte]
      rw [← hc] at hs
      exact (hholds s hs k hsize).read hpd
  · cases he

theorem loadDomainSys_done [Fintype D] {c : LoadCall D} {domains : DomainList D}
    (hgo : ¬x.Refused c) (hd : c.node = some d) (hlive : d ∉ x.domains.live)
    (hcreate : x.domains.createDomain d c.prio.toNat = some domains)
    (hrun : run (loadStages d c) (x.created d c.dname domains) = some (y, none)) :
    x.loadDomainSys c = some (y, .ok (y.domains.id d)) := by
  obtain ⟨hc, hp⟩ := not_or.mp hgo
  rw [loadDomainSys.eq_def, if_neg hc, if_neg hp, hd]
  simp [hlive, hcreate, hrun]

/-- Of the file with four of its eight bytes, the last byte is read. -/
theorem loaded_file_bss : ∃ (img : Xmloader.DomainImage) (x y : Xm Bool) (c : LoadCall Bool)
    (id : BitVec 32), bssFile.processImg true = some (0, some img) ∧
      c.dimg = img.handed (fun _ _ => 0) ∧ x.loadDomainSys c = some (y, .ok id) ∧
        y.read true 0x8048003 = some 4 := by
  let img : Xmloader.DomainImage := ⟨0x8048000, [(⟨84, 0x8048000, 4, 8, 7, 4096⟩,
    ⟨[some 1, some 2, some 3, some 4, none, none, none, none], 0x8048000, 8, 7, 4096⟩)]⟩
  have himg : bssFile.processImg true = some (0, some img) := by decide +kernel
  let c : LoadCall Bool :=
    { current := false, dname := "", prio := 5, dimg := img.handed fun _ _ => 0, node := some true
      sstack := some 1 }
  have hinit : (DomainList.init false).any fun x₀ => decide (x₀.root = false ∧ true ∉ x₀.live) := by
    decide +kernel
  obtain ⟨x₀, h₀, hlive⟩ := Option.any_eq_true _ _ |>.mp hinit
  obtain ⟨hroot, hlive⟩ := of_decide_eq_true hlive
  obtain ⟨L, hl⟩ := DomainList.run_listed h₀ .start
  obtain ⟨domains, hcreate, -⟩ := hl.createDomain (d := true) (p := 5) hlive (by decide)
  have hroom : (equipped x₀ 2000).Roomy c :=
    equipped_roomy rfl (c.dimg.frames_le.trans (by decide +kernel))
  have hroom' : ((equipped x₀ 2000).created true c.dname domains).Roomy c :=
    ⟨hroom.sstack, hroom.pool, hroom.sound, hroom.supply, hroom.fifo, hroom.serial⟩
  have hbelow : ∀ s ∈ c.dimg.sections, s.stAddr + s.size ≤ pageOffset := by decide
  have hclear : ∀ s ∈ c.dimg.sections, ∀ p, s.Touches p → ¬Fixed p := by
    intro s hs p hp hf
    obtain rfl := List.mem_singleton.mp hs
    have hlow : 0x8048 ≤ p := hp.1
    rcases hf with rfl | hf
    · revert hlow
      decide
    · obtain ⟨i, hi, heap⟩ := mem_pagesFrom.mp hf
      unfold defaultEventAddr at heap
      omega
  obtain ⟨y, hrun⟩ := loadStages_supplied (d := true) hroom' hbelow hclear rfl rfl
    (List.pairwise_singleton _ _)
  have hload := loadDomainSys_done (x := equipped x₀ 2000) (c := c) (not_or.mpr
    ⟨fun h => h hroot.symm, by decide⟩) rfl hlive hcreate hrun
  obtain ⟨d, hd, -, hread⟩ := loaded_file himg (by decide +kernel) rfl rfl hbelow hload
  obtain rfl := Option.some.inj hd
  exact ⟨img, _, y, c, _, himg, rfl, hload,
    hread [⟨84, 0x8048000, 4, 8, 7, 4096⟩] (by decide +kernel) _ List.mem_cons_self 3 (by decide) 4
      (by decide)⟩

end Xm

end Xmertl.Xtratum
