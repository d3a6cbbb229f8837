import Mathlib.Data.List.Basic

/-!
# The image of a domain

`process_img` of `xmloader.c`: how the loader makes the sections of a domain from an ELF file.
A byte of memory that nothing has been written to is `none`. The result is `none` where the
loader writes past a buffer, or goes by a byte that it has not read.
-/

namespace Xmertl.Xtratum.Xmloader

/-- A file that can be opened, with a whole header. -/
structure ElfFile where
  bytes : List UInt8
  header_le : 52 ≤ bytes.length
  length_lt : bytes.length < 0x80000000

/-- The `p_paddr` is not used. -/
structure Elf32Phdr where
  pOffset : Nat
  pVaddr : Nat
  pFilesz : Nat
  pMemsz : Nat
  pFlags : Nat
  pAlign : Nat
  deriving DecidableEq

structure ElfSection where
  img : List (Option UInt8)
  stAddr : Nat
  size : Nat
  flags : Nat
  align : Nat
  deriving DecidableEq

/-- Each section stands with the header that it was made of. -/
structure DomainImage where
  entryPoint : Nat
  sections : List (Elf32Phdr × ElfSection)
  deriving DecidableEq

def halfAt (bs : List UInt8) (off : Nat) : Option Nat := do
  let b₀ ← bs[off]?
  let b₁ ← bs[off + 1]?
  return b₀.toNat + 0x100 * b₁.toNat

def wordAt (bs : List UInt8) (off : Nat) : Option Nat := do
  let h₀ ← halfAt bs off
  let h₁ ← halfAt bs (off + 2)
  return h₀ + 0x10000 * h₁

def ptLoad : Nat := 1

def ptDynamic : Nat := 2

def ptInterp : Nat := 3

def sizeofEhdr : Nat := 52

def sizeofPhdr : Nat := 32

/-- The other fields of a program header. Its type is in the first word. -/
def phdrAt (bs : List UInt8) (off : Nat) : Option Elf32Phdr := do
  let pOffset ← wordAt bs (off + 4)
  let pVaddr ← wordAt bs (off + 8)
  let pFilesz ← wordAt bs (off + 16)
  let pMemsz ← wordAt bs (off + 20)
  let pFlags ← wordAt bs (off + 24)
  let pAlign ← wordAt bs (off + 28)
  return { pOffset, pVaddr, pFilesz, pMemsz, pFlags, pAlign }

/-- `lseek`. An offset from 2 GB on is negative, and the position stays. -/
def lseek (pos offset : Nat) : Nat := if offset < 0x80000000 then offset else pos

namespace ElfFile

/-- What a `read` of `count` bytes delivers. -/
def read (f : ElfFile) (pos count : Nat) : List UInt8 := (f.bytes.drop pos).take count

def eType (f : ElfFile) : Nat := (halfAt f.bytes 16).getD 0

def eMachine (f : ElfFile) : Nat := (halfAt f.bytes 18).getD 0

def eEntry (f : ElfFile) : Nat := (wordAt f.bytes 24).getD 0

def ePhoff (f : ElfFile) : Nat := (wordAt f.bytes 28).getD 0

def ePhentsize (f : ElfFile) : Nat := (halfAt f.bytes 42).getD 0

def ePhnum (f : ElfFile) : Nat := (halfAt f.bytes 44).getD 0

/-- The tests of the header: ELFMAG, the class, data and version, ET_EXEC and EM_386. -/
def check (f : ElfFile) : Int :=
  if f.bytes.take 4 ≠ [0x7f, 0x45, 0x4c, 0x46] then -2
  else if f.bytes[4]? ≠ some 1 ∨ f.bytes[5]? ≠ some 1 ∨ f.bytes[6]? ≠ some 1 then -3
  else if f.eType ≠ 2 then -4
  else if f.eMachine ≠ 3 then -5
  else 0

/-- `e_phdr`, and the position after the read. The buffer has `e_phentsize * e_phnum` bytes. -/
def ePhdr (f : ElfFile) : Option (List UInt8 × Nat) :=
  if f.ePhoff ≠ 0 then
    let pos := lseek sizeofEhdr f.ePhoff
    let table := f.read pos (sizeofPhdr * f.ePhnum)
    if table.length ≤ f.ePhentsize * f.ePhnum then some (table, pos + table.length) else none
  else some ([], sizeofEhdr)

/-- The section of a header, once `bytes` have been read to its image. -/
def sectionOf (h : Elf32Phdr) (bytes : List UInt8) : ElfSection where
  img := bytes.map some ++ List.replicate (h.pMemsz - bytes.length) none
  stAddr := h.pVaddr
  size := h.pMemsz
  flags := h.pFlags
  align := h.pAlign

/-- The loop, for `k` headers of the table from `off` on. -/
def load (f : ElfFile) (table : List UInt8) :
    Nat → Nat → Nat → Option (Int × List (Elf32Phdr × ElfSection))
  | 0, _, _ => some (0, [])
  | k + 1, off, pos => do
    let type ← wordAt table off
    if type = ptInterp ∨ type = ptDynamic then return (-6, [])
    else if type = ptLoad then
      let h ← phdrAt table off
      let pos := lseek pos h.pOffset
      let bytes := f.read pos h.pFilesz
      if h.pMemsz < bytes.length then none
      else
        let (status, secs) ← f.load table k (off + sizeofPhdr) (pos + bytes.length)
        return (status, (h, sectionOf h bytes) :: secs)
    else f.load table k (off + sizeofPhdr) pos

/-- The status, and the image where it has been written. `locked` is whether `flock` gave the
lock. -/
def processImg (f : ElfFile) (locked : Bool) : Option (Int × Option DomainImage) :=
  if !locked then some (0, none)
  else if f.check ≠ 0 then some (f.check, none)
  else do
    let (table, pos) ← f.ePhdr
    let (status, sections) ← f.load table f.ePhnum 0 pos
    return (status, some { entryPoint := f.eEntry, sections })

end ElfFile

-- ---------------------------------------------------------------------------
-- Segments
-- ---------------------------------------------------------------------------

def loads (bs : List UInt8) (entsize : Nat) : Nat → Nat → Option (List Elf32Phdr)
  | 0, _ => some []
  | k + 1, off => do
    let type ← wordAt bs off
    if type = ptLoad then
      let h ← phdrAt bs off
      return h :: (← loads bs entsize k (off + entsize))
    else loads bs entsize k (off + entsize)

/-- Among `k` headers there is a PT_INTERP or a PT_DYNAMIC. -/
def Dynamic (table : List UInt8) (k off : Nat) : Prop :=
  ∃ i < k, wordAt table (off + sizeofPhdr * i) = some ptInterp ∨
    wordAt table (off + sizeofPhdr * i) = some ptDynamic

namespace ElfFile

def segments (f : ElfFile) : Option (List Elf32Phdr) :=
  loads f.bytes f.ePhentsize f.ePhnum f.ePhoff

/-- The section has the bytes of the segment, and zeros up to its size in memory. -/
structure Becomes (f : ElfFile) (h : Elf32Phdr) (s : ElfSection) : Prop where
  bytes : (f.read h.pOffset h.pFilesz).length = h.pFilesz
  img : s.img = (f.read h.pOffset h.pFilesz ++ List.replicate (h.pMemsz - h.pFilesz) 0).map some
  length : s.img.length = s.size
  stAddr : s.stAddr = h.pVaddr
  size : s.size = h.pMemsz
  flags : s.flags = h.pFlags
  align : s.align = h.pAlign

/-- The loader stays in its buffers; if it accepts the file, the segments have become the
sections of the image, in their order. -/
def Prepared (f : ElfFile) (locked : Bool) : Prop :=
  ∃ status img, f.processImg locked = some (status, img) ∧ (status = 0 → ∃ d, img = some d ∧
    d.entryPoint = f.eEntry ∧ f.segments = some (d.sections.map Prod.fst) ∧
    ∀ e ∈ d.sections, f.Becomes e.1 e.2)

/-- The segment has all its bytes in the file, and none but these. -/
structure Whole (f : ElfFile) (h : Elf32Phdr) : Prop where
  bytes : (f.read h.pOffset h.pFilesz).length = h.pFilesz
  memsz : h.pFilesz = h.pMemsz

/-- Up to the first PT_INTERP or PT_DYNAMIC, the headers are there, and no read delivers more
than the image of a segment takes. -/
def Fits (f : ElfFile) (table : List UInt8) : Nat → Nat → Nat → Prop
  | 0, _, _ => True
  | k + 1, off, pos =>
    match wordAt table off with
    | none => False
    | some type =>
      if type = ptInterp ∨ type = ptDynamic then True
      else if type = ptLoad then
        match phdrAt table off with
        | none => False
        | some h =>
          let bytes := f.read (lseek pos h.pOffset) h.pFilesz
          bytes.length ≤ h.pMemsz ∧
            f.Fits table k (off + sizeofPhdr) (lseek pos h.pOffset + bytes.length)
      else f.Fits table k (off + sizeofPhdr) pos

structure Loadable (f : ElfFile) (table : List UInt8) (pos : Nat) : Prop where
  fits : f.Fits table f.ePhnum 0 pos
  segments : ¬Dynamic table f.ePhnum 0 →
    loads table sizeofPhdr f.ePhnum 0 = f.segments ∧ ∀ hs, f.segments = some hs → ∀ h ∈ hs, f.Whole h

def Made (f : ElfFile) (e : Elf32Phdr × ElfSection) : Prop :=
  ∃ pos, (f.read (lseek pos e.1.pOffset) e.1.pFilesz).length ≤ e.1.pMemsz ∧
    e.2 = sectionOf e.1 (f.read (lseek pos e.1.pOffset) e.1.pFilesz)

section
variable {f : ElfFile} {table : List UInt8} {k off pos : Nat} {h : Elf32Phdr} {s : ElfSection}
  {e : Elf32Phdr × ElfSection}

theorem dynamic_succ : Dynamic table (k + 1) off ↔
    (wordAt table off = some ptInterp ∨ wordAt table off = some ptDynamic) ∨
      Dynamic table k (off + sizeofPhdr) := by
  have hnext (i : Nat) : off + sizeofPhdr * (i + 1) = off + sizeofPhdr + sizeofPhdr * i := by
    rw [Nat.mul_succ]
    omega
  constructor
  · rintro ⟨i, hi, hdyn⟩
    cases i with
    | zero => exact .inl (by simpa using hdyn)
    | succ i =>
      rw [hnext] at hdyn
      exact .inr ⟨i, Nat.lt_of_succ_lt_succ hi, hdyn⟩
  · rintro (hdyn | ⟨i, hi, hdyn⟩)
    · exact ⟨0, Nat.succ_pos k, by simpa using hdyn⟩
    · rw [← hnext] at hdyn
      exact ⟨i + 1, Nat.succ_lt_succ hi, hdyn⟩

theorem fits_of_load {r : Int × List (Elf32Phdr × ElfSection)}
    (hr : f.load table k off pos = some r) : f.Fits table k off pos := by
  induction k generalizing off pos r with
  | zero => trivial
  | succ k ih =>
    rw [load] at hr
    rw [Fits]
    cases ht : wordAt table off with
    | none => simp [ht] at hr
    | some type =>
      simp only [ht, Option.bind_eq_bind, Option.bind_some] at hr
      dsimp only
      split
      · trivial
      · rename_i hstop
        rw [if_neg hstop] at hr
        split
        · rename_i hload
          rw [if_pos hload] at hr
          cases hh : phdrAt table off with
          | none => simp [hh] at hr
          | some h =>
            simp only [hh, Option.bind_some] at hr
            split at hr
            · cases hr
            · rename_i hle
              obtain ⟨q, hq, -⟩ := Option.bind_eq_some_iff.mp hr
              exact ⟨Nat.le_of_not_lt hle, ih hq⟩
        · rename_i hload
          rw [if_neg hload] at hr
          exact ih hr

theorem load_dynamic (hfit : f.Fits table k off pos) (hdyn : Dynamic table k off) :
    ∃ secs, f.load table k off pos = some (-6, secs) := by
  induction k generalizing off pos with
  | zero =>
    obtain ⟨i, hi, -⟩ := hdyn
    exact absurd hi (Nat.not_lt_zero i)
  | succ k ih =>
    rw [Fits] at hfit
    rw [load]
    cases ht : wordAt table off with
    | none => simp [ht] at hfit
    | some type =>
      rw [dynamic_succ, ht] at hdyn
      simp only [ht] at hfit
      simp only [Option.bind_eq_bind, Option.bind_some]
      by_cases hstop : type = ptInterp ∨ type = ptDynamic
      · exact ⟨[], if_pos hstop⟩
      · have hdyn := hdyn.resolve_left (by simpa using hstop)
        rw [if_neg hstop] at hfit ⊢
        by_cases hload : type = ptLoad
        · rw [if_pos hload] at hfit ⊢
          cases hh : phdrAt table off with
          | none => simp [hh] at hfit
          | some h =>
            simp only [hh] at hfit
            obtain ⟨secs, hsecs⟩ := ih hfit.2 hdyn
            refine ⟨(h, sectionOf h (f.read (lseek pos h.pOffset) h.pFilesz)) :: secs, ?_⟩
            simp only [Option.bind_some, if_neg (Nat.not_lt.mpr hfit.1), hsecs, Option.pure_def]
        · rw [if_neg hload] at hfit ⊢
          exact ih hfit hdyn

theorem load_segments (hfit : f.Fits table k off pos) (hdyn : ¬Dynamic table k off) :
    ∃ secs, f.load table k off pos = some (0, secs) ∧
      loads table sizeofPhdr k off = some (secs.map Prod.fst) ∧ ∀ e ∈ secs, f.Made e := by
  induction k generalizing off pos with
  | zero => exact ⟨[], rfl, rfl, by simp⟩
  | succ k ih =>
    rw [Fits] at hfit
    rw [load, loads]
    cases ht : wordAt table off with
    | none => simp [ht] at hfit
    | some type =>
      rw [dynamic_succ, ht, not_or] at hdyn
      have hstop : ¬(type = ptInterp ∨ type = ptDynamic) := by simpa using hdyn.1
      simp only [ht, if_neg hstop] at hfit
      simp only [Option.bind_eq_bind, Option.bind_some, if_neg hstop]
      by_cases hload : type = ptLoad
      · rw [if_pos hload] at hfit ⊢
        rw [if_pos hload]
        cases hh : phdrAt table off with
        | none => simp [hh] at hfit
        | some h =>
          simp only [hh] at hfit
          obtain ⟨secs, hsecs, hloads, hmade⟩ := ih hfit.2 hdyn.2
          refine ⟨(h, sectionOf h (f.read (lseek pos h.pOffset) h.pFilesz)) :: secs, ?_, ?_, ?_⟩
          · simp only [Option.bind_some, if_neg (Nat.not_lt.mpr hfit.1), hsecs, Option.pure_def]
          · simp only [Option.bind_some, hloads, Option.pure_def, List.map_cons]
          · intro e he
            rcases List.mem_cons.mp he with rfl | he
            · exact ⟨pos, hfit.1, rfl⟩
            · exact hmade e he
      · rw [if_neg hload] at hfit ⊢
        rw [if_neg hload]
        exact ih hfit hdyn.2

theorem lseek_eq (hb : (f.read h.pOffset h.pFilesz).length = h.pFilesz) (hne : h.pFilesz ≠ 0) :
    lseek pos h.pOffset = h.pOffset := by
  have hlt := f.length_lt
  rw [read, List.length_take, List.length_drop] at hb
  exact if_pos (by omega)

theorem Made.becomes_iff (hm : f.Made e) : f.Becomes e.1 e.2 ↔ f.Whole e.1 := by
  obtain ⟨h, s⟩ := e
  obtain ⟨pos, hle, hs⟩ := hm
  dsimp only at hle hs ⊢
  subst hs
  have hread (hb : (f.read h.pOffset h.pFilesz).length = h.pFilesz) :
      f.read (lseek pos h.pOffset) h.pFilesz = f.read h.pOffset h.pFilesz := by
    by_cases hne : h.pFilesz = 0
    · simp [read, hne]
    · rw [lseek_eq hb hne]
  constructor
  · intro hb
    have himg := hb.img
    rw [hread hb.bytes] at himg hle
    rw [hb.bytes] at hle
    refine ⟨hb.bytes, ?_⟩
    -- a byte that has not been written is no zero
    by_contra hne
    have hpos : 0 < h.pMemsz - h.pFilesz := by omega
    have hmem : none ∈ (f.read h.pOffset h.pFilesz ++
        List.replicate (h.pMemsz - h.pFilesz) 0).map some := by
      rw [← himg, sectionOf, hb.bytes]
      exact List.mem_append_right _ (List.mem_replicate.mpr ⟨Nat.ne_of_gt hpos, rfl⟩)
    simp at hmem
  · intro hw
    have hzero : h.pMemsz - h.pFilesz = 0 := by
      rw [hw.memsz]
      exact Nat.sub_self _
    rw [hread hw.bytes]
    refine ⟨hw.bytes, ?_, ?_, rfl, rfl, rfl, rfl⟩
    · simp [sectionOf, hw.bytes, hzero]
    · have hsame := hw.memsz
      simp only [sectionOf, List.length_append, List.length_map, List.length_replicate, hw.bytes]
      omega

theorem prepared_table (hcheck : f.check = 0) (ht : f.ePhdr = some (table, pos)) :
    f.Prepared true ↔ f.Loadable table pos := by
  have himg : f.processImg true = (f.load table f.ePhnum 0 pos).bind fun r =>
      some (r.1, some { entryPoint := f.eEntry, sections := r.2 }) := by
    simp [processImg, hcheck, ht]
  constructor
  · rintro ⟨status, img, hr, hprep⟩
    rw [himg] at hr
    obtain ⟨r, hload, hr⟩ := Option.bind_eq_some_iff.mp hr
    obtain ⟨rfl, rfl⟩ := Prod.mk.inj (Option.some.inj hr)
    have hfit := fits_of_load hload
    refine ⟨hfit, fun hdyn => ?_⟩
    obtain ⟨secs, hsecs, hloads, hmade⟩ := load_segments hfit hdyn
    obtain rfl := Option.some.inj (hload.symm.trans hsecs)
    obtain ⟨d, hd, -, hsegs, hbecomes⟩ := hprep rfl
    obtain rfl := Option.some.inj hd
    refine ⟨hloads.trans hsegs.symm, fun hs hhs h hmem => ?_⟩
    obtain rfl := Option.some.inj (hsegs.symm.trans hhs)
    obtain ⟨e, he, rfl⟩ := List.mem_map.mp hmem
    exact (hmade e he).becomes_iff.mp (hbecomes e he)
  · intro hl
    by_cases hdyn : Dynamic table f.ePhnum 0
    · obtain ⟨secs, hload⟩ := load_dynamic hl.fits hdyn
      rw [Prepared, himg, hload]
      exact ⟨_, _, rfl, fun h => absurd h (by simp)⟩
    · obtain ⟨secs, hload, hloads, hmade⟩ := load_segments hl.fits hdyn
      obtain ⟨hsegs, hwhole⟩ := hl.segments hdyn
      rw [hloads] at hsegs
      rw [Prepared, himg, hload]
      refine ⟨_, _, rfl, fun _ => ⟨_, rfl, rfl, hsegs.symm, fun e he => ?_⟩⟩
      exact (hmade e he).becomes_iff.mpr (hwhole _ hsegs.symm _ (List.mem_map_of_mem he))

end

/-- For every file, the domain is prepared if and only if the lock is taken and, where the
header passes its tests, the table fits its buffer and can be loaded. -/
theorem prepared_iff (f : ElfFile) (locked : Bool) : f.Prepared locked ↔ locked = true ∧
    (f.check = 0 → ∃ table pos, f.ePhdr = some (table, pos) ∧ f.Loadable table pos) := by
  cases locked with
  | false =>
    refine iff_of_false ?_ (by simp)
    rintro ⟨status, img, hr, hprep⟩
    obtain ⟨rfl, rfl⟩ := Prod.mk.inj (Option.some.inj hr)
    obtain ⟨d, hd, -⟩ := hprep rfl
    cases hd
  | true =>
    rw [and_iff_right rfl]
    by_cases hcheck : f.check = 0
    · rw [imp_iff_right hcheck]
      cases ht : f.ePhdr with
      | none =>
        refine iff_of_false ?_ (by simp)
        rintro ⟨status, img, hr, -⟩
        simp [processImg, hcheck, ht] at hr
      | some r =>
        obtain ⟨table, pos⟩ := r
        rw [prepared_table hcheck ht]
        constructor
        · exact fun hl => ⟨table, pos, rfl, hl⟩
        · rintro ⟨table', pos', he, hl⟩
          obtain ⟨rfl, rfl⟩ := Prod.mk.inj (Option.some.inj he)
          exact hl
    · refine iff_of_true ?_ fun h => absurd h hcheck
      have himg : f.processImg true = some (f.check, none) := by simp [processImg, hcheck]
      exact ⟨f.check, none, himg, fun h => absurd h hcheck⟩

end ElfFile

/-- One segment, of four bytes in the file and eight in memory. -/
def bssFile : ElfFile where
  bytes := [0x7f, 0x45, 0x4c, 0x46, 1, 1, 1, 0, 0, 0, 0, 0, 0, 0, 0, 0, 2, 0, 3, 0, 1, 0, 0, 0, 0,
    0x80, 4, 8, 0x34, 0, 0, 0, 0, 0, 0, 0, 0, 0, 0, 0, 0x34, 0, 0x20, 0, 1, 0, 0, 0, 0, 0, 0, 0,
    1, 0, 0, 0, 0x54, 0, 0, 0, 0, 0x80, 4, 8, 0, 0, 0, 0, 4, 0, 0, 0, 8, 0, 0, 0, 7, 0, 0, 0, 0,
    0x10, 0, 0, 1, 2, 3, 4]
  header_le := by decide
  length_lt := by decide

/-- Nothing is written to the last four bytes. -/
theorem bssFile_not_prepared : ¬bssFile.Prepared true := by
  have himg : bssFile.processImg true = some (0, some ⟨0x8048000,
      [(⟨84, 0x8048000, 4, 8, 7, 4096⟩,
        ⟨[some 1, some 2, some 3, some 4, none, none, none, none], 0x8048000, 8, 7, 4096⟩)]⟩) := by
    decide +kernel
  rintro ⟨status, img, hr, hprep⟩
  rw [himg] at hr
  obtain ⟨rfl, rfl⟩ := Prod.mk.inj (Option.some.inj hr)
  obtain ⟨d, hd, -, -, hbecomes⟩ := hprep rfl
  obtain rfl := Option.some.inj hd
  have hlast := (hbecomes _ List.mem_cons_self).img
  revert hlast
  decide +kernel

end Xmertl.Xtratum.Xmloader
