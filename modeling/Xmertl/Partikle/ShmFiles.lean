import Xmertl.Partikle.FileTable
import Xmertl.Xtratum.Devices
import Xmertl.Xtratum.Load
import Xmertl.Xtratum.Shm

/-!
# Shared memory as files

`devshm.c`: the files of the minors, over the regions of the hypervisor and the page tables of
the domain. The driver keeps one record for a minor, however many descriptors are open on it.
Beside the code's data stand the pages that the mappings of each descriptor have taken.
-/

namespace Xmertl.Partikle

open Runs Xtratum

/-- The fields of `pshm_t` about the hypervisor's region. -/
structure PshmRegion where
  shmAddr : Nat
  shmXmminor : Int

/-- `record` goes on past its table as `files` does. `loaded` says whether the hypervisor has
the device. -/
structure ShmFiles (D : Type) where
  fs : Fs
  record : Nat → PshmRegion
  loaded : Bool
  shm : Shm D
  mm : Mm
  acquired : Nat → List Nat

inductive ShmFileCall (D : Type)
  /-- With what `malloc_ex` of the hypervisor answers. -/
  | open (path : List Char) (mode : BitVec 32) (answer : Option Block)
  | mmap (fd : Int) (start length : Nat)
  | truncate (fd : Int) (size : Nat)
  | close (fd : Int)
  /-- Other domains, and what else this one does to its pages. -/
  | elsewhere (loaded : Bool) (shm : Shm D) (mm : Mm)

/-- The digits come from the lowest one on. -/
def pshmMinorToName (minor : Nat) : List UInt8 :=
  ("shm".toList ++ (Nat.repr minor).toList.reverse).map fun c => c.toNat.toUInt8

def defaultShmAddr : Nat := 0x3000000

/-- What the build and the machine fix: the drivers, the domain, and the frame of each page of
the hypervisor. -/
structure ShmBuild (D : Type) extends Build where
  current : D
  kladdr : Nat → Nat

section
variable {D : Type} [DecidableEq D]

def Build.isShm (b : Build) (f : File) : Prop := f.type ≠ nodev ∧ f.type = b.devno 's'

instance (b : Build) (f : File) : Decidable (b.isShm f) := inferInstanceAs (Decidable (_ ∧ _))

namespace ShmFiles

-- ---------------------------------------------------------------------------
-- The hypervisor
-- ---------------------------------------------------------------------------

/-- The pages of a mapping or an unmapping of the region `minor`. -/
def regionCalls (b : ShmBuild D) (shm : XmShm D) : ShmCmd → List MmCall
  | .map vaddr =>
    xmShmMap vaddr shm.size.toNat fun i => b.kladdr (shm.vaStart.toNat / 0x1000 + i)
  | .unmap vaddr => xmShmUnmap vaddr shm.size.toNat
  | _ => []

/-- `xm_dev_ctl` on the device, for the word of a minor. -/
def xmDevCtl (b : ShmBuild D) (x : ShmFiles D) (xmminor : Int) (cmd : ShmCmd) :
    Option (ShmFiles D × Int) := do
  if !x.loaded then return (x, -enotty)
  let minor := (xmminor % 0x10000).toNat
  let (shm, ret) ← x.shm.xmShmIoctl b.current minor cmd
  if minor < xmShmCount then
    let mm ← (regionCalls b (shm.xshmList minor) cmd).foldlM Mm.step x.mm
    return ({ x with shm, mm }, ret)
  return ({ x with shm }, ret)

/-- Its answer is a number below 16, an error, or 16 where there is no room. -/
def shmOpenSys (b : ShmBuild D) (x : ShmFiles D) (name : List UInt8) (answer : Option Block) :
    Option (Shm D × Int) :=
  if !x.loaded then some (x.shm, -enodev)
  else x.shm.xmShmIoctl b.current xmShmCount (.create name answer)

def shmUnlinkSys (b : ShmBuild D) (x : ShmFiles D) (name : List UInt8) :
    Option (ShmFiles D × Int) := do
  if !x.loaded then return (x, -enodev)
  let (_, minor) ← x.shm.xmShmIoctl b.current xmShmCount (.exist name)
  if minor < xmShmCount ∧ minor ≥ 0 then
    let (shm, ret) ← x.shm.xmShmIoctl b.current minor.toNat .remove
    return ({ x with shm }, ret)
  return (x, 0)

-- ---------------------------------------------------------------------------
-- The driver
-- ---------------------------------------------------------------------------

def minor (x : ShmFiles D) (fd : Nat) : Nat := (x.fs.files fd).qid.path

def prtkShmOpened (b : ShmBuild D) (x : ShmFiles D) (minor : Nat) (answer : Option Block) :
    Option (ShmFiles D) := do
  let (shm, shmXmminor) ← x.shmOpenSys b (pshmMinorToName minor) answer
  return { x with
    shm
    record := Function.update x.record minor { x.record minor with shmXmminor } }

def openSys (b : ShmBuild D) (x : ShmFiles D) (path : List Char) (mode : BitVec 32)
    (answer : Option Block) : Option (ShmFiles D × Answer) :=
  match x.fs.openSys b.toBuild path mode with
  | (fs, .error e) => some ({ x with fs }, .error e)
  | (fs, .ok fd) => do
    let x : ShmFiles D := { x with fs, acquired := Function.update x.acquired fd [] }
    if b.isShm (x.fs.files fd) ∧ x.minor fd < prtkShmCount then
      return (← x.prtkShmOpened b (x.minor fd) answer, .ok fd)
    return (x, .ok fd)

def taken (before after : Mm) (pages : List Nat) : List Nat :=
  pages.filter fun v => !(before.mapping v).present && (after.mapping v).present

/-- The aligned address that it computes is not used. -/
def prtkShmMmap (b : ShmBuild D) (x : ShmFiles D) (fd : Nat) (start length : Nat) :
    Option (ShmFiles D × Int) := do
  let minor := x.minor fd
  let xmminor := (x.record minor).shmXmminor
  let (x, err) ← x.xmDevCtl b xmminor (.truncate length)
  if err ≠ 0 then return (x, -1)
  let start := if start = 0 then defaultShmAddr else start
  let (y, err) ← x.xmDevCtl b xmminor (.map start)
  if err ≠ 0 then return (y, -1)
  let pages := pagesFrom (start / 0x1000 * 0x1000)
    (shmPages start (x.shm.xshmList (xmminor % 0x10000)).size.toNat)
  return ({ y with
    record := Function.update y.record minor { y.record minor with shmAddr := start }
    acquired := Function.update y.acquired fd (y.acquired fd ++ taken x.mm y.mm pages) }, 0)

/-- `prtk_shm_ioctl`, for PRTK_SHM_TRUNCATE. -/
def prtkShmTruncate (b : ShmBuild D) (x : ShmFiles D) (fd : Nat) (size : Nat) :
    Option (ShmFiles D × Int) := do
  if x.minor fd ≥ prtkShmCount then return (x, 0)
  let (x, _) ← x.xmDevCtl b (x.record (x.minor fd)).shmXmminor (.truncate size)
  return (x, 0)

def prtkShmClose (b : ShmBuild D) (x : ShmFiles D) (fd : Nat) : Option (ShmFiles D) := do
  let minor := x.minor fd
  if minor < prtkShmCount then
    let (x, _) ← x.xmDevCtl b (x.record minor).shmXmminor (.unmap (x.record minor).shmAddr)
    let (x, _) ← x.shmUnlinkSys b (pshmMinorToName minor)
    return x
  return x

def devclose (b : ShmBuild D) (x : ShmFiles D) (fd : Int) : Option (ShmFiles D) :=
  if x.fs.checkfd fd ∧ b.isShm (x.fs.files fd.toNat) then
    (x.prtkShmClose b fd.toNat).map fun y =>
      { y with acquired := Function.update y.acquired fd.toNat [] }
  else some x

def closeSys (b : ShmBuild D) (x : ShmFiles D) (fd : Int) : Option (ShmFiles D × Answer) :=
  (x.devclose b fd).map fun y =>
    let r := x.fs.closeSys b.toBuild fd
    ({ y with fs := r.1 }, r.2)

/-- A mapping or truncation through a file of another driver does nothing here. -/
def onShm (b : ShmBuild D) (x : ShmFiles D) (fd : Int)
    (f : Nat → Option (ShmFiles D × Int)) : Option (ShmFiles D) :=
  if x.fs.checkfd fd ∧ b.isShm (x.fs.files fd.toNat) then (f fd.toNat).map Prod.fst else some x

/-- After a write past an array nothing is known. -/
def step (b : ShmBuild D) (x : ShmFiles D) (c : ShmFileCall D) : Option (ShmFiles D) :=
  if x.fs.intact then
    match c with
    | .open path mode answer => (x.openSys b path mode answer).map Prod.fst
    | .mmap fd start length => x.onShm b fd fun fd => x.prtkShmMmap b fd start length
    | .truncate fd size => x.onShm b fd fun fd => x.prtkShmTruncate b fd size
    | .close fd => (x.closeSys b fd).map Prod.fst
    | .elsewhere loaded shm mm => some { x with loaded, shm, mm }
  else none

/-- The table at the start of the system, over any state of the rest. -/
def start (beyond : Nat → File) (record : Nat → PshmRegion) (loaded : Bool) (shm : Shm D)
    (mm : Mm) : ShmFiles D :=
  { fs := (FileTable.start beyond).fs, record, loaded, shm, mm, acquired := fun _ => [] }

-- ---------------------------------------------------------------------------
-- The lifecycle
-- ---------------------------------------------------------------------------

def opened (b : ShmBuild D) (x : ShmFiles D) (minor : Nat) : Nat :=
  (List.range maxFiles).countP fun fd => b.isShm (x.fs.files fd) ∧ x.minor fd = minor

def Counts (b : ShmBuild D) (x : ShmFiles D) : Prop :=
  ∀ minor < prtkShmCount, (x.fs.pshm minor).shmUsers = x.opened b minor

def opens (b : ShmBuild D) (x : ShmFiles D) (path : List Char) (mode : BitVec 32) :
    Option (Nat × Nat) :=
  match x.fs.openSys b.toBuild path mode with
  | (_, .error _) => none
  | (fs, .ok fd) =>
    let minor := (fs.files fd).qid.path
    if b.isShm (fs.files fd) ∧ minor < prtkShmCount then some (fd, minor) else none

/-- The hypervisor's answer for a minor is one of its regions. -/
def Answers (b : ShmBuild D) (x : ShmFiles D) (minor : Nat) (answer : Option Block) : Prop :=
  ∀ shm i, x.shmOpenSys b (pshmMinorToName minor) answer = some (shm, i) → 0 ≤ i ∧ i < xmShmCount

def closes (b : ShmBuild D) (x : ShmFiles D) (fd : Int) : Option Nat :=
  if x.fs.checkfd fd ∧ b.isShm (x.fs.files fd.toNat) ∧ x.minor fd.toNat < prtkShmCount then
    some (x.minor fd.toNat)
  else none

/-- An open that the hypervisor refuses fails and leaves no descriptor and no count, and a
close unmaps what the descriptor's mappings have taken and nothing else, and takes back the
count. -/
def Undoes (b : ShmBuild D) (x : ShmFiles D) : ShmFileCall D → Prop
  | .open path mode answer => ∀ fd minor, x.opens b path mode = some (fd, minor) →
    ¬x.Answers b minor answer → ∀ y r, x.openSys b path mode answer = some (y, r) →
    (∃ e, r = .error e) ∧ y.fs.files = x.fs.files ∧
      (y.fs.pshm minor).shmUsers = (x.fs.pshm minor).shmUsers
  | .close fd => ∀ minor, x.closes b fd = some minor → ∀ y r, x.closeSys b fd = some (y, r) →
    (∀ v < pageOffset, y.mm.mapping v =
      if v / 0x1000 * 0x1000 ∈ x.acquired fd.toNat then {} else x.mm.mapping v) ∧
    (y.fs.pshm minor).shmUsers = (x.fs.pshm minor).shmUsers - 1
  | .mmap _ _ _ | .truncate _ _ | .elsewhere _ _ _ => True

/-- The condition: no file of a minor is closed, and no minor is opened that the hypervisor
refuses. -/
def Admits (b : ShmBuild D) (x : ShmFiles D) : ShmFileCall D → Prop
  | .open path mode answer => ∀ fd minor, x.opens b path mode = some (fd, minor) →
    x.Answers b minor answer
  | .close fd => x.closes b fd = none
  | .mmap _ _ _ | .truncate _ _ | .elsewhere _ _ _ => True

variable {b : ShmBuild D} {x y : ShmFiles D} {c : ShmFileCall D} {minor fd : Nat} {r : Int}

-- ---------------------------------------------------------------------------
-- What the calls leave
-- ---------------------------------------------------------------------------

theorem xmDevCtl_fs {xmminor : Int} {cmd : ShmCmd} (h : x.xmDevCtl b xmminor cmd = some (y, r)) :
    y.fs = x.fs := by
  rw [xmDevCtl] at h
  split at h
  · rw [← (Prod.mk.inj (Option.some.inj h)).1]
  obtain ⟨⟨shm, ret⟩, -, h⟩ := Option.bind_eq_some_iff.mp h
  dsimp only at h
  split at h
  · obtain ⟨mm, -, h⟩ := Option.bind_eq_some_iff.mp h
    rw [← (Prod.mk.inj (Option.some.inj h)).1]
  · rw [← (Prod.mk.inj (Option.some.inj h)).1]

theorem prtkShmMmap_fs {start length : Nat} (h : x.prtkShmMmap b fd start length = some (y, r)) :
    y.fs = x.fs := by
  rw [prtkShmMmap] at h
  obtain ⟨⟨z, err⟩, hz, h⟩ := Option.bind_eq_some_iff.mp h
  dsimp only at h
  split at h
  · rw [← (Prod.mk.inj (Option.some.inj h)).1, xmDevCtl_fs hz]
  obtain ⟨⟨w, err'⟩, hw, h⟩ := Option.bind_eq_some_iff.mp h
  dsimp only at h
  split at h
  · rw [← (Prod.mk.inj (Option.some.inj h)).1, xmDevCtl_fs hw, xmDevCtl_fs hz]
  · rw [← (Prod.mk.inj (Option.some.inj h)).1, xmDevCtl_fs hw, xmDevCtl_fs hz]

theorem prtkShmTruncate_fs {size : Nat} (h : x.prtkShmTruncate b fd size = some (y, r)) :
    y.fs = x.fs := by
  rw [prtkShmTruncate] at h
  split at h
  · rw [← (Prod.mk.inj (Option.some.inj h)).1]
  obtain ⟨⟨z, err⟩, hz, h⟩ := Option.bind_eq_some_iff.mp h
  rw [← (Prod.mk.inj (Option.some.inj h)).1, xmDevCtl_fs hz]

omit [DecidableEq D] in
theorem onShm_fs {fd : Int} {f : Nat → Option (ShmFiles D × Int)} (h : x.onShm b fd f = some y)
    (hf : ∀ fd y r, f fd = some (y, r) → y.fs = x.fs) : y.fs = x.fs := by
  rw [onShm] at h
  split at h
  · obtain ⟨⟨z, r⟩, hz, rfl⟩ := Option.map_eq_some_iff.mp h
    exact hf _ z r hz
  · rw [← Option.some.inj h]

theorem closeSys_fs {fd : Int} {a : Answer} (h : x.closeSys b fd = some (y, a)) :
    y.fs = (x.fs.closeSys b.toBuild fd).1 := by
  obtain ⟨z, -, h⟩ := Option.map_eq_some_iff.mp h
  rw [← (Prod.mk.inj h).1]

end ShmFiles

end

section
variable {b : Build} {s s' : Fs} {path : List Char} {mode : BitVec 32} {dev : Dev} {a : Answer}

-- ---------------------------------------------------------------------------
-- Users and descriptors
-- ---------------------------------------------------------------------------

theorem freefd_pshm (s : Fs) (fd : Int) : (s.freefd fd).pshm = s.pshm := by
  rw [Fs.freefd]
  split
  · rfl
  · rfl

theorem closeSys_pshm (s : Fs) (fd : Int) : (s.closeSys b fd).1.pshm = s.pshm := by
  rw [Fs.closeSys]
  split
  swap
  · rfl
  dsimp only
  split
  · rfl
  next dev _ =>
    rw [freefd_pshm]
    cases dev with
    | rtf =>
      dsimp only [Fs.devclose, Fs.rtfclose]
      split
      · rfl
      · rfl
    | test => exact freefd_pshm s _
    | cons | root | shm | uart | trace => rfl

theorem driver_pshm {check : Check} {undo : Bool} {full : FileErrno} {use : Nat → Qid → Fs}
    (huse : ∀ fd qid, (use fd qid).pshm = s.pshm) :
    (s.driver check undo full use).1.pshm = s.pshm := by
  rw [Fs.driver.eq_def]
  split
  · rfl
  dsimp only
  split
  · split
    · exact freefd_pshm s _
    · rfl
  · exact huse _ _

theorem devopen_pshm (hdev : dev ≠ .shm) : (s.devopen b path mode dev).1.pshm = s.pshm := by
  cases dev with
  | shm => exact absurd rfl hdev
  | root =>
    dsimp only [Fs.devopen, Fs.rootopen]
    split
    · rfl
    · exact driver_pshm fun _ _ => rfl
  | cons | rtf | uart | trace | test => exact driver_pshm fun _ _ => rfl

theorem shmopen_users {fd : Nat} (h : s.devopen b path mode .shm = (s', .ok fd)) {minor : Nat}
    (hminor : minor < prtkShmCount) : (s'.pshm minor).shmUsers = (s.pshm minor).shmUsers +
      if (s'.files fd).qid.path = minor then 1 else 0 := by
  dsimp only [Fs.devopen, Fs.prtkShmOpen] at h
  rw [Fs.driver.eq_def] at h
  split at h
  · exact absurd (Prod.mk.inj h).2 nofun
  next qid _ =>
    dsimp only at h
    split at h
    · exact absurd (Prod.mk.inj h).2 nofun
    · obtain ⟨rfl, hfd⟩ := Prod.mk.inj h
      obtain rfl := Except.ok.inj hfd
      split
      next hctl => simp [Fs.set, hctl, Nat.ne_of_gt hminor]
      next hctl =>
        by_cases he : qid.path = minor
        · simp [Fs.set, he]
        · simp [Fs.set, he, Ne.symm he]

theorem shmopen_error {e : Option FileErrno} (h : s.devopen b path mode .shm = (s', .error e)) :
    s'.pshm = s.pshm := by
  dsimp only [Fs.devopen, Fs.prtkShmOpen] at h
  rw [Fs.driver.eq_def] at h
  split at h
  · rw [← (Prod.mk.inj h).1]
  dsimp only at h
  split at h
  · rw [← (Prod.mk.inj h).1]
    exact freefd_pshm s _
  · exact absurd (Prod.mk.inj h).2 nofun

theorem openSys_error {e : Option FileErrno} (h : s.openSys b path mode = (s', .error e)) :
    s'.pshm = s.pshm := by
  rcases openSys_cases s path mode with ⟨dev, -, he⟩ | ⟨z, e, he, -, hpshm⟩
  · rw [he] at h
    by_cases hdev : dev = .shm
    · subst hdev
      exact shmopen_error h
    · exact (congrArg (·.1.pshm) h).symm.trans (devopen_pshm hdev)
  · rw [← (Prod.mk.inj (he.symm.trans h)).1, hpshm]

theorem openSys_users {fd : Nat} (h : s.openSys b path mode = (s', .ok fd)) {minor : Nat}
    (hminor : minor < prtkShmCount) : (s'.pshm minor).shmUsers = (s.pshm minor).shmUsers +
      if b.isShm (s'.files fd) ∧ (s'.files fd).qid.path = minor then 1 else 0 := by
  rcases openSys_cases s path mode with ⟨dev, hmem, he⟩ | ⟨z, e, he, -⟩
  · rw [he] at h
    have htype := (devopen_ok h).2.2
    by_cases hdev : dev = .shm
    · subst hdev
      have hshm : b.isShm (s'.files fd) := ⟨htype ▸ devno_ne_nodev hmem, htype⟩
      simp only [hshm, true_and]
      exact shmopen_users h hminor
    · have hother : ¬b.isShm (s'.files fd) := fun hshm =>
        hdev ((devno_inj hmem).mp (htype.symm.trans hshm.2))
      have hpshm : s'.pshm = s.pshm := (congrArg (·.1.pshm) h).symm.trans (devopen_pshm hdev)
      rw [if_neg fun h => hother h.1, Int.add_zero, hpshm]
  · exact absurd (Prod.mk.inj (he.symm.trans h)).2 nofun

theorem openSys_ok {fd : Nat} (h : s.openSys b path mode = (s', .ok fd)) :
    fd < maxFiles ∧ (s.files fd).type = nodev := by
  rcases openSys_cases s path mode with ⟨dev, -, he⟩ | ⟨z, e, he, -⟩
  · obtain ⟨hlt, hfree, -⟩ := devopen_ok (he.symm.trans h)
    exact ⟨hlt, hfree⟩
  · exact absurd (Prod.mk.inj (he.symm.trans h)).2 nofun

theorem countP_slot {p q : Nat → Bool} {fd : Nat} (hlt : fd < maxFiles) (hp : p fd = false)
    (h : ∀ n < maxFiles, n ≠ fd → q n = p n) :
    (List.range maxFiles).countP q = (List.range maxFiles).countP p + if q fd then 1 else 0 := by
  have hperm := List.perm_cons_erase (List.mem_range.mpr hlt)
  have hrest : ((List.range maxFiles).erase fd).countP q =
      ((List.range maxFiles).erase fd).countP p := by
    refine List.countP_congr fun n hn => ?_
    obtain ⟨hne, hmem⟩ := (List.nodup_range.mem_erase_iff).mp hn
    rw [h n (List.mem_range.mp hmem) hne]
  rw [hperm.countP_eq, hperm.countP_eq p, List.countP_cons, List.countP_cons, hp, hrest]
  rfl

end

section
variable {D : Type} [DecidableEq D] {b : ShmBuild D} {x y : ShmFiles D} {c : ShmFileCall D}
  {minor fd : Nat}

namespace ShmFiles

-- ---------------------------------------------------------------------------
-- Calls
-- ---------------------------------------------------------------------------

omit [DecidableEq D] in
theorem counts_of_fs (hx : x.Counts b) (h : y.fs = x.fs) : y.Counts b := by
  intro minor hminor
  rw [opened, h]
  simp only [ShmFiles.minor, h]
  exact hx minor hminor

theorem openSys_fs {path : List Char} {mode : BitVec 32} {answer : Option Block} {a : Answer}
    (h : x.openSys b path mode answer = some (y, a)) :
    x.fs.openSys b.toBuild path mode = (y.fs, a) := by
  rw [openSys] at h
  split at h
  next he =>
    obtain ⟨rfl, rfl⟩ := Prod.mk.inj (Option.some.inj h)
    exact he
  next fs fd he =>
    dsimp only at h
    split at h
    · obtain ⟨z, hz, h⟩ := Option.bind_eq_some_iff.mp h
      obtain ⟨rfl, rfl⟩ := Prod.mk.inj (Option.some.inj h)
      rw [prtkShmOpened] at hz
      obtain ⟨⟨shm, i⟩, -, hz⟩ := Option.bind_eq_some_iff.mp hz
      rw [← Option.some.inj hz]
      exact he
    · obtain ⟨rfl, rfl⟩ := Prod.mk.inj (Option.some.inj h)
      exact he

theorem open_counts (hx : x.Counts b) {path : List Char} {mode : BitVec 32}
    {answer : Option Block} {a : Answer} (h : x.openSys b path mode answer = some (y, a)) :
    y.Counts b := by
  have hfs := openSys_fs h
  intro minor hminor
  cases a with
  | error e =>
    rw [openSys_error hfs, hx minor hminor]
    refine congrArg Nat.cast (List.countP_congr fun n hn => ?_)
    rw [ShmFiles.minor, ShmFiles.minor, openSys_files hfs (List.mem_range.mp hn) nofun]
  | ok fd =>
    obtain ⟨hlt, hfree⟩ := openSys_ok hfs
    have hfree : ¬(b.isShm (x.fs.files fd) ∧ x.minor fd = minor) := fun h => h.1.1 hfree
    have hslots := countP_slot (p := fun n => b.isShm (x.fs.files n) ∧ x.minor n = minor)
      (q := fun n => b.isShm (y.fs.files n) ∧ y.minor n = minor) hlt (decide_eq_false hfree)
      fun n hn hne => by
        have hfile := openSys_files hfs hn fun he => hne (Except.ok.inj he).symm
        rw [decide_eq_decide, ShmFiles.minor, ShmFiles.minor, hfile]
    rw [openSys_users hfs hminor, hx minor hminor, opened, opened, hslots, Int.natCast_add]
    congr 1
    by_cases hnew : b.isShm (y.fs.files fd) ∧ y.minor fd = minor
    · rw [if_pos (decide_eq_true hnew)]
      exact if_pos hnew
    · rw [if_neg (mt of_decide_eq_true hnew)]
      exact if_neg hnew

theorem close_counts (hx : x.Counts b) {fd : Int} {a : Answer} (hnone : x.closes b fd = none)
    (h : x.closeSys b fd = some (y, a)) : y.Counts b := by
  intro minor hminor
  rw [closeSys_fs h, closeSys_pshm, hx minor hminor]
  refine congrArg Nat.cast (List.countP_congr fun n hn => ?_)
  rw [ShmFiles.minor, ShmFiles.minor, closeSys_fs h]
  have hslot : (x.fs.closeSys b.toBuild fd).1.files n = x.fs.files n ∨ _ := closeSys_files n
  rcases hslot with hsame | ⟨hcheck, rfl, hreset⟩
  · rw [hsame]
  · rw [closes] at hnone
    have hshm : ¬(b.isShm (x.fs.files fd.toNat) ∧ x.minor fd.toNat < prtkShmCount) := fun hshm => by
      rw [if_pos ⟨hcheck, hshm⟩] at hnone
      exact nomatch hnone
    rw [hreset, decide_eq_true_iff, decide_eq_true_iff]
    refine iff_of_false (fun h => hshm ⟨h.1, ?_⟩) fun h => h.1.1 rfl
    exact Nat.lt_of_le_of_lt (Nat.le_of_eq h.2) hminor

theorem counts_step (hx : x.Counts b) (hc : x.Admits b c) (hs : x.step b c = some y) :
    y.Counts b := by
  rw [step.eq_def] at hs
  split at hs
  swap
  · contradiction
  cases c with
  | «open» path mode answer =>
    obtain ⟨⟨z, a⟩, h, rfl⟩ := Option.map_eq_some_iff.mp hs
    exact open_counts hx h
  | mmap fd start length => exact counts_of_fs hx (onShm_fs hs fun _ _ _ => prtkShmMmap_fs)
  | truncate fd size => exact counts_of_fs hx (onShm_fs hs fun _ _ _ => prtkShmTruncate_fs)
  | close fd =>
    obtain ⟨⟨z, a⟩, h, rfl⟩ := Option.map_eq_some_iff.mp hs
    exact close_counts hx hc h
  | elsewhere loaded shm mm => exact counts_of_fs hx (Option.some.inj hs ▸ rfl)

theorem undoes_iff (hs : x.step b c = some y) : x.Undoes b c ↔ x.Admits b c := by
  rw [step.eq_def] at hs
  split at hs
  swap
  · contradiction
  cases c with
  | mmap _ _ _ | truncate _ _ | elsewhere _ _ _ => exact Iff.rfl
  | «open» path mode answer =>
    obtain ⟨⟨z, a⟩, h, rfl⟩ := Option.map_eq_some_iff.mp hs
    constructor
    · intro hundo fd minor hopens
      by_contra hrefused
      obtain ⟨⟨e, rfl⟩, -⟩ := hundo fd minor hopens hrefused z a h
      rw [opens, openSys_fs h] at hopens
      exact nomatch hopens
    · intro hanswers fd minor hopens hrefused
      exact absurd (hanswers fd minor hopens) hrefused
  | close fd =>
    obtain ⟨⟨z, a⟩, h, rfl⟩ := Option.map_eq_some_iff.mp hs
    constructor
    · intro hundo
      refine Option.eq_none_iff_forall_ne_some.mpr fun minor hcloses => ?_
      have husers := (hundo minor hcloses z a h).2
      rw [closeSys_fs h, closeSys_pshm] at husers
      omega
    · intro hnone minor hcloses
      rw [Admits] at hnone
      rw [hnone] at hcloses
      exact nomatch hcloses

-- ---------------------------------------------------------------------------
-- Runs
-- ---------------------------------------------------------------------------

omit [DecidableEq D] in
theorem start_counts (beyond : Nat → File) (record : Nat → PshmRegion) (loaded : Bool)
    (shm : Shm D) (mm : Mm) : (start beyond record loaded shm mm).Counts b := by
  intro minor hminor
  have hfree (fd : Nat) (hlt : fd < maxFiles) :
      ¬b.isShm ((start beyond record loaded shm mm).fs.files fd) := by
    rw [start, FileTable.start]
    dsimp only
    rw [if_pos hlt]
    exact fun h => h.1 rfl
  have hnone : (start beyond record loaded shm mm).opened b minor = 0 := by
    refine List.countP_eq_zero.mpr fun fd hmem h => ?_
    exact hfree fd (List.mem_range.mp hmem) (of_decide_eq_true h).1
  rw [hnone]
  rfl

/-- In a run every minor counts its open descriptors, every open that the hypervisor refuses
leaves nothing and every close undoes what its descriptor has acquired, if and only if the
hypervisor refuses no open and no descriptor of a minor is closed. -/
theorem lifecycle_iff {beyond : Nat → File} {record : Nat → PshmRegion} {loaded : Bool}
    {shm : Shm D} {mm : Mm} {tr : List (ShmFiles D × ShmFileCall D)}
    (hr : Run (step b) (start beyond record loaded shm mm) tr x) :
    ((∀ y, Visited tr x y → y.Counts b) ∧ ∀ e ∈ tr, e.1.Undoes b e.2) ↔
      ∀ e ∈ tr, e.1.Admits b e.2 := by
  constructor
  · rintro ⟨-, hundo⟩ ⟨z, c⟩ he
    obtain ⟨w, hs, -⟩ := hr.post_visited he
    exact (undoes_iff hs).mp (hundo _ he)
  · intro h
    refine ⟨fun y hy => ?_, fun ⟨z, c⟩ he => ?_⟩
    · exact hr.invariant_visited (start_counts beyond record loaded shm mm)
        (fun _ _ _ hz hc hs => counts_step hz hc hs) h hy
    · obtain ⟨w, hs, -⟩ := hr.post_visited he
      exact (undoes_iff hs).mpr (h _ he)

end ShmFiles

end

def shmBuild : ShmBuild Unit where
  toBuild := xmI386
  current := ()
  kladdr := fun i => 0x100 + i

/-- A domain with one page, at address 0. -/
def onePage : Mm where
  mem := fun table i =>
    if table = 1 ∧ i = 0 then ⟨2, pagePresent⟩
    else if table = 2 ∧ i = 0 then ⟨3, pagePresent⟩
    else {}
  pd := 1
  pool := [3, 2, 1]
  freed := []
  answers := [some 4]
  foreign := fun page => decide (0x100 ≤ page)

def shmStart : ShmFiles Unit :=
  .start (fun _ => .reset) (fun _ => ⟨0, 0⟩) true .init onePage

theorem lifecycle_two_descriptors : ∃ tr x, Run (ShmFiles.step shmBuild) shmStart tr x ∧
    (x.fs.pshm 3).shmUsers = 2 ∧ x.acquired 1 = [0x3000000, 0x3001000] ∧
    (((∀ y, Visited tr x y → y.Counts shmBuild) ∧ ∀ e ∈ tr, e.1.Undoes shmBuild e.2) ↔
      ∀ e ∈ tr, e.1.Admits shmBuild e.2) := by
  have h : ((exec (ShmFiles.step shmBuild) shmStart
      [.open "/dev/shm/3".toList 0 (some ⟨0x10000, 0x9000⟩), .open "/dev/shm/3".toList 0 none,
        .truncate 0 0x3000, .mmap 1 0 0x2000]).any fun r =>
      decide ((r.2.fs.pshm 3).shmUsers = 2 ∧ r.2.acquired 1 = [0x3000000, 0x3001000])) = true := by
    decide +kernel
  obtain ⟨tr, x, hr, hx⟩ := exec_any h
  obtain ⟨husers, hacquired⟩ := of_decide_eq_true hx
  exact ⟨tr, x, hr, husers, hacquired, ShmFiles.lifecycle_iff hr⟩

/-- A minor is opened and closed, and not mapped: its count stays, and the close unmaps the
first page of the domain. -/
theorem close_keeps_count : ∃ tr x, Run (ShmFiles.step shmBuild) shmStart tr x ∧
    (x.fs.pshm 3).shmUsers = 1 ∧ x.opened shmBuild 3 = 0 ∧
    (shmStart.mm.mapping 0).present = true ∧ x.mm.mapping 0 = {} ∧
    ¬((∀ y, Visited tr x y → y.Counts shmBuild) ∧ ∀ e ∈ tr, e.1.Undoes shmBuild e.2) := by
  have h : ((exec (ShmFiles.step shmBuild) shmStart
      [.open "/dev/shm/3".toList 0 (some ⟨0x10000, 0x9000⟩), .close 0]).any fun r =>
      decide ((r.2.fs.pshm 3).shmUsers = 1 ∧ r.2.opened shmBuild 3 = 0 ∧
        (shmStart.mm.mapping 0).present = true ∧ r.2.mm.mapping 0 = {})) = true := by
    decide +kernel
  obtain ⟨tr, x, hr, hx⟩ := exec_any h
  obtain ⟨husers, hopened, hpage, hgone⟩ := of_decide_eq_true hx
  refine ⟨tr, x, hr, husers, hopened, hpage, hgone, fun ⟨hcounts, _⟩ => ?_⟩
  have hcount := hcounts x .self 3 (by decide)
  rw [husers, hopened] at hcount
  exact absurd hcount (by decide)

end Xmertl.Partikle
