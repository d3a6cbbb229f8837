import Mathlib.Data.List.Perm.Subperm
import Xmertl.Lib.Runs
import Xmertl.Partikle.Fs

/-!
# Descriptors

Calls of `open_sys` and `close_sys` one after another, with the descriptors that are open. At
the start none is; `consinit` opens `/dev/console/cons` three times.
-/

namespace Xmertl.Partikle

open Runs

/-- With the descriptors that opens have answered and closes have not closed. -/
structure FileTable where
  fs : Fs
  held : List Nat

inductive FileCall
  | open (path : List Char) (mode : BitVec 32)
  | close (fd : Int)

def Fs.Full (s : Fs) : Prop := ∀ fd < maxFiles, (s.files fd).type ≠ nodev

namespace FileTable

def call (b : Build) (x : FileTable) : FileCall → FileTable × Answer
  | .open path mode =>
    match x.fs.openSys b path mode with
    | (fs, .ok fd) => (⟨fs, fd :: x.held⟩, .ok fd)
    | (fs, .error e) => (⟨fs, x.held⟩, .error e)
  | .close fd =>
    match x.fs.closeSys b fd with
    | (fs, .ok r) => (⟨fs, x.held.erase fd.toNat⟩, .ok r)
    | (fs, .error e) => (⟨fs, x.held⟩, .error e)

/-- After a write past an array nothing is known. -/
def step (b : Build) (x : FileTable) (c : FileCall) : Option FileTable :=
  if x.fs.intact then some (x.call b c).1 else none

def start (beyond : Nat → File) : FileTable :=
  { fs :=
      { files := fun fd => if fd < maxFiles then .reset else beyond fd
        fifos := fun _ => ⟨0, 0⟩
        pshm := fun _ => ⟨0, 0⟩
        intact := true }
    held := [] }

end FileTable

def Build.isFifo (b : Build) (minor : Nat) (f : File) : Bool :=
  decide (f.type = b.devno 'f') && decide (f.qid.path = minor)

/-- The open descriptors are distinct, are the taken slots of the table, and are counted. -/
structure FileTable.Consistent (b : Build) (x : FileTable) : Prop where
  intact : x.fs.intact = true
  distinct : x.held.Nodup
  inRange : ∀ fd ∈ x.held, fd < maxFiles
  taken : ∀ fd < maxFiles, fd ∈ x.held ↔ (x.fs.files fd).type ≠ nodev
  users : ∀ minor < fifoCount, (x.fs.fifos minor).rtfUser =
    x.held.countP fun (fd : Nat) => b.isFifo minor (x.fs.files fd)

namespace FileTable

/-- An open that fails changes nothing, a close only the descriptor that it frees. -/
def Keeps (b : Build) (x : FileTable) : FileCall → Prop
  | .open path mode => ∀ e, (x.call b (.open path mode)).2 = .error e →
    (x.call b (.open path mode)).1 = x
  | .close fd =>
    let y := x.call b (.close fd)
    (∀ n ∈ x.held, fd = n → y.2 = .ok 0 ∧ y.1.held = x.held.erase n ∧
      y.1.fs.files = Function.update x.fs.files n .reset) ∧
    ((∀ n ∈ x.held, fd ≠ n) → y.1 = x)

end FileTable

def Dev.check (b : Build) (name : List Char) : Dev → Check
  | .cons => consqid name
  | .root => rootqid b name
  | .rtf => rtfqid name
  | .shm => shmqid name
  | .uart => uartqid b name
  | .trace => traceqid name
  | .test => .ok ⟨0, 0, 0⟩

/-- Those that give back the slot past a full table. -/
def Dev.undoes : Dev → Bool
  | .cons | .rtf | .shm | .trace => true
  | .root | .uart | .test => false

/-- The condition: the path fits the arrays it is copied to, and where the table is full, a
driver that would give back the slot past it finds that slot as `freefd` leaves it. -/
def FileTable.Sound (b : Build) (x : FileTable) : FileCall → Prop
  | .open path _ =>
    match b.target path with
    | .unknown => True
    | .overrun => False
    | .driver dev => (dev = .root → rootOverruns path = false) ∧
      (dev.undoes → (∃ qid, dev.check b path = .ok qid) → x.fs.Full →
        x.fs.files maxFiles = .reset)
  | .close _ => True

structure Takes (b : Build) (s : Fs) (dev : Dev) (fd : Nat) (s' : Fs) : Prop where
  files : ∃ f, s'.files = Function.update s.files fd f ∧ f.type = b.devno dev.dc ∧
    (dev = .rtf → f.qid.path < fifoCount) ∧
    ∀ minor, (s'.fifos minor).rtfUser =
      (s.fifos minor).rtfUser + if dev = .rtf ∧ f.qid.path = minor then 1 else 0
  intact : s'.intact = s.intact

inductive Opens (b : Build) (s : Fs) (name : List Char) (dev : Dev) : Fs × Answer → Prop
  | undone {qid : Qid} {e : Option FileErrno} (h : dev.check b name = .ok qid) (hfull : s.Full)
    (hundo : dev.undoes = true) : Opens b s name dev (s.set maxFiles .reset, .error e)
  | refused {e : Option FileErrno} (h : ¬(dev.undoes ∧ ∃ qid, dev.check b name = .ok qid)) :
    Opens b s name dev (s, .error e)
  | taken {fd : Nat} {s' : Fs} (hlt : fd < maxFiles) (hfree : (s.files fd).type = nodev)
    (h : Takes b s dev fd s') : Opens b s name dev (s', .ok fd)

/-- A taken slot is a driver's, and a FIFO's has its minor. -/
structure FileTable.Inv (b : Build) (x : FileTable) : Prop extends x.Consistent b where
  typed : ∀ fd ∈ x.held, ∃ dev ∈ b.devtab, (x.fs.files fd).type = b.devno dev.dc ∧
    (dev = .rtf → (x.fs.files fd).qid.path < fifoCount)

section
variable {b : Build} {x y : FileTable} {s s' : Fs} {dev : Dev} {path name : List Char}
  {mode : BitVec 32} {c : FileCall} {fd : Nat}

-- ---------------------------------------------------------------------------
-- Slots
-- ---------------------------------------------------------------------------

theorem newfd_full (h : maxFiles ≤ s.newfd) : s.newfd = maxFiles ∧ s.Full := by
  rw [Fs.newfd] at h ⊢
  cases hf : (List.range maxFiles).find? fun (fd : Nat) => (s.files fd).type = nodev with
  | none =>
    refine ⟨rfl, fun fd hlt => ?_⟩
    simpa using List.find?_eq_none.mp hf fd (List.mem_range.mpr hlt)
  | some fd =>
    rw [hf, Option.getD_some] at h
    have hlt := List.mem_range.mp (List.mem_of_find?_eq_some hf)
    omega

theorem newfd_free (h : s.newfd < maxFiles) : (s.files s.newfd).type = nodev := by
  rw [Fs.newfd] at h ⊢
  cases hf : (List.range maxFiles).find? fun (fd : Nat) => (s.files fd).type = nodev with
  | none =>
    rw [hf, Option.getD_none] at h
    omega
  | some fd => simpa using List.find?_some hf

theorem freefd_of_le (h : fd ≤ maxFiles) : s.freefd fd = s.set fd .reset := by
  rw [Fs.freefd, if_neg (by omega), Int.toNat_natCast]

theorem devno_spec (h : dev ∈ b.devtab) :
    0 ≤ b.devno dev.dc ∧ b.devtab[(b.devno dev.dc).toNat]? = some dev := by
  rw [Build.devno]
  cases hf : b.devtab.findIdx? (·.dc = dev.dc) with
  | none =>
    have hne := List.findIdx?_eq_none_iff.mp hf dev h
    simp at hne
  | some i =>
    obtain ⟨hlt, hdc, -⟩ := List.findIdx?_eq_some_iff_getElem.mp hf
    have hdev : b.devtab[i] = dev := by
      have hdc : b.devtab[i].dc = dev.dc := by simpa using hdc
      revert hdc
      cases b.devtab[i] <;> cases dev <;> simp [Dev.dc]
    refine ⟨Int.natCast_nonneg i, ?_⟩
    rw [Int.toNat_natCast, List.getElem?_eq_getElem hlt, hdev]

theorem devno_inj {dev' : Dev} (h : dev ∈ b.devtab) :
    b.devno dev.dc = b.devno dev'.dc ↔ dev = dev' := by
  constructor
  · intro he
    have hdev := (devno_spec h).2
    have hnonneg := (devno_spec h).1
    rw [he] at hdev hnonneg
    rw [Build.devno] at hdev hnonneg
    cases hf : b.devtab.findIdx? (·.dc = dev'.dc) with
    | none =>
      rw [hf] at hnonneg
      exact absurd hnonneg (by decide)
    | some i =>
      obtain ⟨hlt, hdc, -⟩ := List.findIdx?_eq_some_iff_getElem.mp hf
      rw [hf] at hdev
      dsimp only at hdev
      rw [Int.toNat_natCast, List.getElem?_eq_getElem hlt] at hdev
      rw [Option.some.inj hdev] at hdc
      revert hdc
      cases dev <;> cases dev' <;> simp [Dev.dc]
  · rintro rfl
    rfl

theorem devno_rtf (h : dev ∈ b.devtab) : b.devno dev.dc = b.devno 'f' ↔ dev = .rtf := by
  have hrtf : b.devno dev.dc = b.devno Dev.rtf.dc ↔ dev = .rtf := devno_inj h
  exact hrtf

theorem devno_ne_nodev (h : dev ∈ b.devtab) : b.devno dev.dc ≠ nodev := by
  have hnonneg := (devno_spec h).1
  intro he
  rw [he] at hnonneg
  exact absurd hnonneg (by decide)

-- ---------------------------------------------------------------------------
-- The drivers
-- ---------------------------------------------------------------------------

theorem opens_driver (dev : Dev) {full : FileErrno} {use : Nat → Qid → Fs}
    (huse : ∀ fd qid, dev.check b name = .ok qid → Takes b s dev fd (use fd qid)) :
    Opens b s name dev (s.driver (dev.check b name) dev.undoes full use) := by
  cases hcheck : dev.check b name with
  | error e =>
    refine .refused fun h => ?_
    obtain ⟨qid, hq⟩ := h.2
    rw [hcheck] at hq
    exact nomatch hq
  | ok qid =>
    dsimp only [Fs.driver]
    by_cases hle : s.newfd ≥ maxFiles
    · obtain ⟨hfd, hfull⟩ := newfd_full hle
      rw [if_pos hle, hfd, freefd_of_le (Nat.le_refl _)]
      split
      next hundo => exact .undone hcheck hfull hundo
      next hundo => exact .refused fun h => hundo h.1
    · have hlt := Nat.lt_of_not_le hle
      rw [if_neg hle]
      exact .taken hlt (newfd_free hlt) (huse s.newfd qid hcheck)

theorem Takes.of_set {f : File} (hne : dev ≠ .rtf) (hf : f.type = b.devno dev.dc) :
    Takes b s dev fd (s.set fd f) := by
  refine ⟨⟨f, rfl, hf, fun he => absurd he hne, fun minor => ?_⟩, rfl⟩
  rw [if_neg (fun h => hne h.1), Int.add_zero]
  rfl

theorem Takes.pshm {pshm : Nat → Pshm} (h : Takes b s dev fd s') :
    Takes b s dev fd { s' with pshm } := ⟨h.files, h.intact⟩

theorem rtfqid_lt {qid : Qid} (h : rtfqid name = .ok qid) : qid.path < fifoCount := by
  rw [rtfqid] at h
  split at h
  · exact absurd h (by simp)
  next c mn _ =>
    extract_lets minor at h
    split at h
    · exact absurd h (by simp)
    next hrange =>
      rw [← Except.ok.inj h]
      dsimp only
      rw [fifoCount] at hrange ⊢
      omega

theorem Takes.rtf {qid : Qid} {rtfFlags : BitVec 32} {f : File} (hlt : qid.path < fifoCount)
    (hf : f.type = b.devno 'f') (hpath : f.qid.path = qid.path) :
    Takes b s .rtf fd
      (Fs.set { s with
        fifos := Function.update s.fifos qid.path
          ⟨(s.fifos qid.path).rtfUser + 1, rtfFlags⟩ } fd f) := by
  refine ⟨⟨f, rfl, hf, fun _ => hpath ▸ hlt, fun minor => ?_⟩, rfl⟩
  dsimp only [Fs.set]
  rw [hpath]
  by_cases he : qid.path = minor
  · rw [he, Function.update_self, if_pos ⟨rfl, rfl⟩]
  · rw [Function.update_of_ne (Ne.symm he), if_neg (fun h => he h.2), Int.add_zero]

theorem devopen_opens (hroot : dev = .root → rootOverruns name = false) :
    Opens b s name dev (s.devopen b name mode dev) := by
  cases dev with
  | cons =>
    dsimp only [Fs.devopen, Fs.consopen]
    refine opens_driver .cons fun _ _ _ => ?_
    exact .of_set (by decide) rfl
  | root =>
    dsimp only [Fs.devopen, Fs.rootopen]
    rw [hroot rfl, if_neg Bool.false_ne_true]
    refine opens_driver .root fun _ _ _ => ?_
    exact .of_set (by decide) rfl
  | rtf =>
    dsimp only [Fs.devopen, Fs.rtfopen]
    refine opens_driver .rtf fun fd qid hq => ?_
    exact .rtf (rtfqid_lt hq) rfl rfl
  | shm =>
    dsimp only [Fs.devopen, Fs.prtkShmOpen]
    refine opens_driver .shm fun _ _ _ => ?_
    split
    · exact .of_set (by decide) rfl
    · exact .pshm (.of_set (by decide) rfl)
  | uart =>
    dsimp only [Fs.devopen, Fs.uartopen]
    refine opens_driver .uart fun _ _ _ => ?_
    exact .of_set (by decide) rfl
  | trace =>
    dsimp only [Fs.devopen, Fs.traceopen]
    refine opens_driver .trace fun _ _ _ => ?_
    exact .of_set (by decide) rfl
  | test =>
    dsimp only [Fs.devopen, Fs.testopen]
    refine opens_driver .test fun _ _ _ => ?_
    exact .of_set (by decide) rfl

theorem target_mem (h : b.target path = .driver dev) : dev ∈ b.devtab := by
  rw [Build.target] at h
  split at h
  · rw [← Target.driver.inj h]
    exact b.root_mem
  · dsimp only at h
    split at h
    · exact absurd h Target.noConfusion
    split at h
    · exact absurd h Target.noConfusion
    split at h
    · exact absurd h Target.noConfusion
    next hfind =>
      rw [← Target.driver.inj h]
      exact List.mem_of_find?_eq_some hfind

theorem devopen_files {a : Answer} {n : Nat} (h : s.devopen b name mode dev = (s', a))
    (hn : n < maxFiles) (ha : a ≠ .ok n) : s'.files n = s.files n := by
  by_cases hover : dev = .root ∧ rootOverruns name = true
  · obtain ⟨rfl, hover⟩ := hover
    dsimp only [Fs.devopen, Fs.rootopen] at h
    rw [if_pos hover] at h
    rw [← (Prod.mk.inj h).1]
    rfl
  · have hopens : Opens b s name dev (s.devopen b name mode dev) :=
      devopen_opens fun hroot => Bool.eq_false_iff.mpr fun ho => hover ⟨hroot, ho⟩
    rw [h] at hopens
    cases hopens with
    | undone => exact Function.update_of_ne (Nat.ne_of_lt hn) ..
    | refused => rfl
    | @taken fd _ _ _ htakes =>
      obtain ⟨f, hfiles, -⟩ := htakes.files
      rw [hfiles]
      have hne : n ≠ fd := fun he => ha (congrArg Except.ok he.symm)
      exact Function.update_of_ne hne ..

theorem devopen_ok (h : s.devopen b name mode dev = (s', .ok fd)) :
    fd < maxFiles ∧ (s.files fd).type = nodev ∧ (s'.files fd).type = b.devno dev.dc := by
  by_cases hover : dev = .root ∧ rootOverruns name = true
  · obtain ⟨rfl, hover⟩ := hover
    dsimp only [Fs.devopen, Fs.rootopen] at h
    rw [if_pos hover] at h
    exact absurd (Prod.mk.inj h).2 nofun
  · have hopens : Opens b s name dev (s.devopen b name mode dev) :=
      devopen_opens fun hroot => Bool.eq_false_iff.mpr fun ho => hover ⟨hroot, ho⟩
    rw [h] at hopens
    cases hopens with
    | taken hlt hfree htakes =>
      obtain ⟨f, hfiles, hf, -⟩ := htakes.files
      refine ⟨hlt, hfree, ?_⟩
      rw [hfiles, Function.update_self, hf]

theorem openSys_cases (s : Fs) (path : List Char) (mode : BitVec 32) :
    (∃ dev ∈ b.devtab, s.openSys b path mode = s.devopen b path mode dev) ∨
      ∃ s' e, s.openSys b path mode = (s', .error e) ∧ s'.files = s.files ∧ s'.pshm = s.pshm := by
  rw [Fs.openSys.eq_def]
  cases htarget : b.target path with
  | driver dev => exact .inl ⟨dev, target_mem htarget, rfl⟩
  | unknown => exact .inr ⟨s, _, rfl, rfl, rfl⟩
  | overrun => exact .inr ⟨s.lost, _, rfl, rfl, rfl⟩

theorem openSys_files {a : Answer} {n : Nat} (h : s.openSys b path mode = (s', a))
    (hn : n < maxFiles) (ha : a ≠ .ok n) : s'.files n = s.files n := by
  rcases openSys_cases s path mode with ⟨dev, -, he⟩ | ⟨z, e, he, hfiles, -⟩
  · exact devopen_files (he.symm.trans h) hn ha
  · rw [← (Prod.mk.inj (he.symm.trans h)).1, hfiles]

-- ---------------------------------------------------------------------------
-- Invariant
-- ---------------------------------------------------------------------------

theorem isFifo_iff {f : File} {minor : Nat} (hdev : dev ∈ b.devtab) (h : f.type = b.devno dev.dc) :
    b.isFifo minor f = true ↔ dev = .rtf ∧ f.qid.path = minor := by
  rw [Build.isFifo, Bool.and_eq_true, decide_eq_true_iff, decide_eq_true_iff, h, devno_rtf hdev]

theorem countP_update {l : List Nat} {files : Nat → File} {f : File} {p : File → Bool}
    (hfd : fd ∉ l) :
    l.countP (fun (n : Nat) => p (Function.update files fd f n)) = l.countP fun n => p (files n) := by
  refine List.countP_congr fun n hn => ?_
  have hne : n ≠ fd := fun he => hfd (he ▸ hn)
  rw [Function.update_of_ne hne]

theorem start_inv (beyond : Nat → File) : (FileTable.start beyond).Inv b where
  intact := rfl
  distinct := List.nodup_nil
  inRange _ h := absurd h List.not_mem_nil
  taken fd hlt := by simp [FileTable.start, hlt, File.reset]
  users _ _ := rfl
  typed _ h := absurd h List.not_mem_nil

theorem open_inv (hx : x.Inv b) (hdev : dev ∈ b.devtab) (hlt : fd < maxFiles)
    (hfree : (x.fs.files fd).type = nodev) (h : Takes b x.fs dev fd s') :
    FileTable.Inv b ⟨s', fd :: x.held⟩ := by
  obtain ⟨f, hfiles, htype, hpath, hfifos⟩ := h.files
  have hnew : fd ∉ x.held := fun hm => (hx.taken fd hlt).mp hm hfree
  refine ⟨⟨h.intact.trans hx.intact, List.nodup_cons.mpr ⟨hnew, hx.distinct⟩, ?_, ?_, ?_⟩, ?_⟩
  · exact List.forall_mem_cons.mpr ⟨hlt, hx.inRange⟩
  · intro n hn
    dsimp only
    rw [List.mem_cons, hfiles]
    by_cases he : n = fd
    · subst he
      rw [Function.update_self, htype]
      exact iff_of_true (.inl rfl) (devno_ne_nodev hdev)
    · rw [Function.update_of_ne he, or_iff_right he]
      exact hx.taken n hn
  · intro minor hminor
    dsimp only
    rw [hfifos, List.countP_cons, hfiles, countP_update hnew, Function.update_self,
      hx.users minor hminor, Int.natCast_add]
    congr 1
    by_cases hf : dev = .rtf ∧ f.qid.path = minor
    · rw [if_pos hf, if_pos ((isFifo_iff hdev htype).mpr hf)]
      rfl
    · rw [if_neg hf, if_neg (fun he => hf ((isFifo_iff hdev htype).mp he))]
      rfl
  · refine List.forall_mem_cons.mpr ⟨⟨dev, hdev, ?_⟩, fun n hn => ?_⟩
    · dsimp only
      rw [hfiles, Function.update_self]
      exact ⟨htype, hpath⟩
    · have hne : n ≠ fd := fun he => hnew (he ▸ hn)
      dsimp only
      rw [hfiles, Function.update_of_ne hne]
      exact hx.typed n hn

-- ---------------------------------------------------------------------------
-- Closing
-- ---------------------------------------------------------------------------

theorem toInt_of_lt {n : Nat} (h : n < fifoCount) : toInt n = n := by
  rw [fifoCount] at h
  rw [toInt, BitVec.toInt_ofNat', Int.bmod_eq_of_le] <;> omega

theorem rtfclose_spec (h : (s.files fd).qid.path < fifoCount) :
    (s.rtfclose fd).files = s.files ∧ (s.rtfclose fd).intact = s.intact ∧
      ∀ minor, ((s.rtfclose fd).fifos minor).rtfUser =
        (s.fifos minor).rtfUser - if (s.files fd).qid.path = minor then 1 else 0 := by
  have hlt := h
  rw [fifoCount] at hlt
  rw [Fs.rtfclose]
  dsimp only
  rw [toInt_of_lt h, if_neg (by rw [fifoCount]; omega)]
  refine ⟨rfl, rfl, fun minor => ?_⟩
  dsimp only
  rw [Int.toNat_natCast]
  by_cases he : (s.files fd).qid.path = minor
  · rw [he, Function.update_self, if_pos rfl]
  · rw [Function.update_of_ne (Ne.symm he), if_neg he, Int.sub_zero]

theorem devclose_set (hlt : fd < maxFiles) (hrtf : dev ≠ .rtf) :
    (s.devclose fd dev).set fd .reset = s.set fd .reset := by
  cases dev with
  | rtf => exact absurd rfl hrtf
  | test =>
    dsimp only [Fs.devclose, Fs.testclose]
    rw [freefd_of_le (Nat.le_of_lt hlt)]
    exact congrArg (fun files => { s with files }) (Function.update_idem _ _ _)
  | cons | root | shm | uart | trace => rfl

theorem devclose_spec (hlt : fd < maxFiles) (hdev : dev ∈ b.devtab)
    (htype : (s.files fd).type = b.devno dev.dc)
    (hpath : dev = .rtf → (s.files fd).qid.path < fifoCount) :
    ((s.devclose fd dev).freefd fd).files = Function.update s.files fd .reset ∧
      ((s.devclose fd dev).freefd fd).intact = s.intact ∧
      ∀ minor, (((s.devclose fd dev).freefd fd).fifos minor).rtfUser =
        (s.fifos minor).rtfUser - if b.isFifo minor (s.files fd) then 1 else 0 := by
  rw [freefd_of_le (Nat.le_of_lt hlt)]
  by_cases hrtf : dev = .rtf
  · subst hrtf
    obtain ⟨hfiles, hintact, hfifos⟩ := rtfclose_spec (hpath rfl)
    refine ⟨?_, hintact, fun minor => ?_⟩
    · exact congrArg (fun (files : Nat → File) => Function.update files fd .reset) hfiles
    · refine (hfifos minor).trans ?_
      simp only [isFifo_iff hdev htype, true_and]
  · rw [devclose_set hlt hrtf]
    refine ⟨rfl, rfl, fun minor => ?_⟩
    have hnone : ¬b.isFifo minor (s.files fd) = true := fun h => hrtf ((isFifo_iff hdev htype).mp h).1
    rw [if_neg hnone, Int.sub_zero]
    rfl

theorem freefd_files {fd : Int} (n : Nat) : (s.freefd fd).files n = s.files n ∨
    n = fd.toNat ∧ (s.freefd fd).files n = .reset := by
  rw [Fs.freefd]
  split
  · exact .inl rfl
  · by_cases hn : n = fd.toNat
    · subst hn
      exact .inr ⟨rfl, Function.update_self ..⟩
    · exact .inl (Function.update_of_ne hn ..)

theorem devclose_files (n : Nat) : (s.devclose fd dev).files n = s.files n ∨
    n = fd ∧ (s.devclose fd dev).files n = .reset := by
  cases dev with
  | rtf =>
    refine .inl ?_
    dsimp only [Fs.devclose, Fs.rtfclose]
    split
    · rfl
    · rfl
  | test => exact freefd_files n
  | cons | root | shm | uart | trace => exact .inl rfl

theorem closeSys_files {fd : Int} (n : Nat) : (s.closeSys b fd).1.files n = s.files n ∨
    s.checkfd fd = true ∧ n = fd.toNat ∧ (s.closeSys b fd).1.files n = .reset := by
  rw [Fs.closeSys]
  split
  swap
  · exact .inl rfl
  next hcheck =>
    dsimp only
    split
    · exact .inl rfl
    next dev _ =>
      have hfree : ((s.devclose fd.toNat dev).freefd fd).files n = _ ∨ _ := freefd_files n
      rcases hfree with h | ⟨hn, h⟩
      · rw [h]
        exact (devclose_files n).imp_right fun h => ⟨hcheck, h⟩
      · exact .inr ⟨hcheck, hn, h⟩

theorem closeSys_spec (hx : x.Inv b) (hm : fd ∈ x.held) :
    ∃ s', x.fs.closeSys b fd = (s', .ok 0) ∧ s'.intact = true ∧
      s'.files = Function.update x.fs.files fd .reset ∧
      ∀ minor, (s'.fifos minor).rtfUser = (x.fs.fifos minor).rtfUser -
        if b.isFifo minor (x.fs.files fd) then 1 else 0 := by
  have hlt := hx.inRange fd hm
  obtain ⟨dev, hdev, htype, hpath⟩ := hx.typed fd hm
  have hcheck : x.fs.checkfd fd = true := by
    simp only [Fs.checkfd, Bool.and_eq_true, decide_eq_true_iff, Int.toNat_natCast]
    exact ⟨⟨Int.natCast_nonneg fd, Int.ofNat_lt.mpr hlt⟩, (hx.taken fd hlt).mp hm⟩
  obtain ⟨hfiles, hintact, hfifos⟩ := devclose_spec hlt hdev htype hpath
  refine ⟨(x.fs.devclose fd dev).freefd fd, ?_, hintact.trans hx.intact, hfiles, hfifos⟩
  rw [Fs.closeSys, if_pos hcheck]
  dsimp only
  rw [Int.toNat_natCast, htype, if_pos (devno_spec hdev).1, (devno_spec hdev).2]

theorem closeSys_refused {fd : Int} (hx : x.Inv b) (hm : ∀ n ∈ x.held, fd ≠ n) :
    x.fs.closeSys b fd = (x.fs, .error (some .ebadf)) := by
  have hcheck : x.fs.checkfd fd = false := by
    rw [← Bool.not_eq_true, Fs.checkfd]
    simp only [Bool.and_eq_true, decide_eq_true_iff]
    rintro ⟨⟨h₀, hlt⟩, htype⟩
    have hmem := (hx.taken fd.toNat (by omega)).mpr htype
    exact hm fd.toNat hmem (Int.toNat_of_nonneg h₀).symm
  rw [Fs.closeSys, hcheck, if_neg Bool.false_ne_true]

theorem close_inv (hx : x.Inv b) (hm : fd ∈ x.held) (hintact : s'.intact = true)
    (hfiles : s'.files = Function.update x.fs.files fd .reset)
    (hfifos : ∀ minor, (s'.fifos minor).rtfUser = (x.fs.fifos minor).rtfUser -
      if b.isFifo minor (x.fs.files fd) then 1 else 0) :
    FileTable.Inv b ⟨s', x.held.erase fd⟩ := by
  have hgone : fd ∉ x.held.erase fd := hx.distinct.not_mem_erase
  have hkept {n : Nat} (hn : n ∈ x.held.erase fd) : n ≠ fd ∧ n ∈ x.held :=
    hx.distinct.mem_erase_iff.mp hn
  refine ⟨⟨hintact, hx.distinct.erase fd, fun n hn => hx.inRange n (hkept hn).2, ?_, ?_⟩, ?_⟩
  · intro n hn
    dsimp only
    rw [hx.distinct.mem_erase_iff, hfiles]
    by_cases he : n = fd
    · subst he
      rw [Function.update_self]
      exact iff_of_false (fun h => h.1 rfl) (fun h => h rfl)
    · rw [Function.update_of_ne he, and_iff_right he]
      exact hx.taken n hn
  · intro minor hminor
    dsimp only
    rw [hfifos, hfiles, countP_update hgone, hx.users minor hminor]
    have hcount := (List.perm_cons_erase hm).countP_eq fun (n : Nat) => b.isFifo minor (x.fs.files n)
    rw [hcount, List.countP_cons]
    split <;> omega
  · intro n hn
    dsimp only
    rw [hfiles, Function.update_of_ne (hkept hn).1]
    exact hx.typed n (hkept hn).2

-- ---------------------------------------------------------------------------
-- Calls
-- ---------------------------------------------------------------------------

theorem call_open_ok (h : x.fs.openSys b path mode = (s', .ok fd)) :
    x.call b (.open path mode) = (⟨s', fd :: x.held⟩, .ok fd) := by
  rw [FileTable.call, h]

theorem call_open_error {e : Option FileErrno} (h : x.fs.openSys b path mode = (s', .error e)) :
    x.call b (.open path mode) = (⟨s', x.held⟩, .error e) := by
  rw [FileTable.call, h]

theorem open_cases (hsound : x.Sound b (.open path mode)) :
    (∃ e, x.call b (.open path mode) = (x, .error e)) ∨
    ∃ dev ∈ b.devtab, ∃ fd s', fd < maxFiles ∧ (x.fs.files fd).type = nodev ∧
      Takes b x.fs dev fd s' ∧ x.call b (.open path mode) = (⟨s', fd :: x.held⟩, .ok fd) := by
  rw [FileTable.Sound] at hsound
  cases ht : b.target path with
  | unknown => exact .inl ⟨_, call_open_error (by rw [Fs.openSys, ht])⟩
  | overrun =>
    rw [ht] at hsound
    exact hsound.elim
  | driver dev =>
    rw [ht] at hsound
    have hopen : x.fs.openSys b path mode = x.fs.devopen b path mode dev := by rw [Fs.openSys, ht]
    have hopens : Opens b x.fs path dev (x.fs.openSys b path mode) :=
      hopen ▸ devopen_opens hsound.1
    generalize hr : x.fs.openSys b path mode = r at hopens
    cases hopens with
    | undone hq hfull hundo =>
      have hset : x.fs.set maxFiles .reset = x.fs := by
        rw [← hsound.2 hundo ⟨_, hq⟩ hfull, Fs.set, Function.update_eq_self]
      rw [hset] at hr
      exact .inl ⟨_, call_open_error hr⟩
    | refused h => exact .inl ⟨_, call_open_error hr⟩
    | taken hlt hfree h =>
      exact .inr ⟨dev, target_mem ht, _, _, hlt, hfree, h, call_open_ok hr⟩

theorem call_inv (hx : x.Inv b) (hsound : x.Sound b c) : (x.call b c).1.Inv b := by
  cases c with
  | «open» path mode =>
    rcases open_cases hsound with ⟨e, hc⟩ | ⟨dev, hdev, fd, s', hlt, hfree, h, hc⟩
    · rw [hc]
      exact hx
    · rw [hc]
      exact open_inv hx hdev hlt hfree h
  | close fd =>
    by_cases hm : ∃ n ∈ x.held, fd = n
    · obtain ⟨n, hm, rfl⟩ := hm
      obtain ⟨s', hc, hintact, hfiles, hfifos⟩ := closeSys_spec hx hm
      rw [FileTable.call, hc]
      exact close_inv hx hm hintact hfiles hfifos
    · rw [FileTable.call, closeSys_refused hx fun n hn he => hm ⟨n, hn, he⟩]
      exact hx

theorem call_keeps (hx : x.Inv b) (hsound : x.Sound b c) : x.Keeps b c := by
  cases c with
  | «open» path mode =>
    intro e he
    rcases open_cases hsound with ⟨e', hc⟩ | ⟨dev, -, fd, s', -, -, -, hc⟩
    · rw [hc]
    · rw [hc] at he
      exact nomatch he
  | close fd =>
    refine ⟨?_, fun hm => ?_⟩
    · rintro n hm rfl
      obtain ⟨s', hc, -, hfiles, -⟩ := closeSys_spec hx hm
      rw [FileTable.call, hc]
      exact ⟨rfl, rfl, hfiles⟩
    · rw [FileTable.call, closeSys_refused hx hm]

theorem not_keeps_lost (hintact : x.fs.intact = true)
    (h : x.fs.openSys b path mode = (x.fs.lost, .error none)) : ¬x.Keeps b (.open path mode) := by
  intro hkeeps
  have hsame := hkeeps none (by rw [call_open_error h])
  rw [call_open_error h] at hsame
  have hlost : x.fs.lost = x.fs := congrArg FileTable.fs hsame
  have hfalse : false = x.fs.intact := congrArg Fs.intact hlost
  rw [hintact] at hfalse
  exact Bool.false_ne_true hfalse

theorem sound_of_keeps (hintact : x.fs.intact = true) (h : x.Keeps b c) : x.Sound b c := by
  cases c with
  | close fd => trivial
  | «open» path mode =>
    rw [FileTable.Sound]
    cases ht : b.target path with
    | unknown => trivial
    | overrun => exact not_keeps_lost hintact (by rw [Fs.openSys, ht]) h
    | driver dev =>
      have hopen : x.fs.openSys b path mode = x.fs.devopen b path mode dev := by
        rw [Fs.openSys, ht]
      have hroot : dev = .root → rootOverruns path = false := by
        rintro rfl
        by_contra hover
        refine not_keeps_lost hintact ?_ h
        rw [hopen]
        dsimp only [Fs.devopen, Fs.rootopen]
        rw [if_pos (Bool.not_eq_false _ ▸ hover)]
      refine ⟨hroot, fun hundo hcheck hfull => ?_⟩
      have hopens : Opens b x.fs path dev (x.fs.openSys b path mode) := hopen ▸ devopen_opens hroot
      generalize hr : x.fs.openSys b path mode = r at hopens
      cases hopens with
      | refused hnot => exact absurd ⟨hundo, hcheck⟩ hnot
      | taken hlt hfree _ => exact absurd hfree (hfull _ hlt)
      | undone _ _ _ =>
        have hsame := h _ (by rw [call_open_error hr])
        rw [call_open_error hr] at hsame
        have hfs : x.fs.set maxFiles .reset = x.fs := congrArg FileTable.fs hsame
        have hslot := congrFun (congrArg Fs.files hfs) maxFiles
        rw [← hslot]
        exact Function.update_self maxFiles File.reset x.fs.files

-- ---------------------------------------------------------------------------
-- Runs
-- ---------------------------------------------------------------------------

theorem step_some (h : x.step b c = some y) : (x.call b c).1 = y := by
  obtain ⟨-, hy⟩ := Option.ite_none_right_eq_some.mp h
  exact Option.some.inj hy

/-- Descriptors are distinct, in range and counted, and failures change nothing, as long as the
paths fit and a full table is not given back onto foreign memory. -/
theorem descriptors_iff {beyond : Nat → File} {tr : List (FileTable × FileCall)}
    (hr : Run (FileTable.step b) (.start beyond) tr x) :
    ((∀ y, Visited tr x y → y.Consistent b) ∧ ∀ e ∈ tr, e.1.Keeps b e.2) ↔
      ∀ e ∈ tr, e.1.Sound b e.2 := by
  constructor
  · rintro ⟨hall, hkeeps⟩ e he
    exact sound_of_keeps (hall e.1 (.pre he)).intact (hkeeps e he)
  · intro hsound
    have hinv (y : FileTable) (hy : Visited tr x y) : y.Inv b :=
      hr.invariant_visited (C := fun x c => x.Sound b c) (start_inv beyond)
        (fun x c y hx hc hs => step_some hs ▸ call_inv hx hc) hsound hy
    exact ⟨fun y hy => (hinv y hy).toConsistent,
      fun e he => call_keeps (hinv e.1 (.pre he)) (hsound e he)⟩

end

/-- The bytes of `path` up to a NUL, where nothing is between it and the name. -/
def Qid.pathBytes (q : Qid) : List Char :=
  ((List.range 8).map fun i => Char.ofNat (q.path >>> (8 * i) % 256)).takeWhile (·.toNat ≠ 0)

/-- The build of `xm_i386`, on a machine with one serial port. -/
def xmI386 : Build where
  arch := .xmI386
  devtab := [.cons, .root, .rtf, .shm, .uart]
  uartnuart := 1
  roottab := [⟨[], ⟨0, 0, 0x80⟩, 0, Nat.zero_le knamelen⟩]
  after := Qid.pathBytes
  root_mem := by decide

theorem descriptors_two_users : ∃ tr x, Run (FileTable.step xmI386) (.start fun _ => .reset) tr x ∧
    x.held = [1, 2, 0] ∧ (x.fs.fifos 3).rtfUser = 1 ∧
    (((∀ y, Visited tr x y → y.Consistent xmI386) ∧ ∀ e ∈ tr, e.1.Keeps xmI386 e.2) ↔
      ∀ e ∈ tr, e.1.Sound xmI386 e.2) := by
  have h : ((exec (FileTable.step xmI386) (.start fun _ => .reset)
      [.open "/dev/console/cons".toList 0, .open "/dev/rtf3".toList 0, .open "/dev/rtf/3".toList 1,
        .close 1, .open "/dev/uart/eia0ctl".toList 0]).any fun r =>
      decide (r.2.held = [1, 2, 0] ∧ (r.2.fs.fifos 3).rtfUser = 1)) = true := by
    decide +kernel
  obtain ⟨tr, x, hr, hx⟩ := exec_any h
  obtain ⟨hheld, huser⟩ := of_decide_eq_true hx
  exact ⟨tr, x, hr, hheld, huser, descriptors_iff hr⟩

-- ---------------------------------------------------------------------------
-- A full table
-- ---------------------------------------------------------------------------

theorem rtf_target : xmI386.target "/dev/rtf0".toList = .driver .rtf := rfl

theorem rtf_opens (s : Fs) : Opens xmI386 s "/dev/rtf0".toList .rtf
    (s.openSys xmI386 "/dev/rtf0".toList 0) := by
  rw [Fs.openSys, rtf_target]
  exact devopen_opens nofun

theorem fills (beyond : Nat → File) (n : Nat) : ∃ tr x,
    Run (FileTable.step xmI386) (.start beyond) tr x ∧ x.Inv xmI386 ∧
      x.fs.files maxFiles = beyond maxFiles ∧ (x.fs.Full ∨ x.held.length = n) := by
  induction n with
  | zero => exact ⟨[], _, .start, start_inv beyond, rfl, .inr rfl⟩
  | succ n ih =>
    obtain ⟨tr, x, hr, hx, hpast, hlen⟩ := ih
    by_cases hfull : x.fs.Full
    · exact ⟨tr, x, hr, hx, hpast, .inl hfull⟩
    have hlen := hlen.resolve_left hfull
    have hopens := rtf_opens x.fs
    generalize hs : x.fs.openSys xmI386 "/dev/rtf0".toList 0 = r at hopens
    cases hopens with
    | refused hnot => exact absurd ⟨rfl, ⟨0, 0, 0⟩, rfl⟩ hnot
    | undone _ hfull' _ => exact absurd hfull' hfull
    | @taken fd s' hlt hfree h =>
      have hy := open_inv hx (target_mem rtf_target) hlt hfree h
      have hstep : x.step xmI386 (.open "/dev/rtf0".toList 0) = some ⟨s', fd :: x.held⟩ := by
        rw [FileTable.step, if_pos hx.intact, call_open_ok hs]
      obtain ⟨f, hfiles, -⟩ := h.files
      refine ⟨_, _, hr.next hstep, hy, ?_, .inr ?_⟩
      · dsimp only
        rw [hfiles, Function.update_of_ne (Nat.ne_of_gt hlt)]
        exact hpast
      · rw [List.length_cons, hlen]

theorem runs_full (beyond : Nat → File) : ∃ tr x,
    Run (FileTable.step xmI386) (.start beyond) tr x ∧ x.Inv xmI386 ∧
      x.fs.files maxFiles = beyond maxFiles ∧ x.fs.Full := by
  obtain ⟨tr, x, hr, hx, hpast, hfull | hlen⟩ := fills beyond (maxFiles + 1)
  · exact ⟨tr, x, hr, hx, hpast, hfull⟩
  · have hsub : x.held ⊆ List.range maxFiles := fun fd hm => List.mem_range.mpr (hx.inRange fd hm)
    have hle := (List.Nodup.subperm hx.distinct hsub).length_le
    rw [hlen, List.length_range] at hle
    omega

/-- Refused for want of a slot, it resets what lies after the table. -/
theorem refused_open_writes_past : ∃ tr x,
    Run (FileTable.step xmI386) (.start fun _ => ⟨7, ⟨0, 0, 0⟩, 0, 0⟩) tr x ∧
      (∃ e, (x.call xmI386 (.open "/dev/rtf0".toList 0)).2 = .error e) ∧
      x.fs.files maxFiles = ⟨7, ⟨0, 0, 0⟩, 0, 0⟩ ∧
      (x.call xmI386 (.open "/dev/rtf0".toList 0)).1.fs.files maxFiles = .reset := by
  obtain ⟨tr, x, hr, -, hpast, hfull⟩ := runs_full fun _ => ⟨7, ⟨0, 0, 0⟩, 0, 0⟩
  have hopens := rtf_opens x.fs
  generalize hs : x.fs.openSys xmI386 "/dev/rtf0".toList 0 = r at hopens
  cases hopens with
  | refused hnot => exact absurd ⟨rfl, ⟨0, 0, 0⟩, rfl⟩ hnot
  | taken hlt hfree _ => exact absurd hfree (hfull _ hlt)
  | undone _ _ _ =>
    refine ⟨tr, x, hr, ⟨_, by rw [call_open_error hs]⟩, hpast, ?_⟩
    rw [call_open_error hs]
    exact Function.update_self maxFiles File.reset x.fs.files

end Xmertl.Partikle
