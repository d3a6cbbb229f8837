import Mathlib.Data.List.Basic
import Mathlib.Logic.Function.Basic

/-!
# Files

`fs.c`: the table of open files, and the drivers that fill it. A build links some of the
drivers into `devtab`; `xm_i386` has the console, the root, the FIFOs, the shared memory and
the serial ports. `files` goes on past `MAX_FILES`: what lies there is the memory after the
table.
-/

namespace Xmertl.Partikle

inductive FileErrno
  | enoent | einval | enomem | ebadf | enfile
  deriving DecidableEq

inductive Dev
  | cons | root | rtf | shm | uart | trace | test
  deriving DecidableEq

def Dev.dc : Dev → Char
  | .cons => 'c'
  | .root => '/'
  | .rtf => 'f'
  | .shm => 's'
  | .uart => 'u'
  | .trace => 'E'
  | .test => 'T'

def Dev.name : Dev → String
  | .cons => "console"
  | .root => "root"
  | .rtf => "rtf"
  | .shm => "shm"
  | .uart => "uart"
  | .trace => "trace"
  | .test => "test"

structure Qid where
  path : Nat
  vers : Nat
  type : Nat
  deriving DecidableEq

structure File where
  type : Int
  qid : Qid
  flags : Int
  pos : Int
  deriving DecidableEq

def nodev : Int := -1

def maxFiles : Nat := 128

def knamelen : Nat := 28

def fifoCount : Nat := 16

def prtkShmCount : Nat := 16

/-- As the table is at the start, and as `freefd` leaves a slot. -/
def File.reset : File := ⟨nodev, ⟨0, 0, 0⟩, 0, 0⟩

structure RtFifoStruct where
  rtfUser : Int
  rtfFlags : BitVec 32

structure Pshm where
  shmUsers : Int
  shmFlags : BitVec 32

/-- A file of the root, from `roottab` and `rootdata`; a name of `knamelen` characters has no
NUL. -/
structure Rootfile where
  name : List Char
  qid : Qid
  dotdot : Nat
  fits : name.length ≤ knamelen

/-- Those with `devroot` in their builds: all but `lpc`. -/
inductive Arch
  | arm | i386 | linux | xmI386

/-- What the build and the machine fix: the drivers, the serial ports found, the files of the
root, and what is between the name of such a file and the next NUL: of its `qid`, as the
compiler aligns it. -/
structure Build where
  arch : Arch
  devtab : List Dev
  uartnuart : Nat
  roottab : List Rootfile
  after : Qid → List Char
  root_mem : Dev.root ∈ devtab

/-- `intact` as long as no call has written past an array of its own. -/
structure Fs where
  files : Nat → File
  fifos : Nat → RtFifoStruct
  pshm : Nat → Pshm
  intact : Bool

/-- A descriptor, or -1 with the error, if one is set. -/
abbrev Answer := Except (Option FileErrno) Nat

def Build.devno (b : Build) (dc : Char) : Int :=
  match b.devtab.findIdx? (·.dc = dc) with
  | some i => i
  | none => -1

namespace Fs

def set (s : Fs) (fd : Nat) (f : File) : Fs := { s with files := Function.update s.files fd f }

def lost (s : Fs) : Fs := { s with intact := false }

def newfd (s : Fs) : Nat :=
  ((List.range maxFiles).find? fun (fd : Nat) => (s.files fd).type = nodev).getD maxFiles

def freefd (s : Fs) (fd : Int) : Fs :=
  if fd < 0 ∨ maxFiles < fd then s else s.set fd.toNat .reset

end Fs

-- ---------------------------------------------------------------------------
-- Names
-- ---------------------------------------------------------------------------

def toInt (n : Nat) : Int := (BitVec.ofNat 32 n).toInt

def ulongMax : Nat := 0xffffffff

/-- Of a name that starts with a digit; too large a number is `ULONG_MAX`. -/
def strtoul (name : List Char) : Nat :=
  let digits := name.takeWhile (·.isDigit)
  min (digits.foldl (fun v c => v * 10 + (c.toNat - '0'.toNat)) 0) ulongMax

def longMax : Nat := 0x7fffffff

def strtol (name : List Char) : Nat := min (strtoul name) longMax

def contab : List String := ["cons", "drivers", "kprint", "null", "sysctl"]

/-- The names of `uartdir`, with the path of their qid. -/
def uartdir (uartnuart : Nat) : List (List Char × Qid) :=
  if uartnuart = 0 then []
  else (['.'], ⟨0, 0, 0x80⟩) :: (List.range uartnuart).flatMap fun (i : Nat) =>
    let eia := "eia".toList ++ (Nat.repr i).toList
    [(eia, ⟨i * 32 + 1, 0, 0⟩), (eia ++ "ctl".toList, ⟨i * 32 + 2, 0, 0⟩),
      (eia ++ "status".toList, ⟨i * 32 + 3, 0, 0⟩)]

/-- The name checks of the drivers, each with the qid of the file it finds. -/
abbrev Check := Except (Option FileErrno) Qid

def consqid (name : List Char) : Check :=
  match contab.findIdx? (·.toList = name.drop "/dev/console/".length) with
  | none => .error (some .ebadf)
  | some i => .ok ⟨i, 0, 0⟩

def rtfqid (name : List Char) : Check :=
  match name.dropWhile (!·.isDigit) with
  | [] => .error (some .enoent)
  | c :: mn =>
    let minor := toInt (strtoul (c :: mn))
    if minor < 0 ∨ minor ≥ fifoCount then .error (some .einval) else .ok ⟨minor.toNat, 0, 0⟩

def shmqid (name : List Char) : Check :=
  match name.drop "/dev/shm/".length with
  | [] => .error (some .enoent)
  | c :: mn =>
    if c.isDigit then
      let minor := strtol (c :: mn)
      if minor ≥ prtkShmCount then .error (some .einval) else .ok ⟨minor, 0, 0⟩
    else if (c :: mn).take 3 = "ctl".toList then .ok ⟨prtkShmCount, 0, 0⟩
    else .error (some .einval)

def uartqid (b : Build) (name : List Char) : Check :=
  if name.length ≤ "/dev/uart/".length then .error none
  else
    match (uartdir b.uartnuart).find? (·.1 = name.drop "/dev/uart/".length) with
    | none => .error (some .enoent)
    | some entry => .ok entry.2

def traceqid (name : List Char) : Check :=
  if name.take 10 = "/dev/trace".toList then .ok ⟨0, 0, 0⟩ else .error (some .ebadf)

-- ---------------------------------------------------------------------------
-- The root
-- ---------------------------------------------------------------------------

/-- The names between the slashes; nothing before a leading slash is a name. -/
def slice (path : List Char) : List (List Char) :=
  if path.head? = some '/' then (path.splitOn '/').drop 1 else path.splitOn '/'

def maxdepth : Nat := 10

def maxpath : Nat := 64

/-- The name of a file as `strcmp` reads it. -/
def Build.text (b : Build) (f : Rootfile) : List Char :=
  if f.name.length < knamelen then f.name else f.name ++ b.after f.qid

/-- The search of one name through `roottab`: where it stops, and the last directory passed. -/
def rootscan (b : Build) (tabname : List Char) : List Rootfile → Nat → Nat → Nat × Nat
  | [], j, dotdot => (j, dotdot)
  | f :: rest, j, dotdot =>
    if tabname = b.text f then (j, dotdot)
    else rootscan b tabname rest (j + 1) (if f.qid.type &&& 0x80 ≠ 0 then j else dotdot)

/-- The walk to a file. `QTFILE` is zero, so no file ends it early. -/
def rootwalk (b : Build) : List (List Char) → Nat → Nat → Option (Nat × Nat)
  | [], j, dotdot => some (j, dotdot)
  | tabname :: rest, _, dotdot =>
    let (j, dotdot) := rootscan b tabname b.roottab 0 dotdot
    if j = b.roottab.length then none else rootwalk b rest j dotdot

def rootqid (b : Build) (name : List Char) : Check :=
  match rootwalk b (slice name) 0 0 with
  | none => .error (some .enoent)
  | some (j, dotdot) =>
    match b.roottab[j]? with
    | none => .error (some .enoent)
    | some f => if f.dotdot ≠ dotdot then .error (some .enoent) else .ok f.qid

/-- The name does not end within `namecopy`, or `slice` goes past `tabname`. -/
def rootOverruns (name : List Char) : Bool :=
  decide (maxpath ≤ name.length) || decide (maxdepth < (slice name).length + 1)

-- ---------------------------------------------------------------------------
-- Opening
-- ---------------------------------------------------------------------------

namespace Fs

/-- What the drivers' opens share: the name's check, a free slot, and where there is none the
slot past the table given back, by those that do so. -/
def driver (s : Fs) (check : Check) (undo : Bool) (full : FileErrno) (use : Nat → Qid → Fs) :
    Fs × Answer :=
  match check with
  | .error e => (s, .error e)
  | .ok qid =>
    let fd := s.newfd
    if fd ≥ maxFiles then (if undo then s.freefd fd else s, .error (some full))
    else (use fd qid, .ok fd)

def consopen (b : Build) (s : Fs) (name : List Char) : Fs × Answer :=
  s.driver (consqid name) true .enomem fun fd qid =>
    s.set fd { s.files fd with type := b.devno 'c', qid, pos := 0 }

/-- Where the name does not fit its arrays, it goes past them. -/
def rootopen (b : Build) (s : Fs) (name : List Char) : Fs × Answer :=
  if rootOverruns name then (s.lost, .error none)
  else s.driver (rootqid b name) false .enfile fun fd qid =>
    s.set fd { s.files fd with type := b.devno '/', qid, pos := 0 }

/-- Its second test of `minor` repeats the first. -/
def rtfopen (b : Build) (s : Fs) (name : List Char) (mode : BitVec 32) : Fs × Answer :=
  s.driver (rtfqid name) true .enomem fun fd qid =>
    let ⟨rtfUser, rtfFlags⟩ := s.fifos qid.path
    let rtfFlags := (if rtfUser = 0 then rtfFlags ||| 0x01000000 else rtfFlags) ||| mode
    let f := s.files fd
    { s with fifos := Function.update s.fifos qid.path ⟨rtfUser + 1, rtfFlags⟩ }.set fd
      { f with type := b.devno 'f', qid := { f.qid with path := qid.path } }

/-- The call to the hypervisor for the region is left out. -/
def prtkShmOpen (b : Build) (s : Fs) (name : List Char) (mode : BitVec 32) : Fs × Answer :=
  s.driver (shmqid name) true .enomem fun fd qid =>
    let f := s.files fd
    let s := s.set fd { f with type := b.devno 's', qid := { f.qid with path := qid.path } }
    if qid.path = prtkShmCount then s
    else
      let ⟨shmUsers, shmFlags⟩ := s.pshm qid.path
      let shmFlags := (if shmUsers = 0 then shmFlags ||| 0x1000000 else shmFlags) ||| mode
      { s with pshm := Function.update s.pshm qid.path ⟨shmUsers + 1, shmFlags⟩ }

def uartopen (b : Build) (s : Fs) (name : List Char) : Fs × Answer :=
  s.driver (uartqid b name) false .enfile fun fd qid =>
    s.set fd { s.files fd with type := b.devno 'u', qid, pos := 0 }

def traceopen (b : Build) (s : Fs) (name : List Char) : Fs × Answer :=
  s.driver (traceqid name) true .enomem fun fd qid =>
    s.set fd { s.files fd with type := b.devno 'E', qid, pos := 0 }

def testopen (b : Build) (s : Fs) : Fs × Answer :=
  s.driver (.ok ⟨0, 0, 0⟩) false .enomem fun fd _ =>
    s.set fd { s.files fd with type := b.devno 'T' }

def devopen (b : Build) (s : Fs) (name : List Char) (mode : BitVec 32) : Dev → Fs × Answer
  | .cons => s.consopen b name
  | .root => s.rootopen b name
  | .rtf => s.rtfopen b name mode
  | .shm => s.prtkShmOpen b name mode
  | .uart => s.uartopen b name
  | .trace => s.traceopen b name
  | .test => s.testopen b

end Fs

/-- The device's name ends at a digit or a slash. -/
def deviceName (path : List Char) : List Char :=
  (path.drop "/dev/".length).takeWhile fun c => !(c.isDigit || c = '/')

/-- What `open_sys` makes of a path: a driver, an error, or a name too long for `dname`. -/
inductive Target
  | driver (dev : Dev)
  | unknown
  | overrun

def Build.target (b : Build) (path : List Char) : Target :=
  if path.take "/dev/".length ≠ "/dev/".toList then .driver .root
  else
    let i := "/dev/".length + (deviceName path).length
    if i = path.length then .unknown
    else if knamelen < i + 1 then .overrun
    else
      match b.devtab.find? (·.name.toList = deviceName path) with
      | none => .unknown
      | some dev => .driver dev

namespace Fs

def openSys (b : Build) (s : Fs) (path : List Char) (mode : BitVec 32) : Fs × Answer :=
  match b.target path with
  | .driver dev => s.devopen b path mode dev
  | .unknown => (s, .error (some .enoent))
  | .overrun => (s.lost, .error none)

-- ---------------------------------------------------------------------------
-- Closing
-- ---------------------------------------------------------------------------

def rtfclose (s : Fs) (fd : Nat) : Fs :=
  let minor := toInt (s.files fd).qid.path
  if minor < 0 ∨ minor ≥ fifoCount then s
  else
    let ⟨rtfUser, rtfFlags⟩ := s.fifos minor.toNat
    let rtfUser := rtfUser - 1
    let rtfFlags := if rtfUser = 0 then 0 else rtfFlags
    { s with fifos := Function.update s.fifos minor.toNat ⟨rtfUser, rtfFlags⟩ }

def testclose (s : Fs) (fd : Nat) : Fs := s.freefd fd

/-- `prtk_shm_close` only calls the hypervisor, and the others close nothing. -/
def devclose (s : Fs) (fd : Nat) : Dev → Fs
  | .rtf => s.rtfclose fd
  | .test => s.testclose fd
  | .cons | .root | .shm | .uart | .trace => s

def checkfd (s : Fs) (fd : Int) : Bool :=
  decide (0 ≤ fd) && decide (fd < maxFiles) && decide ((s.files fd.toNat).type ≠ nodev)

/-- The driver is the entry of `devtab` for the type. -/
def closeSys (b : Build) (s : Fs) (fd : Int) : Fs × Answer :=
  if s.checkfd fd then
    let type := (s.files fd.toNat).type
    match if 0 ≤ type then b.devtab[type.toNat]? else none with
    | none => (s.lost, .error none)
    | some dev => ((s.devclose fd.toNat dev).freefd fd, .ok 0)
  else (s, .error (some .ebadf))

end Fs

end Xmertl.Partikle
