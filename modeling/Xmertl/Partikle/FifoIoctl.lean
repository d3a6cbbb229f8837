import Xmertl.Partikle.FileIo

/-!
# Flushing a FIFO

`ioctl_sys` of `fs.c` on the descriptors of FIFOs. The reads and writes of `devrtf.c` take a
FIFO's number from the file; its ioctl takes the descriptor for the number.
-/

namespace Xmertl.Partikle

open Runs RingBuffer

def flushFifo : Nat := 0x01

def rtFifoIoctl (x : Fifos) (index : Int) (cmd : Nat) : Option (Fifos × Int) :=
  if indexUnvalid index then some (x, -1)
  else if cmd = flushFifo then do
    let (x, r) ← x.rtFifoFlush index
    return (x, if r.ret = 0 then -1 else 0)
  else some (x, 0)

namespace FileIo

def rtfioctl (x : FileIo) (fd : Nat) (request : Nat) : Option (FileIo × Int) :=
  (rtFifoIoctl x.fifos fd request).map fun (fifos, ret) => ({ x with fifos }, ret)

/-- That of the shared memory only calls the hypervisor, and the others have none. -/
def devioctl (x : FileIo) (fd : Nat) (cmd : Nat) : Dev → Option (FileIo × Int)
  | .rtf => x.rtfioctl fd cmd
  | .shm => some (x, 0)
  | .cons | .root | .uart | .trace | .test => none

def ioctlSys (b : Build) (x : FileIo) (fd : Int) (cmd : Nat) : Option (FileIo × Int) :=
  if x.fs.checkfd fd then do
    let (x, ret) ← x.devioctl fd.toNat cmd (← x.dev b fd)
    return (x, if ret < 0 then -ret else 0)
  else some (x, -1)

/-- The descriptor is open on the FIFO `minor`. -/
structure OpenedOn (b : Build) (x : FileIo) (fd : Int) (minor : Nat) : Prop where
  open_ : x.fs.checkfd fd = true
  fifo : b.isFifo minor (x.fs.files fd.toNat) = true
  minor_lt : minor < fifoCount

end FileIo

def Drained (ff : FifoStruct) : Prop := ff.ffTop = ff.ffBom

structure SameControl (ff ff' : FifoStruct) : Prop where
  ffFlags : ff'.ffFlags = ff.ffFlags
  ffTop : ff'.ffTop = ff.ffTop
  ffBom : ff'.ffBom = ff.ffBom
  ffSize : ff'.ffSize = ff.ffSize

theorem SameControl.refl (ff : FifoStruct) : SameControl ff ff := ⟨rfl, rfl, rfl, rfl⟩

instance (ff : FifoStruct) : Decidable (Drained ff) := inferInstanceAs (Decidable (_ = _))

namespace FileIo

/-- A flush of the descriptor leaves the FIFO empty and the others' control blocks alone. -/
def Flushes (b : Build) (x : FileIo) (fd : Int) (minor : Nat) : Prop :=
  ∃ y r, x.ioctlSys b fd flushFifo = some (y, r) ∧ Drained (y.fifos.fifos minor) ∧
    ∀ i < fifoCount, i ≠ minor → SameControl (x.fifos.fifos i) (y.fifos.fifos i)

/-- The driver has the addresses of the FIFO, and a flush would leave its control block. -/
def AtStart (x : FileIo) (fd : Int) : Prop :=
  x.fifos.sfifos fd = true ∧ (x.fifos.fifos fd).ffTop = 0 ∧ (x.fifos.fifos fd).ffBom = 0

/-- The descriptor has the FIFO's number; or the FIFO is empty, and the descriptor is the
number of no FIFO, or of one that a flush does not change. -/
def SameNumber (x : FileIo) (fd : Int) (minor : Nat) : Prop :=
  fd = minor ∧ x.fifos.sfifos fd = true ∨
    fd ≠ minor ∧ Drained (x.fifos.fifos minor) ∧ (fifoCount ≤ fd ∨ x.AtStart fd)

section
variable {b : Build} {x : FileIo} {fd : Int} {minor : Nat}

theorem OpenedOn.dev_eq (h : x.OpenedOn b fd minor) : x.dev b fd = some .rtf := by
  have hopen := h.open_
  have hfifo := h.fifo
  simp only [Fs.checkfd, Bool.and_eq_true, decide_eq_true_eq] at hopen
  simp only [Build.isFifo, Bool.and_eq_true, decide_eq_true_eq] at hfifo
  have hmem : Dev.rtf ∈ b.devtab := by
    by_contra hnot
    have hnone : b.devtab.findIdx? (·.dc = 'f') = none := by
      refine List.findIdx?_eq_none_iff.mpr fun dev hdev => ?_
      cases dev <;> first | rfl | exact absurd hdev hnot
    refine hopen.2 (hfifo.1.trans ?_)
    rw [Build.devno, hnone]
    rfl
  obtain ⟨hnonneg, hdev⟩ := devno_spec hmem
  have htype : (x.fs.files fd.toNat).type = b.devno Dev.rtf.dc := hfifo.1
  rw [dev, htype]
  exact (if_pos hnonneg).trans hdev

theorem OpenedOn.fd_nonneg (h : x.OpenedOn b fd minor) : 0 ≤ fd := by
  have hopen := h.open_
  simp only [Fs.checkfd, Bool.and_eq_true, decide_eq_true_eq] at hopen
  exact hopen.1.1

theorem OpenedOn.ioctlSys_eq (h : x.OpenedOn b fd minor) :
    x.ioctlSys b fd flushFifo =
      if fifoCount ≤ fd then some (x, 1)
      else if x.fifos.sfifos fd then
        let ff := (x.fifos.fifos fd).flush
        some ({ x with
          fifos := x.fifos.set fd { ff with ffData := store ff.ffData 0 (fun _ => 0) ff.ffSize } }, 0)
      else none := by
  have hfd : (fd.toNat : Int) = fd := Int.toNat_of_nonneg h.fd_nonneg
  have hindex : indexUnvalid fd = decide ((fifoCount : Int) ≤ fd) := by
    rw [indexUnvalid, decide_eq_false (not_lt.mpr h.fd_nonneg), Bool.false_or]
    rfl
  rw [ioctlSys, if_pos h.open_, h.dev_eq]
  simp only [Option.bind_eq_bind, Option.bind_some, devioctl, rtfioctl, rtFifoIoctl,
    Fifos.rtFifoFlush, hfd, hindex, decide_eq_true_eq, if_true]
  split
  · rfl
  · cases x.fifos.sfifos fd <;> rfl

theorem OpenedOn.flushes_same (h : x.OpenedOn b fd minor) (hfd : fd = minor) :
    x.Flushes b fd minor ↔ x.fifos.sfifos fd = true := by
  have hlt := h.minor_lt
  have hin : ¬(fifoCount : Int) ≤ fd := by omega
  rw [Flushes, h.ioctlSys_eq, if_neg hin]
  constructor
  · rintro ⟨y, r, hy, -⟩
    exact (Option.ite_none_right_eq_some.mp hy).1
  · intro hs
    refine ⟨_, _, if_pos hs, ?_, fun i hi hne => ?_⟩
    · rw [← hfd]
      simp only [Fifos.set, Function.update_self]
      rfl
    · have hne' : (i : Int) ≠ fd := by omega
      simp only [Fifos.set, Function.update_of_ne hne']
      exact .refl _

theorem OpenedOn.flushes_other (h : x.OpenedOn b fd minor) (hfd : fd ≠ minor)
    (hlt : fd < fifoCount) :
    x.Flushes b fd minor ↔ Drained (x.fifos.fifos minor) ∧ x.AtStart fd := by
  have hin : ¬(fifoCount : Int) ≤ fd := by omega
  have hnonneg := h.fd_nonneg
  rw [Flushes, h.ioctlSys_eq, if_neg hin]
  constructor
  · rintro ⟨y, r, hy, hdrained, hothers⟩
    obtain ⟨hs, hy⟩ := Option.ite_none_right_eq_some.mp hy
    obtain ⟨rfl, -⟩ := Prod.mk.inj (Option.some.inj hy)
    have hsame := hothers fd.toNat (by omega) (by omega)
    rw [Int.toNat_of_nonneg hnonneg] at hsame
    simp only [Fifos.set, Function.update_self, Function.update_of_ne (Ne.symm hfd)] at hdrained hsame
    exact ⟨hdrained, hs, hsame.ffTop.symm, hsame.ffBom.symm⟩
  · rintro ⟨hdrained, hs, htop, hbom⟩
    refine ⟨_, _, if_pos hs, ?_, fun i hi hne => ?_⟩
    · simpa only [Fifos.set, Function.update_of_ne (Ne.symm hfd)] using hdrained
    · by_cases hi' : (i : Int) = fd
      · simp only [hi', Fifos.set, Function.update_self]
        exact ⟨rfl, htop.symm, hbom.symm, rfl⟩
      · simp only [Fifos.set, Function.update_of_ne hi']
        exact .refl _

theorem OpenedOn.flushes_none (h : x.OpenedOn b fd minor) (hge : fifoCount ≤ fd) :
    x.Flushes b fd minor ↔ Drained (x.fifos.fifos minor) := by
  rw [Flushes, h.ioctlSys_eq, if_pos hge]
  constructor
  · rintro ⟨y, r, hy, hdrained, -⟩
    obtain ⟨rfl, -⟩ := Prod.mk.inj (Option.some.inj hy)
    exact hdrained
  · exact fun hdrained => ⟨x, 1, rfl, hdrained, fun i _ _ => .refl _⟩

/-- For any table of descriptors and any FIFOs, a flush is right if and only if the descriptor
has the FIFO's number, or there is nothing to do and nothing is done. -/
theorem flushes_iff (h : x.OpenedOn b fd minor) :
    x.Flushes b fd minor ↔ x.SameNumber fd minor := by
  have hlt := h.minor_lt
  unfold SameNumber
  by_cases hfd : fd = minor
  · rw [h.flushes_same hfd]
    simp only [hfd, true_and, ne_eq, not_true_eq_false, false_and, or_false]
  rcases lt_or_ge fd fifoCount with hin | hge
  · rw [h.flushes_other hfd hin]
    simp only [hfd, false_and, ne_eq, not_false_eq_true, true_and, false_or, not_le.mpr hin]
  · rw [h.flushes_none hge]
    simp only [hfd, false_and, ne_eq, not_false_eq_true, true_and, false_or, hge, true_or, and_true]

end

end FileIo

def twoBytes : Fifos := ⟨fun _ => ⟨fifoUs, 2, 0, pageSize, fun _ => 1⟩, fun _ => true⟩

def opens (fifo : String) : List IoCall :=
  [.open "/dev/console/cons".toList 0, .open "/dev/console/cons".toList 0,
    .open "/dev/console/cons".toList 0, .open fifo.toList 0]

/-- The fourth descriptor is FIFO 3's. -/
theorem flushes_third : ∃ tr x,
    Run (FileIo.step xmI386 rootContents) (.start (fun _ => .reset) twoBytes) tr x ∧
    x.OpenedOn xmI386 3 3 ∧ x.Flushes xmI386 3 3 := by
  have h : ((exec (FileIo.step xmI386 rootContents) (.start (fun _ => .reset) twoBytes)
      (opens "/dev/rtf3")).any fun r =>
      decide (r.2.fs.checkfd 3 = true ∧ xmI386.isFifo 3 (r.2.fs.files 3) = true ∧
        r.2.fifos.sfifos 3 = true)) = true := by
    decide +kernel
  obtain ⟨tr, x, hr, hx⟩ := exec_any h
  obtain ⟨hopen, hfifo, hs⟩ := of_decide_eq_true hx
  have hopened : x.OpenedOn xmI386 3 3 := ⟨hopen, hfifo, by decide⟩
  exact ⟨tr, x, hr, hopened, (FileIo.flushes_iff hopened).mpr (.inl ⟨rfl, hs⟩)⟩

/-- The fourth descriptor is FIFO 0's, which keeps its bytes; FIFO 3 loses them. -/
theorem flushes_wrong : ∃ tr x y r,
    Run (FileIo.step xmI386 rootContents) (.start (fun _ => .reset) twoBytes) tr x ∧
    x.OpenedOn xmI386 3 0 ∧ x.ioctlSys xmI386 3 flushFifo = some (y, r) ∧ r = 0 ∧
    (y.fifos.fifos 0).ffTop = 2 ∧ (x.fifos.fifos 3).ffTop = 2 ∧ (y.fifos.fifos 3).ffTop = 0 ∧
    ¬x.Flushes xmI386 3 0 := by
  have h : ((exec (FileIo.step xmI386 rootContents) (.start (fun _ => .reset) twoBytes)
      (opens "/dev/rtf0")).any fun r =>
      (r.2.ioctlSys xmI386 3 flushFifo).any fun q =>
        decide (r.2.fs.checkfd 3 = true ∧ xmI386.isFifo 0 (r.2.fs.files 3) = true ∧
          q.2 = 0 ∧ (q.1.fifos.fifos 0).ffTop = 2 ∧ (r.2.fifos.fifos 3).ffTop = 2 ∧
          (q.1.fifos.fifos 3).ffTop = 0)) = true := by
    decide +kernel
  obtain ⟨tr, x, hr, hx⟩ := exec_any h
  obtain ⟨⟨y, r⟩, hy, hyx⟩ := (Option.any_eq_true ..).mp hx
  obtain ⟨hopen, hfifo, hret, hkept, hbefore, hlost⟩ := of_decide_eq_true hyx
  refine ⟨tr, x, y, r, hr, ⟨hopen, hfifo, by decide⟩, hy, hret, hkept, hbefore, hlost, ?_⟩
  rintro ⟨z, t, hz, -, hothers⟩
  obtain ⟨rfl, -⟩ := Prod.mk.inj (Option.some.inj (hz.symm.trans hy))
  have hsame := (hothers 3 (by decide) (by decide)).ffTop
  rw [Nat.cast_ofNat, hbefore, hlost] at hsame
  exact absurd hsame (by decide)

end Xmertl.Partikle
