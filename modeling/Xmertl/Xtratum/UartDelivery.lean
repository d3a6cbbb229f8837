import Mathlib.Algebra.BigOperators.Group.Finset.Basic
import Mathlib.Data.List.Infix
import Xmertl.Lib.Runs
import Xmertl.Xtratum.Uart

/-!
# Every byte is delivered

What has arrived at the other end, the packet under way and what is still in the out
FIFO are, in this order, what was written. `packet` gives each uart's part of the packet
under way; the sender's buffer and the receiver's hold it together.
-/

namespace Xmertl.Xtratum

open Runs

namespace Uart

variable {x : Uart} {id mid n : Nat}

-- ---------------------------------------------------------------------------
-- The scheduler
-- ---------------------------------------------------------------------------

theorem firstFull_spec (x : Uart) (n id : Nat) :
    id ≤ x.firstFull n id ∧ x.firstFull n id ≤ id + n ∧
    (∀ i, id ≤ i → i < x.firstFull n id → (x.rtSerial i).outFifo = []) ∧
    (x.firstFull n id < id + n → (x.rtSerial (x.firstFull n id)).outFifo ≠ []) := by
  induction n generalizing id with
  | zero => exact ⟨le_refl _, le_refl _, fun i h h' => absurd h (by unfold firstFull at h'; omega),
      fun h => absurd h (lt_irrefl _)⟩
  | succ n ih =>
    unfold firstFull
    split
    · rename_i hfull
      exact ⟨le_refl _, by omega, fun i h h' => absurd h (by omega), fun _ => hfull⟩
    · rename_i hempty
      obtain ⟨hle, hhi, hnone, hfull⟩ := ih (id + 1)
      refine ⟨by omega, by omega, fun i hi hlt => ?_, fun hlt => hfull (by omega)⟩
      rcases Nat.eq_or_lt_of_le hi with rfl | hi
      · exact not_not.mp hempty
      · exact hnone i hi hlt

theorem bestFull_spec (hmid : (x.rtSerial mid).outFifo ≠ []) (n id : Nat) :
    (x.rtSerial (x.bestFull n id mid)).outFifo ≠ [] ∧
    (x.bestFull n id mid = mid ∨ x.bestFull n id mid < id + n) ∧
    (x.rtSerial (x.bestFull n id mid)).prio ≤ (x.rtSerial mid).prio ∧
    ∀ i, id ≤ i → i < id + n → (x.rtSerial i).outFifo ≠ [] →
      (x.rtSerial (x.bestFull n id mid)).prio ≤ (x.rtSerial i).prio := by
  induction n generalizing id mid with
  | zero => exact ⟨hmid, .inl rfl, le_refl _, fun i h h' => absurd h (by omega)⟩
  | succ n ih =>
    unfold bestFull
    split
    · rename_i hbetter
      obtain ⟨hfull, hwhere, hprio, hall⟩ := ih hbetter.1 (id + 1)
      refine ⟨hfull, by omega, by omega, fun i hi hlt hi' => ?_⟩
      rcases Nat.eq_or_lt_of_le hi with rfl | hi
      · exact hprio
      · exact hall i hi (by omega) hi'
    · rename_i hworse
      obtain ⟨hfull, hwhere, hprio, hall⟩ := ih hmid (id + 1)
      refine ⟨hfull, by omega, hprio, fun i hi hlt hi' => ?_⟩
      rcases Nat.eq_or_lt_of_le hi with rfl | hi
      · have hle : ¬(x.rtSerial mid).prio > (x.rtSerial id).prio := fun h => hworse ⟨hi', h⟩
        omega
      · exact hall i hi (by omega) hi'

theorem schedule_spec (x : Uart) :
    ((∀ i < vuartSerialCount, (x.rtSerial i).outFifo = []) ∧
      vuartSerialCount ≤ x.uartDomainSchedule) ∨
    (x.uartDomainSchedule < vuartSerialCount ∧
      (x.rtSerial x.uartDomainSchedule).outFifo ≠ [] ∧
      ∀ i < vuartSerialCount, (x.rtSerial i).outFifo ≠ [] →
        (x.rtSerial x.uartDomainSchedule).prio ≤ (x.rtSerial i).prio) := by
  obtain ⟨-, hhi, hnone, hfull⟩ := x.firstFull_spec vuartSerialCount 0
  unfold uartDomainSchedule
  dsimp only
  split
  · rename_i hlt
    obtain ⟨hbest, hwhere, hprio, hall⟩ := bestFull_spec (hfull (by omega))
      (vuartSerialCount - x.firstFull vuartSerialCount 0) (x.firstFull vuartSerialCount 0)
    refine .inr ⟨by omega, hbest, fun i hi hsome => ?_⟩
    by_cases hbefore : i < x.firstFull vuartSerialCount 0
    · exact absurd (hnone i (Nat.zero_le i) hbefore) hsome
    · exact hall i (by omega) (by omega) hsome
  · rename_i hge
    refine .inl ⟨fun i hi => hnone i (Nat.zero_le i) (by omega), ?_⟩
    have hzero : vuartSerialCount - x.firstFull vuartSerialCount 0 = 0 := by omega
    rw [hzero, bestFull]
    decide

-- ---------------------------------------------------------------------------
-- One round of the transmitter's loop
-- ---------------------------------------------------------------------------

/-- A round sends the next byte of the packet; or it ends the packet, and finds nothing
more to send or starts the next packet with its destination. -/
theorem theRound_cases (x : Uart) :
    (∃ h : x.uoutTop < x.uout.length,
      x.theRound = ({ x with uoutTop := x.uoutTop + 1 }, [.thr x.uout[x.uoutTop]], true)) ∨
    (x.uout.length ≤ x.uoutTop ∧ (∀ i < vuartSerialCount, (x.rtSerial i).outFifo = []) ∧
      x.theRound = ({ x with ier := x.ier &&& ~~~uartTheIrqEnable }, [.mcr 0xA], false)) ∨
    (x.uout.length ≤ x.uoutTop ∧ ∃ k < vuartSerialCount, (x.rtSerial k).outFifo ≠ [] ∧
      x.theRound =
        ({ x.setSerial k { x.rtSerial k with
            outFifo := (x.rtSerial k).outFifo.drop (uartPackSize - 1) } with
            uout := (x.rtSerial k).destid :: (x.rtSerial k).outFifo.take (uartPackSize - 1)
            uoutTop := 1 },
          [.mcr 0xA, .mcr 0x9, .thr (x.rtSerial k).destid], true)) := by
  unfold theRound uartOutGetb
  by_cases htop : x.uoutTop < x.uout.length
  · refine .inl ⟨htop, ?_⟩
    simp [htop, not_le.mpr htop]
  · have hsent : x.uoutTop ≥ x.uout.length := Nat.le_of_not_lt htop
    refine .inr ?_
    rcases x.schedule_spec with ⟨hnone, hge⟩ | ⟨hlt, hfull, -⟩
    · refine .inl ⟨hsent, hnone, ?_⟩
      simp [hsent, uartFillOutBuff, hge]
    · refine .inr ⟨hsent, _, hlt, hfull, ?_⟩
      have hsize : 0 < (x.rtSerial x.uartDomainSchedule).outFifo.length :=
        List.length_pos_iff.mpr hfull
      have hbytes : min 59 (x.rtSerial x.uartDomainSchedule).outFifo.length ≠ 0 := by omega
      simp [hsent, uartFillOutBuff, not_le.mpr hlt, uartPackSize, setSerial, hbytes]

/-- What is still to be sent; a byte in an out FIFO counts twice, since filling the
buffer sends one byte more than it takes. -/
def left (x : Uart) : Nat :=
  x.uout.length - x.uoutTop + 2 * ∑ i ∈ Finset.range vuartSerialCount, (x.rtSerial i).outFifo.length

theorem left_theRound (h : x.theRound.2.2 = true) : x.theRound.1.left < x.left := by
  rcases x.theRound_cases with ⟨htop, heq⟩ | ⟨-, -, heq⟩ | ⟨hsent, k, hk, hfull, heq⟩
  · rw [heq]
    simp only [left]
    omega
  · rw [heq] at h
    cases h
  · rw [heq]
    have hmem : k ∈ Finset.range vuartSerialCount := Finset.mem_range.mpr hk
    have hsplit := Finset.add_sum_erase _ (fun i => (x.rtSerial i).outFifo.length) hmem
    have hrest : ∀ s, ∑ i ∈ (Finset.range vuartSerialCount).erase k,
        ((x.setSerial k s).rtSerial i).outFifo.length =
        ∑ i ∈ (Finset.range vuartSerialCount).erase k, (x.rtSerial i).outFifo.length :=
      fun s => Finset.sum_congr rfl fun i hi => by
        simp [setSerial, Finset.ne_of_mem_erase hi]
    have hsize : 0 < (x.rtSerial k).outFifo.length := List.length_pos_iff.mpr hfull
    simp only [left]
    rw [← Finset.add_sum_erase _ _ hmem, hrest, ← hsplit]
    simp only [setSerial, Function.update_self, List.length_cons, List.length_take,
      List.length_drop, uartPackSize]
    omega

theorem left_congr {y : Uart} (huout : y.uout = x.uout) (htop : y.uoutTop = x.uoutTop)
    (hout : ∀ i, (y.rtSerial i).outFifo = (x.rtSerial i).outFifo) : y.left = x.left := by
  simp only [left, huout, htop, hout]

theorem left_theRound_stop (h : x.theRound.2.2 = false) :
    x.theRound.1.left = x.left ∧ x.theRound.1.ier = x.ier &&& ~~~uartTheIrqEnable := by
  rcases x.theRound_cases with ⟨_, heq⟩ | ⟨-, -, heq⟩ | ⟨-, k, -, -, heq⟩
  · rw [heq] at h
    cases h
  · rw [heq]
    exact ⟨rfl, rfl⟩
  · rw [heq] at h
    cases h

theorem left_handler_le (x : Uart) (lsr : List UInt8) : (x.uartTheHandler lsr).1.left ≤ x.left := by
  induction lsr generalizing x with
  | nil => exact Nat.le_refl _
  | cons l lsr ih =>
    unfold uartTheHandler
    split
    · exact Nat.le_refl _
    · dsimp only
      split
      · rename_i hagain
        exact (ih _).trans (Nat.le_of_lt (left_theRound hagain))
      · rename_i hstop
        exact Nat.le_of_eq (left_theRound_stop (Bool.eq_false_iff.mpr hstop)).1

/-- An interrupt that finds the transmitter empty sends something, or disables itself. -/
theorem handler_progress {l : UInt8} (hready : l &&& uartTrasEmpt ≠ 0) (lsr : List UInt8) :
    (x.uartTheHandler (l :: lsr)).1.left < x.left ∨
      (x.uartTheHandler (l :: lsr)).1.ier = x.ier &&& ~~~uartTheIrqEnable := by
  unfold uartTheHandler
  rw [if_neg hready]
  dsimp only
  split
  · rename_i hagain
    exact .inl (Nat.lt_of_le_of_lt (left_handler_le _ lsr) (left_theRound hagain))
  · rename_i hstop
    exact .inr (left_theRound_stop (Bool.eq_false_iff.mpr hstop)).2

-- ---------------------------------------------------------------------------
-- What the receiver makes of it
-- ---------------------------------------------------------------------------

theorem receive_terminal (p : Uart) : p.receive (.mcr 0xA) = p.uartFlushInBuff := rfl

theorem receive_request (p : Uart) :
    p.receive (.mcr 0x9) = p.uartFlushInBuff.uartResetInBuff := rfl

theorem receive_byte {p : Uart} {ch : UInt8} (h : p.uin.length < p.uinSize) :
    p.receive (.thr ch) = { p with uin := p.uin ++ [ch] } := by
  simp [receive, rdaRound, uartInPutb, h]

theorem flush_nil {p : Uart} (h : p.uin = []) : p.uartFlushInBuff = p := by
  simp [uartFlushInBuff, h]

theorem flush_packet {p : Uart} {dest : UInt8} {bytes : List UInt8} (huin : p.uin = dest :: bytes)
    (hsome : bytes ≠ []) (hdest : dest.toNat < vuartSerialCount) :
    p.uartFlushInBuff = (p.setSerial dest.toNat { p.rtSerial dest.toNat with
      inFifo := (p.rtSerial dest.toNat).inFifo ++ bytes }).uartResetInBuff := by
  cases bytes with
  | nil => exact absurd rfl hsome
  | cons b bytes => simp [uartFlushInBuff, huin, hdest]

theorem flush_grows (p : Uart) (j : Nat) :
    (p.rtSerial j).inFifo <+: (p.uartFlushInBuff.rtSerial j).inFifo := by
  unfold uartFlushInBuff
  split
  · rename_i id data rest _
    dsimp only
    split
    · by_cases hj : j = id.toNat
      · subst hj
        simp [uartResetInBuff, setSerial]
      · simp [uartResetInBuff, setSerial, hj]
    · exact List.prefix_rfl
  · exact List.prefix_rfl

theorem putb_inFifo (p : Uart) (ch : UInt8) : (p.uartInPutb ch).1.rtSerial = p.rtSerial := by
  unfold uartInPutb
  split <;> rfl

theorem receive_grows (p : Uart) (s : Sent) (j : Nat) :
    (p.rtSerial j).inFifo <+: ((p.receive s).rtSerial j).inFifo := by
  cases s with
  | thr ch =>
    simp only [receive, rdaRound]
    split
    · rename_i p' hput
      rw [← putb_inFifo p ch, hput]
    · rename_i p' hput
      rw [putb_inFifo, ← putb_inFifo p ch, hput]
      exact flush_grows p' j
  | mcr lines =>
    simp only [receive, uartMscHandler]
    split
    · exact flush_grows p j
    · split
      · exact flush_grows p j
      · exact List.prefix_rfl

theorem receive_all_grows (wire : List Sent) (p : Uart) (j : Nat) :
    (p.rtSerial j).inFifo <+: ((wire.foldl receive p).rtSerial j).inFifo := by
  induction wire generalizing p with
  | nil => exact List.prefix_rfl
  | cons s wire ih => exact (receive_grows p s j).trans (ih (p.receive s))

end Uart

-- ---------------------------------------------------------------------------
-- The packet under way
-- ---------------------------------------------------------------------------

abbrev Packet := Option (Nat × List UInt8)

def Packet.part (q : Packet) (i : Nat) : List UInt8 :=
  match q with
  | some (k, bytes) => if i = k then bytes else []
  | none => []

/-- The receiver has collected what the sender's buffer has sent. -/
def InSync (x p : Uart) : Packet → Prop
  | none => x.uout.length ≤ x.uoutTop ∧ p.uin = []
  | some (k, bytes) =>
    k < vuartSerialCount ∧ bytes ≠ [] ∧ bytes.length < uartPackSize ∧
      x.uout = (x.rtSerial k).destid :: bytes ∧ p.uin = x.uout.take x.uoutTop

/-- The sender `x`, the receiver `p` when all that is on the line has arrived, and the
packet between them. -/
structure InTransit (dest : Nat → Nat) (written : Nat → List UInt8) (q : Packet) (x p : Uart) :
    Prop where
  destid : ∀ i < vuartSerialCount, (x.rtSerial i).destid.toNat = dest i
  size : p.uinSize = uartPackSize
  inSync : InSync x p q
  bytes : ∀ i < vuartSerialCount,
    (p.rtSerial (dest i)).inFifo ++ q.part i ++ (x.rtSerial i).outFifo = written i
  elsewhere : ∀ j, (∀ i < vuartSerialCount, dest i ≠ j) → (p.rtSerial j).inFifo = []

section
variable {dest : Nat → Nat} {written : Nat → List UInt8} {q : Packet} {x p : Uart}

theorem InTransit.byte (h : InTransit dest written q x p) (htop : x.uoutTop < x.uout.length) :
    InTransit dest written q { x with uoutTop := x.uoutTop + 1 }
      (p.receive (.thr x.uout[x.uoutTop])) := by
  obtain ⟨hdestid, hsize, hsync, hbytes, helse⟩ := h
  cases q with
  | none => exact absurd hsync.1 (not_le.mpr htop)
  | some packet =>
    obtain ⟨k, bytes⟩ := packet
    obtain ⟨hk, hsome, hlen, huout, huin⟩ := hsync
    have hroom : p.uin.length < p.uinSize := by
      rw [huin, hsize, List.length_take]
      have : x.uout.length = bytes.length + 1 := by rw [huout, List.length_cons]
      omega
    rw [Uart.receive_byte hroom]
    refine ⟨hdestid, hsize, ⟨hk, hsome, hlen, huout, ?_⟩, hbytes, helse⟩
    simp [huin, List.take_append_getElem htop]

variable (hdest : ∀ i < vuartSerialCount, dest i < vuartSerialCount)
  (hinj : ∀ i < vuartSerialCount, ∀ j < vuartSerialCount, dest i = dest j → i = j)
include hdest hinj

theorem InTransit.close (h : InTransit dest written q x p) (hsent : x.uout.length ≤ x.uoutTop) :
    InTransit dest written none x p.uartFlushInBuff := by
  obtain ⟨hdestid, hsize, hsync, hbytes, helse⟩ := h
  cases q with
  | none =>
    rw [Uart.flush_nil hsync.2]
    exact ⟨hdestid, hsize, hsync, hbytes, helse⟩
  | some packet =>
    obtain ⟨k, bytes⟩ := packet
    obtain ⟨hk, hsome, hlen, huout, huin⟩ := hsync
    rw [List.take_of_length_le hsent, huout] at huin
    rw [Uart.flush_packet huin hsome (by rw [hdestid k hk]; exact hdest k hk), hdestid k hk]
    refine ⟨hdestid, rfl, ⟨hsent, rfl⟩, fun i hi => ?_, fun j hj => ?_⟩
    · rw [← hbytes i hi]
      by_cases hik : i = k
      · subst hik
        simp [Uart.uartResetInBuff, Uart.setSerial, Packet.part]
      · have hne : dest i ≠ dest k := fun he => hik (hinj i hi k hk he)
        simp [Uart.uartResetInBuff, Uart.setSerial, Packet.part, hik, hne]
    · have hne : j ≠ dest k := fun he => hj k hk he.symm
      simpa [Uart.uartResetInBuff, Uart.setSerial, hne] using helse j hj

omit hdest hinj in
theorem InTransit.fill (h : InTransit dest written none x p) {k : Nat} (hk : k < vuartSerialCount)
    (hfull : (x.rtSerial k).outFifo ≠ []) :
    InTransit dest written (some (k, (x.rtSerial k).outFifo.take (uartPackSize - 1)))
      { x.setSerial k { x.rtSerial k with
          outFifo := (x.rtSerial k).outFifo.drop (uartPackSize - 1) } with
        uout := (x.rtSerial k).destid :: (x.rtSerial k).outFifo.take (uartPackSize - 1)
        uoutTop := 1 }
      (p.receive (.thr (x.rtSerial k).destid)) := by
  obtain ⟨hdestid, hsize, ⟨-, huin⟩, hbytes, helse⟩ := h
  have hroom : p.uin.length < p.uinSize := by rw [huin, hsize]; decide
  rw [Uart.receive_byte hroom]
  have hkeep : ∀ i, ((x.setSerial k { x.rtSerial k with
      outFifo := (x.rtSerial k).outFifo.drop (uartPackSize - 1) }).rtSerial i).destid =
      (x.rtSerial i).destid := by
    intro i
    by_cases hik : i = k
    · subst hik
      simp [Uart.setSerial, RtSerial.destid]
    · simp [Uart.setSerial, hik]
  refine ⟨fun i hi => (congrArg UInt8.toNat (hkeep i)).trans (hdestid i hi), hsize,
    ⟨hk, ?_, ?_, ?_, ?_⟩, fun i hi => ?_, helse⟩
  · simp [uartPackSize, hfull]
  · simp [uartPackSize]
  · exact congrArg (· :: _) (hkeep k).symm
  · simp [huin]
  · rw [← hbytes i hi]
    by_cases hik : i = k
    · subst hik
      simp [Uart.setSerial, Packet.part]
    · simp [Uart.setSerial, Packet.part, hik]

theorem InTransit.theRound (h : InTransit dest written q x p) :
    ∃ q', InTransit dest written q' x.theRound.1 (x.theRound.2.1.foldl Uart.receive p) ∧
      (x.theRound.2.2 = true → x.theRound.1.ier = x.ier) ∧
      (x.theRound.2.2 = false → x.theRound.1.ier = x.ier &&& ~~~uartTheIrqEnable ∧ q' = none ∧
        ∀ i < vuartSerialCount, (x.theRound.1.rtSerial i).outFifo = []) := by
  rcases x.theRound_cases with ⟨htop, heq⟩ | ⟨hsent, hnone, heq⟩ | ⟨hsent, k, hk, hfull, heq⟩
  · rw [heq]
    exact ⟨q, h.byte htop, fun _ => rfl, nofun⟩
  · rw [heq]
    have hclosed := h.close hdest hinj hsent
    refine ⟨none, ⟨hclosed.destid, hclosed.size, hclosed.inSync, hclosed.bytes,
      hclosed.elsewhere⟩, nofun, fun _ => ⟨rfl, rfl, hnone⟩⟩
  · rw [heq]
    have hclosed := h.close hdest hinj hsent
    have hidle : (p.receive (.mcr 0xA)).receive (.mcr 0x9) = p.uartFlushInBuff := by
      rw [Uart.receive_terminal, Uart.receive_request, Uart.flush_nil hclosed.inSync.2,
        Uart.uartResetInBuff, ← hclosed.size, ← hclosed.inSync.2]
    refine ⟨some (k, (x.rtSerial k).outFifo.take (uartPackSize - 1)), ?_, fun _ => rfl, nofun⟩
    simp only [List.foldl_cons, List.foldl_nil, hidle]
    exact hclosed.fill hk hfull

theorem InTransit.handler (h : InTransit dest written q x p) (lsr : List UInt8) :
    ∃ q', InTransit dest written q' (x.uartTheHandler lsr).1
        ((x.uartTheHandler lsr).2.foldl Uart.receive p) ∧
      ((x.uartTheHandler lsr).1.ier = x.ier ∨
        q' = none ∧ ∀ i < vuartSerialCount, ((x.uartTheHandler lsr).1.rtSerial i).outFifo = []) := by
  induction lsr generalizing x p q with
  | nil => exact ⟨q, h, .inl rfl⟩
  | cons l lsr ih =>
    unfold Uart.uartTheHandler
    split
    · exact ⟨q, h, .inl rfl⟩
    · obtain ⟨q', h', hagain, hstop⟩ := h.theRound hdest hinj
      dsimp only
      split
      · rename_i hmore
        obtain ⟨q'', h'', hend⟩ := ih h'
        rw [List.foldl_append]
        exact ⟨q'', h'', hend.imp_left (·.trans (hagain hmore))⟩
      · rename_i hdone
        obtain ⟨-, hclosed, hempty⟩ := hstop (Bool.eq_false_iff.mpr hdone)
        exact ⟨q', h', .inr ⟨hclosed, hempty⟩⟩

omit hdest hinj in
theorem InTransit.more (h : InTransit dest written q x p) {written' : Nat → List UInt8}
    {x' : Uart} (huout : x'.uout = x.uout) (htop : x'.uoutTop = x.uoutTop)
    (hdestid : ∀ i, (x'.rtSerial i).destid = (x.rtSerial i).destid)
    (hmore : ∀ i, ∃ more, (x'.rtSerial i).outFifo = (x.rtSerial i).outFifo ++ more ∧
      written' i = written i ++ more) :
    InTransit dest written' q x' p := by
  refine ⟨fun i hi => (congrArg UInt8.toNat (hdestid i)).trans (h.destid i hi), h.size, ?_,
    fun i hi => ?_, h.elsewhere⟩
  · cases q with
    | none => exact ⟨huout ▸ htop ▸ h.inSync.1, h.inSync.2⟩
    | some packet =>
      obtain ⟨k, bytes⟩ := packet
      obtain ⟨hk, hsome, hlen, hout, huin⟩ := h.inSync
      exact ⟨hk, hsome, hlen, by rw [huout, hout, hdestid], by rw [huin, huout, htop]⟩
  · obtain ⟨more, hout, hwritten⟩ := hmore i
    rw [hout, hwritten, ← h.bytes i hi]
    simp

end

-- ---------------------------------------------------------------------------
-- The line
-- ---------------------------------------------------------------------------

theorem LinkAction.ready_transmitter {lsr : List UInt8} (h : LinkAction.ready (.transmitter lsr) = true) :
    ∃ l rest, lsr = l :: rest ∧ l &&& uartTrasEmpt ≠ 0 := by
  cases lsr with
  | nil => cases h
  | cons l rest => exact ⟨l, rest, rfl, of_decide_eq_true h⟩

namespace UartLink

variable {dest : Nat → Nat} {x y : UartLink}

def arrived (x : UartLink) : Uart := x.wire.foldl Uart.receive x.peer

/-- Nothing is lost; and while the transmitter's interrupt is disabled, nothing is left to
be sent. -/
def Delivers (dest : Nat → Nat) (x : UartLink) : Prop :=
  ∃ q, InTransit dest x.written q x.sender x.arrived ∧
    (x.sender.ier &&& uartTheIrqEnable = 0 →
      q = none ∧ ∀ i < vuartSerialCount, (x.sender.rtSerial i).outFifo = [])

theorem delivers_init (serials peers : Nat → RtSerial) :
    Delivers (fun i => (serials i).destid.toNat) (init serials peers) :=
  ⟨none, ⟨fun _ _ => rfl, rfl, ⟨Nat.le_refl _, rfl⟩, fun _ _ => rfl, fun _ _ => rfl⟩,
    fun _ => ⟨rfl, fun _ _ => rfl⟩⟩

theorem enabled_or (ier : UInt8) : (ier ||| uartTheIrqEnable) &&& uartTheIrqEnable ≠ 0 := by
  intro h
  have hbit : ((ier ||| uartTheIrqEnable) &&& uartTheIrqEnable).toBitVec.getLsbD 1 = true := by
    simp [uartTheIrqEnable]
  rw [h] at hbit
  exact absurd hbit (by decide)

theorem disabled_and_not (ier : UInt8) : (ier &&& ~~~uartTheIrqEnable) &&& uartTheIrqEnable = 0 := by
  rw [UInt8.and_assoc, UInt8.not_and_self, UInt8.and_zero]

theorem delivers_step (hdest : ∀ i < vuartSerialCount, dest i < vuartSerialCount)
    (hinj : ∀ i < vuartSerialCount, ∀ j < vuartSerialCount, dest i = dest j → i = j)
    (h : x.Delivers dest) {a : LinkAction} (hs : x.step a = some y) : y.Delivers dest := by
  obtain ⟨q, htransit, hidle⟩ := h
  cases a with
  | write id bytes =>
    simp only [step] at hs
    split at hs
    · obtain rfl := Option.some.inj hs
      refine ⟨q, htransit.more rfl rfl (fun i => ?_) fun i => ?_,
        fun hoff => absurd hoff (enabled_or _)⟩
      · by_cases hi : i = id
        · subst hi
          simp [Uart.setSerial, RtSerial.destid]
        · simp [Uart.setSerial, hi]
      · by_cases hi : i = id
        · subst hi
          exact ⟨bytes, by simp [Uart.setSerial], by simp⟩
        · exact ⟨[], by simp [Uart.setSerial, hi], by simp [hi]⟩
    · cases hs
  | setPrio id prio =>
    obtain rfl := Option.some.inj hs
    have hout : ∀ i, ((x.sender.setSerial id { x.sender.rtSerial id with prio }).rtSerial i).outFifo
        = (x.sender.rtSerial i).outFifo := by
      intro i
      by_cases hi : i = id
      · subst hi
        simp [Uart.setSerial]
      · simp [Uart.setSerial, hi]
    refine ⟨q, htransit.more rfl rfl (fun i => ?_)
      fun i => ⟨[], by rw [hout, List.append_nil], by rw [List.append_nil]⟩, fun hoff => ?_⟩
    · by_cases hi : i = id
      · subst hi
        simp [Uart.setSerial, RtSerial.destid]
      · simp [Uart.setSerial, hi]
    · obtain ⟨hnone, hempty⟩ := hidle hoff
      exact ⟨hnone, fun i hi => (hout i).trans (hempty i hi)⟩
  | transmitter lsr =>
    simp only [step] at hs
    split at hs
    · cases hs
    · rename_i hon
      obtain rfl := Option.some.inj hs
      obtain ⟨q', htransit', hend⟩ := htransit.handler hdest hinj lsr
      refine ⟨q', ?_, fun hoff => ?_⟩
      · simpa only [arrived, List.foldl_append] using htransit'
      · rcases hend with hsame | hclosed
        · exact absurd (hsame ▸ hoff) hon
        · exact hclosed
  | deliver =>
    simp only [step] at hs
    split at hs
    · cases hs
    · rename_i s wire hwire
      obtain rfl := Option.some.inj hs
      refine ⟨q, ?_, hidle⟩
      simpa only [arrived, hwire, List.foldl_cons] using htransit

def Off (x : UartLink) : Prop := x.sender.ier &&& uartTheIrqEnable = 0

/-- Without further writes, an interrupt sends something of what was left, or disables
the interrupt. -/
theorem left_step {a : LinkAction} (hs : x.step a = some y) (ha : a.isWrite = false) :
    y.sender.left ≤ x.sender.left ∧ (x.Off → y.Off ∧ a.ready = false) ∧
      (y.sender.left + a.ready.toNat ≤ x.sender.left ∨ y.Off) := by
  cases a with
  | write id bytes => cases ha
  | setPrio id prio =>
    obtain rfl := Option.some.inj hs
    have hleft : (x.sender.setSerial id { x.sender.rtSerial id with prio }).left = x.sender.left := by
      refine Uart.left_congr rfl rfl fun i => ?_
      by_cases hi : i = id
      · subst hi
        simp [Uart.setSerial]
      · simp [Uart.setSerial, hi]
    refine ⟨Nat.le_of_eq hleft, fun hoff => ⟨hoff, rfl⟩, .inl ?_⟩
    have hready : (LinkAction.setPrio id prio).ready = false := rfl
    rw [hready, Bool.toNat_false, Nat.add_zero]
    exact Nat.le_of_eq hleft
  | transmitter lsr =>
    simp only [step] at hs
    split at hs
    · cases hs
    · rename_i hon
      obtain rfl := Option.some.inj hs
      refine ⟨Uart.left_handler_le _ _, fun hoff => absurd hoff hon, ?_⟩
      by_cases hready : LinkAction.ready (.transmitter lsr) = true
      · obtain ⟨l, lsr, rfl, hl⟩ := LinkAction.ready_transmitter hready
        rw [hready, Bool.toNat_true]
        refine (Uart.handler_progress hl lsr).imp Nat.succ_le_of_lt fun hoff => ?_
        simp only [Off, hoff]
        exact disabled_and_not _
      · rw [Bool.eq_false_iff.mpr hready, Bool.toNat_false, Nat.add_zero]
        exact .inl (Uart.left_handler_le _ _)
  | deliver =>
    simp only [step] at hs
    split at hs
    · cases hs
    · obtain rfl := Option.some.inj hs
      refine ⟨Nat.le_refl _, fun hoff => ⟨hoff, rfl⟩, .inl ?_⟩
      have hready : LinkAction.deliver.ready = false := rfl
      rw [hready, Bool.toNat_false, Nat.add_zero]

theorem ready_le {tr : List (UartLink × LinkAction)} {z : UartLink} (hr : Run step y tr z)
    (hw : ∀ e ∈ tr, e.2.isWrite = false) :
    (tr.countP fun e => e.2.ready) + z.sender.left ≤ y.sender.left + 1 ∧
      (¬z.Off → (tr.countP fun e => e.2.ready) + z.sender.left ≤ y.sender.left) := by
  induction hr with
  | start => simp
  | @next tr s a s' _ hstep ih =>
    obtain ⟨hall, hon⟩ := ih fun e he => hw e (List.mem_cons_of_mem _ he)
    obtain ⟨hle, hoff, hless⟩ := left_step hstep (hw (s, a) List.mem_cons_self)
    rw [List.countP_cons]
    by_cases hs : s.Off
    · obtain ⟨hoff', hready⟩ := hoff hs
      simp only [hready, Bool.false_eq_true, if_false]
      exact ⟨by omega, fun hon' => absurd hoff' hon'⟩
    · have hcount := hon hs
      cases hready : a.ready with
      | false => exact ⟨by simp; omega, fun _ => by simp; omega⟩
      | true =>
        rw [hready] at hless
        rcases hless with hless | hoff'
        · have hless' : s'.sender.left + 1 ≤ s.sender.left := hless
          exact ⟨by simp; omega, fun _ => by simp; omega⟩
        · exact ⟨by simp; omega, fun hon' => absurd hoff' hon'⟩

end UartLink

/-- What has arrived for each uart is the first part of what was written to it, and all of
it when nothing is on the line and the transmitter has stopped; nothing goes elsewhere; and
the transmitter does stop, unless more is written. -/
theorem uart_delivers {serials peers : Nat → RtSerial} {tr : List (UartLink × LinkAction)}
    {x y : UartLink}
    (hid : ∀ i < vuartSerialCount, (serials i).destid.toNat < vuartSerialCount)
    (hown : ∀ i < vuartSerialCount, ∀ j < vuartSerialCount,
      (serials i).destid = (serials j).destid → i = j)
    (hr : Run UartLink.step (.init serials peers) tr x) (hy : Visited tr x y) :
    (∀ i < vuartSerialCount,
      (y.peer.rtSerial (serials i).destid.toNat).inFifo <+: y.written i) ∧
    (y.wire = [] → y.sender.ier &&& uartTheIrqEnable = 0 → ∀ i < vuartSerialCount,
      (y.peer.rtSerial (serials i).destid.toNat).inFifo = y.written i) ∧
    (∀ j, (∀ i < vuartSerialCount, (serials i).destid.toNat ≠ j) →
      (y.peer.rtSerial j).inFifo = []) ∧
    ∃ n, ∀ tr' z, Run UartLink.step y tr' z → (∀ e ∈ tr', e.2.isWrite = false) →
      (tr'.countP fun e => e.2.ready) ≤ n := by
  obtain ⟨q, htransit, hidle⟩ := hr.invariant_visited (C := fun _ _ => True)
    (UartLink.delivers_init serials peers)
    (fun s a s' h _ hs => UartLink.delivers_step hid
      (fun i hi j hj he => hown i hi j hj (UInt8.toNat_inj.mp he)) h hs)
    (fun _ _ => trivial) hy
  refine ⟨fun i hi => ?_, fun hwire hoff i hi => ?_, fun j hj => ?_, ?_⟩
  · rw [← htransit.bytes i hi, List.append_assoc]
    exact (Uart.receive_all_grows y.wire y.peer _).trans (List.prefix_append _ _)
  · obtain ⟨rfl, hempty⟩ := hidle hoff
    have harrived : y.arrived = y.peer := by rw [UartLink.arrived, hwire, List.foldl_nil]
    have hbytes := htransit.bytes i hi
    rw [harrived, hempty i hi] at hbytes
    simpa [Packet.part] using hbytes
  · have hprefix := Uart.receive_all_grows y.wire y.peer j
    rw [← UartLink.arrived, htransit.elsewhere j hj] at hprefix
    exact List.prefix_nil.mp hprefix
  · refine ⟨y.sender.left + 1, fun tr' z hr' hw => ?_⟩
    have hle := (UartLink.ready_le hr' hw).1
    omega

theorem uart_delivers_run : ∃ tr x,
    Run UartLink.step (.init (fun i => { flag := BitVec.ofNat 32 i <<< 24 }) fun _ => {}) tr x ∧
    (x.peer.rtSerial 1).inFifo = [9] ∧ (x.peer.rtSerial 2).inFifo = [7, 8] := by
  have hrun : (exec UartLink.step (.init (fun i => { flag := BitVec.ofNat 32 i <<< 24 }) fun _ => {})
      ([.write 2 [7, 8], .write 1 [9], .setPrio 1 (-1), .transmitter (List.replicate 6 0x20)] ++
        List.replicate 10 .deliver)).any fun r => decide (r.2.wire = [] ∧
      r.2.sender.ier &&& uartTheIrqEnable = 0 ∧ r.2.written 1 = [9] ∧ r.2.written 2 = [7, 8]) := by
    decide +kernel
  obtain ⟨tr, x, hr, hx⟩ := exec_any hrun
  simp only [decide_eq_true_eq] at hx
  obtain ⟨hwire, hoff, h1, h2⟩ := hx
  obtain ⟨-, hall, -, -⟩ := uart_delivers (by decide) (by decide) hr .self
  exact ⟨tr, x, hr, (hall hwire hoff 1 (by decide)).trans h1, (hall hwire hoff 2 (by decide)).trans h2⟩

end Xmertl.Xtratum
