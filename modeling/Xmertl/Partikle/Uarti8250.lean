import Mathlib.Data.Int.Order.Basic
import Mathlib.Data.List.Basic

/-!
# The line settings of the serial ports

The functions of `uarti8250.c` that `uartctl` calls for its commands. The registers keep what is
written to them; the divisor takes the place of the first two while the latch is accessed.
-/

namespace Xmertl.Partikle.Uarti8250

def uartFREQ : Nat := 1843200

def wlsMASK : BitVec 8 := 0x03

def stb : BitVec 8 := 0x04

def pen : BitVec 8 := 0x08

def eps : BitVec 8 := 0x10

def stp : BitVec 8 := 0x20

def dlab : BitVec 8 := 0x80

def dtr : BitVec 8 := 0x01

def rts : BitVec 8 := 0x02

structure Port where
  ier : BitVec 8
  lcr : BitVec 8
  mcr : BitVec 8
  dll : BitVec 8
  dlm : BitVec 8
  /-- `modem` of the `Uart`. -/
  modem : BitVec 8

/-- A command of `uartctl` with an argument that it takes. -/
inductive Command
  | baud (n : Nat) (valid : 1 ≤ n ∧ n ≤ 115200)
  | bits (n : Nat) (valid : 5 ≤ n ∧ n ≤ 8)
  | stop (n : Nat) (valid : 1 ≤ n ∧ n ≤ 2)
  | parity (c : Char)

namespace Port

/-- Of an `int`, the lowest byte goes to the port. -/
def outLcr (p : Port) (val : Nat) : Port := { p with lcr := .ofNat 8 val }

def outThr (p : Port) (val : Nat) : Port :=
  if p.lcr &&& dlab = 0 then p else { p with dll := .ofNat 8 val }

def outIer (p : Port) (val : Nat) : Port :=
  if p.lcr &&& dlab = 0 then { p with ier := .ofNat 8 val } else { p with dlm := .ofNat 8 val }

def i8250interrupts (p : Port) (iena : Nat) : Port := p.outIer iena

def i8250modemctl (p : Port) (mode : BitVec 8) : Port := { p with mcr := p.mcr ||| mode }

def i8250baudr (p : Port) (bauds : Nat) : Port :=
  let bauds := if bauds > uartFREQ / 16 then uartFREQ / 16 else bauds
  let div := uartFREQ / 16 / bauds
  let b := p.lcr
  let p := p.outLcr (b ||| dlab).toNat
  let p := p.outIer (div &&& 0x0000ff00)
  let p := p.outThr (div &&& 0x000000ff)
  p.outLcr b.toNat

def i8250bits (p : Port) (wlen : Nat) : Port :=
  let wls : BitVec 8 := if wlen = 5 then 0 else if wlen = 6 then 1 else if wlen = 7 then 2 else 3
  p.outLcr (p.lcr ||| wls).toNat

def i8250stop (p : Port) (stopb : Nat) : Port :=
  let sctl := p.lcr &&& ~~~stp
  p.outLcr (if stopb = 2 then sctl ||| stb else sctl &&& ~~~stb).toNat

def i8250parity (p : Port) (par : Char) : Port :=
  let sctl := p.lcr
  p.outLcr (if par = 'e' then sctl ||| (pen ||| eps)
    else if par = 'o' then sctl &&& (pen ||| ~~~eps)
    else sctl &&& ~~~pen).toNat

def command (p : Port) : Command → Port
  | .baud n _ => p.i8250baudr n
  | .bits n _ => p.i8250bits n
  | .stop n _ => p.i8250stop n
  | .parity c => p.i8250parity c

/-- What `uartctl` does before the commands. -/
def turnOn (p : Port) : Port :=
  let p := p.i8250interrupts 0
  let p := { p with modem := p.modem ||| (rts ||| dtr) }
  p.i8250modemctl p.modem

def uartctl (p : Port) (cstr : List Command) : Port := cstr.foldl command p.turnOn

end Port

-- ---------------------------------------------------------------------------
-- The settings
-- ---------------------------------------------------------------------------

inductive Parity
  | none
  | odd
  | even
  | mark
  | space
  deriving DecidableEq

structure Settings where
  bits : Nat
  stop : Nat
  parity : Parity
  divisor : Nat
  deriving DecidableEq

def bitsField (lcr : BitVec 8) : Nat := (lcr &&& wlsMASK).toNat + 5

def stopField (lcr : BitVec 8) : Nat := if lcr &&& stb = 0 then 1 else 2

def parityField (lcr : BitVec 8) : Parity :=
  if lcr &&& pen = 0 then .none
  else if lcr &&& stp = 0 then (if lcr &&& eps = 0 then .odd else .even)
  else if lcr &&& eps = 0 then .mark
  else .space

def Port.settings (p : Port) : Settings where
  bits := bitsField p.lcr
  stop := stopField p.lcr
  parity := parityField p.lcr
  divisor := p.dlm.toNat * 256 + p.dll.toNat

def Command.set (s : Settings) : Command → Settings
  | .baud n _ => { s with divisor := uartFREQ / 16 / n % 65536 }
  | .bits n _ => { s with bits := n }
  | .stop n _ => { s with stop := n }
  | .parity c => { s with parity := if c = 'e' then .even else if c = 'o' then .odd else .none }

/-- After each call of `uartctl`, and after each of its commands, the settings are those of the
last commands. -/
def Follows (p : Port) (s : Settings) : List (List Command) → Prop
  | [] => True
  | cstr :: calls => (∀ past, past <+: cstr →
      (p.uartctl past).settings = past.foldl Command.set s) ∧
      Follows (p.uartctl cstr) (cstr.foldl Command.set s) calls

-- ---------------------------------------------------------------------------
-- The condition
-- ---------------------------------------------------------------------------

namespace Port

/-- What the port has before a command does not show in its setting, and the divisor is one
byte. -/
def Fits (p : Port) : Command → Prop
  | .baud n _ => uartFREQ / 16 / n < 256
  | .bits n _ => (bitsField p.lcr - 5) ||| (n - 5) = n - 5
  | .stop _ _ => p.lcr &&& (pen ||| stp) ≠ pen ||| stp
  | .parity c =>
    if c = 'e' then p.lcr &&& stp = 0 else if c = 'o' then p.lcr &&& (pen ||| stp) = pen else True

def AllFit (p : Port) : List Command → Prop
  | [] => True
  | c :: cstr => p.Fits c ∧ (p.command c).AllFit cstr

/-- The latch is closed where `uartctl` turns off the interrupts, or has nothing to lose. -/
def Closed (p : Port) : Prop := p.lcr &&& dlab = 0 ∨ p.dlm = 0

def CallsFit (p : Port) : List (List Command) → Prop
  | [] => True
  | cstr :: calls => p.Closed ∧ p.turnOn.AllFit cstr ∧ (p.uartctl cstr).CallsFit calls

end Port

section
variable {p : Port} {s : Settings} {c : Command} {n : Nat} {par : Char} {lcr : BitVec 8}

theorem outLcr_toNat (b : BitVec 8) : p.outLcr b.toNat = { p with lcr := b } := by
  rw [Port.outLcr, BitVec.ofNat_toNat, BitVec.setWidth_eq]

/-- What the fields of the line control register are after each change of one of them. -/
theorem line_fields : ∀ lcr : BitVec 8,
    (∀ w : Fin 4,
      (bitsField (lcr ||| BitVec.ofNat 8 w) = w + 5 ↔ (bitsField lcr - 5) ||| w = w.val) ∧
        stopField (lcr ||| BitVec.ofNat 8 w) = stopField lcr ∧
        parityField (lcr ||| BitVec.ofNat 8 w) = parityField lcr) ∧
    (∀ two : Bool,
      let lcr' := if two then lcr &&& ~~~stp ||| stb else lcr &&& ~~~stp &&& ~~~stb
      bitsField lcr' = bitsField lcr ∧ stopField lcr' = (if two then 2 else 1) ∧
        (parityField lcr' = parityField lcr ↔ lcr &&& (pen ||| stp) ≠ pen ||| stp)) ∧
    (let lcr' := lcr ||| (pen ||| eps);
      bitsField lcr' = bitsField lcr ∧ stopField lcr' = stopField lcr ∧
        (parityField lcr' = .even ↔ lcr &&& stp = 0)) ∧
    (let lcr' := lcr &&& (pen ||| ~~~eps);
      bitsField lcr' = bitsField lcr ∧ stopField lcr' = stopField lcr ∧
        (parityField lcr' = .odd ↔ lcr &&& (pen ||| stp) = pen)) ∧
    (let lcr' := lcr &&& ~~~pen;
      bitsField lcr' = bitsField lcr ∧ stopField lcr' = stopField lcr ∧
        parityField lcr' = .none) := by
  decide +kernel

theorem bits_settings (valid : 5 ≤ n ∧ n ≤ 8) :
    (p.command (.bits n valid)).settings = (Command.bits n valid).set p.settings ↔
      p.Fits (.bits n valid) := by
  obtain ⟨w, rfl⟩ := Nat.exists_eq_add_of_le' valid.1
  have hw : w < 4 := by omega
  have hwls : (if w + 5 = 5 then 0 else if w + 5 = 6 then 1 else if w + 5 = 7 then 2 else 3 :
      BitVec 8) = BitVec.ofNat 8 w := by
    rcases (show w = 0 ∨ w = 1 ∨ w = 2 ∨ w = 3 by omega) with rfl | rfl | rfl | rfl <;> rfl
  obtain ⟨hbits, hstop, hparity⟩ := (line_fields p.lcr).1 ⟨w, hw⟩
  have hrun : p.command (.bits (w + 5) valid) = { p with lcr := p.lcr ||| BitVec.ofNat 8 w } := by
    rw [Port.command, Port.i8250bits, hwls, outLcr_toNat]
  rw [hrun, Port.Fits, Nat.add_sub_cancel, ← hbits]
  simp [Port.settings, Command.set, hstop, hparity]

theorem stop_settings (valid : 1 ≤ n ∧ n ≤ 2) :
    (p.command (.stop n valid)).settings = (Command.stop n valid).set p.settings ↔
      p.Fits (.stop n valid) := by
  obtain ⟨hbits, hstop, hparity⟩ := (line_fields p.lcr).2.1 (n = 2)
  simp only [decide_eq_true_eq] at hbits hstop hparity
  have hn : (if n = 2 then 2 else 1) = n := by
    split <;> omega
  have hrun : p.command (.stop n valid) = { p with
      lcr := if n = 2 then p.lcr &&& ~~~stp ||| stb else p.lcr &&& ~~~stp &&& ~~~stb } := by
    rw [Port.command, Port.i8250stop, outLcr_toNat]
  rw [hrun, Port.Fits, ← hparity]
  simp [Port.settings, Command.set, hbits, hstop, hn]

theorem parity_settings : (p.command (.parity par)).settings = (Command.parity par).set p.settings ↔
    p.Fits (.parity par) := by
  unfold Port.command Port.i8250parity Port.Fits Command.set
  dsimp only
  rw [outLcr_toNat]
  obtain ⟨-, -, hfieldsEven, hfieldsOdd, hfieldsNone⟩ := line_fields p.lcr
  by_cases heven : par = 'e'
  · obtain ⟨hbits, hstop, hparity⟩ := hfieldsEven
    simp only [if_pos heven, ← hparity]
    simp [Port.settings, hbits, hstop]
  · by_cases hodd : par = 'o'
    · obtain ⟨hbits, hstop, hparity⟩ := hfieldsOdd
      simp only [if_neg heven, if_pos hodd, ← hparity]
      simp [Port.settings, hbits, hstop]
    · obtain ⟨hbits, hstop, hparity⟩ := hfieldsNone
      simp only [if_neg heven, if_neg hodd]
      simp [Port.settings, hbits, hstop, hparity]

theorem low_byte (div : Nat) : BitVec.ofNat 8 (div &&& 0x000000ff) = BitVec.ofNat 8 div := by
  refine BitVec.eq_of_toNat_eq ?_
  rw [BitVec.toNat_ofNat, BitVec.toNat_ofNat, Nat.and_mod_two_pow]
  exact Nat.and_two_pow_sub_one_of_lt_two_pow (Nat.mod_lt _ (by decide))

theorem high_byte (div : Nat) : BitVec.ofNat 8 (div &&& 0x0000ff00) = 0 := by
  refine BitVec.eq_of_toNat_eq ?_
  rw [BitVec.toNat_ofNat, Nat.and_mod_two_pow]
  exact Nat.and_zero _

theorem latch_open : ∀ lcr : BitVec 8, ¬(lcr ||| dlab) &&& dlab = 0 := by
  decide +kernel

theorem baudr_eq (valid : 1 ≤ n ∧ n ≤ 115200) : p.i8250baudr n =
    { p with dlm := 0, dll := BitVec.ofNat 8 (uartFREQ / 16 / n) } := by
  have hn : ¬n > uartFREQ / 16 := by
    unfold uartFREQ
    omega
  unfold Port.i8250baudr
  simp only [if_neg hn, outLcr_toNat, Port.outIer, Port.outThr, latch_open, if_false, low_byte,
    high_byte]

theorem baud_settings (valid : 1 ≤ n ∧ n ≤ 115200) :
    (p.command (.baud n valid)).settings = (Command.baud n valid).set p.settings ↔
      p.Fits (.baud n valid) := by
  have hdiv : uartFREQ / 16 / n = 115200 ∨ uartFREQ / 16 / n ≤ 57600 := by
    by_cases hn : n = 1
    · rw [hn]
      exact .inl rfl
    · exact .inr (Nat.div_le_div_left (show 2 ≤ n by omega) (by decide))
  rw [Port.command, baudr_eq valid, Port.Fits]
  simp only [Port.settings, Command.set, Settings.mk.injEq, true_and, BitVec.toNat_ofNat]
  generalize uartFREQ / 16 / n = div at hdiv ⊢
  show 0 * 256 + div % 256 = div % 65536 ↔ div < 256
  omega

theorem command_settings (p : Port) (c : Command) :
    (p.command c).settings = c.set p.settings ↔ p.Fits c := by
  cases c with
  | baud n valid => exact baud_settings valid
  | bits n valid => exact bits_settings valid
  | stop n valid => exact stop_settings valid
  | parity c => exact parity_settings

/-- Where the latch is open, the interrupt register is the high byte of the divisor. -/
theorem turnOn_settings (p : Port) : p.turnOn.settings = p.settings ↔ p.Closed := by
  unfold Port.turnOn Port.i8250interrupts Port.outIer Port.Closed
  by_cases hclosed : p.lcr &&& dlab = 0
  · simp only [hclosed, true_or, iff_true]
    rfl
  · simp only [hclosed, false_or, if_false, Port.settings, Port.i8250modemctl,
      Settings.mk.injEq, true_and, BitVec.toNat_eq]
    show 0 * 256 + p.dll.toNat = p.dlm.toNat * 256 + p.dll.toNat ↔ p.dlm.toNat = 0
    omega

theorem commands_settings (p : Port) (s : Settings) (cstr : List Command) :
    (∀ past, past <+: cstr → (past.foldl Port.command p).settings = past.foldl Command.set s) ↔
      p.settings = s ∧ p.AllFit cstr := by
  induction cstr generalizing p s with
  | nil => simp [Port.AllFit]
  | cons c cstr ih =>
    rw [Port.AllFit]
    constructor
    · intro h
      have hs : p.settings = s := h [] (List.nil_prefix ..)
      have hrest : ∀ past, past <+: cstr →
          (past.foldl Port.command (p.command c)).settings = past.foldl Command.set (c.set s) :=
        fun past hpast => h (c :: past) ((List.prefix_cons_inj c).mpr hpast)
      obtain ⟨hc, hfit⟩ := (ih _ _).mp hrest
      rw [← hs] at hc
      exact ⟨hs, (command_settings p c).mp hc, hfit⟩
    · rintro ⟨rfl, hc, hfit⟩ past hpast
      cases past with
      | nil => rfl
      | cons d past =>
        obtain ⟨rfl, hrest⟩ := List.cons_prefix_cons.mp hpast
        exact (ih _ _).mpr ⟨(command_settings p d).mpr hc, hfit⟩ past hrest

theorem follows_of_settings (h : p.settings = s) (calls : List (List Command)) :
    Follows p s calls ↔ p.CallsFit calls := by
  induction calls generalizing p s with
  | nil => exact Iff.rfl
  | cons cstr calls ih =>
    rw [Follows, Port.CallsFit, ← and_assoc]
    have hcstr : (∀ past, past <+: cstr → (p.uartctl past).settings = past.foldl Command.set s) ↔
        p.Closed ∧ p.turnOn.AllFit cstr := by
      rw [← turnOn_settings, h]
      exact commands_settings p.turnOn s cstr
    rw [hcstr]
    refine and_congr_right fun hfit => ih ?_
    exact hcstr.mpr hfit cstr (List.prefix_refl cstr)

end

/-- For every port and all calls of `uartctl`, the settings follow the commands if and only if each
command fits. -/
theorem follows_iff (p : Port) (calls : List (List Command)) :
    Follows p p.settings calls ↔ p.CallsFit calls := follows_of_settings rfl calls

def off : Port := ⟨0, 0, 0, 0, 0, 0⟩

/-- 8 bits, then 7. -/
theorem seven_bits_not_followed : ¬Follows off off.settings
    [[.bits 8 (by decide), .bits 7 (by decide)]] := by
  intro h
  have hbits := congrArg Settings.bits (h.1 _ (List.prefix_refl _))
  revert hbits
  decide

end Xmertl.Partikle.Uarti8250
