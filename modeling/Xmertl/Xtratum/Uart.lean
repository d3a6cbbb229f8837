import Mathlib.Logic.Function.Basic
import Xmertl.Xtratum.Domain

/-!
# The serial driver's multiplexer

The serial domain's `serial.c`: bytes that are written to the virtual uarts' out FIFOs
go over one line in packets, each with the number of the uart it is for, between a start
and a stop written to the modem control register. The FIFOs are byte queues here; a
FIFO's control block is the `SerialFifo` of its own module.
-/

namespace Xmertl.Xtratum

def vuartSerialCount : Nat := 16

def uartPackSize : Nat := 60

def uartTrasEmpt : UInt8 := 0x20

def uartTheIrqEnable : UInt8 := 0x02

def uartSendRequest : UInt8 := 0x20

def uartSendTerminal : UInt8 := 0x10

/-- `rt_serial_t`: the flag and the priority are those of the out FIFO. -/
structure RtSerial where
  flag : Bitmap := 0
  prio : Int := 0
  outFifo : List UInt8 := []
  inFifo : List UInt8 := []

def RtSerial.destid (s : RtSerial) : UInt8 := UInt8.ofNat ((s.flag >>> 24) &&& 0xFF).toNat

/-- `uin` is the first `top` bytes of that buffer; `uout` is the `size` bytes of the
other. `ier` is the uart's interrupt enable register. -/
structure Uart where
  rtSerial : Nat → RtSerial
  uin : List UInt8 := []
  uinSize : Nat := uartPackSize
  uout : List UInt8 := []
  uoutTop : Nat := 0
  ier : UInt8 := 0x9

/-- What is written to the uart's registers: a byte to the transmitter, or the modem
control lines. -/
inductive Sent
  | thr (ch : UInt8)
  | mcr (lines : UInt8)
  deriving DecidableEq

namespace Uart

def setSerial (x : Uart) (id : Nat) (s : RtSerial) : Uart :=
  { x with rtSerial := Function.update x.rtSerial id s }

-- ---------------------------------------------------------------------------
-- The transmitter
-- ---------------------------------------------------------------------------

/-- The first loop of `uart_domain_schedule`, over `n` uarts from `id` on. -/
def firstFull (x : Uart) : Nat → Nat → Nat
  | 0, id => id
  | n + 1, id => if (x.rtSerial id).outFifo ≠ [] then id else x.firstFull n (id + 1)

def bestFull (x : Uart) : Nat → Nat → Nat → Nat
  | 0, _, mid => mid
  | n + 1, id, mid =>
    x.bestFull n (id + 1)
      (if (x.rtSerial id).outFifo ≠ [] ∧ (x.rtSerial mid).prio > (x.rtSerial id).prio then id
        else mid)

def uartDomainSchedule (x : Uart) : Nat :=
  let id := x.firstFull vuartSerialCount 0
  let mid := if id < vuartSerialCount then id else 0xFF
  x.bestFull (vuartSerialCount - id) id mid

def uartFillOutBuff (x : Uart) : Uart × Nat :=
  let vuart := x.uartDomainSchedule
  if vuart ≥ vuartSerialCount then (x, 0)
  else
    let s := x.rtSerial vuart
    let bytes := s.outFifo.take (uartPackSize - 1)
    ({ x.setSerial vuart { s with outFifo := s.outFifo.drop (uartPackSize - 1) } with
      uout := s.destid :: bytes
      uoutTop := 0 }, bytes.length)

def uartOutGetb (x : Uart) : Option UInt8 × Uart :=
  if x.uoutTop ≥ x.uout.length then (none, x)
  else (x.uout[x.uoutTop]?, { x with uoutTop := x.uoutTop + 1 })

/-- One round of the loop in `uart_THE_handler`, with what it sends and whether the loop
goes on. -/
def theRound (x : Uart) : Uart × List Sent × Bool :=
  match x.uartOutGetb with
  | (some ch, x) => (x, [.thr ch], true)
  | (none, x) =>
    let (x, ret) := x.uartFillOutBuff
    if ret = 0 then ({ x with ier := x.ier &&& ~~~uartTheIrqEnable }, [.mcr 0xA], false)
    else
      match x.uartOutGetb with
      | (some ch, x) => (x, [.mcr 0xA, .mcr 0x9, .thr ch], true)
      | (none, x) => (x, [.mcr 0xA, .mcr 0x9], true)

/-- `uart_THE_handler`, with what the line status register reads each time. -/
def uartTheHandler : List UInt8 → Uart → Uart × List Sent
  | [], x => (x, [])
  | lsr :: lsrs, x =>
    if lsr &&& uartTrasEmpt = 0 then (x, [])
    else
      let (x, sent, again) := x.theRound
      if again then
        let (x, rest) := uartTheHandler lsrs x
        (x, sent ++ rest)
      else (x, sent)

-- ---------------------------------------------------------------------------
-- The receiver
-- ---------------------------------------------------------------------------

def uartInPutb (x : Uart) (data : UInt8) : Uart × Bool :=
  if x.uin.length < x.uinSize then ({ x with uin := x.uin ++ [data] }, true) else (x, false)

def uartResetInBuff (x : Uart) : Uart := { x with uin := [], uinSize := uartPackSize }

def uartFlushInBuff (x : Uart) : Uart :=
  match x.uin with
  | id :: data :: rest =>
    let s := x.rtSerial id.toNat
    if id.toNat < vuartSerialCount then
      (x.setSerial id.toNat { s with inFifo := s.inFifo ++ data :: rest }).uartResetInBuff
    else x.uartResetInBuff
  | _ => x

def uartRecvStart (x : Uart) : Uart := x.uartFlushInBuff.uartResetInBuff

def uartRecvStop (x : Uart) : Uart := x.uartFlushInBuff

/-- One round of the loop in `uart_RDA_handler`. -/
def rdaRound (x : Uart) (ch : UInt8) : Uart :=
  match x.uartInPutb ch with
  | (x, true) => x
  | (x, false) => (x.uartFlushInBuff.uartInPutb ch).1

/-- `uart_MSC_handler`, with what the modem status register reads. -/
def uartMscHandler (x : Uart) (msr : UInt8) : Uart :=
  if msr &&& uartSendRequest ≠ 0 then x.uartRecvStart
  else if msr &&& uartSendTerminal ≠ 0 then x.uartRecvStop
  else x

end Uart

/-- The modem status at the other end: DTR there is DSR here, and RTS is CTS. -/
def nullModem (lines : UInt8) : UInt8 :=
  (if lines &&& 0x1 ≠ 0 then uartSendRequest else 0) |||
    (if lines &&& 0x2 ≠ 0 then uartSendTerminal else 0)

def Uart.receive (x : Uart) : Sent → Uart
  | .thr ch => x.rdaRound ch
  | .mcr lines => x.uartMscHandler (nullModem lines)

-- ---------------------------------------------------------------------------
-- Two uarts and the line between them
-- ---------------------------------------------------------------------------

/-- `wire` is on its way, oldest first; `written` is all that has been written to each
uart's out FIFO. -/
structure UartLink where
  sender : Uart
  peer : Uart
  wire : List Sent
  written : Nat → List UInt8

inductive LinkAction
  /-- A write to a uart's out FIFO; its driver enables the transmitter's interrupt. -/
  | write (id : Nat) (bytes : List UInt8)
  | setPrio (id : Nat) (prio : Int)
  | transmitter (lsr : List UInt8)
  /-- The other end takes what comes next. -/
  | deliver

def LinkAction.isWrite : LinkAction → Bool
  | .write .. => true
  | _ => false

def LinkAction.ready : LinkAction → Bool
  | .transmitter (lsr :: _) => lsr &&& uartTrasEmpt ≠ 0
  | _ => false

namespace UartLink

/-- After `uart_dev_init` at both ends. -/
def init (serials peers : Nat → RtSerial) : UartLink where
  sender := { rtSerial := fun i => { serials i with outFifo := [], inFifo := [] } }
  peer := { rtSerial := fun i => { peers i with outFifo := [], inFifo := [] } }
  wire := []
  written := fun _ => []

def step (x : UartLink) : LinkAction → Option UartLink
  | .write id bytes =>
    let s := x.sender.rtSerial id
    if id < vuartSerialCount then
      some { x with
        sender := { x.sender.setSerial id { s with outFifo := s.outFifo ++ bytes } with
          ier := x.sender.ier ||| uartTheIrqEnable }
        written := Function.update x.written id (x.written id ++ bytes) }
    else none
  | .setPrio id prio =>
    some { x with sender := x.sender.setSerial id { x.sender.rtSerial id with prio } }
  | .transmitter lsr =>
    if x.sender.ier &&& uartTheIrqEnable = 0 then none
    else
      let (sender, sent) := x.sender.uartTheHandler lsr
      some { x with sender, wire := x.wire ++ sent }
  | .deliver =>
    match x.wire with
    | [] => none
    | s :: wire => some { x with peer := x.peer.receive s, wire }

end UartLink

end Xmertl.Xtratum
