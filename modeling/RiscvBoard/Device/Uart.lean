import RiscvBoard.Bytes
import RiscvBoard.Device.Event

/-!
# The UART

The serial line to the host has five registers of four bytes: control, status,
baud rate, transmit and receive. An access may cover a part of a register. A
write to the transmit register sends its lowest byte; the receive register is
filled by the host, and programs cannot write it. The transmitter never stalls,
so its ready bit always reads as one.
-/

namespace RiscvBoard

/-- Of the status only two bits are kept: bit 0, transmitter ready, and bit 1, word received. -/
structure Uart where
  ctrl : Word := 0
  status : BitVec 2 := 0
  baud : Word := 0
  tx : Word := 0
  rx : Word := 0
  deriving DecidableEq, Repr

namespace Uart

inductive Register
  | ctrl
  | status
  | baud
  | tx
  | rx
  deriving DecidableEq, Repr

/-- The register that the byte at an offset belongs to. Past the end the last register is seen. -/
def Register.ofOffset (off : Nat) : Register :=
  match off / 4 with
  | 0 => .ctrl
  | 1 => .status
  | 2 => .baud
  | 3 => .tx
  | _ => .rx

def size : Nat := 20

def txReady : BitVec 2 := 0b01

def rxDone : BitVec 2 := 0b10

/-- The status as programs see it. -/
def visibleStatus (uart : Uart) : BitVec 2 := uart.status ||| txReady

def received (uart : Uart) : Bool := uart.status &&& rxDone != 0

def receive (uart : Uart) (word : Word) : Uart :=
  { uart with rx := word, status := uart.status ||| rxDone }

def value (uart : Uart) : Register → Word
  | .ctrl => uart.ctrl
  | .status => uart.visibleStatus.setWidth 32
  | .baud => uart.baud
  | .tx => uart.tx
  | .rx => uart.rx

def read (uart : Uart) (off : Nat) (width : Width) : Word :=
  (uart.value (.ofOffset off)).lane (off % 4) width

/-- Only the four bytes of the receive register refuse a write. Past the last register nothing is
refused, and a write there has no effect. -/
def isWritable (off : Nat) : Bool := off / 4 != 4

/-- The UART after a write, and the byte that the write sends. A write to the receive register
or past it changes nothing. -/
def write (uart : Uart) (off : Nat) (value : Word) (width : Width) : Uart × Option Event :=
  let merge (register : Word) := register.setLane (off % 4) value width
  match Register.ofOffset off with
  | .ctrl => ({ uart with ctrl := merge uart.ctrl }, none)
  | .status => ({ uart with status := (merge (uart.status.setWidth 32)).setWidth 2 }, none)
  | .baud => ({ uart with baud := merge uart.baud }, none)
  | .tx =>
    let tx := merge uart.tx
    ({ uart with tx }, some (.transmit (tx.byte 0)))
  | .rx => (uart, none)

end Uart

end RiscvBoard
