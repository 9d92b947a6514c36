import RiscvBoard.Bytes
import RiscvBoard.Device.Event

/-!
# The output pins

Eight bytes: the LEDs, then seven digits of seven segments each. Every byte that
is written is shown, the one with the lowest number first.
-/

namespace RiscvBoard

structure Gpio where
  outputs : Vector Byte 8 := .replicate 8 0
  deriving DecidableEq, Repr

namespace Gpio

def size : Nat := 8

def output (gpio : Gpio) (index : Nat) : Byte := gpio.outputs.getD index 0

def led (gpio : Gpio) : Byte := gpio.output 0

def segment? (gpio : Gpio) (index : Nat) : Option Byte :=
  if 1 ≤ index ∧ index < 8 then some (gpio.output index) else none

def register (gpio : Gpio) (off : Nat) : Word := Word.ofBytes gpio.output (off / 4 * 4) .word

def read (gpio : Gpio) (off : Nat) (width : Width) : Word :=
  (gpio.register off).lane (off % 4) width

/-- Sets the bytes from `off` on to the lowest `n` bytes of a value. -/
def writeBytes (gpio : Gpio) (off : Nat) (value : Word) : Nat → Gpio
  | 0 => gpio
  | n + 1 =>
    { outputs := (gpio.writeBytes off value n).outputs.setIfInBounds (off + n) (value.byte n) }

def shown (off : Nat) (value : Word) (n : Nat) : List Event :=
  (List.range n).map fun i => .ofOutput (off + i) (value.byte i)

def write (gpio : Gpio) (off : Nat) (value : Word) (width : Width) : Gpio × List Event :=
  (gpio.writeBytes off value width.bytes, shown off value width.bytes)

end Gpio

end RiscvBoard
