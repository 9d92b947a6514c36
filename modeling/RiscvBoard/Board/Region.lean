import RiscvBoard.Device.Timer
import RiscvBoard.Device.Uart
import RiscvBoard.Device.Gpio

/-!
# The address map

Two memories and three devices, each at a fixed base. The memories have a
configurable size and end at the latest where the next region begins.
-/

namespace RiscvBoard

inductive Region
  | rom
  | ram
  | timer
  | uart
  | gpio
  deriving DecidableEq, Repr

namespace Region

def all : List Region := [.rom, .ram, .timer, .uart, .gpio]

def base : Region → Nat
  | .rom => 0x00000000
  | .ram => 0x10000000
  | .timer => 0x20000000
  | .uart => 0x30000000
  | .gpio => 0x40000000

def maxMemory : Nat := 0x10000000

def isDevice : Region → Bool
  | .rom | .ram => false
  | .timer | .uart | .gpio => true

def name : Region → String
  | .rom => "ROM"
  | .ram => "RAM"
  | .timer => "TIMER"
  | .uart => "UART"
  | .gpio => "GPIO"

end Region

end RiscvBoard
