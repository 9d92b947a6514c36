import RiscvBoard.Hart.Counters
import RiscvBoard.Register

/-!
# The hart

A hardware thread: a program counter, thirty-two registers of which the first is
always zero, and counters.
-/

namespace RiscvBoard

structure Hart.Config where
  mExtension : Bool := true
  haltOnZero : Bool := true
  deriving DecidableEq, Repr

structure Hart where
  config : Hart.Config := {}
  pc : Word := 0
  registers : Vector Word 32 := .replicate 32 0
  counters : Counters := {}
  deriving DecidableEq

namespace Hart

def startRegisters (stack : Word) : Vector Word 32 :=
  (Vector.replicate 32 (0 : Word)).set Register.stackPointer stack

def reset (hart : Hart) (stack : Word) : Hart :=
  { config := hart.config, registers := startRegisters stack }

/-- Only the low five bits of a register number count. -/
def register (hart : Hart) (number : Nat) : Word :=
  have : number % 32 < 32 := Register.mod_lt number
  hart.registers[number % 32]

/-- Writes to register zero are dropped. -/
def setRegister (hart : Hart) (number : Nat) (value : Word) : Hart :=
  if number % 32 = 0 then hart
  else { hart with registers := hart.registers.set (number % 32) value (Register.mod_lt number) }

theorem register_setRegister (hart : Hart) (i j : Nat) (value : Word) :
    (hart.setRegister i value).register j =
      if j % 32 = i % 32 ∧ i % 32 ≠ 0 then value else hart.register j := by
  by_cases hi : i % 32 = 0
  · simp [setRegister, register, hi]
  · simp [setRegister, register, Vector.getElem_set, hi, eq_comm]

end Hart

end RiscvBoard
