import RiscvBoard.Bus

/-!
# Traps

Why an instruction does not complete. Every trap names the address of the
instruction.
-/

namespace RiscvBoard

inductive Trap
  | fetch (pc : Word) (cause : Fault)
  | misalignedFetch (pc : Word)
  | misalignedJump (pc target : Word)
  | unknownOpcode (pc raw : Word)
  | unimplemented (pc raw : Word)
  | bus (pc addr : Word) (cause : Fault)
  deriving DecidableEq, Repr

namespace Trap

def pc : Trap → Word
  | .fetch pc _ | .misalignedFetch pc | .misalignedJump pc _ | .unknownOpcode pc _
  | .unimplemented pc _ | .bus pc _ _ => pc

open Numeral in
def message : Trap → String
  | .fetch pc cause => "instruction fetch at " ++ address pc ++ " failed: " ++ cause.message
  | .misalignedFetch pc => "instruction fetch at misaligned pc " ++ address pc
  | .misalignedJump pc target =>
    "jump at " ++ address pc ++ " to misaligned target " ++ address target
  | .unknownOpcode pc raw => "unknown instruction " ++ address raw ++ " at " ++ address pc
  | .unimplemented pc raw => "unimplemented instruction " ++ address raw ++ " at " ++ address pc
  | .bus pc addr cause =>
    "bus error at " ++ address pc ++ " accessing " ++ address addr ++ ": " ++ cause.message

end Trap

end RiscvBoard
