import RiscvBoard.Hart.Arithmetic
import RiscvBoard.Instruction.Operation

/-!
# What the operations do
-/

namespace RiscvBoard

/-- The work of an operation, apart from where its operands come from. -/
inductive Action
  | compute (f : Word → Word → Word)
  | load (width : Width) (signed : Bool)
  | store (width : Width)
  | branch (condition : Word → Word → Bool)
  | jump
  | jumpRegister
  | upper
  | upperRelative

open Arithmetic in
def Operation.action : Operation → Action
  | .add | .addi => .compute fun a b => a + b
  | .sub => .compute fun a b => a - b
  | .sll | .slli => .compute shiftLeft
  | .slt | .slti => .compute fun a b => ofBool (a.slt b)
  | .sltu | .sltiu => .compute fun a b => ofBool (a.ult b)
  | .xor | .xori => .compute fun a b => a ^^^ b
  | .srl | .srli => .compute shiftRight
  | .sra | .srai => .compute shiftRightSigned
  | .or | .ori => .compute fun a b => a ||| b
  | .and | .andi => .compute fun a b => a &&& b
  | .mul => .compute fun a b => a * b
  | .mulh => .compute highSigned
  | .mulhsu => .compute highMixed
  | .mulhu => .compute highUnsigned
  | .div => .compute quotient
  | .divu => .compute quotientUnsigned
  | .rem => .compute remainder
  | .remu => .compute remainderUnsigned
  | .lb => .load .byte true
  | .lh => .load .half true
  | .lw => .load .word false
  | .lbu => .load .byte false
  | .lhu => .load .half false
  | .sb => .store .byte
  | .sh => .store .half
  | .sw => .store .word
  | .beq => .branch fun a b => a == b
  | .bne => .branch fun a b => a != b
  | .blt => .branch fun a b => a.slt b
  | .bge => .branch fun a b => !a.slt b
  | .bltu => .branch fun a b => a.ult b
  | .bgeu => .branch fun a b => !a.ult b
  | .jal => .jump
  | .jalr => .jumpRegister
  | .lui => .upper
  | .auipc => .upperRelative

end RiscvBoard
