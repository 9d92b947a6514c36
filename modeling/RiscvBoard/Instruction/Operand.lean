import RiscvBoard.Register
import RiscvBoard.Instruction.Operation

/-!
# Instructions and their operands

An instruction names its operation, up to three registers and an immediate. Its
operands are the parts that its format uses, in the order of assembly.
-/

namespace RiscvBoard

inductive Operand
  | register (number : Nat)
  | immediate (value : Int)
  deriving DecidableEq, Repr

def Operand.text : Operand → String
  | .register number => Register.name number
  | .immediate value => toString value

/-- A machine word taken apart. Parts that the format does not use are zero. -/
structure Instruction where
  op : Operation
  raw : Word
  rd : Nat := 0
  rs1 : Nat := 0
  rs2 : Nat := 0
  imm : Int := 0
  deriving DecidableEq, Repr

def Instruction.operands (i : Instruction) : List Operand :=
  match i.op.format with
  | .r => [.register i.rd, .register i.rs1, .register i.rs2]
  | .i | .shift => [.register i.rd, .register i.rs1, .immediate i.imm]
  | .load => [.register i.rd, .immediate i.imm, .register i.rs1]
  | .s => [.register i.rs2, .immediate i.imm, .register i.rs1]
  | .b => [.register i.rs1, .register i.rs2, .immediate i.imm]
  | .u | .j => [.register i.rd, .immediate i.imm]

def Operand.displaced (displacement base : Operand) : String :=
  displacement.text ++ "(" ++ base.text ++ ")"

def Operation.listed (op : Operation) : List Operand → String
  | [] => op.mnemonic
  | operands => op.mnemonic ++ " " ++ ", ".intercalate (operands.map Operand.text)

/-- The operation and its operands in assembly. Loads, stores and `jalr` write their address as one
operand. -/
def Operation.written (op : Operation) (operands : List Operand) : String :=
  match op.format, operands with
  | .load, [r, displacement, base] | .s, [r, displacement, base] =>
    op.mnemonic ++ " " ++ r.text ++ ", " ++ displacement.displaced base
  | .i, [r, base, displacement] =>
    if op = .jalr then op.mnemonic ++ " " ++ r.text ++ ", " ++ displacement.displaced base
    else op.listed operands
  | _, _ => op.listed operands

def Instruction.text (i : Instruction) : String := i.op.written i.operands

end RiscvBoard
