import RiscvBoard.Instruction.Operand

/-!
# Instruction words

`Operation.encode` turns operands into a word. It refuses operands of the wrong
kind or number, registers above 31 and immediates that do not fit, so that no
bit of an accepted operand is lost; only the upper immediate is taken modulo
`2 ^ 20`, where a negative number names the same field as a positive one.
-/

namespace RiscvBoard

inductive EncodeError
  | unknownMnemonic (name : String)
  | invalidRegister (number : Nat)
  | operandMismatch (op : Operation)
  | immediateOutOfRange (value low high : Int)
  | misalignedOffset (value : Int)
  deriving DecidableEq, Repr

def EncodeError.message : EncodeError → String
  | .unknownMnemonic name => "unknown mnemonic '" ++ name ++ "'"
  | .invalidRegister number => "invalid register x" ++ toString number
  | .operandMismatch op => "'" ++ op.mnemonic ++ "' expects operands " ++ op.format.shape
  | .immediateOutOfRange value low high =>
    "immediate " ++ toString value ++ " out of range " ++ toString low ++ "..=" ++ toString high
  | .misalignedOffset value =>
    "branch/jump offset " ++ toString value ++ " is not a multiple of 2"

namespace Operation

def registerField (op : Operation) : Operand → Except EncodeError (BitVec 5)
  | .register number =>
    if number < 32 then .ok (BitVec.ofNat 5 number) else .error (.invalidRegister number)
  | .immediate _ => .error (.operandMismatch op)

/-- An immediate operand as a two's-complement word. An odd offset is refused before its size is
looked at. -/
def immediateField (op : Operation) : Operand → Except EncodeError Word
  | .register _ => .error (.operandMismatch op)
  | .immediate value =>
    if op.format.evenOnly ∧ value % 2 ≠ 0 then .error (.misalignedOffset value)
    else match op.format.range? with
      | some (low, high) =>
        if low ≤ value ∧ value ≤ high then .ok (BitVec.ofInt 32 value)
        else .error (.immediateOutOfRange value low high)
      | none => .ok (BitVec.ofInt 32 value)

/-- The word of an operation with its operands. Of several faults the first in the order registers,
then immediate, is reported. -/
def encode (op : Operation) (operands : List Operand) : Except EncodeError Word :=
  let opcode := BitVec.ofNat 7 op.row.opcode
  let funct3 := BitVec.ofNat 3 (op.row.funct3.getD 0)
  let funct7 := BitVec.ofNat 7 (op.row.funct7.getD 0)
  match op.format, operands with
  | .r, [rd, rs1, rs2] => do
    let rd ← op.registerField rd
    let rs1 ← op.registerField rs1
    let rs2 ← op.registerField rs2
    return funct7 ++ rs2 ++ rs1 ++ funct3 ++ rd ++ opcode
  | .i, [rd, rs1, imm] | .load, [rd, imm, rs1] => do
    let rd ← op.registerField rd
    let rs1 ← op.registerField rs1
    let imm ← op.immediateField imm
    return imm.extractLsb' 0 12 ++ rs1 ++ funct3 ++ rd ++ opcode
  | .shift, [rd, rs1, amount] => do
    let rd ← op.registerField rd
    let rs1 ← op.registerField rs1
    let amount ← op.immediateField amount
    return funct7 ++ amount.extractLsb' 0 5 ++ rs1 ++ funct3 ++ rd ++ opcode
  | .s, [rs2, imm, rs1] => do
    let rs2 ← op.registerField rs2
    let rs1 ← op.registerField rs1
    let imm ← op.immediateField imm
    return imm.extractLsb' 5 7 ++ rs2 ++ rs1 ++ funct3 ++ imm.extractLsb' 0 5 ++ opcode
  | .b, [rs1, rs2, offset] => do
    let rs1 ← op.registerField rs1
    let rs2 ← op.registerField rs2
    let offset ← op.immediateField offset
    return offset.extractLsb' 12 1 ++ offset.extractLsb' 5 6 ++ rs2 ++ rs1 ++ funct3 ++
      offset.extractLsb' 1 4 ++ offset.extractLsb' 11 1 ++ opcode
  | .u, [rd, imm] => do
    let rd ← op.registerField rd
    let imm ← op.immediateField imm
    return imm.extractLsb' 0 20 ++ rd ++ opcode
  | .j, [rd, offset] => do
    let rd ← op.registerField rd
    let offset ← op.immediateField offset
    return offset.extractLsb' 20 1 ++ offset.extractLsb' 1 10 ++ offset.extractLsb' 11 1 ++
      offset.extractLsb' 12 8 ++ rd ++ opcode
  | _, _ => .error (.operandMismatch op)

def encodeNamed (mnemonic : String) (operands : List Operand) : Except EncodeError Word :=
  match ofMnemonic? mnemonic.toList with
  | some op => op.encode operands
  | none => .error (.unknownMnemonic mnemonic)

end Operation

def Instruction.encode (i : Instruction) : Except EncodeError Word := i.op.encode i.operands

end RiscvBoard
