import RiscvBoard.Instruction.Field
import RiscvBoard.Instruction.Operand

/-!
# Reading instruction words

A word decodes when its fixed bits are those of a row of the table.
`disassemble` never fails: a word without a row gets a placeholder that shows
the three function fields.
-/

namespace RiscvBoard

/-- Why a word is no instruction. Either no row has its opcode, or the rows with that opcode have
other function codes. -/
inductive DecodeError
  | unknownOpcode (word : Word)
  | unimplemented (word : Word)
  deriving DecidableEq, Repr

def Word.functionText (w : Word) : String :=
  "(opcode:" ++ Numeral.binary 7 w.opcode ++ ", funct3:" ++ Numeral.binary 3 w.funct3 ++
    ", funct7:" ++ Numeral.binary 7 w.funct7 ++ ")"

def DecodeError.message : DecodeError → String
  | .unknownOpcode word => "unknown instruction " ++ word.functionText
  | .unimplemented word => "unimplemented instruction " ++ word.functionText

def Operation.instruction (op : Operation) (w : Word) : Instruction :=
  match op.format with
  | .r => { op, raw := w, rd := w.rd, rs1 := w.rs1, rs2 := w.rs2 }
  | .i | .load => { op, raw := w, rd := w.rd, rs1 := w.rs1, imm := w.immediateI }
  | .shift => { op, raw := w, rd := w.rd, rs1 := w.rs1, imm := w.rs2 }
  | .s => { op, raw := w, rs1 := w.rs1, rs2 := w.rs2, imm := w.immediateS }
  | .b => { op, raw := w, rs1 := w.rs1, rs2 := w.rs2, imm := w.immediateB }
  | .u => { op, raw := w, rd := w.rd, imm := w.immediateU }
  | .j => { op, raw := w, rd := w.rd, imm := w.immediateJ }

def decode (w : Word) : Except DecodeError Instruction :=
  match Operation.ofFields? w.opcode w.funct3 w.funct7 with
  | some op => .ok (op.instruction w)
  | none =>
    .error (if Operation.knowsOpcode w.opcode then .unimplemented w else .unknownOpcode w)

def Word.placeholder (w : Word) : String := "unknown instruction " ++ w.functionText

def disassemble (w : Word) : String :=
  match decode w with
  | .ok i => i.text
  | .error _ => w.placeholder

end RiscvBoard
