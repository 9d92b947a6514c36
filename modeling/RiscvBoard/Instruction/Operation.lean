import RiscvBoard.Word
import RiscvBoard.Text.Blank

/-!
# The operations of RV32I and of the M extension

One table says how each operation is written and encoded. Everything that reads
or writes instructions goes through its rows.
-/

namespace RiscvBoard

inductive Operation
  | add | sub | sll | slt | sltu | xor | srl | sra | or | and
  | mul | mulh | mulhsu | mulhu | div | divu | rem | remu
  | addi | slti | sltiu | xori | ori | andi | slli | srli | srai
  | lb | lh | lw | lbu | lhu
  | jalr
  | sb | sh | sw
  | beq | bne | blt | bge | bltu | bgeu
  | lui | auipc
  | jal
  deriving DecidableEq, Repr

/-- What kind of work an operation does; the counters of a hart are kept per category. -/
inductive Category
  | alu
  | mul
  | div
  | load
  | store
  | branch
  | jump
  | upper
  deriving DecidableEq, Repr

/-- Where the operands of an instruction stand, in the word and in assembly. -/
inductive Format
  | r
  | i
  | shift
  | load
  | s
  | b
  | u
  | j
  deriving DecidableEq, Repr

namespace Format

def shape : Format → String
  | .r => "rd, rs1, rs2"
  | .i => "rd, rs1, imm"
  | .shift => "rd, rs1, shamt"
  | .load => "rd, imm(rs1)"
  | .s => "rs2, imm(rs1)"
  | .b => "rs1, rs2, offset"
  | .u => "rd, imm20"
  | .j => "rd, offset"

/-- The smallest and the largest immediate. The 20-bit field of `u` may be written with or without
a sign. -/
def range? : Format → Option (Int × Int)
  | .r => none
  | .i | .load | .s => some (-2048, 2047)
  | .shift => some (0, 31)
  | .b => some (-4096, 4094)
  | .u => some (-0x80000, 0xFFFFF)
  | .j => some (-1048576, 1048574)

def evenOnly : Format → Bool
  | .b | .j => true
  | _ => false

end Format

/-- How an operation is written and which bits of its words are fixed. A missing field is part of an
immediate. -/
structure Row where
  mnemonic : String
  format : Format
  opcode : Nat
  funct3 : Option Nat
  funct7 : Option Nat

namespace Row

def registers (mnemonic : String) (funct3 funct7 : Nat) : Row :=
  ⟨mnemonic, .r, 0b0110011, some funct3, some funct7⟩

def immediate (mnemonic : String) (funct3 : Nat) : Row :=
  ⟨mnemonic, .i, 0b0010011, some funct3, none⟩

def shift (mnemonic : String) (funct3 funct7 : Nat) : Row :=
  ⟨mnemonic, .shift, 0b0010011, some funct3, some funct7⟩

def load (mnemonic : String) (funct3 : Nat) : Row :=
  ⟨mnemonic, .load, 0b0000011, some funct3, none⟩

def store (mnemonic : String) (funct3 : Nat) : Row :=
  ⟨mnemonic, .s, 0b0100011, some funct3, none⟩

def branch (mnemonic : String) (funct3 : Nat) : Row :=
  ⟨mnemonic, .b, 0b1100011, some funct3, none⟩

/-- A field that is missing from the row may have any value. -/
def admits (field : Option Nat) (value : Nat) : Bool :=
  match field with
  | some fixed => fixed == value
  | none => true

def fits (row : Row) (opcode funct3 funct7 : Nat) : Bool :=
  row.opcode == opcode && admits row.funct3 funct3 && admits row.funct7 funct7

/-- Whether some value is admitted by both fields. -/
def overlaps (a b : Option Nat) : Bool :=
  match a, b with
  | some a, some b => a == b
  | _, _ => true

/-- Whether some word fits both rows. -/
def agrees (a b : Row) : Bool :=
  a.opcode == b.opcode && overlaps a.funct3 b.funct3 && overlaps a.funct7 b.funct7

theorem overlaps_of_admits {a b : Option Nat} {value : Nat} (ha : admits a value = true)
    (hb : admits b value = true) : overlaps a b = true := by
  cases a <;> cases b <;> simp_all [admits, overlaps]

theorem agrees_of_fits {a b : Row} {opcode funct3 funct7 : Nat}
    (ha : a.fits opcode funct3 funct7 = true) (hb : b.fits opcode funct3 funct7 = true) :
    a.agrees b = true := by
  simp only [fits, Bool.and_eq_true, beq_iff_eq] at ha hb
  simp only [agrees, Bool.and_eq_true, beq_iff_eq]
  exact ⟨⟨ha.1.1.trans hb.1.1.symm, overlaps_of_admits ha.1.2 hb.1.2⟩, overlaps_of_admits ha.2 hb.2⟩

end Row

namespace Operation

def row : Operation → Row
  | .add => .registers "add" 0b000 0b0000000
  | .sub => .registers "sub" 0b000 0b0100000
  | .sll => .registers "sll" 0b001 0b0000000
  | .slt => .registers "slt" 0b010 0b0000000
  | .sltu => .registers "sltu" 0b011 0b0000000
  | .xor => .registers "xor" 0b100 0b0000000
  | .srl => .registers "srl" 0b101 0b0000000
  | .sra => .registers "sra" 0b101 0b0100000
  | .or => .registers "or" 0b110 0b0000000
  | .and => .registers "and" 0b111 0b0000000
  | .mul => .registers "mul" 0b000 0b0000001
  | .mulh => .registers "mulh" 0b001 0b0000001
  | .mulhsu => .registers "mulhsu" 0b010 0b0000001
  | .mulhu => .registers "mulhu" 0b011 0b0000001
  | .div => .registers "div" 0b100 0b0000001
  | .divu => .registers "divu" 0b101 0b0000001
  | .rem => .registers "rem" 0b110 0b0000001
  | .remu => .registers "remu" 0b111 0b0000001
  | .addi => .immediate "addi" 0b000
  | .slti => .immediate "slti" 0b010
  | .sltiu => .immediate "sltiu" 0b011
  | .xori => .immediate "xori" 0b100
  | .ori => .immediate "ori" 0b110
  | .andi => .immediate "andi" 0b111
  | .slli => .shift "slli" 0b001 0b0000000
  | .srli => .shift "srli" 0b101 0b0000000
  | .srai => .shift "srai" 0b101 0b0100000
  | .lb => .load "lb" 0b000
  | .lh => .load "lh" 0b001
  | .lw => .load "lw" 0b010
  | .lbu => .load "lbu" 0b100
  | .lhu => .load "lhu" 0b101
  | .jalr => ⟨"jalr", .i, 0b1100111, some 0b000, none⟩
  | .sb => .store "sb" 0b000
  | .sh => .store "sh" 0b001
  | .sw => .store "sw" 0b010
  | .beq => .branch "beq" 0b000
  | .bne => .branch "bne" 0b001
  | .blt => .branch "blt" 0b100
  | .bge => .branch "bge" 0b101
  | .bltu => .branch "bltu" 0b110
  | .bgeu => .branch "bgeu" 0b111
  | .lui => ⟨"lui", .u, 0b0110111, none, none⟩
  | .auipc => ⟨"auipc", .u, 0b0010111, none, none⟩
  | .jal => ⟨"jal", .j, 0b1101111, none, none⟩

def all : List Operation :=
  [.add, .sub, .sll, .slt, .sltu, .xor, .srl, .sra, .or, .and,
    .mul, .mulh, .mulhsu, .mulhu, .div, .divu, .rem, .remu,
    .addi, .slti, .sltiu, .xori, .ori, .andi, .slli, .srli, .srai,
    .lb, .lh, .lw, .lbu, .lhu, .jalr, .sb, .sh, .sw,
    .beq, .bne, .blt, .bge, .bltu, .bgeu, .lui, .auipc, .jal]

theorem mem_all (op : Operation) : op ∈ all := by cases op <;> decide

abbrev mnemonic (op : Operation) : String := op.row.mnemonic

abbrev format (op : Operation) : Format := op.row.format

def category : Operation → Category
  | .mul | .mulh | .mulhsu | .mulhu => .mul
  | .div | .divu | .rem | .remu => .div
  | .lb | .lh | .lw | .lbu | .lhu => .load
  | .sb | .sh | .sw => .store
  | .beq | .bne | .blt | .bge | .bltu | .bgeu => .branch
  | .jal | .jalr => .jump
  | .lui | .auipc => .upper
  | _ => .alu

def isMExtension (op : Operation) : Bool := op.category = .mul || op.category = .div

def ofMnemonic? (text : List Char) : Option Operation :=
  let text := Text.lower text
  all.find? fun op => op.mnemonic.toList = text

/-- The operation with these fixed bits. There is at most one. -/
def ofFields? (opcode funct3 funct7 : Nat) : Option Operation :=
  all.find? fun op => op.row.fits opcode funct3 funct7

/-- No two rows allow the same fixed bits. -/
theorem eq_of_agrees {a b : Operation} (h : a.row.agrees b.row = true) : a = b := by
  have check : ∀ a ∈ all, ∀ b ∈ all, a.row.agrees b.row = true → a = b := by decide
  exact check a (mem_all a) b (mem_all b) h

theorem eq_of_fits {a b : Operation} {opcode funct3 funct7 : Nat}
    (ha : a.row.fits opcode funct3 funct7 = true)
    (hb : b.row.fits opcode funct3 funct7 = true) : a = b :=
  eq_of_agrees (Row.agrees_of_fits ha hb)

def knowsOpcode (opcode : Nat) : Bool := all.any fun op => op.row.opcode == opcode

end Operation

end RiscvBoard
