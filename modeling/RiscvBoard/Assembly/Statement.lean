import RiscvBoard.Assembly.Error
import RiscvBoard.Assembly.Symbols
import RiscvBoard.Assembly.Line

/-!
# Instructions in source form

An instruction is a mnemonic, a blank and operands between commas. Which
operands it takes, and in which order they are looked at, is a matter of its
format. A branch or jump goes to a label or over a numeric offset.
-/

namespace RiscvBoard.Assembly

def register (text : List Char) : Except Error Operand :=
  match Register.read? text with
  | some number => .ok (.register number)
  | none => .error (.invalidRegister (String.ofList text))

/-- Whether a number fits 32 bits with a sign. -/
def fitsWord (value : Int) : Bool := -0x80000000 ≤ value && value < 0x80000000

def immediate (text : List Char) : Except Error Operand :=
  match (Numeral.immediate? text).filter fitsWord with
  | some value => .ok (.immediate value)
  | none => .error (.invalidImmediate (String.ofList text))

/-- The displacement and the base register of an address such as `4(sp)`. Nothing before the
parenthesis means zero. -/
def displaced? (text : List Char) : Option (List Char × List Char) :=
  match Text.splitFirst? (· == '(') text with
  | none => none
  | some (displacement, rest) =>
    if rest.getLast? = some ')' then
      let displacement := Text.trim displacement
      some (if displacement.isEmpty then ['0'] else displacement, Text.trim rest.dropLast)
    else none

def target (symbols : Symbols) (pc : Word) (text : List Char) : Except Error Operand :=
  if (Numeral.immediate? text).isSome then immediate text
  else if !isName text then .error (.invalidImmediate (String.ofList text))
  else match symbols.find? text with
    | none => .error (.undefinedLabel (String.ofList text))
    | some addr =>
      let offset : Int := addr.toNat - pc.toNat
      if fitsWord offset then .ok (.immediate offset)
      else .error (.invalidImmediate (String.ofList text))

def operands (symbols : Symbols) (pc : Word) (op : Operation) (texts : List (List Char)) :
    Except Error (List Operand) :=
  match op.format, texts with
  | .r, [rd, rs1, rs2] => do return [← register rd, ← register rs1, ← register rs2]
  | .i, [rd, rs1, imm] | .shift, [rd, rs1, imm] => do
    return [← register rd, ← register rs1, ← immediate imm]
  | .i, [rd, address] =>
    match op, displaced? address with
    | .jalr, some (displacement, base) => do
      return [← register rd, ← register base, ← immediate displacement]
    | _, _ => .error (.malformedOperands op)
  | .load, [r, address] | .s, [r, address] =>
    match displaced? address with
    | some (displacement, base) => do
      return [← register r, ← immediate displacement, ← register base]
    | none => .error (.malformedOperands op)
  | .b, [rs1, rs2, label] => do
    return [← register rs1, ← register rs2, ← target symbols pc label]
  | .u, [rd, imm] => do return [← register rd, ← immediate imm]
  | .j, [rd, label] => do return [← register rd, ← target symbols pc label]
  | _, _ => .error (.malformedOperands op)

/-- The texts between the commas; no text at all is no operand. -/
def operandTexts (text : List Char) : List (List Char) :=
  if text.isEmpty then [] else (Text.pieces (· == ',') text).map Text.trim

def mnemonicAndRest (text : List Char) : List Char × List Char :=
  match Text.splitFirst? Text.isBlank text with
  | some (mnemonic, rest) => (mnemonic, Text.trim rest)
  | none => (text, [])

def encodeStatement (symbols : Symbols) (pc : Word) (text : List Char) : Except Error Word :=
  let (mnemonic, rest) := mnemonicAndRest text
  match Operation.ofMnemonic? mnemonic with
  | none => .error (.unknownMnemonic (String.ofList mnemonic))
  | some op =>
    match operands symbols pc op (operandTexts rest) with
    | .error e => .error e
    | .ok operands => (op.encode operands).mapError .unencodable

end RiscvBoard.Assembly
