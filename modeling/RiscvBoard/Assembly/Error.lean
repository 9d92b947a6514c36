import RiscvBoard.Instruction.Encoding

/-!
# What can be wrong with a line of assembly
-/

namespace RiscvBoard.Assembly

inductive Error
  | unknownMnemonic (name : String)
  | invalidRegister (text : String)
  | undefinedLabel (name : String)
  | duplicateLabel (name : String) (first : Word)
  | malformedOperands (op : Operation)
  | invalidImmediate (text : String)
  | unencodable (cause : EncodeError)
  deriving DecidableEq, Repr

def Error.message : Error → String
  | .unknownMnemonic name => "unknown mnemonic '" ++ name ++ "'"
  | .invalidRegister text => "invalid register '" ++ text ++ "'"
  | .undefinedLabel name => "undefined label '" ++ name ++ "'"
  | .duplicateLabel name first =>
    "label '" ++ name ++ "' already defined at " ++ Numeral.address first
  | .malformedOperands op =>
    "malformed operands for '" ++ op.mnemonic ++ "', expected `" ++ op.format.shape ++ "`"
  | .invalidImmediate text => "invalid immediate '" ++ text ++ "'"
  | .unencodable cause => cause.message

structure LineError where
  line : Nat
  error : Error
  deriving DecidableEq, Repr

def LineError.message (e : LineError) : String :=
  "line " ++ toString e.line ++ ": " ++ e.error.message

def LineError.report (errors : List LineError) : String :=
  "\n".intercalate (errors.map LineError.message)

end RiscvBoard.Assembly
