import RiscvBoard.Assembly.Error

/-!
# Why a program image cannot be loaded
-/

namespace RiscvBoard

inductive LoadError
  | notBits (line : Nat) (text : String)
  | notHex (line : Nat) (text : String)
  | brokenWord (length : Nat)
  | notText
  | tooLarge (words capacity : Nat)
  | assembly (errors : List Assembly.LineError)
  deriving DecidableEq, Repr

def LoadError.message : LoadError → String
  | .notBits line text =>
    "line " ++ toString line ++ ": expected 32 binary digits, got '" ++ text ++ "'"
  | .notHex line text => "line " ++ toString line ++ ": bad hex word '" ++ text ++ "'"
  | .brokenWord length => "raw image length " ++ toString length ++ " is not a multiple of 4"
  | .notText => "image is not valid UTF-8 text"
  | .tooLarge words capacity =>
    "program of " ++ toString words ++ " words does not fit in " ++ toString capacity ++
      " bytes of ROM"
  | .assembly errors => "assembly failed:\n" ++ Assembly.LineError.report errors

end RiscvBoard
