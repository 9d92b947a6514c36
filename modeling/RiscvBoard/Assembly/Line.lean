import RiscvBoard.Word
import RiscvBoard.Text.Blank

/-!
# Source lines

A line of assembly holds a label, an instruction, both or nothing. A comment
runs from the first `#` or `//` to the end of the line. Each instruction takes
four bytes, and a label stands for the address of the next instruction.
-/

namespace RiscvBoard.Assembly

def uncommented : List Char → List Char
  | [] => []
  | '#' :: _ => []
  | '/' :: '/' :: _ => []
  | c :: rest => c :: uncommented rest

def startsName (c : Char) : Bool := c.isAlpha || c == '_'

def continuesName (c : Char) : Bool := c.isAlphanum || c == '_'

def isName : List Char → Bool
  | [] => false
  | c :: rest => startsName c && rest.all continuesName

structure Line where
  number : Nat
  label : Option (List Char)
  instruction : Option (List Char)
  deriving DecidableEq, Repr

namespace Line

def present? (text : List Char) : Option (List Char) := if text.isEmpty then none else some text

/-- Takes a line apart; a line with nothing on it says nothing. A colon ends a label only after a
name. -/
def read? (number : Nat) (text : List Char) : Option Line :=
  let text := Text.trim (uncommented text)
  if text.isEmpty then none
  else match Text.splitFirst? (· == ':') text with
    | some (head, rest) =>
      if isName (Text.trim head) then
        some { number, label := some (Text.trim head), instruction := present? (Text.trim rest) }
      else some { number, label := none, instruction := some text }
    | none => some { number, label := none, instruction := some text }

end Line

def sourceLines (source : String) : List Line :=
  ((Text.lines source.toList).zipIdx 1).filterMap fun (text, number) => Line.read? number text

/-- The lines with the address of the next instruction at each. Addresses wrap around. -/
def placed (origin : Word) : List Line → List (Word × Line)
  | [] => []
  | line :: rest =>
    (origin, line) :: placed (if line.instruction.isSome then origin + 4 else origin) rest

end RiscvBoard.Assembly
