import RiscvBoard.Instruction.Decoding
import RiscvBoard.Json.Value

/-!
# Listings

The words of a program with their addresses and their text in assembly. A plain
listing has the text alone.
-/

namespace RiscvBoard

namespace Listing

structure Row where
  addr : Word
  word : Word
  text : String
  deriving DecidableEq, Repr

def rows (base : Word) (words : List Word) : List Row :=
  words.zipIdx.map fun (word, i) => ⟨base + BitVec.ofNat 32 (4 * i), word, disassemble word⟩

def Row.line (row : Row) : String :=
  Numeral.hex 8 row.addr.toNat ++ ":  " ++ Numeral.hex 8 row.word.toNat ++ "  " ++ row.text ++ "\n"

def Row.plainLine (row : Row) : String := row.text ++ "\n"

def Row.json (row : Row) : Json :=
  .record [("addr", .natural row.addr.toNat), ("word", .natural row.word.toNat),
    ("text", .string (some row.text))]

inductive Style
  | addressed
  | plain
  | json
  deriving DecidableEq, Repr

def render (style : Style) (rows : List Row) : String :=
  match style with
  | .addressed => String.join (rows.map Row.line)
  | .plain => String.join (rows.map Row.plainLine)
  | .json => (Json.array (rows.map Row.json)).pretty

end Listing

end RiscvBoard
