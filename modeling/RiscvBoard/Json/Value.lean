import RiscvBoard.Text.Numeral

/-!
# JSON values

A number written as plain digits has a value; any other is kept as it is written.
A string or a key has no text if it contains half of a surrogate pair.
`Json.pretty` prints a value over several lines, each level two blanks further to
the right, and a replacement character for a text that is missing.
-/

namespace RiscvBoard

inductive Json
  | null
  | bool (b : Bool)
  | natural (n : Nat)
  | otherNumber (numeral : String)
  | string (text : Option String)
  | array (items : List Json)
  | object (members : List (Option String × Json))

namespace Json

def escaped (c : Char) : List Char :=
  match c with
  | '"' => ['\\', '"']
  | '\\' => ['\\', '\\']
  | '\n' => ['\\', 'n']
  | '\r' => ['\\', 'r']
  | '\t' => ['\\', 't']
  | '\x08' => ['\\', 'b']
  | '\x0C' => ['\\', 'f']
  | c => if c.toNat < 0x20 then '\\' :: 'u' :: Numeral.fixed 16 4 c.toNat else [c]

def quoted (text : String) : String := String.ofList ('"' :: text.toList.flatMap escaped ++ ['"'])

def quotedText (text : Option String) : String := quoted (text.getD "\uFFFD")

def lineBreak (depth : Nat) : String := "\n" ++ String.ofList (List.replicate (2 * depth) ' ')

mutual

/-- The pieces of text of a value that begins at a depth of nesting. -/
def prettyAt (depth : Nat) : Json → List String
  | .null => ["null"]
  | .bool b => [if b then "true" else "false"]
  | .natural n => [toString n]
  | .otherNumber numeral => [numeral]
  | .string text => [quotedText text]
  | .array [] => ["[]"]
  | .array items => "[" :: prettyItems (depth + 1) items ++ [lineBreak depth, "]"]
  | .object [] => ["\x7b\x7d"]
  | .object members => "\x7b" :: prettyMembers (depth + 1) members ++ [lineBreak depth, "\x7d"]

def prettyItems (depth : Nat) : List Json → List String
  | [] => []
  | [item] => lineBreak depth :: prettyAt depth item
  | item :: rest => lineBreak depth :: prettyAt depth item ++ "," :: prettyItems depth rest

def prettyMembers (depth : Nat) : List (Option String × Json) → List String
  | [] => []
  | [(key, value)] => lineBreak depth :: quotedText key :: ": " :: prettyAt depth value
  | (key, value) :: rest =>
    lineBreak depth :: quotedText key :: ": " :: prettyAt depth value ++
      "," :: prettyMembers depth rest

end

def pretty (value : Json) : String := String.join (prettyAt 0 value)

def record (members : List (String × Json)) : Json :=
  .object (members.map fun (key, value) => (some key, value))

end Json

end RiscvBoard
