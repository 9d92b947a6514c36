import RiscvBoard.Json.Token

/-!
# Reading JSON

A machine takes the tokens one by one. It holds the arrays and objects that are
still open, the innermost first, and what it waits for. A text is a value if the
machine takes all its tokens and has nothing open at the end; nesting has no
limit.
-/

namespace RiscvBoard.Json

/-- An open array or object with its contents so far, the latest first. An open object also has the
key whose value is being read. -/
inductive Frame
  | items (before : List Json)
  | members (before : List (Option String × Json)) (key : Option String)

inductive Expecting
  | value (outer : List Frame)
  | firstItem (outer : List Frame)
  | firstKey (outer : List Frame)
  | key (before : List (Option String × Json)) (outer : List Frame)
  | colon (before : List (Option String × Json)) (key : Option String) (outer : List Frame)
  | more (value : Json) (outer : List Frame)

def beginValue (outer : List Frame) : Token → Option Expecting
  | .atom value => some (.more value outer)
  | .openArray => some (.firstItem outer)
  | .openObject => some (.firstKey outer)
  | _ => none

def advance : Expecting → Token → Option Expecting
  | .value outer, token => beginValue outer token
  | .firstItem outer, .closeArray => some (.more (.array []) outer)
  | .firstItem outer, token => beginValue (.items [] :: outer) token
  | .firstKey outer, .closeObject => some (.more (.object []) outer)
  | .firstKey outer, .atom (.string key) => some (.colon [] key outer)
  | .key before outer, .atom (.string key) => some (.colon before key outer)
  | .colon before key outer, .colon => some (.value (.members before key :: outer))
  | .more value (.items before :: outer), .comma =>
    some (.value (.items (value :: before) :: outer))
  | .more value (.items before :: outer), .closeArray =>
    some (.more (.array (value :: before).reverse) outer)
  | .more value (.members before key :: outer), .comma => some (.key ((key, value) :: before) outer)
  | .more value (.members before key :: outer), .closeObject =>
    some (.more (.object ((key, value) :: before).reverse) outer)
  | _, _ => none

/-- The value in a text, with space around it. -/
def parse? (text : List Char) : Option Json := do
  match ← (← tokens? text).foldlM advance (.value []) with
  | .more value [] => some value
  | _ => none

end RiscvBoard.Json
