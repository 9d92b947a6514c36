import RiscvBoard.Image.Error
import RiscvBoard.Text.BitString

/-!
# Images that are text

A bit image has one word of thirty-two bits on a line, a hex image any number of
hexadecimal words. In both a comment runs from `#` or `;` to the end of the
line, and lines without content are skipped. The first bad line of a bit image,
or the first bad word of a hex image, is reported with its line number.
-/

namespace RiscvBoard.Image

def startsComment (c : Char) : Bool := c == '#' || c == ';'

def contentLines (text : List Char) : List (Nat × List Char) :=
  (((Text.lines text).zipIdx 1).map fun (line, number) =>
    (number, Text.trim (Text.before startsComment line))).filter (!·.2.isEmpty)

/-- The word of a line of bits. Blanks between the bits are ignored. -/
def bitRow? (line : List Char) : Option Word := BitString.word? (Text.words line).flatten

/-- A word in hexadecimal, of at most eight characters after an optional `0x`. The first of these
may be a plus sign. -/
def hexWord? (item : List Char) : Option Word :=
  let digits := (Numeral.hexPart? item).getD item
  if digits.length ≤ 8 then (Numeral.natural 16 0x100000000 digits).toOption.map (BitVec.ofNat 32)
  else none

def hexItems (text : List Char) : List (Nat × List Char) :=
  (contentLines text).flatMap fun (number, line) => (Text.words line).map fun item => (number, item)

/-- The values of `f` on all items, or what `fault` says about the first item without one. -/
def readAll (f : List Char → Option Word) (fault : Nat → String → LoadError)
    (items : List (Nat × List Char)) : Except LoadError (List Word) :=
  items.mapM fun (number, item) =>
    match f item with
    | some word => .ok word
    | none => .error (fault number (String.ofList item))

def parseBits (text : List Char) : Except LoadError (List Word) :=
  readAll bitRow? .notBits (contentLines text)

def parseHex (text : List Char) : Except LoadError (List Word) :=
  readAll hexWord? .notHex (hexItems text)

def renderBits (words : List Word) : List Char :=
  words.flatMap fun word => BitString.ofWord word ++ ['\n']

def renderHex (words : List Word) : List Char :=
  words.flatMap fun word => Numeral.fixed 16 8 word.toNat ++ ['\n']

end RiscvBoard.Image
