/-!
# Blanks, lines and pieces

Text is taken apart as a list of characters. A blank is a character with the
Unicode property White_Space; a line ends at a line feed, and a carriage return
directly before the line feed belongs to the ending.
-/

namespace RiscvBoard.Text

/-- First and last character of each run of White_Space characters. -/
def blankRanges : List (Nat × Nat) :=
  [(0x09, 0x0D), (0x20, 0x20), (0x85, 0x85), (0xA0, 0xA0), (0x1680, 0x1680), (0x2000, 0x200A),
    (0x2028, 0x2029), (0x202F, 0x202F), (0x205F, 0x205F), (0x3000, 0x3000)]

def isBlank (c : Char) : Bool :=
  blankRanges.any fun (first, last) => first ≤ c.toNat && c.toNat ≤ last

def trim (text : List Char) : List Char :=
  ((text.dropWhile isBlank).reverse.dropWhile isBlank).reverse

/-- The pieces between the characters that satisfy `sep`; there is always at least one. -/
def pieces (sep : Char → Bool) (text : List Char) : List (List Char) :=
  text.foldr
    (fun c done =>
      if sep c then [] :: done
      else match done with
        | [] => [[c]]
        | piece :: rest => (c :: piece) :: rest)
    [[]]

theorem pieces_ne_nil (sep : Char → Bool) (text : List Char) : pieces sep text ≠ [] := by
  cases text with
  | nil => simp [pieces]
  | cons c text =>
    simp only [pieces, List.foldr_cons]
    split
    · simp
    · split <;> simp

def words (text : List Char) : List (List Char) :=
  (pieces isBlank text).filter (!·.isEmpty)

def splitFirst? (p : Char → Bool) (text : List Char) : Option (List Char × List Char) :=
  match text.dropWhile (!p ·) with
  | [] => none
  | _ :: rest => some (text.takeWhile (!p ·), rest)

def before (p : Char → Bool) (text : List Char) : List Char := text.takeWhile (!p ·)

def dropReturn (line : List Char) : List Char :=
  if line.getLast? = some '\r' then line.dropLast else line

/-- The lines of a text. The last one may lack its line feed, and keeps a carriage return then;
an empty rest after the last line feed is no line. -/
def lines (text : List Char) : List (List Char) :=
  let all := pieces (· == '\n') text
  let last := all.getLast?.getD []
  all.dropLast.map dropReturn ++ if last.isEmpty then [] else [last]

def lower (text : List Char) : List Char := text.map Char.toLower

end RiscvBoard.Text
