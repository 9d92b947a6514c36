import RiscvBoard.Word
import RiscvBoard.Text.Blank

/-!
# Written numbers

Digits are read from the left, and the first fault decides: a character that is
no digit of the base, or a value that reaches the limit. Printing with `fixed`
gives exactly as many digits as asked for.
-/

namespace RiscvBoard.Numeral

inductive Fault
  | empty
  | invalidDigit
  | tooLarge
  deriving DecidableEq, Repr

def Fault.message : Fault → String
  | .empty => "cannot parse integer from empty string"
  | .invalidDigit => "invalid digit found in string"
  | .tooLarge => "number too large to fit in target type"

def digit? (base : Nat) (c : Char) : Option Nat :=
  let value :=
    if '0' ≤ c ∧ c ≤ '9' then some (c.toNat - '0'.toNat)
    else if 'a' ≤ c ∧ c ≤ 'f' then some (c.toNat - 'a'.toNat + 10)
    else if 'A' ≤ c ∧ c ≤ 'F' then some (c.toNat - 'A'.toNat + 10)
    else none
  value.filter (· < base)

/-- Continues a number with value `read` so far by digits; the value stays below `limit`. -/
def digits (base limit read : Nat) : List Char → Except Fault Nat
  | [] => .ok read
  | c :: rest =>
    match digit? base c with
    | none => .error .invalidDigit
    | some d =>
      if base * read + d < limit then digits base limit (base * read + d) rest
      else .error .tooLarge

def natural (base limit : Nat) : List Char → Except Fault Nat
  | [] => .error .empty
  | ['+'] => .error .invalidDigit
  | '+' :: rest => digits base limit 0 rest
  | text => digits base limit 0 text

def hexPart? : List Char → Option (List Char)
  | '0' :: 'x' :: rest => some rest
  | '0' :: 'X' :: rest => some rest
  | _ => none

def word (text : List Char) : Except Fault Word :=
  let text := Text.trim text
  let value :=
    match hexPart? text with
    | some rest => natural 16 0x100000000 rest
    | none => natural 10 0x100000000 text
  value.map (BitVec.ofNat 32)

def magnitude? (base limit : Nat) (text : List Char) : Option Nat :=
  if text.isEmpty then none else (digits base limit 0 text).toOption

/-- A 64-bit number in two's complement with an optional sign. -/
def long? (base : Nat) : List Char → Option Int
  | '-' :: rest => (magnitude? base 0x8000000000000001 rest).map fun n => -(n : Int)
  | '+' :: rest => (magnitude? base 0x8000000000000000 rest).map Int.ofNat
  | text => (magnitude? base 0x8000000000000000 text).map Int.ofNat

/-- An immediate without its sign: decimal digits, or a 64-bit number after `0x`. The number after
`0x` may have a sign of its own. -/
def unsignedImmediate? (text : List Char) : Option Int :=
  match hexPart? text with
  | some rest => long? 16 rest
  | none => (magnitude? 10 0x8000000000000000 text).map Int.ofNat

/-- The negative of a 64-bit number in two's complement. The lowest number is its own negative. -/
def negate (value : Int) : Int := (-value).bmod 0x10000000000000000

/-- An immediate as written in assembly: blanks around it, and a sign or none. -/
def immediate? (text : List Char) : Option Int :=
  match Text.trim text with
  | '-' :: rest => (unsignedImmediate? rest).map negate
  | '+' :: rest => unsignedImmediate? rest
  | text => unsignedImmediate? text

def fixed (base : Nat) : Nat → Nat → List Char
  | 0, _ => []
  | count + 1, n => fixed base count (n / base) ++ [Nat.digitChar (n % base)]

@[simp] theorem length_fixed (base count n : Nat) : (fixed base count n).length = count := by
  induction count generalizing n with
  | zero => rfl
  | succ count ih => simp [fixed, ih]

def hex (count n : Nat) : String := String.ofList (fixed 16 count n)

def binary (count n : Nat) : String := String.ofList (fixed 2 count n)

def address (w : Word) : String := "0x" ++ hex 8 w.toNat

end RiscvBoard.Numeral
