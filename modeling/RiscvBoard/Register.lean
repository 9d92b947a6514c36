import RiscvBoard.Text.Blank
import RiscvBoard.Text.Numeral

/-!
# Integer registers

There are thirty-two. Each has a number, written `x0` to `x31`, and a name in
the calling convention; register 8 has the second name `fp`.
-/

namespace RiscvBoard.Register

def names : Vector String 32 :=
  #v["zero", "ra", "sp", "gp", "tp", "t0", "t1", "t2",
    "s0", "s1", "a0", "a1", "a2", "a3", "a4", "a5",
    "a6", "a7", "s2", "s3", "s4", "s5", "s6", "s7",
    "s8", "s9", "s10", "s11", "t3", "t4", "t5", "t6"]

theorem mod_lt (number : Nat) : number % 32 < 32 := Nat.mod_lt number (by decide)

/-- Only the low five bits of a register number count. -/
def name (number : Nat) : String := names.get ⟨number % 32, mod_lt number⟩

def stackPointer : Nat := 2

/-- The number after the letter x, with any number of leading zeros. -/
def ofDigits? (digits : List Char) : Option Nat := Numeral.magnitude? 10 32 digits

def ofName? (text : List Char) : Option Nat :=
  let text := Text.lower text
  if text = ['f', 'p'] then some 8 else names.toList.findIdx? fun name => name.toList = text

/-- A register as written in assembly, with blanks around it. After the letter x a row of digits is
a number and nothing else. -/
def read? (text : List Char) : Option Nat :=
  match Text.trim text with
  | [] => none
  | c :: rest =>
    if (c = 'x' ∨ c = 'X') ∧ rest ≠ [] ∧ rest.all Char.isDigit then ofDigits? rest
    else ofName? (c :: rest)

end RiscvBoard.Register
