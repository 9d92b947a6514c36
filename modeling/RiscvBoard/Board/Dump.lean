import RiscvBoard.Board.Basic

/-!
# Memory dumps

Sixteen bytes on a line after the address of the first, each in two hexadecimal
digits or as two dashes where nothing is mapped. No line begins past the last
32-bit address.
-/

namespace RiscvBoard.Board

def cellText (board : Board) (addr : Word) : List Char :=
  match board.peek? addr with
  | some byte => ' ' :: Numeral.fixed 16 2 byte.toNat
  | none => [' ', '-', '-']

def rowText (board : Board) (addr : Word) (count : Nat) : List Char :=
  Numeral.fixed 16 8 addr.toNat ++ ':' ::
    ((List.range count).flatMap fun i => board.cellText (addr + BitVec.ofNat 32 i)) ++ ['\n']

/-- Adds the lines from the address `row` on to `shown`. The bytes that are asked for end before
`stop`, which may lie past the last address. -/
def dumpFrom (board : Board) (stop : Nat) (shown : String) (row : Word) : String :=
  if row.toNat < stop then
    let shown := shown ++ String.ofList (board.rowText row (min 16 (stop - row.toNat)))
    if row.toNat + 16 < 0x100000000 then dumpFrom board stop shown (row + 16) else shown
  else shown
termination_by 0x100000000 - row.toNat
decreasing_by bv_omega

def dump (board : Board) (addr : Word) (length : Nat) : String :=
  board.dumpFrom (addr.toNat + length) "" addr

end RiscvBoard.Board
