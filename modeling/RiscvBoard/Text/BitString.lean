import RiscvBoard.Word
import RiscvBoard.Text.Numeral

/-!
# Words as rows of bits

Thirty-two characters `0` and `1`, most significant bit first.
-/

namespace RiscvBoard.BitString

def ofWord (w : Word) : List Char := Numeral.fixed 2 32 w.toNat

def isBit (c : Char) : Bool := c == '0' || c == '1'

/-- Accepts exactly thirty-two bits and nothing around them. -/
def word? (text : List Char) : Option Word :=
  if text.length = 32 ∧ text.all isBit then
    some (BitVec.ofNat 32 (text.foldl (fun n c => 2 * n + if c = '1' then 1 else 0) 0))
  else none

end RiscvBoard.BitString
