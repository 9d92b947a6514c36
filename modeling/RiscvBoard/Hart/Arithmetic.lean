import RiscvBoard.Word

/-!
# Arithmetic on words

Sums, differences and products wrap around. The upper half of a product comes
from the product in 64 bits, which is always exact. Division by zero has a
result: all ones as the quotient and the dividend as the remainder.
-/

namespace RiscvBoard.Arithmetic

def ofBool (b : Bool) : Word := if b then 1 else 0

/-- Shifts take their amount from the low five bits. -/
def shiftAmount (b : Word) : Nat := b.toNat % 32

def shiftLeft (a b : Word) : Word := a <<< shiftAmount b

def shiftRight (a b : Word) : Word := a >>> shiftAmount b

def shiftRightSigned (a b : Word) : Word := a.sshiftRight (shiftAmount b)

def product (a b : Int) : BitVec 64 := BitVec.ofInt 64 (a * b)

def upper (w : BitVec 64) : Word := w.extractLsb' 32 32

def highSigned (a b : Word) : Word := upper (product a.toInt b.toInt)

def highMixed (a b : Word) : Word := upper (product a.toInt b.toNat)

def highUnsigned (a b : Word) : Word := upper (product a.toNat b.toNat)

/-- The signed quotient, rounded toward zero. The smallest number divided by -1 is itself. -/
def quotient (a b : Word) : Word := if b = 0 then BitVec.allOnes 32 else a.sdiv b

def quotientUnsigned (a b : Word) : Word := if b = 0 then BitVec.allOnes 32 else a / b

def remainder (a b : Word) : Word := if b = 0 then a else a.srem b

def remainderUnsigned (a b : Word) : Word := if b = 0 then a else a % b

end RiscvBoard.Arithmetic
