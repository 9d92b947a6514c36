import RiscvBoard.Word

/-!
# The fields of an instruction word

Register numbers and function codes stand at fixed places. An immediate is put
together from up to four pieces and is read as a two's-complement number, except
for the upper immediate, which has no sign.
-/

namespace RiscvBoard.Word

def field (w : Word) (low size : Nat) : Nat := w.toNat >>> low % size

def opcode (w : Word) : Nat := field w 0 128

def rd (w : Word) : Nat := field w 7 32

def funct3 (w : Word) : Nat := field w 12 8

def rs1 (w : Word) : Nat := field w 15 32

def rs2 (w : Word) : Nat := field w 20 32

def funct7 (w : Word) : Nat := field w 25 128

def immediateI (w : Word) : Int := (w.extractLsb' 20 12).toInt

def immediateS (w : Word) : Int := (w.extractLsb' 25 7 ++ w.extractLsb' 7 5).toInt

def immediateB (w : Word) : Int :=
  (w.extractLsb' 31 1 ++ w.extractLsb' 7 1 ++ w.extractLsb' 25 6 ++ w.extractLsb' 8 4 ++ 0#1).toInt

def immediateU (w : Word) : Int := (w.extractLsb' 12 20).toNat

def immediateJ (w : Word) : Int :=
  (w.extractLsb' 31 1 ++ w.extractLsb' 12 8 ++ w.extractLsb' 20 1 ++
    w.extractLsb' 21 10 ++ 0#1).toInt

end RiscvBoard.Word
