import RiscvBoard.Word

/-!
# The timer

A counter that only the host sets and advances. Programs can read it, whole or in
part.
-/

namespace RiscvBoard

structure Timer where
  ticks : Word := 0
  deriving DecidableEq, Repr

namespace Timer

def size : Nat := 4

def set (_ : Timer) (ticks : Word) : Timer := ⟨ticks⟩

/-- Lets time pass; the counter wraps around. -/
def advance (timer : Timer) (delta : Word) : Timer := ⟨timer.ticks + delta⟩

def read (timer : Timer) (off : Nat) (width : Width) : Word := timer.ticks.lane off width

end Timer

end RiscvBoard
