import RiscvBoard.Instruction.Operation

/-!
# Counters of retired instructions

Every instruction that completes is counted once in all and once in its
category. A jump counts among the branches and is always taken.
-/

namespace RiscvBoard

structure Counters where
  instructions : Nat := 0
  branches : Nat := 0
  taken : Nat := 0
  loads : Nat := 0
  stores : Nat := 0
  muls : Nat := 0
  divs : Nat := 0
  other : Nat := 0
  deriving DecidableEq, Repr

namespace Counters

/-- Counts an instruction in its category. -/
def tally (counters : Counters) (category : Category) (taken : Bool) : Counters :=
  match category with
  | .branch | .jump =>
    { counters with
      branches := counters.branches + 1
      taken := if taken then counters.taken + 1 else counters.taken }
  | .load => { counters with loads := counters.loads + 1 }
  | .store => { counters with stores := counters.stores + 1 }
  | .mul => { counters with muls := counters.muls + 1 }
  | .div => { counters with divs := counters.divs + 1 }
  | .alu | .upper => { counters with other := counters.other + 1 }

/-- Counts an instruction that completed, and whether it left the row of instructions. -/
def record (counters : Counters) (op : Operation) (taken : Bool) : Counters :=
  { counters with instructions := counters.instructions + 1 }.tally op.category taken

end Counters

end RiscvBoard
