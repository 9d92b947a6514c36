import RiscvBoard.Bytes
import RiscvBoard.Text.Numeral

/-!
# Accesses and their faults

A bus answers reads and writes of one, two or four bytes. A read leaves the bus
as it is. A write is checked first; only a write that is not refused changes the
bus, so that a refused one changes nothing.
-/

namespace RiscvBoard

inductive Fault
  | unmapped (addr : Word)
  | straddle (addr : Word) (width : Width)
  | misaligned (addr : Word) (width : Width)
  | readOnly (addr : Word)
  deriving DecidableEq, Repr

namespace Fault

def address : Fault → Word
  | .unmapped addr | .straddle addr _ | .misaligned addr _ | .readOnly addr => addr

def accessText (addr : Word) (width : Width) : String :=
  toString width.bytes ++ "-byte access at " ++ Numeral.address addr

def message : Fault → String
  | .unmapped addr => "unmapped address " ++ Numeral.address addr
  | .straddle addr width => accessText addr width ++ " straddles a device boundary"
  | .misaligned addr width => accessText addr width ++ " crosses a register boundary"
  | .readOnly addr => "write to read-only location " ++ Numeral.address addr

end Fault

class Bus (β : Type) where
  read : β → Word → Width → Except Fault Word
  refusal? : β → Word → Width → Option Fault
  /-- The bus after a write of the low bytes of a value that is not refused. -/
  store : β → Word → Word → Width → β

namespace Bus

variable {β : Type} [Bus β]

def load (bus : β) (addr : Word) (width : Width) (signed : Bool) : Except Fault Word :=
  (read bus addr width).map fun raw => Word.extend raw width signed

/-- The bus after an attempt to write, and the refusal if there is one. -/
def write (bus : β) (addr value : Word) (width : Width) : Option Fault × β :=
  match refusal? bus addr width with
  | some fault => (some fault, bus)
  | none => (none, store bus addr value width)

theorem write_refused {bus : β} {addr value : Word} {width : Width} {fault : Fault}
    (h : (write bus addr value width).1 = some fault) : (write bus addr value width).2 = bus := by
  unfold write at h ⊢
  split at h <;> simp_all

end Bus

end RiscvBoard
