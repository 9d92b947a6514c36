import RiscvBoard.Word
import RiscvBoard.Text.Blank

/-!
# Labels and their addresses

A table keeps the first address of each name, and the case of letters in a name
does not matter.
-/

namespace RiscvBoard.Assembly

/-- Names in lower case with their addresses, the latest first. -/
structure Symbols where
  entries : List (List Char × Word) := []
  deriving DecidableEq, Repr

namespace Symbols

def find? (symbols : Symbols) (name : List Char) : Option Word :=
  symbols.entries.lookup (Text.lower name)

def insert (symbols : Symbols) (name : List Char) (addr : Word) : Except Word Symbols :=
  match symbols.find? name with
  | some first => .error first
  | none => .ok ⟨(Text.lower name, addr) :: symbols.entries⟩

def size (symbols : Symbols) : Nat := symbols.entries.length

def before (a b : List Char × Word) : Bool :=
  a.2 < b.2 || (a.2 == b.2 && !List.lex b.1 a.1 fun c d => c.toNat < d.toNat)

def sorted (symbols : Symbols) : List (List Char × Word) := symbols.entries.mergeSort before

theorem find?_of_insert_ok {symbols after : Symbols} {name : List Char} {addr : Word}
    (h : symbols.insert name addr = .ok after) (other : List Char) :
    after.find? other =
      if Text.lower other = Text.lower name then some addr else symbols.find? other := by
  unfold insert at h
  split at h
  · cases h
  · cases h
    by_cases he : Text.lower other = Text.lower name
    · simp [find?, he]
    · have hb : (Text.lower other == Text.lower name) = false := beq_eq_false_iff_ne.mpr he
      simp [find?, List.lookup_cons, he, hb]

end Symbols

end RiscvBoard.Assembly
