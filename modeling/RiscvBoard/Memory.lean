import RiscvBoard.Bus

/-!
# Plain memory

A row of cells from a base address on. Addresses are compared as numbers without
bound, so that a memory may reach past the last 32-bit address.
-/

namespace RiscvBoard

structure Memory where
  base : Word
  cells : Cells
  deriving DecidableEq

namespace Memory

def ofSize (base : Word) (size : Nat) : Memory := ⟨base, .zeros size⟩

def size (m : Memory) : Nat := m.cells.size

def stop (m : Memory) : Nat := m.base.toNat + m.size

def contains (m : Memory) (addr : Word) : Bool :=
  m.base.toNat ≤ addr.toNat && addr.toNat < m.stop

def clear (m : Memory) : Memory := { m with cells := .zeros m.size }

/-- An access must lie inside the memory with all its bytes. -/
def fault? (m : Memory) (addr : Word) (width : Width) : Option Fault :=
  if m.contains addr then
    if addr.toNat + width.bytes ≤ m.stop then none else some (.straddle addr width)
  else some (.unmapped addr)

/-- Where an address lies in the cells. -/
def offset (m : Memory) (addr : Word) : Nat := addr.toNat - m.base.toNat

instance : Bus Memory where
  read m addr width :=
    match m.fault? addr width with
    | some fault => .error fault
    | none => .ok (m.cells.load (m.offset addr) width)
  refusal? := fault?
  store m addr value width := { m with cells := m.cells.store (m.offset addr) value width }

theorem offset_add_le {m : Memory} {addr : Word} {width : Width} (h : m.fault? addr width = none) :
    m.offset addr + width.bytes ≤ m.size := by
  unfold fault? at h
  split at h
  · split at h
    · rename_i hc hs
      simp only [contains, stop, Bool.and_eq_true, decide_eq_true_eq] at hc hs
      simp only [offset]
      omega
    · cases h
  · cases h

def summary (m : Memory) : String :=
  "LinearMemory \x7b base: " ++ Numeral.address m.base ++ ", len: " ++ toString m.size ++ " \x7d"

end Memory

end RiscvBoard
