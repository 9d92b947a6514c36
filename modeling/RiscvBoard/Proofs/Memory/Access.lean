import RiscvBoard.Memory
import RiscvBoard.Proofs.Bytes
import RiscvBoard.Proofs.Work

/-!
# Plain memory in place

A memory whose array refuses every index outside of it has the accesses of
`Memory`: nothing is refused by the array once the range has been checked, and
an access that is refused has changed nothing.
-/

namespace RiscvBoard.Memory

variable {m : Memory} {addr value : Word} {width : Width} {off : Nat}

def begin (addr : Word) (width : Width) : Work Memory Nat := fun m =>
  match m.fault? addr width with
  | some fault => .error (.refused fault) m
  | none => .ok (m.offset addr) m

def setByte (index : Nat) (byte : Byte) : Work Memory Unit := fun m =>
  if index < m.size then .ok () { m with cells := m.cells.set index byte } else .error .outside m

/-- Puts the lowest `n` bytes of a value from `off` on. The last one comes first, so that a row of
bytes that does not fit stops before the first change. -/
def putBytes (off : Nat) (value : Word) : Nat → Work Memory Unit
  | 0 => pure ()
  | n + 1 => do
    setByte (off + n) (value.byte n)
    putBytes off value n

def fetch (addr : Word) (width : Width) : Work Memory Word := do
  let off ← begin addr width
  let m ← get
  let number ← Work.index (littleEndian? (m.cells[·]?) off width.bytes)
  return BitVec.ofNat 32 number

def put (addr value : Word) (width : Width) : Work Memory Unit := do
  let off ← begin addr width
  putBytes off value width.bytes

theorem begin_of_fault (h : m.fault? addr width = some fault) :
    begin addr width m = .error (.refused fault) m := by
  simp only [begin, h]

theorem begin_of_none (h : m.fault? addr width = none) :
    begin addr width m = .ok (m.offset addr) m := by
  simp only [begin, h]

theorem putBytes_eq (value : Word) {n : Nat} (h : off + n ≤ m.size) :
    putBytes off value n m = .ok () { m with cells := m.cells.storeBytes off value n } := by
  induction n generalizing m with
  | zero => rfl
  | succ n ih =>
    have hset : setByte (off + n) (value.byte n) m =
        .ok () { m with cells := m.cells.set (off + n) (value.byte n) } := if_pos (by omega)
    rw [putBytes, Work.bind_of_ok hset, ih, Cells.storeBytes]
    simp only [size, Cells.size_set] at h ⊢
    omega

theorem fetch_eq (m : Memory) (addr : Word) (width : Width) :
    fetch addr width m = Work.answer m (Bus.read m addr width) := by
  simp only [Bus.read, fetch]
  cases hf : m.fault? addr width with
  | some fault => simp only [bind, EStateM.bind, begin_of_fault hf, Work.answer]
  | none =>
    have hsize := offset_add_le hf
    have hnumber : littleEndian? (m.cells[·]?) (m.offset addr) width.bytes =
        some (littleEndian m.cells.get (m.offset addr) width.bytes) :=
      littleEndian?_eq fun i _ hi => Cells.getElem?_eq_get (Nat.lt_of_lt_of_le hi hsize)
    rw [Work.bind_of_ok (begin_of_none hf)]
    change (Work.index (littleEndian? (m.cells[·]?) (m.offset addr) width.bytes) >>= _) m = _
    rw [hnumber]
    rfl

theorem put_eq (m : Memory) (addr value : Word) (width : Width) :
    put addr value width m = Work.attempt (Bus.write m addr value width) := by
  simp only [Bus.write, Bus.refusal?, Bus.store, put]
  cases hf : m.fault? addr width with
  | some fault => simp only [bind, EStateM.bind, begin_of_fault hf, Work.attempt]
  | none =>
    rw [Work.bind_of_ok (begin_of_none hf), putBytes_eq value (offset_add_le hf)]
    rfl

section

variable (haddr : addr.toNat = m.base.toNat + off) (hsize : off + width.bytes ≤ m.size)
include haddr hsize

theorem fault?_eq_none : m.fault? addr width = none := by
  have hpos := width.bytes_pos
  have hstop : m.stop = m.base.toNat + m.size := rfl
  have hin : m.contains addr = true := by
    simp only [contains, hstop, Bool.and_eq_true, decide_eq_true_eq]
    omega
  rw [fault?, if_pos hin, if_pos (by omega)]

theorem fetch_eq_ok : fetch addr width m = .ok (m.cells.load off width) m := by
  have hoff : m.offset addr = off := by rw [offset, haddr, Nat.add_sub_cancel_left]
  simp only [fetch_eq, Bus.read, fault?_eq_none haddr hsize, Work.answer, hoff]

theorem put_eq_ok (value : Word) :
    put addr value width m = .ok () { m with cells := m.cells.store off value width } := by
  have hoff : m.offset addr = off := by rw [offset, haddr, Nat.add_sub_cancel_left]
  simp only [put_eq, Bus.write, Bus.refusal?, Bus.store, fault?_eq_none haddr hsize, Work.attempt,
    hoff]

end

end RiscvBoard.Memory
