import RiscvBoard.Hart.Basic
import RiscvBoard.Instruction.Operand
import RiscvBoard.Proofs.Board.Access

/-!
# RV32I over integers

What the base instructions do, in the words of the manual: registers, addresses
and the program counter are integers modulo `2 ^ 32`, and memory is a map from
addresses to bytes. Nothing here is a machine word; an operation that depends on
the size or the sign of a residue reads it with `unsigned` or `signed`.
-/

namespace RiscvBoard.Manual

/-- The residue between zero and `2 ^ 32`. -/
def unsigned (v : Int) : Int := v % 2 ^ 32

/-- The residue around zero. -/
def signed (v : Int) : Int := v.bmod (2 ^ 32)

def amount (v : Int) : Nat := (v % 32).toNat

def truth (p : Prop) [Decidable p] : Int := if p then 1 else 0

def bitwise (f : Nat → Nat → Nat) (a b : Int) : Int := f (unsigned a).toNat (unsigned b).toNat

/-- What an instruction finds. Bytes that no region has are missing. -/
structure View where
  pc : Int
  register : Nat → Int
  byte? : Int → Option Int

namespace View

def number? (view : View) (addr : Int) : Nat → Option Int
  | 0 => some 0
  | count + 1 =>
    (view.byte? addr).bind fun low => (view.number? (addr + 1) count).map fun rest =>
      low + 256 * rest

def loaded? (view : View) (addr : Int) (width : Width) (withSign : Bool) : Option Int :=
  (view.number? addr width.bytes).map fun v => if withSign then v.bmod (2 ^ width.bits) else v

end View

structure Store where
  addr : Int
  value : Int
  width : Width

/-- What an instruction does; `written` is for its register `rd`. -/
structure Change where
  pc : Int
  written : Option Int := none
  store : Option Store := none

def result? (op : Operation) (a b : Int) : Option Int :=
  match op with
  | .add | .addi => some (a + b)
  | .sub => some (a - b)
  | .and | .andi => some (bitwise (· &&& ·) a b)
  | .or | .ori => some (bitwise (· ||| ·) a b)
  | .xor | .xori => some (bitwise (· ^^^ ·) a b)
  | .sll | .slli => some (a * 2 ^ amount b)
  | .srl | .srli => some (unsigned a / 2 ^ amount b)
  | .sra | .srai => some (signed a / 2 ^ amount b)
  | .slt | .slti => some (truth (signed a < signed b))
  | .sltu | .sltiu => some (truth (unsigned a < unsigned b))
  | _ => none

def related (op : Operation) (a b : Int) : Bool :=
  match op with
  | .beq => unsigned a = unsigned b
  | .bne => unsigned a ≠ unsigned b
  | .blt => signed a < signed b
  | .bge => signed b ≤ signed a
  | .bltu => unsigned a < unsigned b
  | .bgeu => unsigned b ≤ unsigned a
  | _ => false

def change? (i : Instruction) (view : View) : Option Change :=
  let a := view.register i.rs1
  let b := view.register i.rs2
  let next := view.pc + 4
  let load (width : Width) (withSign : Bool) : Option Change :=
    (view.loaded? (a + i.imm) width withSign).map fun v => { pc := next, written := some v }
  let store (width : Width) : Option Change :=
    some { pc := next, store := some ⟨a + i.imm, b, width⟩ }
  match i.op with
  | .lui => some { pc := next, written := some (i.imm * 2 ^ 12) }
  | .auipc => some { pc := next, written := some (view.pc + i.imm * 2 ^ 12) }
  | .jal => some { pc := view.pc + i.imm, written := some next }
  -- bit 0 of the target is cleared
  | .jalr => some { pc := unsigned (a + i.imm) / 2 * 2, written := some next }
  | .beq | .bne | .blt | .bge | .bltu | .bgeu =>
    some { pc := if related i.op a b then view.pc + i.imm else next }
  | .lb => load .byte true
  | .lh => load .half true
  | .lw => load .word false
  | .lbu => load .byte false
  | .lhu => load .half false
  | .sb => store .byte
  | .sh => store .half
  | .sw => store .word
  | op =>
    (result? op a (if op.format = .r then b else i.imm)).map fun v =>
      { pc := next, written := some v }

-- ---------------------------------------------------------------------------
-- Machines
-- ---------------------------------------------------------------------------

def view (hart : Hart) (board : Board) : View where
  pc := hart.pc.toNat
  register n := (hart.register n).toNat
  byte? addr := (board.peek? (BitVec.ofInt 32 addr)).map fun byte => (byte.toNat : Int)

/-- A change is all that happens between two states of a hart and its board. A store is a write on
the bus, and its bytes are found again where they were put, but for the status register of the
UART. -/
structure Change.Describes (change : Change) (rd : Nat) (before after : Hart × Board) : Prop where
  pc : (after.1.pc.toNat : Int) = unsigned change.pc
  register : ∀ n < 32, ((after.1.register n).toNat : Int) =
    if n = rd ∧ n ≠ 0 then
      (change.written.map unsigned).getD (before.1.register n).toNat
    else (before.1.register n).toNat
  config : after.1.config = before.1.config
  quiet : change.store = none → after.2 = before.2
  write : ∀ store, change.store = some store →
    Bus.write before.2 (BitVec.ofInt 32 store.addr) (BitVec.ofInt 32 store.value) store.width =
      (none, after.2)
  bytes : ∀ store, change.store = some store → ∃ (region : Region) (off : Nat),
    unsigned store.addr = (region.base + off : Nat) ∧
    off + store.width.bytes ≤ before.2.sizeOf region ∧
    ∀ k < store.width.bytes, after.2.peek? (BitVec.ofInt 32 (store.addr + k)) =
      some (region.shown (off + k) (BitVec.ofInt 8 (store.value / 256 ^ k)))
  others : ∀ store, change.store = some store → ∀ x,
    (∀ k < store.width.bytes, x ≠ BitVec.ofInt 32 (store.addr + k)) →
      after.2.peek? x = before.2.peek? x

end RiscvBoard.Manual
