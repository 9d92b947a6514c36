import RiscvBoard.Hart.Action
import RiscvBoard.Hart.Basic
import RiscvBoard.Hart.Trap
import RiscvBoard.Instruction.Operand

/-!
# Effects of instructions

What an instruction will do is worked out in full, with every check made, before
anything changes. `Hart.effect` gives the effect or a trap; `Effect.apply`
carries an effect out and cannot fail. So an instruction that traps changes
nothing.
-/

namespace RiscvBoard

inductive Effect
  | result (rd : Nat) (value : Word)
  | store (addr value : Word) (width : Width)
  | branch (target : Option Word)
  | link (rd : Nat) (target : Word)
  deriving DecidableEq, Repr

/-- The address that an instruction goes to, if not to the next one. -/
def Effect.target? : Effect → Option Word
  | .result .. | .store .. => none
  | .branch target => target
  | .link _ target => some target

namespace Hart

/-- The target of a jump. It must be the address of a word. -/
def jumpTarget (hart : Hart) (target : Word) : Except Trap Word :=
  if target.toNat % 4 = 0 then .ok target else .error (.misalignedJump hart.pc target)

variable {β : Type} [Bus β]

def effect (hart : Hart) (bus : β) (i : Instruction) : Except Trap Effect :=
  let a := hart.register i.rs1
  let imm := BitVec.ofInt 32 i.imm
  match i.op.action with
  | .compute f => .ok (.result i.rd (f a (if i.op.format = .r then hart.register i.rs2 else imm)))
  | .load width signed =>
    match Bus.load bus (a + imm) width signed with
    | .ok value => .ok (.result i.rd value)
    | .error cause => .error (.bus hart.pc (a + imm) cause)
  | .store width =>
    match Bus.refusal? bus (a + imm) width with
    | none => .ok (.store (a + imm) (hart.register i.rs2) width)
    | some cause => .error (.bus hart.pc (a + imm) cause)
  | .branch condition =>
    if condition a (hart.register i.rs2) then
      (hart.jumpTarget (hart.pc + imm)).map fun target => .branch (some target)
    else .ok (.branch none)
  | .jump => (hart.jumpTarget (hart.pc + imm)).map (.link i.rd)
  | .jumpRegister => (hart.jumpTarget ((a + imm) &&& ~~~1#32)).map (.link i.rd)
  | .upper => .ok (.result i.rd (imm <<< 12))
  | .upperRelative => .ok (.result i.rd (hart.pc + imm <<< 12))

end Hart

/-- The registers and the bus after an effect. The program counter stays. -/
def Effect.apply {β : Type} [Bus β] (effect : Effect) (hart : Hart) (bus : β) : Hart × β :=
  match effect with
  | .result rd value => (hart.setRegister rd value, bus)
  | .store addr value width => (hart, Bus.store bus addr value width)
  | .branch _ => (hart, bus)
  | .link rd _ => (hart.setRegister rd (hart.pc + 4), bus)

end RiscvBoard
