import RiscvBoard.Hart.Effect
import RiscvBoard.Instruction.Decoding

/-!
# One step of a hart

A step fetches a word, decodes it and carries it out. It halts at a word of zeros
if the configuration says so. A step that traps or halts leaves the hart and the
bus as they were.
-/

namespace RiscvBoard

/-- What a step is going to do. -/
inductive Plan
  | halt
  | retire (i : Instruction) (effect : Effect)
  deriving DecidableEq, Repr

inductive Outcome
  | executed
  | halted
  | trapped (trap : Trap)
  deriving DecidableEq, Repr

namespace Hart

def decode (hart : Hart) (raw : Word) : Except Trap Instruction :=
  match RiscvBoard.decode raw with
  | .error (.unknownOpcode _) => .error (.unknownOpcode hart.pc raw)
  | .error (.unimplemented _) => .error (.unimplemented hart.pc raw)
  | .ok i =>
    if i.op.isMExtension && !hart.config.mExtension then .error (.unimplemented hart.pc raw)
    else .ok i

variable {β : Type} [Bus β]

def fetch (hart : Hart) (bus : β) : Except Trap Word :=
  if hart.pc.toNat % 4 ≠ 0 then .error (.misalignedFetch hart.pc)
  else match Bus.load bus hart.pc .word false with
    | .ok raw => .ok raw
    | .error cause => .error (.fetch hart.pc cause)

def plan (hart : Hart) (bus : β) : Except Trap Plan := do
  let raw ← hart.fetch bus
  if raw = 0 ∧ hart.config.haltOnZero then return .halt
  let i ← hart.decode raw
  return .retire i (← hart.effect bus i)

def retire (hart : Hart) (bus : β) (i : Instruction) (effect : Effect) : Hart × β :=
  let next := effect.target?.getD (hart.pc + 4)
  let (hart, bus) := effect.apply hart bus
  ({ hart with pc := next, counters := hart.counters.record i.op effect.target?.isSome }, bus)

def step (hart : Hart) (bus : β) : Outcome × Hart × β :=
  match hart.plan bus with
  | .error trap => (.trapped trap, hart, bus)
  | .ok .halt => (.halted, hart, bus)
  | .ok (.retire i effect) => (.executed, hart.retire bus i effect)

theorem step_eq_of_not_executed {hart : Hart} {bus : β} (h : (hart.step bus).1 ≠ .executed) :
    (hart.step bus).2 = (hart, bus) := by
  unfold step at h ⊢
  split at h <;> simp_all

end Hart

end RiscvBoard
