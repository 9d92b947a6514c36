import RiscvBoard.Board.Basic
import RiscvBoard.Proofs.Hart.Step

/-!
# A trap changes nothing

`Hart.step` works out an effect before anything changes. A machine that changes
registers and bus while the instruction runs has the same steps: every check
comes before the first change, and a trap finds the hart and the bus as they
were when the step began.
-/

namespace RiscvBoard

/-- Work on a hart and a bus. A trap keeps what was changed before it. -/
abbrev Running (β : Type) := EStateM Trap (Hart × β)

namespace Hart

variable {β : Type} [Bus β]

def expect {α : Type} : Except Trap α → Running β α
  | .ok a => pure a
  | .error trap => throw trap

def writeBus (pc addr value : Word) (width : Width) : Running β Unit := fun (hart, bus) =>
  match Bus.write bus addr value width with
  | (none, bus) => .ok () (hart, bus)
  | (some cause, bus) => .error (.bus pc addr cause) (hart, bus)

def writeRegister (rd : Nat) (value : Word) : Running β Unit :=
  modify fun (hart, bus) => (hart.setRegister rd value, bus)

def execute (i : Instruction) : Running β (Option Word) := do
  let (hart, bus) ← get
  let a := hart.register i.rs1
  let imm := BitVec.ofInt 32 i.imm
  match i.op.action with
  | .compute f =>
    writeRegister i.rd (f a (if i.op.format = .r then hart.register i.rs2 else imm))
    return none
  | .load width signed =>
    let value ← expect ((Bus.load bus (a + imm) width signed).mapError (.bus hart.pc (a + imm)))
    writeRegister i.rd value
    return none
  | .store width =>
    writeBus hart.pc (a + imm) (hart.register i.rs2) width
    return none
  | .branch condition =>
    if condition a (hart.register i.rs2) then some <$> expect (hart.jumpTarget (hart.pc + imm))
    else return none
  | .jump =>
    let target ← expect (hart.jumpTarget (hart.pc + imm))
    writeRegister i.rd (hart.pc + 4)
    return some target
  | .jumpRegister =>
    let target ← expect (hart.jumpTarget ((a + imm) &&& ~~~1#32))
    writeRegister i.rd (hart.pc + 4)
    return some target
  | .upper =>
    writeRegister i.rd (imm <<< 12)
    return none
  | .upperRelative =>
    writeRegister i.rd (hart.pc + imm <<< 12)
    return none

def cycle : Running β Outcome := do
  let (hart, bus) ← get
  let raw ← expect (hart.fetch bus)
  if raw = 0 ∧ hart.config.haltOnZero then return .halted
  let i ← expect (hart.decode raw)
  let target ← execute i
  modify fun (h, bus) => ({ h with pc := target.getD (hart.pc + 4) }, bus)
  modify fun (h, bus) => ({ h with counters := h.counters.record i.op target.isSome }, bus)
  return .executed

/-- A step that changes the hart and the bus as it goes along. -/
def stepInOrder (hart : Hart) (bus : β) : Outcome × Hart × β :=
  match cycle (hart, bus) with
  | .ok outcome state => (outcome, state)
  | .error trap state => (.trapped trap, state)

variable {hart : Hart} {bus : β}

-- ---------------------------------------------------------------------------
-- One instruction
-- ---------------------------------------------------------------------------

omit [Bus β] in
theorem expect_bind {α γ : Type} (x : Except Trap α) (f : α → Running β γ) (state : Hart × β) :
    (expect x >>= f) state = match x with
      | .ok a => f a state
      | .error trap => .error trap state := by
  cases x with
  | ok a => rfl
  | error trap => rfl

theorem writeBus_bind {γ : Type} (pc addr value : Word) (width : Width) (f : Unit → Running β γ) :
    (writeBus pc addr value width >>= f) (hart, bus) = match Bus.refusal? bus addr width with
      | none => f () (hart, Bus.store bus addr value width)
      | some cause => .error (.bus pc addr cause) (hart, bus) := by
  cases hr : Bus.refusal? bus addr width with
  | none => simp only [bind, EStateM.bind, writeBus, Bus.write, hr]
  | some cause => simp only [bind, EStateM.bind, writeBus, Bus.write, hr]

/-- Jumps check their target before they write the link. -/
theorem link_eq (rd : Nat) (target : Word) :
    (expect (hart.jumpTarget target) >>= fun found => do
      writeRegister rd (hart.pc + 4)
      return some found) (hart, bus) =
    match (hart.jumpTarget target).map (Effect.link rd) with
      | .ok effect => .ok effect.target? (effect.apply hart bus)
      | .error trap => .error trap (hart, bus) := by
  rw [expect_bind]
  cases hart.jumpTarget target with
  | ok found => rfl
  | error trap => rfl

/-- An instruction that traps has changed nothing yet, and any other one has the effect that was
worked out for it. -/
theorem execute_eq (i : Instruction) :
    execute i (hart, bus) = match hart.effect bus i with
      | .ok effect => .ok effect.target? (effect.apply hart bus)
      | .error trap => .error trap (hart, bus) := by
  unfold execute effect
  cases i.op.action with
  | compute f => rfl
  | load width signed =>
    change (expect
      ((Bus.load bus (hart.register i.rs1 + BitVec.ofInt 32 i.imm) width signed).mapError _)
      >>= _) (hart, bus) = _
    rw [expect_bind]
    cases hl : Bus.load bus (hart.register i.rs1 + BitVec.ofInt 32 i.imm) width signed with
    | ok value =>
      simp only [hl]
      rfl
    | error cause =>
      simp only [hl]
      rfl
  | store width =>
    change (writeBus hart.pc (hart.register i.rs1 + BitVec.ofInt 32 i.imm)
      (hart.register i.rs2) width >>= _) (hart, bus) = _
    rw [writeBus_bind]
    cases hr : Bus.refusal? bus (hart.register i.rs1 + BitVec.ofInt 32 i.imm) width with
    | none =>
      simp only [hr]
      rfl
    | some cause => simp only [hr]
  | branch condition =>
    change (if condition (hart.register i.rs1) (hart.register i.rs2) = true then
      some <$> expect (hart.jumpTarget (hart.pc + BitVec.ofInt 32 i.imm)) else pure none)
        (hart, bus) = _
    by_cases hc : condition (hart.register i.rs1) (hart.register i.rs2) = true
    · rw [if_pos hc]
      simp only [hc, if_true]
      cases hart.jumpTarget (hart.pc + BitVec.ofInt 32 i.imm) with
      | ok target => rfl
      | error trap => rfl
    · rw [if_neg hc]
      simp only [hc, Bool.false_eq_true, if_false]
      rfl
  | jump => exact link_eq ..
  | jumpRegister => exact link_eq ..
  | upper => rfl
  | upperRelative => rfl

-- ---------------------------------------------------------------------------
-- Whole steps
-- ---------------------------------------------------------------------------

def settle (hart : Hart) (bus : β) : Except Trap Plan → EStateM.Result Trap (Hart × β) Outcome
  | .error trap => .error trap (hart, bus)
  | .ok .halt => .ok .halted (hart, bus)
  | .ok (.retire i effect) => .ok .executed (hart.retire bus i effect)

theorem cycle_eq : cycle (hart, bus) = settle hart bus (hart.plan bus) := by
  change (expect (hart.fetch bus) >>= _) (hart, bus) = _
  rw [expect_bind]
  unfold plan
  cases hart.fetch bus with
  | error trap => rfl
  | ok raw =>
    change (if raw = 0 ∧ hart.config.haltOnZero = true then pure Outcome.halted
      else expect (hart.decode raw) >>= _) (hart, bus) =
        settle hart bus (if raw = 0 ∧ hart.config.haltOnZero = true then .ok .halt
          else hart.decode raw >>= fun i => hart.effect bus i >>= fun effect =>
          .ok (.retire i effect))
    by_cases hz : raw = 0 ∧ hart.config.haltOnZero = true
    · rw [if_pos hz, if_pos hz]
      rfl
    rw [if_neg hz, if_neg hz, expect_bind]
    cases hart.decode raw with
    | error trap => rfl
    | ok i =>
      change EStateM.bind (execute i) _ (hart, bus) =
        settle hart bus (hart.effect bus i >>= fun effect => .ok (.retire i effect))
      rw [EStateM.bind, execute_eq]
      cases hart.effect bus i with
      | error trap => rfl
      | ok effect => rfl

theorem stepInOrder_eq : hart.stepInOrder bus = hart.step bus := by
  unfold stepInOrder step
  rw [cycle_eq]
  cases hart.plan bus with
  | error trap => rfl
  | ok plan =>
    cases plan with
    | halt => rfl
    | retire i effect => rfl

/-- A step that traps or halts leaves the hart and everything on the board as they were, even if it
changes them as it goes along, and a trap names the address where the step began. -/
theorem step_atomic (hart : Hart) (board : Board) :
    hart.stepInOrder board = hart.step board ∧
      ((hart.step board).1 ≠ .executed → (hart.step board).2 = (hart, board)) ∧
        ∀ trap, (hart.step board).1 = .trapped trap → trap.pc = hart.pc :=
  ⟨stepInOrder_eq, step_eq_of_not_executed, fun _ h => pc_of_step h⟩

def oddJump : Board where
  rom := #[0xEF, 0x00, 0x20, 0x00]
  ram := #[]
  romWritable := true
  rom_le := by decide
  ram_le := Nat.zero_le Region.maxMemory

theorem step_atomic_oddJump :
    (({} : Hart).step oddJump).1 = .trapped (.misalignedJump 0 2) ∧
      (({} : Hart).step oddJump).2 = ({}, oddJump) ∧
        (Trap.misalignedJump 0 2).pc = ({} : Hart).pc := by
  have htrap : (({} : Hart).step oddJump).1 = .trapped (.misalignedJump 0 2) := by decide +kernel
  obtain ⟨-, hsame, hpc⟩ := step_atomic {} oddJump
  exact ⟨htrap, hsame (by rw [htrap]; nofun), hpc _ htrap⟩

end Hart

end RiscvBoard
