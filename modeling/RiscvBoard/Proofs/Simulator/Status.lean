import RiscvBoard.Proofs.Simulator.Events

/-!
# Why a simulator has stopped

A machine with a flag for the halt and a place for the trap, each set on its own,
is a simulator with a status. In no history does it have a trap and still run, and
a trap that is recorded happened where the program counter is. Once it has stopped
nothing but a reset or a load starts it again.
-/

namespace RiscvBoard.Simulator

/-- A simulator that records a halt and a trap in two places. -/
structure Flagged where
  hart : Hart
  board : Board
  halted : Bool := false
  fault : Option Trap := none
  lineMap : Array Nat := #[]

namespace Flagged

def step : StateM Flagged Bool := do
  if (← get).halted then return false
  let outcome ← modifyGet fun machine =>
    let (outcome, hart, board) := machine.hart.step machine.board
    (outcome, { machine with hart, board })
  match outcome with
  | .executed => return true
  | .halted =>
    modify fun machine => { machine with halted := true }
    return false
  | .trapped trap =>
    modify fun machine => { machine with fault := some trap }
    modify fun machine => { machine with halted := true }
    return false

def steps : Nat → StateM Flagged Unit
  | 0 => return
  | count + 1 => do if ← step then steps count

/-- A trap counts more than a halt. -/
def exit (machine : Flagged) : Exit :=
  match machine.halted, machine.fault with
  | _, some _ => .faulted
  | true, none => .halted
  | false, none => .stepLimit

def run (count : Nat) : StateM Flagged Exit := do
  steps count
  return (← get).exit

def reset (machine : Flagged) : Flagged :=
  let board := machine.board.reset
  { hart := machine.hart.reset board.ramTop, board, halted := false, fault := none,
    lineMap := machine.lineMap }

def load (machine : Flagged) (words : List Word) (lineMap : List Nat) : Flagged :=
  let machine := machine.reset
  match machine.board.loadRom words with
  | .ok board => { machine with board, lineMap := lineMap.toArray }
  | .error _ => machine

def ofConfig (config : Config) : Flagged :=
  reset { hart := { config := config.hart }, board := .ofConfig config.board }

def act (machine : Flagged) : Input → Flagged
  | .step => (step machine).2
  | .run count => (run count machine).2
  | .reset => machine.reset
  | .load words lineMap => machine.load words lineMap
  | .setRegister number value => { machine with hart := machine.hart.setRegister number value }
  -- whoever serves the board does not look at the flags
  | input =>
    let served := Simulator.act { hart := machine.hart, board := machine.board } input
    { machine with board := served.board }

def after (machine : Flagged) (inputs : List Input) : Flagged := inputs.foldl act machine

end Flagged

def flagged (sim : Simulator) : Flagged where
  hart := sim.hart
  board := sim.board
  halted := !sim.isRunning
  fault := sim.status.trap?
  lineMap := sim.lineMap

variable {sim : Simulator} {inputs : List Input}

-- ---------------------------------------------------------------------------
-- Two flags for one status
-- ---------------------------------------------------------------------------

theorem flagged_step (sim : Simulator) :
    Flagged.step sim.flagged = (sim.step.isRunning, sim.step.flagged) := by
  obtain ⟨hart, board, status, lineMap⟩ := sim
  cases status with
  | halted => rfl
  | faulted trap => rfl
  | running =>
    change (match (hart.step board).1 with
      | .executed => _
      | .halted => _
      | .trapped trap => _ : StateM Flagged Bool)
      { hart := (hart.step board).2.1, board := (hart.step board).2.2, lineMap } = _
    simp only [Simulator.step]
    cases (hart.step board).1 with
    | executed => rfl
    | halted => rfl
    | trapped trap => rfl

theorem flagged_steps (count : Nat) (sim : Simulator) :
    Flagged.steps count sim.flagged = ((), (run count sim).flagged) := by
  induction count generalizing sim with
  | zero => rfl
  | succ count ih =>
    rw [run_succ]
    change (match Flagged.step sim.flagged with
      | (runnable, machine) =>
        (if runnable = true then Flagged.steps count
          else pure () : StateM Flagged Unit) machine) = _
    rw [flagged_step]
    by_cases h : sim.step.status = .running
    · simp only [if_pos (isRunning_iff.mpr h), ih]
    · simp only [if_neg fun hr => h (isRunning_iff.mp hr), run_of_stopped count h]
      rfl

theorem flagged_exit (sim : Simulator) : sim.flagged.exit = sim.status.exit := by
  obtain ⟨hart, board, status, lineMap⟩ := sim
  cases status <;> rfl

theorem flagged_run (count : Nat) (sim : Simulator) :
    Flagged.run count sim.flagged = ((run count sim).status.exit, (run count sim).flagged) := by
  change ((Flagged.steps count sim.flagged).2.exit, (Flagged.steps count sim.flagged).2) = _
  rw [flagged_steps, flagged_exit]

theorem flagged_load (sim : Simulator) (words : List Word) (lineMap : List Nat) :
    sim.flagged.load words lineMap = (sim.loadProgram words lineMap).2.flagged := by
  change (match sim.reset.board.loadRom words with
    | .ok board => _
    | .error _ => sim.reset.flagged) = _
  simp only [loadProgram]
  cases sim.reset.board.loadRom words with
  | ok board => rfl
  | error capacity => rfl

theorem flagged_act (sim : Simulator) (input : Input) :
    sim.flagged.act input = (sim.act input).flagged := by
  cases input with
  | step => exact congrArg Prod.snd (flagged_step sim)
  | run count => exact congrArg Prod.snd (flagged_run count sim)
  | load words lineMap => exact flagged_load sim words lineMap
  | loadRom words =>
    simp only [Flagged.act, act, replaceRom, flagged]
    cases sim.board.loadRom words with
    | ok board => rfl
    | error capacity => rfl
  | _ => rfl

theorem flagged_after (sim : Simulator) (inputs : List Input) :
    sim.flagged.after inputs = (sim.after inputs).flagged := by
  induction inputs generalizing sim with
  | nil => rfl
  | cons input inputs ih =>
    change (sim.flagged.act input).after inputs = _
    rw [flagged_act, ih]
    rfl

-- ---------------------------------------------------------------------------
-- What the status says
-- ---------------------------------------------------------------------------

/-- A status names the address where the hart has stopped, and a halt is there only for a hart that
has one. -/
structure Explains (hart : Hart) (status : Status) : Prop where
  fault : ∀ trap, status = .faulted trap → trap.pc = hart.pc
  halt : status = .halted → hart.config.haltOnZero = true

theorem kept_explains : Kept Explains where
  step hart board _ := by
    cases houtcome : (hart.step board).1 with
    | executed => exact ⟨nofun, nofun⟩
    | halted =>
      obtain ⟨-, -, -, hzero⟩ := Hart.plan_eq_halt.mp (Hart.plan_of_halted houtcome)
      refine ⟨nofun, fun _ => ?_⟩
      exact (congrArg Hart.Config.haltOnZero Hart.config_step).trans hzero
    | trapped trap =>
      have hsame := Hart.step_eq_of_not_executed (by rw [houtcome]; nofun)
      refine ⟨?_, nofun⟩
      rintro trap ⟨rfl⟩
      rw [hsame]
      exact Hart.pc_of_step houtcome
  reset _ _ := ⟨nofun, nofun⟩
  setRegister hart status number value h :=
    ⟨fun trap hfault => (h.fault trap hfault).trans (Hart.pc_setRegister hart number value).symm,
      fun hhalt => (congrArg Hart.Config.haltOnZero
        (Hart.config_setRegister hart number value)).trans (h.halt hhalt)⟩

/-- Nothing but a reset and a load starts a simulator again. -/
theorem status_act_of_stopped (h : sim.status ≠ .running) {input : Input}
    (hinput : input.restarts = false) : (sim.act input).status = sim.status := by
  cases input with
  | step => exact congrArg status (step_of_stopped h)
  | run count => exact congrArg status (run_of_stopped count h)
  | reset | load => cases hinput
  | loadRom words => exact (sim.hart_replaceRom words).2
  | _ => rfl

theorem status_after_of_stopped (h : sim.status ≠ .running)
    (hinputs : ∀ input ∈ inputs, input.restarts = false) :
    (sim.after inputs).status = sim.status := by
  refine after_of_act (P := fun later => later.status = sim.status)
    (fun input hinput later hlater => ?_) rfl
  exact (status_act_of_stopped (hlater ▸ h) (hinputs input hinput)).trans hlater

-- ---------------------------------------------------------------------------
-- Histories
-- ---------------------------------------------------------------------------

theorem halted_flagged : sim.flagged.halted = true ↔ sim.status ≠ .running := by
  change (!sim.isRunning) = true ↔ _
  rw [Bool.not_eq_true', ← Bool.not_eq_true, isRunning_iff]

theorem fault_flagged {trap : Trap} :
    sim.flagged.fault = some trap ↔ sim.status = .faulted trap := by
  change sim.status.trap? = some trap ↔ _
  cases sim.status <;> simp [Status.trap?]

/-- A machine with two flags in the state of a simulator, of which it has the steps and the runs. -/
structure Flagged.Follows (machine : Flagged) (sim : Simulator) : Prop where
  state : machine = sim.flagged
  step : Flagged.step machine = (sim.step.isRunning, sim.step.flagged)
  run : ∀ count, Flagged.run count machine =
    ((Simulator.run count sim).status.exit, (Simulator.run count sim).flagged)

def Flagged.Tells (exit : Exit) (final : Flagged) : Prop :=
  (exit = .faulted ↔ ∃ trap, final.fault = some trap) ∧ (exit = .stepLimit ↔ final.halted = false) ∧
    (exit = .halted ↔ final.halted = true ∧ final.fault = none)

theorem Flagged.tells (sim : Simulator) : Flagged.Tells sim.status.exit sim.flagged := by
  obtain ⟨hart, board, status, lineMap⟩ := sim
  cases status <;> simp [Tells, flagged, isRunning, Status.isRunning, Status.trap?, Status.exit]

/-- In every history of a machine with two flags a fault comes with a halt and at the program
counter, a machine that has stopped does nothing until it is reset or loaded, and the exit of a run
tells which flags are set. It is the simulator that has the same history. -/
theorem flags_of_history (config : Config) (history : List Input) :
    let machine := (Flagged.ofConfig config).after history
    machine.Follows ((ofConfig config).after history) ∧
      (∀ trap, machine.fault = some trap → machine.halted = true ∧ trap.pc = machine.hart.pc) ∧
      (machine.halted = true → ∀ inputs, (∀ input ∈ inputs, input.restarts = false) →
        let later := machine.after inputs
        later.halted = true ∧ later.fault = machine.fault ∧ Flagged.step later = (false, later) ∧
          ∀ count, Flagged.run count later = (machine.exit, later)) ∧
      (∀ count, Flagged.Tells (Flagged.run count machine).1 (Flagged.run count machine).2) ∧
      (config.hart.haltOnZero = false → machine.halted = true →
        ∃ trap, machine.fault = some trap) := by
  intro machine
  generalize hsim : (ofConfig config).after history = sim
  have hmachine : machine = sim.flagged := hsim ▸ flagged_after (ofConfig config) history
  have hexplains : Explains sim.hart sim.status :=
    hsim ▸ kept_explains.after_ofConfig config history
  have hconfig : sim.hart.config = config.hart := hsim ▸ (sameMachine_ofConfig config history).hart
  clear_value machine
  subst hmachine
  refine ⟨⟨rfl, flagged_step sim, fun count => flagged_run count sim⟩, ?_, ?_, ?_, ?_⟩
  · intro trap hfault
    have hstatus := fault_flagged.mp hfault
    exact ⟨halted_flagged.mpr (by rw [hstatus]; nofun), hexplains.fault trap hstatus⟩
  · intro hhalted inputs hinputs
    have hstopped := halted_flagged.mp hhalted
    have hstatus := status_after_of_stopped hstopped hinputs
    have hlater : (sim.after inputs).status ≠ .running := hstatus ▸ hstopped
    rw [flagged_after]
    refine ⟨halted_flagged.mpr hlater, congrArg Status.trap? hstatus, ?_, fun count => ?_⟩
    · have hrunning : (sim.after inputs).isRunning = false :=
        Bool.eq_false_iff.mpr fun hr => hlater (isRunning_iff.mp hr)
      rw [flagged_step, step_of_stopped hlater, hrunning]
    · rw [flagged_run, run_of_stopped count hlater, flagged_exit, hstatus]
  · intro count
    rw [flagged_run]
    exact Flagged.tells (run count sim)
  · intro hzero hhalted
    cases hstatus : sim.status with
    | running => exact absurd hstatus (halted_flagged.mp hhalted)
    | halted =>
      have hhalt := hexplains.halt hstatus
      rw [hconfig, hzero] at hhalt
      cases hhalt
    | faulted trap => exact ⟨trap, fault_flagged.mpr hstatus⟩

def restless : Config :=
  { hart := { haltOnZero := false }, board := { romSize := 8, ramSize := 8 } }

def stumbling : List Input := [.load [1, 2, 3] [], .load [0x00150513, 0x0020006F] [1, 2], .run 9]

def unaware : List Input :=
  [.setRegister 3 4, .step, .write 0x40000000 1 .word, .advanceTimer 7, .run 5, .drain]

theorem flags_of_history_stumbling :
    let machine := (Flagged.ofConfig restless).after stumbling
    machine.fault = some (.misalignedJump 4 6) ∧ machine.halted = true ∧ machine.hart.pc = 4 ∧
      (machine.after unaware).board.gpio.led = 1 ∧
        (machine.after unaware).fault = some (.misalignedJump 4 6) ∧
      Flagged.run 7 (machine.after unaware) = (.faulted, machine.after unaware) := by
  intro machine
  obtain ⟨-, hfault, hstays, -, -⟩ := flags_of_history restless stumbling
  have htrap : machine.fault = some (.misalignedJump 4 6) := by decide +kernel
  have hexit : machine.exit = .faulted := by decide +kernel
  have hinputs : ∀ input ∈ unaware, input.restarts = false := by decide
  obtain ⟨hhalted, hpc⟩ := hfault (.misalignedJump 4 6) htrap
  obtain ⟨-, hlater, -, hrun⟩ := hstays hhalted unaware hinputs
  exact ⟨htrap, hhalted, hpc.symm, by decide +kernel, hlater.trans htrap, hexit ▸ hrun 7⟩

end RiscvBoard.Simulator
