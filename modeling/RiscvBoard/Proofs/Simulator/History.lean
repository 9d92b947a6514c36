import RiscvBoard.Proofs.Board.Laws
import RiscvBoard.Proofs.Hart.Step
import RiscvBoard.Simulator.Basic

/-!
# Histories

A host steps, runs, resets and loads a simulator, sets registers, makes accesses
of its own and serves the devices, in any order. No input changes what the
simulator was configured for, and none but a load changes the program, unless the
ROM may be written.
-/

namespace RiscvBoard.Simulator

inductive Input
  | step
  | run (count : Nat)
  | reset
  | setRegister (number : Nat) (value : Word)
  | load (words : List Word) (lineMap : List Nat)
  /-- Only the ROM gets new words. -/
  | loadRom (words : List Word)
  | drain
  | read (addr : Word) (width : Width) (signed : Bool)
  | write (addr value : Word) (width : Width)
  | setTimer (ticks : Word)
  | advanceTimer (delta : Word)
  | receive (word : Word)
  deriving DecidableEq, Repr

def Input.loads : Input → Bool
  | .load .. | .loadRom .. => true
  | _ => false

/-- Puts words into the ROM and goes on; if they do not fit, nothing changes. -/
def replaceRom (sim : Simulator) (words : List Word) : Simulator :=
  match sim.board.loadRom words with
  | .ok board => { sim with board }
  | .error _ => sim

def act (sim : Simulator) : Input → Simulator
  | .step => sim.step
  | .run count => run count sim
  | .reset => sim.reset
  | .setRegister number value => { sim with hart := sim.hart.setRegister number value }
  | .load words lineMap => (sim.loadProgram words lineMap).2
  | .loadRom words => sim.replaceRom words
  | .drain => sim.drain.2
  | .read .. => sim
  | .write addr value width => { sim with board := (Bus.write sim.board addr value width).2 }
  | .setTimer ticks => { sim with board.timer := sim.board.timer.set ticks }
  | .advanceTimer delta => { sim with board.timer := sim.board.timer.advance delta }
  | .receive word => { sim with board.uart := sim.board.uart.receive word }

def after (sim : Simulator) (inputs : List Input) : Simulator := inputs.foldl act sim

structure SameMachine (before after : Simulator) : Prop where
  hart : after.hart.config = before.hart.config
  board : after.board.config = before.board.config

/-- One machine with one program at two times. Programs may have changed a ROM that is not
protected. -/
structure SameProgram (before after : Simulator) : Prop extends SameMachine before after where
  lineMap : after.lineMap = before.lineMap
  rom : before.board.romWritable = false → after.board.rom = before.board.rom

variable {sim before middle after : Simulator}

theorem SameMachine.refl (sim : Simulator) : SameMachine sim sim := ⟨rfl, rfl⟩

theorem SameMachine.trans (h : SameMachine before middle) (h' : SameMachine middle after) :
    SameMachine before after :=
  ⟨h'.hart.trans h.hart, h'.board.trans h.board⟩

theorem SameMachine.romWritable (h : SameMachine before after) :
    after.board.romWritable = before.board.romWritable :=
  congrArg Board.Config.romWritable h.board

theorem SameProgram.refl (sim : Simulator) : SameProgram sim sim := ⟨.refl sim, rfl, fun _ => rfl⟩

theorem SameProgram.trans (h : SameProgram before middle) (h' : SameProgram middle after) :
    SameProgram before after := by
  refine ⟨h.toSameMachine.trans h'.toSameMachine, h'.lineMap.trans h.lineMap, fun hrom => ?_⟩
  exact (h'.rom (h.romWritable.trans hrom)).trans (h.rom hrom)

-- ---------------------------------------------------------------------------
-- Steps and runs
-- ---------------------------------------------------------------------------

theorem step_of_stopped (h : sim.status ≠ .running) : sim.step = sim := by
  obtain ⟨hart, board, status, lineMap⟩ := sim
  cases status with
  | running => exact absurd rfl h
  | halted => rfl
  | faulted => rfl

/-- A step that is made is a step of the hart. -/
theorem step_of_running (h : sim.status = .running) : sim.step = {
    hart := (sim.hart.step sim.board).2.1, board := (sim.hart.step sim.board).2.2
    status := .ofOutcome (sim.hart.step sim.board).1, lineMap := sim.lineMap } := by
  obtain ⟨hart, board, status, lineMap⟩ := sim
  cases h
  rfl

theorem isRunning_iff : sim.isRunning = true ↔ sim.status = .running := decide_eq_true_iff

theorem run_of_stopped (count : Nat) (h : sim.status ≠ .running) : run count sim = sim := by
  cases count with
  | zero => rfl
  | succ count => rw [run, if_neg fun hr => h (isRunning_iff.mp hr)]

theorem run_succ (count : Nat) (sim : Simulator) : run (count + 1) sim = run count sim.step := by
  by_cases h : sim.status = .running
  · rw [run, if_pos (isRunning_iff.mpr h)]
  · rw [step_of_stopped h, run_of_stopped _ h, run_of_stopped _ h]

theorem sameProgram_step (sim : Simulator) : SameProgram sim sim.step := by
  by_cases h : sim.status = .running
  · rw [step_of_running h]
    refine ⟨⟨Hart.config_step, ?_⟩, rfl, fun hrom => ?_⟩
    · rcases Hart.bus_step sim.hart sim.board with hb | ⟨addr, value, width, hrefusal, hb⟩
      · exact congrArg Board.config hb
      · exact (congrArg Board.config hb).trans (Board.config_store hrefusal value)
    · rcases Hart.bus_step sim.hart sim.board with hb | ⟨addr, value, width, hrefusal, hb⟩
      · exact congrArg Board.rom hb
      · exact (congrArg Board.rom hb).trans (Board.rom_store hrefusal hrom value)
  · rw [step_of_stopped h]
    exact .refl sim

/-- What every step keeps, a run keeps. -/
theorem run_of_step {P : Simulator → Prop} (hstep : ∀ sim, P sim → P sim.step) (count : Nat)
    (h : P sim) : P (run count sim) := by
  induction count generalizing sim with
  | zero => exact h
  | succ count ih =>
    rw [run_succ]
    exact ih (hstep sim h)

theorem sameProgram_run (count : Nat) (sim : Simulator) : SameProgram sim (run count sim) :=
  run_of_step (fun middle h => h.trans (sameProgram_step middle)) count (.refl sim)

-- ---------------------------------------------------------------------------
-- Inputs
-- ---------------------------------------------------------------------------

theorem sameProgram_reset (sim : Simulator) : SameProgram sim sim.reset :=
  ⟨⟨rfl, Board.config_reset sim.board⟩, rfl, fun _ => rfl⟩

theorem sameProgram_write (sim : Simulator) (addr value : Word) (width : Width) :
    SameProgram sim { sim with board := (Bus.write sim.board addr value width).2 } := by
  unfold Bus.write
  split
  · exact .refl sim
  · rename_i hrefusal
    exact ⟨⟨rfl, Board.config_store hrefusal value⟩, rfl,
      fun hrom => Board.rom_store hrefusal hrom value⟩

theorem sameProgram_act {input : Input} (h : input.loads = false) :
    SameProgram sim (sim.act input) := by
  cases input with
  | step => exact sameProgram_step sim
  | run count => exact sameProgram_run count sim
  | reset => exact sameProgram_reset sim
  | setRegister number value =>
    exact ⟨⟨Hart.config_setRegister sim.hart number value, rfl⟩, rfl, fun _ => rfl⟩
  | load => cases h
  | loadRom => cases h
  | drain => exact ⟨⟨rfl, rfl⟩, rfl, fun _ => rfl⟩
  | read => exact .refl sim
  | write addr value width => exact sameProgram_write sim addr value width
  | setTimer => exact ⟨⟨rfl, rfl⟩, rfl, fun _ => rfl⟩
  | advanceTimer => exact ⟨⟨rfl, rfl⟩, rfl, fun _ => rfl⟩
  | receive => exact ⟨⟨rfl, rfl⟩, rfl, fun _ => rfl⟩

theorem sameMachine_loadProgram (sim : Simulator) (words : List Word) (lineMap : List Nat) :
    SameMachine sim (sim.loadProgram words lineMap).2 := by
  have hreset := (sameProgram_reset sim).toSameMachine
  unfold loadProgram
  dsimp only
  split
  · rename_i board hboard
    exact hreset.trans ⟨rfl, Board.config_loadRom hboard⟩
  · exact hreset

theorem sameMachine_replaceRom (sim : Simulator) (words : List Word) :
    SameMachine sim (sim.replaceRom words) := by
  unfold replaceRom
  split
  · rename_i board hboard
    exact ⟨rfl, Board.config_loadRom hboard⟩
  · exact .refl sim

theorem sameMachine_act (sim : Simulator) (input : Input) : SameMachine sim (sim.act input) := by
  cases input with
  | load words lineMap => exact sameMachine_loadProgram sim words lineMap
  | loadRom words => exact sameMachine_replaceRom sim words
  | _ => exact (sameProgram_act rfl).toSameMachine

-- ---------------------------------------------------------------------------
-- Histories
-- ---------------------------------------------------------------------------

/-- What each input of a history keeps, the history keeps. -/
theorem after_of_act {P : Simulator → Prop} {inputs : List Input}
    (hact : ∀ input ∈ inputs, ∀ sim, P sim → P (sim.act input)) (h : P sim) :
    P (sim.after inputs) := by
  induction inputs generalizing sim with
  | nil => exact h
  | cons input inputs ih =>
    have hfirst : P (sim.act input) := hact input List.mem_cons_self sim h
    exact ih (fun other ho => hact other (List.mem_cons_of_mem input ho)) hfirst

theorem sameMachine_after (sim : Simulator) (inputs : List Input) :
    SameMachine sim (sim.after inputs) :=
  after_of_act (fun input _ middle h => h.trans (sameMachine_act middle input)) (.refl sim)

theorem sameProgram_after {inputs : List Input} (h : ∀ input ∈ inputs, input.loads = false) :
    SameProgram sim (sim.after inputs) :=
  after_of_act (fun input hinput _ hsame => hsame.trans (sameProgram_act (h input hinput)))
    (.refl sim)

-- ---------------------------------------------------------------------------
-- Hart and status
-- ---------------------------------------------------------------------------

theorem hart_loadProgram (sim : Simulator) (words : List Word) (lineMap : List Nat) :
    (sim.loadProgram words lineMap).2.hart = sim.reset.hart ∧
      (sim.loadProgram words lineMap).2.status = .running := by
  unfold loadProgram
  dsimp only
  split <;> exact ⟨rfl, rfl⟩

theorem hart_replaceRom (sim : Simulator) (words : List Word) :
    (sim.replaceRom words).hart = sim.hart ∧ (sim.replaceRom words).status = sim.status := by
  unfold replaceRom
  split <;> exact ⟨rfl, rfl⟩

/-- A property of hart and status that a reset gives and that no step and no register ends. -/
structure Kept (P : Hart → Status → Prop) : Prop where
  step : ∀ (hart : Hart) (board : Board), P hart .running →
    P (hart.step board).2.1 (.ofOutcome (hart.step board).1)
  reset : ∀ (hart : Hart) stack, P (hart.reset stack) .running
  setRegister : ∀ (hart : Hart) status number value, P hart status →
    P (hart.setRegister number value) status

namespace Kept

variable {P : Hart → Status → Prop} (hP : Kept P)
include hP

theorem of_step (h : P sim.hart sim.status) : P sim.step.hart sim.step.status := by
  by_cases hstatus : sim.status = .running
  · rw [step_of_running hstatus]
    exact hP.step sim.hart sim.board (hstatus ▸ h)
  · rwa [step_of_stopped hstatus]

theorem act (h : P sim.hart sim.status) (input : Input) :
    P (sim.act input).hart (sim.act input).status := by
  cases input with
  | step => exact hP.of_step h
  | run count =>
    exact run_of_step (P := fun sim => P sim.hart sim.status)
      (fun _ hstep => hP.of_step hstep) count h
  | reset => exact hP.reset sim.hart _
  | setRegister number value => exact hP.setRegister sim.hart sim.status number value h
  | load words lineMap =>
    obtain ⟨hhart, hstatus⟩ := sim.hart_loadProgram words lineMap
    simp only [Simulator.act, hhart, hstatus]
    exact hP.reset sim.hart _
  | loadRom words =>
    obtain ⟨hhart, hstatus⟩ := sim.hart_replaceRom words
    simpa only [Simulator.act, hhart, hstatus] using h
  | _ => exact h

theorem after_ofConfig (config : Config) (history : List Input) :
    P ((ofConfig config).after history).hart ((ofConfig config).after history).status :=
  after_of_act (P := fun sim => P sim.hart sim.status) (fun input _ _ h => hP.act h input)
    (hP.reset _ _)

end Kept

end RiscvBoard.Simulator
