import RiscvBoard.Proofs.Hart.Counting
import RiscvBoard.Proofs.Simulator.Events

/-!
# Counters over a history

However a host uses a simulator, its counters are those of the instructions that
have been retired since the last reset. The host itself counts nothing: it only
makes the hart step, or begin again from zero.
-/

namespace RiscvBoard.Simulator

-- ---------------------------------------------------------------------------
-- What is retired
-- ---------------------------------------------------------------------------

def stepRetired (sim : Simulator) : List Retired :=
  match sim.status with
  | .running => (sim.hart.retired? sim.board).toList
  | _ => []

def runRetired : Nat → Simulator → List Retired
  | 0, _ => []
  | count + 1, sim => sim.stepRetired ++ runRetired count sim.step

def retired (sim : Simulator) : Input → List Retired
  | .step => sim.stepRetired
  | .run count => runRetired count sim
  | _ => []

/-- What has been retired since the last reset, if `before` was retired before the history. -/
def retiredSince (before : List Retired) (sim : Simulator) : List Input → List Retired
  | [] => before
  | input :: inputs =>
    retiredSince (if input.restarts then [] else before ++ sim.retired input) (sim.act input) inputs

variable {sim : Simulator} {before : List Retired}

theorem accounts_stepRetired (h : sim.hart.counters.Accounts before) :
    sim.step.hart.counters.Accounts (before ++ sim.stepRetired) := by
  by_cases hstatus : sim.status = .running
  · rw [step_of_running hstatus, stepRetired, hstatus]
    exact Hart.accounts_step h sim.board
  · have hnothing : sim.stepRetired = [] := by
      unfold stepRetired
      split
      · exact absurd ‹_› hstatus
      · rfl
    rwa [step_of_stopped hstatus, hnothing, List.append_nil]

theorem accounts_runRetired (count : Nat) (h : sim.hart.counters.Accounts before) :
    (run count sim).hart.counters.Accounts (before ++ runRetired count sim) := by
  induction count generalizing sim before with
  | zero => rwa [runRetired, List.append_nil]
  | succ count ih =>
    rw [run_succ, runRetired, ← List.append_assoc]
    exact ih (accounts_stepRetired h)

theorem accounts_act (h : sim.hart.counters.Accounts before) (input : Input) :
    (sim.act input).hart.counters.Accounts
      (if input.restarts then [] else before ++ sim.retired input) := by
  cases input with
  | step => exact accounts_stepRetired h
  | run count => exact accounts_runRetired count h
  | reset => exact Counters.accounts_nil
  | load words lineMap =>
    simp only [act, (sim.hart_loadProgram words lineMap).1]
    exact Counters.accounts_nil
  | loadRom words =>
    simp only [act, (sim.hart_replaceRom words).1, Input.restarts, retired, List.append_nil]
    exact h
  | setRegister number value =>
    simp only [act, Hart.counters_setRegister, Input.restarts, retired, List.append_nil]
    exact h
  | drain | read | write | setTimer | advanceTimer | receive =>
    simp only [act, Input.restarts, retired, List.append_nil]
    exact h

theorem accounts_after (inputs : List Input) (h : sim.hart.counters.Accounts before) :
    (sim.after inputs).hart.counters.Accounts (retiredSince before sim inputs) := by
  induction inputs generalizing sim before with
  | nil => exact h
  | cons input inputs ih => exact ih (accounts_act h input)

theorem kept_gated : Kept fun hart _ => hart.Gated where
  step _ board h := h.step board
  reset hart stack := hart.gated_reset stack
  setRegister _ _ number value h := h.setRegister number value

-- ---------------------------------------------------------------------------
-- Accounting
-- ---------------------------------------------------------------------------

/-- The counters say how many instructions have been retired since a reset, all in all, in each
category and by branches that go somewhere else; the branches that do not are those whose condition
does not hold. Without the M extension nothing multiplies or divides. As long as fewer than `2 ^ 64`
steps are made, no counter overflows 64 bits. -/
theorem counters_partition :
    (∀ {β : Type} [Bus β] (hart : Hart) (stack : Word) (bus : β) (count : Nat),
      let start := hart.reset stack
      let counters := (start.steps bus count).2.1.counters
      counters.Accounts (start.retired bus count) ∧
        counters.instructions = (start.steps bus count).1.count .executed ∧
        (hart.config.mExtension = false → counters.muls = 0 ∧ counters.divs = 0) ∧
        (count < 2 ^ 64 → ∀ value ∈ counters.values, value < 2 ^ 64)) ∧
    ∀ (sim : Simulator) (inputs : List Input),
      let counters := (sim.reset.after inputs).hart.counters
      let retired := retiredSince [] sim.reset inputs
      counters.Accounts retired ∧
        (sim.hart.config.mExtension = false → counters.muls = 0 ∧ counters.divs = 0) ∧
        (retired.length < 2 ^ 64 → ∀ value ∈ counters.values, value < 2 ^ 64) := by
  constructor
  · intro β _ hart stack bus count start counters
    have haccounts : counters.Accounts ([] ++ start.retired bus count) :=
      Hart.accounts_steps Counters.accounts_nil bus count
    rw [List.nil_append] at haccounts
    have hinstructions : counters.instructions = (start.steps bus count).1.count .executed := by
      rw [← Hart.length_retired, haccounts.eq]
      rfl
    refine ⟨haccounts, hinstructions, fun hm => ?_, fun hcount value hvalue => ?_⟩
    · refine (hart.gated_reset stack).steps bus count ?_
      rwa [Hart.config_steps]
    · have hle : (start.steps bus count).1.count .executed ≤ count :=
        Nat.le_trans List.count_le_length (Nat.le_of_eq (start.length_steps bus count))
      exact Nat.lt_of_le_of_lt (haccounts.le value hvalue) (by omega)
  · intro sim inputs counters retired
    have haccounts : counters.Accounts retired := accounts_after inputs Counters.accounts_nil
    have hgated : (sim.reset.after inputs).hart.Gated :=
      after_of_act (P := fun sim => sim.hart.Gated) (fun input _ _ h => kept_gated.act h input)
        (sim.hart.gated_reset _)
    have hsame := (sameProgram_reset sim).toSameMachine.trans (sameMachine_after sim.reset inputs)
    have hconfig := congrArg Hart.Config.mExtension hsame.hart
    refine ⟨haccounts, fun hm => hgated (hconfig.trans hm), fun hlength value hvalue => ?_⟩
    refine Nat.lt_of_le_of_lt (haccounts.le value hvalue) ?_
    rw [haccounts.eq]
    exact hlength

def squaring (config : Hart.Config) : Simulator :=
  ((ofConfig { hart := config, board := { romSize := 24, ramSize := 8 } }).loadProgram
    [0x00200093, 0x02108133, 0xFFF08093, 0xFE009CE3, 0x0040006F, 0] []).2

/-- Of two branches one falls through. Without the M extension the multiplication traps, also when
the host goes on. -/
theorem counters_partition_squaring :
    (let start := (squaring {}).hart.reset 0x10000008
      let counters := (start.steps (squaring {}).board 12).2.1.counters
      counters.Accounts (start.retired (squaring {}).board 12) ∧
        counters = { instructions := 8, branches := 3, taken := 2, muls := 2, other := 3 } ∧
        (start.retired (squaring {}).board 12).countP Retired.falls = 1 ∧
          ∀ value ∈ counters.values, value < 2 ^ 64) ∧
    let counters :=
      ((squaring { mExtension := false }).reset.after
        [.run 9, .setRegister 5 3, .step]).hart.counters
    counters.instructions = 1 ∧ counters.muls = 0 ∧ counters.divs = 0 ∧
      ∀ value ∈ counters.values, value < 2 ^ 64 := by
  obtain ⟨haccounts, -, -, hvalues⟩ :=
    counters_partition.1 (squaring {}).hart 0x10000008 (squaring {}).board 12
  obtain ⟨-, hgated, hlater⟩ :=
    counters_partition.2 (squaring { mExtension := false }) [.run 9, .setRegister 5 3, .step]
  obtain ⟨hmuls, hdivs⟩ := hgated (by decide +kernel)
  refine ⟨⟨haccounts, by decide +kernel, ?_, hvalues (by decide)⟩, by decide +kernel, hmuls, hdivs,
    hlater ?_⟩
  · rw [← haccounts.falls]
    decide +kernel
  · decide +kernel

end RiscvBoard.Simulator
