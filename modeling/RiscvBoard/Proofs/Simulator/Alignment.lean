import RiscvBoard.Proofs.Hart.Alignment
import RiscvBoard.Proofs.Simulator.Load

/-!
# Alignment over a history

Whatever program a simulator runs, from wherever it is fetched and however a host
meddles with it, the program counter is the address of a word, register zero is
zero and the memories have the sizes of the configuration. A jump to anywhere but
a word is found out at the jump.
-/

namespace RiscvBoard

theorem Hart.aligned_reset (hart : Hart) (stack : Word) : (hart.reset stack).Aligned := ⟨rfl, rfl⟩

namespace Simulator

/-- The hart is aligned, and it has not stopped because it was not. -/
structure Aligned (hart : Hart) (status : Status) : Prop where
  hart : hart.Aligned
  status : ∀ pc, status ≠ .faulted (.misalignedFetch pc)

theorem kept_aligned : Kept Aligned where
  step hart board h := by
    refine ⟨h.hart.step board, fun pc hfault => ?_⟩
    have hne : (hart.step board).1 ≠ .trapped (.misalignedFetch pc) := h.hart.ne_misalignedFetch pc
    cases houtcome : (hart.step board).1 <;> rw [houtcome] at hne hfault <;> cases hfault
    exact hne rfl
  reset hart stack := ⟨hart.aligned_reset stack, nofun⟩
  setRegister _ _ number value h := ⟨h.hart.setRegister number value, h.status⟩

theorem faulted_step {sim : Simulator} (hrunning : sim.status = .running) {trap : Trap} :
    sim.step.status = .faulted trap ↔ (sim.hart.step sim.board).1 = .trapped trap := by
  rw [step_of_running hrunning]
  cases (sim.hart.step sim.board).1 <;> simp [Status.ofOutcome]

theorem step_of_not_executed {sim : Simulator} (h : sim.step.status ≠ .running) :
    sim.step.hart = sim.hart ∧ sim.step.board = sim.board := by
  by_cases hrunning : sim.status = .running
  · rw [step_of_running hrunning] at h ⊢
    have hexecuted : (sim.hart.step sim.board).1 ≠ .executed :=
      fun hexecuted => h (congrArg Status.ofOutcome hexecuted)
    rw [Hart.step_eq_of_not_executed hexecuted]
    exact ⟨rfl, rfl⟩
  · rw [step_of_stopped hrunning]
    exact ⟨rfl, rfl⟩

/-- In every history the program counter is the address of a word, register zero is zero and the
memories have their sizes. So no fetch is misaligned, and an instruction that leads to no word stops
the simulator where it stands. -/
theorem aligned_history (config : Config) (history : List Input) :
    let sim := (ofConfig config).after history
    sim.hart.pc.toNat % 4 = 0 ∧ sim.hart.register 0 = 0 ∧
      sim.board.rom.size = config.board.span .rom ∧ sim.board.ram.size = config.board.span .ram ∧
      (∀ pc, sim.status ≠ .faulted (.misalignedFetch pc) ∧
        sim.step.status ≠ .faulted (.misalignedFetch pc)) ∧
      (sim.status = .running → ∀ pc target, sim.step.status = .faulted (.misalignedJump pc target) ↔
        pc = sim.hart.pc ∧ target.toNat % 4 ≠ 0 ∧ Manual.Leads sim.hart sim.board target) ∧
      (sim.step.status ≠ .running → sim.step.hart = sim.hart ∧ sim.step.board = sim.board) := by
  intro sim
  have haligned : Aligned sim.hart sim.status := kept_aligned.after_ofConfig config history
  have hsame : SameMachine (ofConfig config) sim := sameMachine_ofConfig config history
  refine ⟨haligned.hart.pc, haligned.hart.zero, hsame.romSize.trans (romSize_ofConfig config),
    hsame.ramSize.trans (ramSize_ofConfig config), fun pc => ⟨haligned.status pc, ?_⟩, ?_,
    step_of_not_executed⟩
  · exact (kept_aligned.of_step haligned).status pc
  · intro hrunning pc target
    rw [faulted_step hrunning]
    exact Hart.step_misalignedJump_iff haligned.hart.pc

def planted : List Input :=
  [.load [0x100000B7, 0x00008067] [], .write 0x10000000 0x0020006F .word, .setRegister 0 7,
    .setRegister 32 7, .run 2]

theorem aligned_history_planted :
    let sim := (ofConfig { board := { romSize := 8, ramSize := 8 } }).after planted
    sim.status = .running ∧ sim.step.status = .faulted (.misalignedJump 0x10000000 0x10000002) ∧
      sim.hart.pc = 0x10000000 ∧ Manual.Leads sim.hart sim.board 0x10000002 ∧
        sim.hart.register 0 = 0 ∧
      sim.step.hart = sim.hart := by
  intro sim
  obtain ⟨-, hzero, -, -, -, hjump, hsame⟩ :=
    aligned_history { board := { romSize := 8, ramSize := 8 } } planted
  have hrunning : sim.status = .running := by decide +kernel
  have hfault : sim.step.status = .faulted (.misalignedJump 0x10000000 0x10000002) := by
    decide +kernel
  obtain ⟨hpc, -, hleads⟩ := (hjump hrunning 0x10000000 0x10000002).mp hfault
  exact ⟨hrunning, hfault, hpc.symm, hleads, hzero, (hsame (by rw [hfault]; nofun)).1⟩

end Simulator

end RiscvBoard
