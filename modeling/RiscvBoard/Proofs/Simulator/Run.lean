import RiscvBoard.Proofs.Simulator.Stream

/-!
# Bounded runs

A run with a bound is a run with a smaller bound and another one after it, wherever
it is split and whether or not the program stops on the way. The step that stops
counts against the bound but retires no instruction.
-/

namespace RiscvBoard.Simulator

theorem instructions_step (sim : Simulator) :
    sim.step.hart.counters.instructions =
      sim.hart.counters.instructions + if sim.step.isRunning then 1 else 0 := by
  by_cases h : sim.status = .running
  · rw [step_of_running h]
    refine (Hart.instructions_step sim.hart sim.board).trans ?_
    cases (sim.hart.step sim.board).1 <;> rfl
  · rw [step_of_stopped h, if_neg fun hr => h (isRunning_iff.mp hr), Nat.add_zero]

theorem run_add (a b : Nat) (sim : Simulator) : run (a + b) sim = run b (run a sim) := by
  induction a generalizing sim with
  | zero => rw [Nat.zero_add, run]
  | succ a ih => rw [Nat.succ_add, run_succ, run_succ, ih]

theorem instructions_run (count : Nat) (sim : Simulator) : ∃ k ≤ count,
    (run count sim).hart.counters.instructions = sim.hart.counters.instructions + k ∧
      ((run count sim).isRunning = true → k = count) ∧
      (sim.isRunning = true → (run count sim).isRunning = false → k < count) := by
  induction count generalizing sim with
  | zero => exact ⟨0, Nat.le_refl 0, rfl, fun _ => rfl, fun h h' => nomatch h.symm.trans h'⟩
  | succ count ih =>
    rw [run_succ]
    by_cases h : sim.step.isRunning = true
    · obtain ⟨k, hk, hcount, hall, hfewer⟩ := ih sim.step
      refine ⟨k + 1, Nat.succ_le_succ hk, ?_, fun hr => congrArg _ (hall hr),
        fun _ hs => Nat.succ_lt_succ (hfewer h hs)⟩
      rw [hcount, instructions_step, if_pos h]
      omega
    · -- the step that stops retires nothing, and nothing happens after it
      have hstopped : sim.step.status ≠ .running := fun hr => h (isRunning_iff.mpr hr)
      rw [run_of_stopped count hstopped, instructions_step, if_neg h]
      exact ⟨0, Nat.zero_le _, rfl, fun hr => absurd hr h, fun _ _ => Nat.succ_pos count⟩

/-- A bounded run can be split anywhere: the second part ends as the whole does, for the same reason
and in the same state. A run retires as many instructions as its bound if the program can go on, and
fewer if the program has stopped on the way. -/
theorem runs_compose (sim : Simulator) :
    (∀ a b, runInOrder b (runInOrder a sim).2 = runInOrder (a + b) sim) ∧
      ∀ count, let ran := runInOrder count sim
        ran.2 = run count sim ∧ (ran.1 = .stepLimit ↔ ran.2.isRunning = true) ∧
          ∃ k ≤ count, ran.2.hart.counters.instructions = sim.hart.counters.instructions + k ∧
            (ran.1 = .stepLimit → k = count) ∧
            (sim.isRunning = true → ran.1 ≠ .stepLimit → k < count) := by
  refine ⟨fun a b => ?_, fun count => ?_⟩
  · rw [runInOrder_eq, runInOrder_eq, runInOrder_eq, run_add]
  · rw [runInOrder_eq]
    have hexit : (run count sim).status.exit = .stepLimit ↔ (run count sim).isRunning = true := by
      rw [isRunning_iff]
      cases (run count sim).status <;> simp only [Status.exit, reduceCtorEq]
    obtain ⟨k, hk, hcount, hall, hfewer⟩ := instructions_run count sim
    exact ⟨rfl, hexit, k, hk, hcount, fun h => hall (hexit.mp h), fun hrunning h =>
      hfewer hrunning (Bool.eq_false_iff.mpr fun hr => h (hexit.mpr hr))⟩

theorem runs_compose_lights :
    (runInOrder 5 lights).1 = .halted ∧ runInOrder 2 (runInOrder 7 lights).2 = runInOrder 9 lights ∧
      ∃ k < 5, (runInOrder 5 lights).2.hart.counters.instructions =
        lights.hart.counters.instructions + k := by
  have hhalted : (runInOrder 5 lights).1 = .halted := by decide +kernel
  obtain ⟨hsplit, hruns⟩ := runs_compose lights
  obtain ⟨-, -, k, -, hcount, -, hfewer⟩ := hruns 5
  have hk : k < 5 := hfewer (by decide +kernel) fun h => nomatch hhalted.symm.trans h
  exact ⟨hhalted, hsplit 7 2, k, hk, hcount⟩

end RiscvBoard.Simulator
