import RiscvBoard.Command.Run
import RiscvBoard.Proofs.Simulator.Events

/-!
# Streaming

The command that runs a program prints the events after every step, so the queue
never has more than one store in it and nothing is dropped. Apart from the queue
the program runs as it does without a listener.
-/

namespace RiscvBoard

theorem Hart.step_withEvents (hart : Hart) (board : Board) (events : EventQueue) :
    hart.step (board.withEvents events) =
      ((hart.step board).1, (hart.step board).2.1,
        (hart.step board).2.2.withEvents (events.pushAll (hart.shown board))) := by
  have hplan : hart.plan (board.withEvents events) = hart.plan board := rfl
  unfold step shown stored?
  rw [hplan]
  cases h : hart.plan board with
  | error trap => rfl
  | ok plan =>
    cases plan with
    | halt => rfl
    | retire i effect =>
      obtain ⟨-, -, -, -, heffect⟩ := plan_eq_retire.mp h
      cases effect with
      | result | branch | link => rfl
      | store addr value width =>
        have hstore := Board.store_withEvents (refusal?_of_effect heffect) value events
        exact congrArg (fun board => (_, _, board)) hstore

namespace Simulator

variable {sim loaded : Simulator}

def withEvents (sim : Simulator) (events : EventQueue) : Simulator :=
  { sim with board := sim.board.withEvents events }

def stepInOrder : StateM Simulator Bool := do
  modify step
  return (← get).isRunning

def runInOrder : Nat → StateM Simulator Exit
  | 0 => return (← get).status.exit
  | count + 1 => do
    if ← stepInOrder then runInOrder count else return (← get).status.exit

/-- Like `runInOrder`, but prints after every step what it has shown, and keeps track of why it
ended. -/
def stream : Nat → StateM Simulator (List Event × Exit)
  | 0 => return ([], .stepLimit)
  | count + 1 => do
    let runnable ← stepInOrder
    let events ← modifyGet drain
    if runnable then
      let (later, exit) ← stream count
      return (events ++ later, exit)
    else return (events, if (← get).status.trap?.isSome then .faulted else .halted)

-- ---------------------------------------------------------------------------
-- One step
-- ---------------------------------------------------------------------------

theorem step_withEvents (sim : Simulator) (events : EventQueue) :
    (sim.withEvents events).step = sim.step.withEvents (events.pushAll sim.stepShown) := by
  by_cases h : sim.status = .running
  · have h' : (sim.withEvents events).status = .running := h
    rw [step_of_running h, step_of_running h']
    simp only [withEvents, Hart.step_withEvents, stepShown, h]
  · have h' : (sim.withEvents events).status ≠ .running := h
    rw [step_of_stopped h, step_of_stopped h', stepShown_of_stopped h, EventQueue.pushAll_nil]

theorem length_stepShown_le (sim : Simulator) : sim.stepShown.length ≤ 4 := by
  unfold stepShown Hart.shown
  split
  · split
    · exact Board.length_shown_le
    · exact Nat.zero_le 4
  · exact Nat.zero_le 4

theorem received_step (sim : Simulator) :
    (sim.withEvents .empty).step.board.events.Received 0 sim.stepShown := by
  rw [step_withEvents]
  exact (EventQueue.received_nil 0).pushAll sim.stepShown

theorem drain_step (sim : Simulator) :
    (sim.withEvents .empty).step.drain = (sim.stepShown, sim.step.withEvents .empty) := by
  have hroom : sim.stepShown.length ≤ EventQueue.capacity :=
    Nat.le_trans sim.length_stepShown_le (by decide)
  have hqueue := sim.received_step.drain
  rw [EventQueue.latest_of_le hroom, Nat.sub_eq_zero_of_le hroom] at hqueue
  rw [step_withEvents] at hqueue ⊢
  simp only [drain, Board.drain]
  rw [hqueue]
  rfl

-- ---------------------------------------------------------------------------
-- Runs
-- ---------------------------------------------------------------------------

theorem runShown_of_stopped (count : Nat) (h : sim.status ≠ .running) :
    runShown count sim = [] := by
  induction count with
  | zero => rfl
  | succ count ih => rw [runShown, stepShown_of_stopped h, step_of_stopped h, ih, List.append_nil]

theorem runInOrder_eq (count : Nat) (sim : Simulator) :
    runInOrder count sim = ((run count sim).status.exit, run count sim) := by
  induction count generalizing sim with
  | zero => rfl
  | succ count ih =>
    rw [run_succ]
    change (if sim.step.isRunning then runInOrder count else _ : StateM Simulator Exit) sim.step = _
    by_cases h : sim.step.status = .running
    · rw [if_pos (isRunning_iff.mpr h), ih]
    · rw [if_neg fun hr => h (isRunning_iff.mp hr), run_of_stopped count h]
      rfl

theorem exit_of_stopped (h : sim.status ≠ .running) :
    (if sim.status.trap?.isSome then .faulted else .halted) = sim.status.exit := by
  cases hstatus : sim.status with
  | running => exact absurd hstatus h
  | halted => rfl
  | faulted => rfl

theorem stream_of_stopped (count : Nat) (h : sim.step.status ≠ .running) :
    stream (count + 1) sim = ((sim.step.drain.1, sim.step.status.exit), sim.step.drain.2) := by
  rw [← exit_of_stopped h]
  change (if sim.step.isRunning then _ else _ : StateM Simulator (List Event × Exit))
    sim.step.drain.2 = _
  rw [if_neg fun hr => h (isRunning_iff.mp hr)]
  rfl

theorem stream_of_running (count : Nat) (h : sim.step.status = .running) :
    stream (count + 1) sim =
      (((sim.step.drain.1 ++ (stream count sim.step.drain.2).1.1),
        (stream count sim.step.drain.2).1.2), (stream count sim.step.drain.2).2) := by
  change (if sim.step.isRunning then _ else _ : StateM Simulator (List Event × Exit))
    sim.step.drain.2 = _
  rw [if_pos (isRunning_iff.mpr h)]
  rfl

/-- A stream is a run that shows everything and leaves no event waiting. -/
theorem stream_withEvents (count : Nat) (h : sim.status = .running) :
    stream count (sim.withEvents .empty) =
      ((runShown count sim, (run count sim).status.exit), (run count sim).withEvents .empty) := by
  induction count generalizing sim with
  | zero =>
    rw [run, h]
    rfl
  | succ count ih =>
    -- the queue is empty before every step, so the hypothesis applies to what the drain leaves
    have hstatus : (sim.withEvents .empty).step.status = sim.step.status := by
      rw [step_withEvents]
      rfl
    rw [run_succ, runShown]
    by_cases hstep : sim.step.status = .running
    · rw [stream_of_running count (hstatus.trans hstep), drain_step, ih hstep]
    · rw [stream_of_stopped count (hstatus ▸ hstep), drain_step, hstatus,
        run_of_stopped count hstep, runShown_of_stopped count hstep, List.append_nil]

theorem watch_withEvents (count : Nat) (shown : List Event) (sim : Simulator) :
    watch count shown (sim.withEvents .empty) =
      ((runShown count sim).reverse ++ shown, (run count sim).withEvents .empty) := by
  induction count generalizing sim shown with
  | zero => rfl
  | succ count ih =>
    by_cases h : sim.status = .running
    · have hrunning : (sim.withEvents .empty).isRunning = true := isRunning_iff.mpr h
      rw [watch, if_pos hrunning, drain_step, run_succ, runShown]
      simp only [ih, List.reverse_append, List.append_assoc, List.reverseAux_eq]
    · have hstopped : ¬(sim.withEvents .empty).isRunning = true := fun hr => h (isRunning_iff.mp hr)
      rw [watch, if_neg hstopped, run_of_stopped _ h, runShown_of_stopped _ h]
      rfl

/-- With any settings of the host, a stream from a loaded program ends as a run does. It has printed
all that the stores of the run have shown and dropped nothing, where the run keeps the latest events
only. -/
theorem stream_of_loaded {words : List Word} {lineMap : List Nat}
    (hload : sim.loadProgram words lineMap = (none, loaded))
    (options : Command.Run.Options) (count : Nat) :
    let start := Command.Run.preset options loaded
    let ran := run count start
    let printed := runShown count start
    runInOrder count start = (ran.status.exit, ran) ∧
      stream count start = ((printed, ran.status.exit),
        { ran with board := { ran.board with events := .empty } }) ∧
      (∀ n, (stream n start).2.board.events.dropped = 0 ∧
        (stream n start).2.step.board.events.dropped = 0) ∧
      ran.drain.1 = printed.drop (printed.length - EventQueue.capacity) ∧
      watch count [] start = (printed.reverse, (stream count start).2) := by
  intro start ran printed
  have hstatus : start.status = .running := (congrArg status (reset_of_loaded hload)).symm
  have hevents : start.board.events = .empty :=
    (congrArg (fun sim => sim.board.events) (reset_of_loaded hload)).symm
  have hstart : start = start.withEvents .empty := by
    rw [← hevents]
    rfl
  have hstream : ∀ n, stream n start =
      ((runShown n start, (run n start).status.exit), (run n start).withEvents .empty) := by
    intro n
    have h := stream_withEvents n hstatus
    rwa [← hstart] at h
  have hreceived : ran.board.events.Received 0 printed := by
    have hqueue := (EventQueue.received_nil 0).pushAll printed
    rwa [(shows_run count start).queue, hevents]
  refine ⟨runInOrder_eq count start, hstream count, fun n => ?_, hreceived.toList, ?_⟩
  · rw [hstream n]
    have hroom : (run n start).stepShown.length ≤ EventQueue.capacity :=
      Nat.le_trans (length_stepShown_le _) (by decide)
    have hdropped := (received_step (run n start)).dropped
    rw [Nat.sub_eq_zero_of_le hroom] at hdropped
    exact ⟨rfl, hdropped⟩
  · have hwatch := watch_withEvents count [] start
    rw [← hstart, List.append_nil] at hwatch
    rw [hwatch, hstream count]

def lights : Simulator :=
  ((ofConfig { board := { romSize := 20, ramSize := 16 } }).loadProgram
    [0x400000B7, 0x00500113, 0x00208023, 0x0020A223] []).2

theorem stream_of_loaded_lights :
    let start :=
      Command.Run.preset { program := "lights.bin", timer := some 7, uartRx := some 65 } lights
    (stream 5 start).1 =
      ([.led 5, .segment 4 5, .segment 5 0, .segment 6 0, .segment 7 0], .halted) ∧
      (stream 5 start).2 =
        { run 5 start with board := { (run 5 start).board with events := .empty } } ∧
      (run 5 start).drain.1 = [.led 5, .segment 4 5, .segment 5 0, .segment 6 0, .segment 7 0] := by
  intro start
  have hload : (ofConfig { board := { romSize := 20, ramSize := 16 } }).loadProgram
      [0x400000B7, 0x00500113, 0x00208023, 0x0020A223] [] = (none, lights) :=
      Prod.ext (by decide +kernel) rfl
  obtain ⟨-, hstream, -, hrun, -⟩ :=
    stream_of_loaded hload { program := "lights.bin", timer := some 7, uartRx := some 65 } 5
  have hprinted : runShown 5 start =
      [.led 5, .segment 4 5, .segment 5 0, .segment 6 0, .segment 7 0] := by
    decide +kernel
  have hexit : (run 5 start).status.exit = .halted := by decide +kernel
  refine ⟨(congrArg Prod.fst hstream).trans ?_, congrArg Prod.snd hstream, hrun.trans ?_⟩
  · exact Prod.ext hprinted hexit
  · exact (congrArg (fun events => events.drop (events.length - EventQueue.capacity))
      hprinted).trans rfl

end Simulator

end RiscvBoard
