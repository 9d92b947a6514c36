import RiscvBoard.Proofs.Hart.Reads
import RiscvBoard.Proofs.Simulator.Stream

/-!
# What only the host changes

The timer and the receive register of the UART have the values that the host gave
them, whatever programs do. A step that does not see the timer is the same step
at any other time: letting time pass before it or after it makes no difference.
-/

namespace RiscvBoard

/-- What a host has given a program: the time and the last word on the line. -/
structure Served where
  ticks : Word := 0
  rx : Word := 0
  deriving DecidableEq, Repr

-- ---------------------------------------------------------------------------
-- The timer of a board
-- ---------------------------------------------------------------------------

namespace Board

variable {board : Board} {addr : Word} {width : Width}

def served (board : Board) : Served := ⟨board.timer.ticks, board.uart.rx⟩

def wind (board : Board) (f : Timer → Timer) : Board := { board with timer := f board.timer }

def InTimer (addr : Word) (width : Width) : Prop :=
  ∃ k < width.bytes, Region.timer.base ≤ addr.toNat + k ∧
    addr.toNat + k < Region.timer.base + Timer.size

instance (addr : Word) (width : Width) : Decidable (InTimer addr width) :=
  inferInstanceAs (Decidable (∃ k < _, _))

/-- Only what reads the timer can tell the time. -/
theorem read_wind (f : Timer → Timer)
    (h : ∀ raw, Bus.read board addr width = .ok raw → ¬InTimer addr width) :
    Bus.read (board.wind f) addr width = Bus.read board addr width := by
  simp only [Bus.read] at h ⊢
  have hsame : (board.wind f).route addr width = board.route addr width := rfl
  rw [hsame]
  cases hroute : board.route addr width with
  | error fault => rfl
  | ok place =>
    obtain ⟨region, off⟩ := place
    cases region with
    | timer =>
      obtain ⟨haddr, hsize, -⟩ := route_eq_ok_iff.mp hroute
      have hpos := width.bytes_pos
      have hsize : off + width.bytes ≤ Timer.size := hsize
      have htimer : InTimer addr width := ⟨0, hpos, by omega, by omega⟩
      exact absurd htimer (h _ (by rw [hroute]))
    | rom | ram | uart | gpio => rfl

theorem refusal?_wind (board : Board) (f : Timer → Timer) (addr : Word) (width : Width) :
    Bus.refusal? (board.wind f) addr width = Bus.refusal? board addr width := rfl

theorem store_wind (board : Board) (f : Timer → Timer) (addr value : Word) (width : Width) :
    Bus.store (board.wind f) addr value width = (Bus.store board addr value width).wind f := by
  simp only [Bus.store]
  have hsame : (board.wind f).locate? addr = board.locate? addr := rfl
  rw [hsame]
  cases board.locate? addr with
  | none => rfl
  | some place =>
    obtain ⟨region, off⟩ := place
    cases region <;> rfl

theorem served_writeAt (board : Board) (region : Region) (off : Nat) (value : Word)
    (width : Width) : (board.writeAt region off value width).served = board.served := by
  cases region with
  | rom | ram | timer | gpio => rfl
  | uart =>
    simp only [writeAt, served, Uart.write]
    cases Uart.Register.ofOffset off <;> rfl

theorem served_replaceRom {words : List Word} {after : Board}
    (h : board.loadRom words = .ok after) : after.served = board.served := by
  rw [loadRom_eq] at h
  split at h <;> cases h
  rfl

end Board

-- ---------------------------------------------------------------------------
-- Steps at another time
-- ---------------------------------------------------------------------------

namespace Hart

/-- The step fetches from the timer or loads from it. Accesses that fail see nothing. -/
def SeesTimer (hart : Hart) (board : Board) : Prop :=
  ∃ addr width raw, hart.Reads board addr width ∧ Bus.read board addr width = .ok raw ∧
    Board.InTimer addr width

/-- An instruction that is not in the timer and is no load does not see it. -/
theorem not_seesTimer {hart : Hart} {board : Board} {raw : Word} {i : Instruction}
    (hraw : hart.fetch board = .ok raw)
    (hi : RiscvBoard.decode raw = .ok i) (hpc : ¬Board.InTimer hart.pc .word)
    (hload : ∀ width signed, i.op.action ≠ .load width signed) : ¬hart.SeesTimer board := by
  rintro ⟨addr, width, value, hreads, -, htimer⟩
  cases hreads with
  | fetch => exact hpc htimer
  | load hraw' _ hdecode hop =>
    cases hraw.symm.trans hraw'
    cases hi.symm.trans (decode_eq_ok hdecode)
    exact hload width _ hop

theorem step_wind {hart : Hart} {board : Board} (h : ¬hart.SeesTimer board) (f : Timer → Timer) :
    hart.step (board.wind f) =
      ((hart.step board).1, (hart.step board).2.1, (hart.step board).2.2.wind f) := by
  have hreads : ∀ addr width, hart.Reads board addr width →
      Bus.read (board.wind f) addr width = Bus.read board addr width := fun addr width hreads =>
    Board.read_wind f fun raw hraw htimer => h ⟨addr, width, raw, hreads, hraw, htimer⟩
  exact step_map (b := board) (f := fun board => board.wind f) hreads (board.refusal?_wind f)
    (board.store_wind f)

theorem served_step (hart : Hart) (board : Board) :
    (hart.step board).2.2.served = board.served := by
  rw [bus_step_eq]
  split
  · exact Board.write_keeps Board.served_writeAt board _ _ _
  · rfl

end Hart

namespace Simulator

variable {sim : Simulator}

def wind (sim : Simulator) (f : Timer → Timer) : Simulator := { sim with board := sim.board.wind f }

def SeesTimer (sim : Simulator) : Prop := sim.status = .running ∧ sim.hart.SeesTimer sim.board

theorem step_wind (h : ¬sim.SeesTimer) (f : Timer → Timer) :
    (sim.wind f).step = sim.step.wind f := by
  by_cases hstatus : sim.status = .running
  · have hhart : ¬sim.hart.SeesTimer sim.board := fun hsees => h ⟨hstatus, hsees⟩
    have hwound : (sim.wind f).status = .running := hstatus
    rw [step_of_running hstatus, step_of_running hwound]
    simp only [wind, Hart.step_wind hhart]
  · have hwound : (sim.wind f).status ≠ .running := hstatus
    rw [step_of_stopped hstatus, step_of_stopped hwound]

theorem run_wind {count : Nat} (h : ∀ k < count, ¬(run k sim).SeesTimer) (f : Timer → Timer) :
    run count (sim.wind f) = (run count sim).wind f := by
  induction count generalizing sim with
  | zero => rfl
  | succ count ih =>
    have hlater : ∀ k < count, ¬(run k sim.step).SeesTimer := fun k hk => by
      rw [← run_succ]
      exact h (k + 1) (Nat.succ_lt_succ hk)
    have hnow : ¬sim.SeesTimer := h 0 (Nat.succ_pos count)
    rw [run_succ, run_succ, step_wind hnow, ih hlater]

-- ---------------------------------------------------------------------------
-- Histories
-- ---------------------------------------------------------------------------

def Input.winds : Input → Bool
  | .setTimer _ | .advanceTimer _ => true
  | _ => false

theorem act_of_winds {input : Input} (h : input.winds = true) :
    ∃ f, ∀ sim : Simulator, sim.act input = sim.wind f := by
  cases input with
  | setTimer ticks => exact ⟨fun timer => timer.set ticks, fun _ => rfl⟩
  | advanceTimer delta => exact ⟨fun timer => timer.advance delta, fun _ => rfl⟩
  | _ => cases h

def Input.serve (input : Input) (served : Served) : Served :=
  match input with
  | .setTimer ticks => { served with ticks }
  | .advanceTimer delta => { served with ticks := served.ticks + delta }
  | .receive word => { served with rx := word }
  | .reset | .load .. => {}
  | _ => served

theorem served_step (sim : Simulator) : sim.step.board.served = sim.board.served := by
  by_cases hstatus : sim.status = .running
  · rw [step_of_running hstatus]
    exact sim.hart.served_step sim.board
  · rw [step_of_stopped hstatus]

theorem served_run (count : Nat) (sim : Simulator) :
    (run count sim).board.served = sim.board.served :=
  run_of_step (P := fun later => later.board.served = sim.board.served)
    (fun later h => later.served_step.trans h) count rfl

theorem served_act (sim : Simulator) (input : Input) :
    (sim.act input).board.served = input.serve sim.board.served := by
  cases input with
  | step => exact sim.served_step
  | run count => exact served_run count sim
  | reset => rfl
  | load words lineMap =>
    simp only [act, loadProgram_eq]
    split <;> rfl
  | loadRom words =>
    simp only [act, replaceRom]
    split
    · rename_i hloaded
      exact Board.served_replaceRom hloaded
    · rfl
  | write addr value width =>
    exact Board.write_keeps Board.served_writeAt sim.board addr value width
  | setTimer | advanceTimer | receive | setRegister | drain | read => rfl

theorem served_after (sim : Simulator) (inputs : List Input) :
    (sim.after inputs).board.served =
      inputs.foldl (fun served input => input.serve served) sim.board.served := by
  induction inputs generalizing sim with
  | nil => rfl
  | cons input inputs ih =>
    rw [List.foldl_cons, ← served_act]
    exact ih (sim.act input)

/-- No step changes the timer or the receive register of the UART: at every time they have what the
host has given since the last reset. If a step does not see the timer, setting the timer or letting
time pass can be put off until after the step, which has the same outcome; and so it is with all
steps of a run. -/
theorem host_driven :
    (∀ sim : Simulator, sim.step.board.timer = sim.board.timer ∧
      sim.step.board.uart.rx = sim.board.uart.rx) ∧
    (∀ (config : Config) (history : List Input), ((ofConfig config).after history).board.served =
      history.foldl (fun served input => input.serve served) {}) ∧
    (∀ (hart : Hart) (board : Board), ¬hart.SeesTimer board → ∀ f : Timer → Timer,
      hart.step (board.wind f) =
        ((hart.step board).1, (hart.step board).2.1, (hart.step board).2.2.wind f)) ∧
    ∀ (sim : Simulator) (input : Input), input.winds = true →
      (¬sim.SeesTimer →
        stepInOrder (sim.act input) = ((stepInOrder sim).1, (stepInOrder sim).2.act input)) ∧
      ∀ count, (∀ k < count, ¬(run k sim).SeesTimer) →
        run count (sim.act input) = (run count sim).act input := by
  refine ⟨?_, ?_, ?_, ?_⟩
  · intro sim
    obtain ⟨hticks, hrx⟩ := Served.mk.inj sim.served_step
    exact ⟨congrArg Timer.mk hticks, hrx⟩
  · intro config history
    have hstart : (ofConfig config).board.served = {} := rfl
    rw [served_after, hstart]
  · intro hart board h f
    exact Hart.step_wind h f
  · intro sim input hwinds
    obtain ⟨f, hf⟩ := act_of_winds hwinds
    simp only [hf]
    constructor
    · intro h
      change ((sim.wind f).step.isRunning, (sim.wind f).step) =
        (sim.step.isRunning, sim.step.wind f)
      rw [step_wind h]
      rfl
    · intro count h
      exact run_wind h f

def clocked : Simulator :=
  ((ofConfig { board := { romSize := 12, ramSize := 4 } }).loadProgram
    [0x200002B7, 0x0002A303] []).2

/-- Time may pass before the first step or after it, but not before or after the second. -/
theorem host_driven_clocked :
    ¬clocked.SeesTimer ∧ clocked.step.SeesTimer ∧
      clocked.hart.step (clocked.board.wind (·.advance 5)) = ((clocked.hart.step clocked.board).1,
        (clocked.hart.step clocked.board).2.1,
          (clocked.hart.step clocked.board).2.2.wind (·.advance 5)) ∧
      stepInOrder (clocked.act (.advanceTimer 5)) =
        ((stepInOrder clocked).1, (stepInOrder clocked).2.act (.advanceTimer 5)) ∧
      run 1 (clocked.act (.setTimer 5)) = (run 1 clocked).act (.setTimer 5) ∧
      (clocked.step.act (.advanceTimer 5)).step.hart.register 6 = 5 ∧
      (clocked.step.step.act (.advanceTimer 5)).hart.register 6 = 0 := by
  have hlui : clocked.hart.fetch clocked.board = .ok 0x200002B7 := rfl
  have hfirst : ¬clocked.hart.SeesTimer clocked.board :=
    Hart.not_seesTimer hlui rfl (by decide +kernel) nofun
  have hlw : clocked.step.hart.fetch clocked.step.board = .ok 0x0002A303 := rfl
  have hdecode : clocked.step.hart.decode 0x0002A303 =
      .ok { op := .lw, raw := 0x0002A303, rd := 6, rs1 := 5 } := rfl
  have hloads := Hart.Reads.load hlw (by decide) hdecode rfl
  have hsecond : clocked.step.SeesTimer :=
    ⟨by decide +kernel, _, .word, 0, hloads, rfl, by decide +kernel⟩
  obtain ⟨-, -, hhart, hhost⟩ := host_driven
  have hidle : ¬clocked.SeesTimer := fun h => hfirst h.2
  have hrun : ∀ k < 1, ¬(run k clocked).SeesTimer := fun k hk => by
    obtain rfl : k = 0 := by omega
    exact hidle
  exact ⟨hidle, hsecond, hhart clocked.hart clocked.board hfirst _,
    (hhost clocked (.advanceTimer 5) rfl).1 hidle,
    (hhost clocked (.setTimer 5) rfl).2 1 hrun, by decide +kernel, by decide +kernel⟩

end Simulator

end RiscvBoard
