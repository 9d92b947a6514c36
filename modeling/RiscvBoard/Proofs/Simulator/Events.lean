import RiscvBoard.Proofs.Board.Events
import RiscvBoard.Proofs.Board.Parts
import RiscvBoard.Proofs.Simulator.Load

/-!
# Events over a history

A log has every event that a simulator has shown since its last reset, parted
where a host took the waiting events out. The queue of the board can be read off
the log: what waits, what was given out and how much was lost. So can the output
pins, which have the values that were shown last.
-/

namespace RiscvBoard

-- ---------------------------------------------------------------------------
-- What is shown
-- ---------------------------------------------------------------------------

def Hart.shown (hart : Hart) (board : Board) : List Event :=
  match hart.stored? board with
  | some (addr, value, width) => board.shown addr value width
  | none => []

namespace Simulator

def stepShown (sim : Simulator) : List Event :=
  match sim.status with
  | .running => sim.hart.shown sim.board
  | _ => []

def runShown : Nat → Simulator → List Event
  | 0, _ => []
  | count + 1, sim => sim.stepShown ++ runShown count sim.step

def shown (sim : Simulator) : Input → List Event
  | .step => sim.stepShown
  | .run count => runShown count sim
  | .write addr value width => sim.board.shown addr value width
  | _ => []

def Input.restarts : Input → Bool
  | .reset | .load .. => true
  | _ => false

/-- What has been shown since the last reset. -/
structure Log where
  /-- What was shown before the first drain, between two drains, and so on. -/
  closed : List (List Event) := []
  current : List Event := []
  drained : List Event := []

namespace Log

def all (log : Log) : List Event := log.closed.flatten ++ log.current

def note (log : Log) (sim : Simulator) : Input → Log
  | .drain => { closed := log.closed ++ [log.current], drained := log.drained ++ sim.drain.1 }
  | .reset | .load .. => {}
  | input => { log with current := log.current ++ sim.shown input }

def after (log : Log) (sim : Simulator) : List Input → Log
  | [] => log
  | input :: inputs => (log.note sim input).after (sim.act input) inputs

/-- A drain forgets nothing. -/
theorem all_drain (log : Log) (sim : Simulator) :
    (log.note sim .drain).all = log.all := by simp [all, note]

/-- What holds at the start and is kept by every input holds after every history. -/
theorem after_of_note {P : Log → Simulator → Prop}
    (hnote : ∀ log sim input, P log sim → P (log.note sim input) (sim.act input))
    {log : Log} {sim : Simulator} (h : P log sim) (inputs : List Input) :
    P (log.after sim inputs) (sim.after inputs) := by
  induction inputs generalizing log sim with
  | nil => exact h
  | cons input inputs ih => exact ih (hnote log sim input h)

end Log

-- ---------------------------------------------------------------------------
-- One input
-- ---------------------------------------------------------------------------

/-- Between two times nothing was shown but some events, and the queue has all of them. -/
structure Shows (before after : Simulator) (events : List Event) : Prop where
  queue : after.board.events = before.board.events.pushAll events
  output : ∀ k, after.board.gpio.output k = Event.lastValue (before.board.gpio.output k) k events
  digits : ∀ event ∈ events, event.HasDigit

variable {sim before middle after : Simulator} {first second : List Event}

theorem Shows.of_eq (hevents : after.board.events = before.board.events)
    (hgpio : after.board.gpio = before.board.gpio) : Shows before after [] where
  queue := hevents
  output k := congrArg (·.output k) hgpio
  digits _ h := nomatch h

theorem Shows.trans (h : Shows before middle first) (h' : Shows middle after second) :
    Shows before after (first ++ second) where
  queue := by rw [h'.queue, h.queue, EventQueue.pushAll_append]
  output k := by rw [h'.output, h.output, Event.lastValue_append]
  digits event hevent := (List.mem_append.mp hevent).elim (h.digits event) (h'.digits event)

theorem Shows.of_board {other : Simulator} (h : Shows before after first)
    (hboard : other.board = after.board) : Shows before other first where
  queue := by rw [hboard, h.queue]
  output k := by rw [hboard, h.output]
  digits := h.digits

theorem shows_write (sim : Simulator) (addr value : Word) (width : Width) :
    Shows sim { sim with board := (Bus.write sim.board addr value width).2 }
      (sim.board.shown addr value width) where
  queue := Board.events_write sim.board addr value width
  output := Board.output_write sim.board addr value width
  digits _ := Board.hasDigit_of_mem_shown

theorem stepShown_of_stopped (h : sim.status ≠ .running) : sim.stepShown = [] := by
  unfold stepShown
  split
  · exact absurd ‹_› h
  · rfl

theorem shows_step (sim : Simulator) : Shows sim sim.step sim.stepShown := by
  by_cases hstatus : sim.status = .running
  · have hboard : sim.step.board = (sim.hart.step sim.board).2.2 := by rw [step_of_running hstatus]
    rw [Hart.bus_step_eq] at hboard
    simp only [stepShown, hstatus, Hart.shown]
    cases hstore : sim.hart.stored? sim.board with
    | none =>
      rw [hstore] at hboard
      exact .of_eq (congrArg Board.events hboard) (congrArg Board.gpio hboard)
    | some store =>
      obtain ⟨addr, value, width⟩ := store
      rw [hstore] at hboard
      exact (shows_write sim addr value width).of_board hboard
  · rw [step_of_stopped hstatus, stepShown_of_stopped hstatus]
    exact .of_eq rfl rfl

theorem shows_run (count : Nat) (sim : Simulator) :
    Shows sim (run count sim) (runShown count sim) := by
  induction count generalizing sim with
  | zero => exact .of_eq rfl rfl
  | succ count ih =>
    rw [run_succ]
    exact (shows_step sim).trans (ih sim.step)

theorem board_replaceRom (sim : Simulator) (words : List Word) :
    (sim.replaceRom words).board.events = sim.board.events ∧
      (sim.replaceRom words).board.gpio = sim.board.gpio := by
  simp only [replaceRom, Board.loadRom_eq]
  by_cases hfits : 4 * words.length ≤ sim.board.rom.size
  · simp only [if_pos hfits]
    exact ⟨rfl, rfl⟩
  · simp only [if_neg hfits, and_self]

theorem board_loadProgram (sim : Simulator) (words : List Word) (lineMap : List Nat) :
    (sim.loadProgram words lineMap).2.board.events = .empty ∧
      (sim.loadProgram words lineMap).2.board.gpio = {} := by
  rw [loadProgram_eq]
  split <;> exact ⟨rfl, rfl⟩

theorem shows_act {input : Input} (hdrain : input ≠ .drain) (hrestarts : input.restarts = false) :
    Shows sim (sim.act input) (sim.shown input) := by
  cases input with
  | step => exact shows_step sim
  | run count => exact shows_run count sim
  | write addr value width => exact shows_write sim addr value width
  | loadRom words =>
    obtain ⟨hevents, hgpio⟩ := sim.board_replaceRom words
    exact .of_eq hevents hgpio
  | drain => exact absurd rfl hdrain
  | reset | load => cases hrestarts
  | setRegister | read | setTimer | advanceTimer | receive => exact .of_eq rfl rfl

-- ---------------------------------------------------------------------------
-- The log and the simulator
-- ---------------------------------------------------------------------------

/-- How many events did not fit between the drains that are over. -/
def Log.lost (log : Log) : Nat :=
  (log.closed.map fun events => events.length - EventQueue.capacity).sum

structure Log.Describes (log : Log) (sim : Simulator) : Prop where
  queue : sim.board.events.Received log.lost log.current
  drained : log.drained = (log.closed.map EventQueue.latest).flatten
  output : ∀ k, sim.board.gpio.output k = Event.lastValue 0 k log.all
  digits : ∀ event ∈ log.all, event.HasDigit

theorem Log.describes_start (hevents : sim.board.events = .empty) (hgpio : sim.board.gpio = {}) :
    Log.Describes {} sim where
  queue := hevents ▸ EventQueue.received_nil 0
  drained := rfl
  output k := by rw [hgpio, Gpio.output_start]; rfl
  digits _ h := nomatch h

namespace Log.Describes

variable {log : Log} {events : List Event}

theorem shown (h : log.Describes sim) (hshows : Shows sim after events) :
    { log with current := log.current ++ events : Log }.Describes after where
  queue := hshows.queue ▸ h.queue.pushAll events
  drained := h.drained
  output k := by rw [hshows.output, h.output, ← Event.lastValue_append, all, all, List.append_assoc]
  digits event hevent := by
    rw [all, ← List.append_assoc] at hevent
    exact (List.mem_append.mp hevent).elim (h.digits event) (hshows.digits event)

theorem drain (h : log.Describes sim) : (log.note sim .drain).Describes sim.drain.2 where
  queue := by
    have hlost : (log.note sim .drain).lost =
        log.lost + (log.current.length - EventQueue.capacity) := by
      simp only [lost, note, List.map_append, List.map_cons, List.map_nil, List.sum_append,
        List.sum_singleton]
    have hqueue : sim.drain.2.board.events = sim.board.events.drain.2 := rfl
    rw [hqueue, h.queue.drain, hlost]
    exact EventQueue.received_nil _
  drained := by
    have hgiven : sim.drain.1 = EventQueue.latest log.current := h.queue.toList
    simp [note, h.drained, hgiven]
  output k := by
    rw [all_drain]
    exact h.output k
  digits := by
    rw [all_drain]
    exact h.digits

theorem note (h : log.Describes sim) (input : Input) :
    (log.note sim input).Describes (sim.act input) := by
  cases input with
  | drain => exact h.drain
  | reset => exact describes_start rfl rfl
  | load words lineMap =>
    obtain ⟨hevents, hgpio⟩ := sim.board_loadProgram words lineMap
    exact describes_start hevents hgpio
  | _ => exact h.shown (shows_act nofun rfl)

end Log.Describes

theorem Log.describes_after (sim : Simulator) (inputs : List Input) :
    (Log.after {} sim.reset inputs).Describes (sim.reset.after inputs) :=
  after_of_note (fun _ _ input h => h.note input) (describes_start rfl rfl) inputs

-- ---------------------------------------------------------------------------
-- What follows for every history
-- ---------------------------------------------------------------------------

/-- What waits, what a drain gives out and what was dropped, after any history since a reset. -/
theorem queue_accounted (sim : Simulator) (inputs : List Input) :
    let final := sim.reset.after inputs
    let log := Log.after {} sim.reset inputs
    let queue := final.board.events
    queue.toList = log.current.drop (log.current.length - EventQueue.capacity) ∧
      queue.size = min EventQueue.capacity log.current.length ∧
      final.drain = (queue.toList, { final with board.events := { dropped := queue.dropped } }) ∧
      final.drain.2.board.events.toList = [] ∧
      queue.dropped =
        ((log.closed ++ [log.current]).map fun events => events.length - EventQueue.capacity).sum ∧
      log.all.length = log.drained.length + queue.size + queue.dropped := by
  intro final log queue
  have h : log.Describes final := Log.describes_after sim inputs
  have hdropped : queue.dropped = log.lost + (log.current.length - EventQueue.capacity) :=
    h.queue.dropped
  refine ⟨h.queue.toList, h.queue.size, rfl, rfl, ?_, ?_⟩
  · rw [hdropped, List.map_append, List.sum_append, List.map_singleton, List.sum_singleton,
      Log.lost]
  · have hclosed := EventQueue.length_flatten_latest log.closed
    rw [← h.drained] at hclosed
    rw [h.queue.size, hdropped, Log.all, List.length_append, hclosed, Log.lost]
    omega

/-- A write that is taken shows what it does and nothing else shows anything, so the pins have the
values that were shown last since the reset. -/
theorem outputs_shown :
    (∀ (board after : Board) (addr value : Word) (width : Width),
      Bus.write board addr value width = (none, after) →
      ∃ (region : Region) (off : Nat), addr.toNat = region.base + off ∧
        off + width.bytes ≤ board.sizeOf region ∧
        board.shown addr value width = after.announced region off value width ∧
        after.events = board.events.pushAll (board.shown addr value width)) ∧
    (∀ (board after : Board) (addr value : Word) (width : Width) (fault : Fault),
      Bus.write board addr value width = (some fault, after) → after = board ∧
        board.shown addr value width = []) ∧
    (∀ (board : Board) (addr : Word) (width : Width) (signed : Bool),
      Parts.read addr width signed board.parts =
        Work.answer board.parts (Bus.load board addr width signed)) ∧
    ∀ (sim : Simulator) (inputs : List Input),
      let final := sim.reset.after inputs
      let log := Log.after {} sim.reset inputs
      (∀ input, input ≠ .drain → input.restarts = false →
        (final.act input).board.events = final.board.events.pushAll (final.shown input)) ∧
      (∀ k < 8, final.board.gpio.output k = Event.lastValue 0 k log.all) ∧
      ∀ index value, .segment index value ∈ log.all → 1 ≤ index ∧ index ≤ 7 := by
  refine ⟨?_, ?_, Board.read_parts, ?_⟩
  · intro board after addr value width h
    obtain ⟨region, off, haddr, hsize, hshown⟩ := Board.shown_eq_announced h
    have hevents := Board.events_write board addr value width
    rw [h] at hevents
    exact ⟨region, off, haddr, hsize, hshown, hevents⟩
  · intro board after addr value width fault h
    have hsame := Bus.write_refused (congrArg Prod.fst h)
    rw [h] at hsame
    exact ⟨hsame, Board.shown_of_write (congrArg Prod.fst h)⟩
  · intro sim inputs final log
    have h : log.Describes final := Log.describes_after sim inputs
    refine ⟨fun input hdrain hrestarts => (shows_act hdrain hrestarts).queue,
      fun k _ => h.output k, ?_⟩
    intro index value hevent
    exact h.digits (.segment index value) hevent

def twice : List Input :=
  [.write 0x40000000 0xA1B2C3D4 .word, .drain, .write 0x40000003 7 .byte, .write 0x20000000 1 .word]

theorem outputs_shown_twice :
    (∃ (region : Region) (off : Nat), 0x3000000D = region.base + off ∧
      off + Width.byte.bytes ≤ counting.board.sizeOf region ∧
        counting.board.shown 0x3000000D 9 .byte =
        (Bus.write counting.board 0x3000000D 9 .byte).2.announced region off 9 .byte) ∧
      counting.board.shown 0x3000000D 9 .byte = [.transmit 0] ∧
        counting.board.shown 0x20000000 1 .word = [] ∧
      (Log.after {} counting.reset twice).all =
        [.led 0xD4, .segment 1 0xC3, .segment 2 0xB2, .segment 3 0xA1, .segment 3 7] ∧
      (counting.reset.after twice).board.gpio.output 3 = 7 := by
  obtain ⟨hwrite, hrefused, -, hhistory⟩ := outputs_shown
  obtain ⟨region, off, haddr, hsize, hshown, -⟩ :=
    hwrite counting.board _ 0x3000000D 9 .byte (Prod.ext (by decide +kernel) rfl)
  have hnothing : counting.board.shown 0x20000000 1 .word = [] :=
    (hrefused counting.board _ 0x20000000 1 .word (.readOnly 0x20000000)
      (Prod.ext (by decide +kernel) rfl)).2
  have hlog : (Log.after {} counting.reset twice).all =
      [.led 0xD4, .segment 1 0xC3, .segment 2 0xB2, .segment 3 0xA1, .segment 3 7] := by
        decide +kernel
  have hthree := (hhistory counting twice).2.1 3 (by decide)
  rw [hlog] at hthree
  exact ⟨⟨region, off, haddr, hsize, hshown⟩, by decide +kernel, hnothing, hlog, hthree⟩

end Simulator

end RiscvBoard
