import RiscvBoard.Board.Dump
import RiscvBoard.Hart.Step
import RiscvBoard.Image.Error

/-!
# The simulator

A hart on a board. It runs until the program halts or traps; after that it does
nothing until it is reset. Loading a program resets everything and replaces the
ROM, so that no trace of an earlier program is left.
-/

namespace RiscvBoard

structure Simulator.Config where
  hart : Hart.Config := {}
  board : Board.Config := {}
  maxSteps : Nat := 1000000
  deriving DecidableEq, Repr

inductive Simulator.Status
  | running
  | halted
  | faulted (trap : Trap)
  deriving DecidableEq, Repr

structure Simulator where
  hart : Hart
  board : Board
  status : Simulator.Status := .running
  lineMap : Array Nat := #[]

namespace Simulator

/-- Why a run ended. -/
inductive Exit
  | halted
  | faulted
  | stepLimit
  deriving DecidableEq, Repr

namespace Status

def isRunning (status : Status) : Bool := status = .running

def trap? : Status → Option Trap
  | .faulted trap => some trap
  | _ => none

def exit : Status → Exit
  | .running => .stepLimit
  | .halted => .halted
  | .faulted _ => .faulted

def ofOutcome : Outcome → Status
  | .executed => .running
  | .halted => .halted
  | .trapped trap => .faulted trap

end Status

def reset (sim : Simulator) : Simulator :=
  let board := sim.board.reset
  { hart := sim.hart.reset board.ramTop, board, lineMap := sim.lineMap }

def ofConfig (config : Config) : Simulator :=
  reset { hart := { config := config.hart }, board := .ofConfig config.board }

/-- Resets and puts a program into the ROM. A program that does not fit leaves the old one. -/
def loadProgram (sim : Simulator) (words : List Word) (lineMap : List Nat) :
    Option LoadError × Simulator :=
  let sim := sim.reset
  match sim.board.loadRom words with
  | .ok board => (none, { sim with board, lineMap := lineMap.toArray })
  | .error capacity => (some (.tooLarge words.length capacity), sim)

def step : Simulator → Simulator
  | ⟨hart, board, .running, lineMap⟩ =>
    let (outcome, hart, board) := hart.step board
    ⟨hart, board, .ofOutcome outcome, lineMap⟩
  | sim => sim

def isRunning (sim : Simulator) : Bool := sim.status.isRunning

/-- Steps until the simulator stops, at most `count` of them. -/
def run : Nat → Simulator → Simulator
  | 0, sim => sim
  | count + 1, sim => if sim.isRunning then run count sim.step else sim

def drain (sim : Simulator) : List Event × Simulator :=
  let (events, board) := sim.board.drain
  (events, { sim with board })

/-- Like `run`, but takes the events out after every step. They are put in front of `shown`, the
latest first. -/
def watch : Nat → List Event → Simulator → List Event × Simulator
  | 0, shown, sim => (shown, sim)
  | count + 1, shown, sim =>
    if sim.isRunning then
      let (events, sim) := sim.step.drain
      watch count (events.reverseAux shown) sim
    else (shown, sim)

def line? (sim : Simulator) (pc : Word) : Option Nat :=
  if pc.toNat % 4 = 0 then sim.lineMap[pc.toNat / 4]? else none

def registersText (sim : Simulator) : String :=
  let lines := sim.hart.registers.toList.zipIdx.map fun (value, i) =>
    "x" ++ toString i ++ "=" ++ Numeral.hex 8 value.toNat ++ "\n"
  String.join lines ++ "PC=" ++ Numeral.hex 8 sim.hart.pc.toNat ++ "\n"

end Simulator

end RiscvBoard
