import RiscvBoard.Command.Arguments
import RiscvBoard.Command.Files
import RiscvBoard.Simulator.Settings

/-!
# Running a program

Loads a program, runs it and prints what its devices show, then the registers
and, if asked for, the counters and parts of the memory. A program that traps
makes the command fail after everything is printed.
-/

namespace RiscvBoard

def Counters.json (counters : Counters) : Json :=
  .record [("instructions", .natural counters.instructions),
    ("branches", .natural counters.branches),
    ("taken", .natural counters.taken), ("loads", .natural counters.loads),
    ("stores", .natural counters.stores), ("muls", .natural counters.muls),
    ("divs", .natural counters.divs), ("other", .natural counters.other)]

namespace Command.Run

structure Options where
  program : String
  format : Option Image.Format := none
  config : Option String := none
  maxSteps : Option Nat := none
  timer : Option Word := none
  uartRx : Option Word := none
  stats : Bool := false
  dumps : List String := []

def specs : List OptionSpec :=
  [{ name := "format", letter := some 'f' }, { name := "config", letter := some 'c' },
    { name := "max-steps" }, { name := "timer" }, { name := "uart-rx" },
    { name := "stats", takesValue := false }, { name := "dump-mem", repeatable := true }]

def word? (text : String) : Option Word := (Numeral.word text.toList).toOption

def steps? (text : String) : Option Nat :=
  (Numeral.natural 10 0x10000000000000000 text.toList).toOption

def options? (words : List String) : Option Options := do
  let args ← Arguments.parse? specs words
  let [program] := args.positionals | none
  return {
    program := ← Arguments.path? program
    format := ← args.optional? formatNamed? "format"
    config := ← args.optional? Arguments.path? "config"
    maxSteps := ← args.optional? steps? "max-steps"
    timer := ← args.optional? word? "timer"
    uartRx := ← args.optional? word? "uart-rx"
    stats := args.has "stats"
    dumps := args.values "dump-mem" }

def number (text : String) : Except String Word :=
  (Numeral.word text.toList).mapError fun fault =>
    "invalid number '" ++ text ++ "': " ++ fault.message

def dump (sim : Simulator) (request : String) : Except String String :=
  match Text.splitFirst? (· == ':') request.toList with
  | none => .error ("--dump-mem expects ADDR:LEN, got '" ++ request ++ "'")
  | some (addr, length) => do
    let addr ← number (String.ofList addr)
    let length ← number (String.ofList length)
    return sim.board.dump addr length.toNat

/-- The dumps up to the first bad request, and the complaint about that. -/
def dumpAll (sim : Simulator) : List String → String × Option String
  | [] => ("", none)
  | request :: rest =>
    match dump sim request with
    | .error message => ("", some message)
    | .ok text =>
      let (more, message) := dumpAll sim rest
      (text ++ more, message)

def conclude (sim : Simulator) (maxSteps : Nat) (out : String) : Result :=
  match sim.status with
  | .halted => { out }
  | .running => { out, err := "stopped after " ++ toString maxSteps ++ " steps\n" }
  | .faulted trap =>
    let place := match sim.line? sim.hart.pc with
      | some line => " (source line " ++ toString line ++ ")"
      | none => ""
    .failed ("TRAP" ++ place ++ ": " ++ trap.message) out

def preset (options : Options) (sim : Simulator) : Simulator :=
  let board := sim.board
  let timer := match options.timer with
    | some ticks => board.timer.set ticks
    | none => board.timer
  let uart := match options.uartRx with
    | some word => board.uart.receive word
    | none => board.uart
  { sim with board := { board with timer, uart } }

def simulate (options : Options) (maxSteps : Nat) (sim : Simulator) : Result :=
  let (shown, sim) := Simulator.watch maxSteps [] (preset options sim)
  let events := String.join (shown.reverse.map fun event => event.text ++ "\n")
  let stats := if options.stats then sim.hart.counters.json.pretty ++ "\n" else ""
  let (dumps, complaint) := dumpAll sim options.dumps
  let out := events ++ sim.registersText ++ stats ++ dumps
  match complaint with
  | some message => .failed message out
  | none => conclude sim maxSteps out

variable {m : Type → Type} [Monad m] [Files m]

def config (path : Option String) : ExceptT String m Simulator.Config := do
  match path with
  | none => return {}
  | some path =>
    match Simulator.Config.parse? (← readText path).toList with
    | some config => return config
    | none => throw ("parsing " ++ path)

def execute (options : Options) : ExceptT String m Result := do
  let config ← config options.config
  let image ← readImage options.program options.format
  let (error, sim) := (Simulator.ofConfig config).loadProgram image.words image.lineMap
  match error with
  | some error => throw error.message
  | none => return simulate options (options.maxSteps.getD config.maxSteps) sim

def command (words : List String) : m Result :=
  match options? words with
  | none => return .usage
  | some options => return .ofExcept (← (execute options).run)

end Command.Run

end RiscvBoard
