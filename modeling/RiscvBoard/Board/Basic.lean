import RiscvBoard.Board.Region
import RiscvBoard.Bus

/-!
# The board

ROM, RAM, timer, UART and output pins behind one 32-bit address space. An
access must lie in one region with all its bytes and, in a device, in one
register. The ROM can be protected against writes; loading a program ignores the
protection and replaces the whole ROM.
-/

namespace RiscvBoard

structure Board.Config where
  romSize : Nat := 0x10000
  ramSize : Nat := 0x10000
  romWritable : Bool := true
  deriving DecidableEq, Repr

/-- Cuts the memories down to what the address map has room for. -/
def Board.Config.clamped (config : Board.Config) : Board.Config :=
  { config with
    romSize := min config.romSize Region.maxMemory
    ramSize := min config.ramSize Region.maxMemory }

structure Board where
  rom : Cells
  ram : Cells
  romWritable : Bool
  timer : Timer := {}
  uart : Uart := {}
  gpio : Gpio := {}
  events : EventQueue := .empty
  rom_le : rom.size ≤ Region.maxMemory
  ram_le : ram.size ≤ Region.maxMemory

namespace Board

def ofConfig (config : Config) : Board where
  rom := .zeros config.clamped.romSize
  ram := .zeros config.clamped.ramSize
  romWritable := config.romWritable
  rom_le := by rw [Cells.size_zeros]; exact Nat.min_le_right ..
  ram_le := by rw [Cells.size_zeros]; exact Nat.min_le_right ..

def config (board : Board) : Config := ⟨board.rom.size, board.ram.size, board.romWritable⟩

/-- One past the last byte of RAM, where the stack of a program begins. -/
def ramTop (board : Board) : Word := BitVec.ofNat 32 (Region.ram.base + board.ram.size)

def sizeOf (board : Board) : Region → Nat
  | .rom => board.rom.size
  | .ram => board.ram.size
  | .timer => Timer.size
  | .uart => Uart.size
  | .gpio => Gpio.size

def holds (board : Board) (region : Region) (addr : Word) : Bool :=
  region.base ≤ addr.toNat && addr.toNat < region.base + board.sizeOf region

def locate? (board : Board) (addr : Word) : Option (Region × Nat) :=
  (Region.all.find? fun region => board.holds region addr).map fun region =>
    (region, addr.toNat - region.base)

/-- Where an access goes, or why it cannot be made. -/
def route (board : Board) (addr : Word) (width : Width) : Except Fault (Region × Nat) :=
  match board.locate? addr with
  | none => .error (.unmapped addr)
  | some (region, off) =>
    if board.sizeOf region < off + width.bytes then .error (.straddle addr width)
    else if region.isDevice && 4 < off % 4 + width.bytes then .error (.misaligned addr width)
    else .ok (region, off)

def readAt (board : Board) (region : Region) (off : Nat) (width : Width) : Word :=
  match region with
  | .rom => board.rom.load off width
  | .ram => board.ram.load off width
  | .timer => board.timer.read off width
  | .uart => board.uart.read off width
  | .gpio => board.gpio.read off width

def isWritable (board : Board) (region : Region) (off : Nat) : Bool :=
  match region with
  | .rom => board.romWritable
  | .ram | .gpio => true
  | .timer => false
  | .uart => Uart.isWritable off

/-- The board after an access that has been routed wrote a value. -/
def writeAt (board : Board) (region : Region) (off : Nat) (value : Word) (width : Width) : Board :=
  match region with
  | .rom =>
    { board with
      rom := board.rom.store off value width
      rom_le := by rw [Cells.size_store]; exact board.rom_le }
  | .ram =>
    { board with
      ram := board.ram.store off value width
      ram_le := by rw [Cells.size_store]; exact board.ram_le }
  | .timer => board
  | .uart =>
    let (uart, event) := board.uart.write off value width
    { board with uart, events := board.events.pushAll event.toList }
  | .gpio =>
    let (gpio, events) := board.gpio.write off value width
    { board with gpio, events := board.events.pushAll events }

/-- Why a write is refused: it cannot be routed, or the place is read-only. -/
def refusal? (board : Board) (addr : Word) (width : Width) : Option Fault :=
  match board.route addr width with
  | .error fault => some fault
  | .ok (region, off) => if board.isWritable region off then none else some (.readOnly addr)

instance : Bus Board where
  read board addr width :=
    match board.route addr width with
    | .error fault => .error fault
    | .ok (region, off) => .ok (board.readAt region off width)
  refusal? := refusal?
  store board addr value width :=
    match board.locate? addr with
    | some (region, off) => board.writeAt region off value width
    | none => board

/-- The byte at an address; nothing if no region has the address. -/
def peek? (board : Board) (addr : Word) : Option Byte :=
  (board.locate? addr).map fun (region, off) => (board.readAt region off .byte).setWidth 8

def reset (board : Board) : Board :=
  { board with
    ram := .zeros board.ram.size, timer := {}, uart := {}, gpio := {}, events := .empty
    ram_le := by rw [Cells.size_zeros]; exact board.ram_le }

/-- Puts a program at the start of the ROM and zeros behind it. If there is no room the size of the
ROM is answered. -/
def loadRom (board : Board) (words : List Word) : Except Nat Board :=
  if h : 4 * words.length ≤ board.rom.size then
    .ok { board with
      rom := (bytesOfWords words).toArray ++ Cells.zeros (board.rom.size - 4 * words.length)
      rom_le := by
        have := board.rom_le
        simp only [Array.size_append, List.size_toArray, length_bytesOfWords, Cells.size_zeros]
        omega }
  else .error board.rom.size

def drain (board : Board) : List Event × Board :=
  let (events, queue) := board.events.drain
  (events, { board with events := queue })

end Board

end RiscvBoard
