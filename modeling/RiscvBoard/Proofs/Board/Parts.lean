import RiscvBoard.Proofs.Board.Access
import RiscvBoard.Proofs.Memory.Access

/-!
# The board in parts

`Board` works an access out in one go. Here a board is wired from parts: the
region of an access is looked up in a table, once for its first and once for its
last byte, each memory has a base of its own and checks the access again, an
array refuses an index outside of it, and the parts change while the access
runs. Both have the same accesses. So nothing fails in a part once the access
has been routed, and an access that is refused has changed nothing.
-/

namespace RiscvBoard

-- ---------------------------------------------------------------------------
-- The output pins
-- ---------------------------------------------------------------------------

namespace Gpio

variable {gpio : Gpio} {off : Nat} {value : Word}

def fetch (off : Nat) (width : Width) : Work Gpio Word := do
  let gpio ← get
  let number ← Work.index (littleEndian? (gpio.outputs[·]?) (off / 4 * 4) 4)
  return Word.lane (BitVec.ofNat 32 number) (off % 4) width

def setOutput (index : Nat) (byte : Byte) : Work Gpio Unit := fun gpio =>
  if index < 8 then .ok () { outputs := gpio.outputs.setIfInBounds index byte }
  else .error .outside gpio

def put (off : Nat) (value : Word) : Nat → Work Gpio (List Event)
  | 0 => pure []
  | n + 1 => do
    let events ← put off value n
    setOutput (off + n) (value.byte n)
    return events ++ [.ofOutput (off + n) (value.byte n)]

theorem fetch_eq (width : Width) (h : off < 8) :
    fetch off width gpio = .ok (gpio.read off width) gpio := by
  have hnumber : littleEndian? (gpio.outputs[·]?) (off / 4 * 4) 4 =
      some (littleEndian gpio.output (off / 4 * 4) 4) := littleEndian?_eq fun i _ hi => by
    have hlt : i < 8 := by omega
    rw [output_eq, Vector.getElem?_eq_getElem hlt]
    rfl
  change (Work.index (littleEndian? (gpio.outputs[·]?) (off / 4 * 4) 4) >>= _) gpio = _
  rw [hnumber]
  rfl

theorem put_eq (value : Word) {n : Nat} (h : off + n ≤ 8) :
    put off value n gpio = .ok (shown off value n) (gpio.writeBytes off value n) := by
  induction n with
  | zero => rfl
  | succ n ih =>
    have hset : setOutput (off + n) (value.byte n) (gpio.writeBytes off value n) =
        .ok () (gpio.writeBytes off value (n + 1)) := if_pos (by omega)
    rw [put, Work.bind_of_ok (ih (by omega)), Work.bind_of_ok hset, shown_succ]
    rfl

end Gpio

-- ---------------------------------------------------------------------------
-- All parts
-- ---------------------------------------------------------------------------

structure Parts where
  rom : Memory
  ram : Memory
  romWritable : Bool
  timer : Timer
  uart : Uart
  gpio : Gpio
  events : EventQueue

namespace Parts

def sizeOf (parts : Parts) : Region → Nat
  | .rom => parts.rom.size
  | .ram => parts.ram.size
  | .timer => Timer.size
  | .uart => Uart.size
  | .gpio => Gpio.size

def window (base : Word) (size : Nat) (addr : Word) : Option Nat :=
  let off := (addr - base).toNat
  if base ≤ addr ∧ off < size then some off else none

def find? (parts : Parts) (addr : Word) : Option (Region × Nat) :=
  Region.all.findSome? fun region =>
    (window (BitVec.ofNat 32 region.base) (parts.sizeOf region) addr).map fun off => (region, off)

/-- Where an access goes. Only its first and its last byte are looked up. -/
def route (parts : Parts) (addr : Word) (width : Width) : Except Fault (Region × Nat) :=
  match parts.find? addr with
  | none => .error (.unmapped addr)
  | some (region, off) =>
    let beyond := width.bytes - 1
    if 2 ^ 32 ≤ addr.toNat + beyond then .error (.straddle addr width)
    else if (parts.find? (addr + BitVec.ofNat 32 beyond)).map Prod.fst ≠ some region then
      .error (.straddle addr width)
    else if region.isDevice ∧ 4 < off % 4 + width.bytes then .error (.misaligned addr width)
    else .ok (region, off)

section

variable {α : Type}

def onRom (work : Work Memory α) : Work Parts α :=
  Work.part rom (fun parts rom => { parts with rom }) work

def onRam (work : Work Memory α) : Work Parts α :=
  Work.part ram (fun parts ram => { parts with ram }) work

def onUart (work : Work Uart α) : Work Parts α :=
  Work.part uart (fun parts uart => { parts with uart }) work

def onGpio (work : Work Gpio α) : Work Parts α :=
  Work.part gpio (fun parts gpio => { parts with gpio }) work

end

def emit (events : List Event) : Work Parts Unit :=
  modify fun parts => { parts with events := parts.events.pushAll events }

def readAt (addr : Word) (region : Region) (off : Nat) (width : Width) : Work Parts Word := do
  match region with
  | .rom => onRom (Memory.fetch addr width)
  | .ram => onRam (Memory.fetch addr width)
  | .timer => return (← get).timer.read off width
  | .uart => return (← get).uart.read off width
  | .gpio => onGpio (Gpio.fetch off width)

def read (addr : Word) (width : Width) (signed : Bool) : Work Parts Word := do
  let parts ← get
  let (region, off) ← Work.permit (parts.route addr width)
  let raw ← readAt addr region off width
  return raw.extend width signed

def writeAt (addr : Word) (region : Region) (off : Nat) (value : Word) (width : Width) :
    Work Parts Unit := do
  match region with
  | .rom =>
    if (← get).romWritable then onRom (Memory.put addr value width)
    else throw (.refused (.readOnly addr))
  | .ram => onRam (Memory.put addr value width)
  | .timer => throw (.refused (.readOnly addr))
  | .uart =>
    if Uart.isWritable off then
      let event ← onUart (modifyGet fun uart => (uart.write off value width).swap)
      emit event.toList
    else throw (.refused (.readOnly addr))
  | .gpio =>
    let events ← onGpio (Gpio.put off value width.bytes)
    emit events

def write (addr value : Word) (width : Width) : Work Parts Unit := do
  let parts ← get
  let (region, off) ← Work.permit (parts.route addr width)
  writeAt addr region off value width

end Parts

namespace Board

variable {board : Board} {addr value : Word} {width : Width} {region : Region} {off : Nat}

def parts (board : Board) : Parts where
  rom := ⟨BitVec.ofNat 32 Region.rom.base, board.rom⟩
  ram := ⟨BitVec.ofNat 32 Region.ram.base, board.ram⟩
  romWritable := board.romWritable
  timer := board.timer
  uart := board.uart
  gpio := board.gpio
  events := board.events

theorem sizeOf_parts (board : Board) (region : Region) :
    board.parts.sizeOf region = board.sizeOf region := by
  cases region <;> rfl

-- ---------------------------------------------------------------------------
-- Routing
-- ---------------------------------------------------------------------------

theorem window_eq (region : Region) (size : Nat) (addr : Word) :
    Parts.window (BitVec.ofNat 32 region.base) size addr =
      if region.base ≤ addr.toNat ∧ addr.toNat < region.base + size
        then some (addr.toNat - region.base)
      else none := by
  have hbase : (BitVec.ofNat 32 region.base).toNat = region.base := by cases region <;> rfl
  unfold Parts.window
  by_cases hle : region.base ≤ addr.toNat
  · have hoff : (addr - BitVec.ofNat 32 region.base).toNat = addr.toNat - region.base := by
      rw [BitVec.toNat_sub_of_le (BitVec.le_def.mpr (by omega)), hbase]
    simp only [hoff, BitVec.le_def, hbase]
    by_cases hlt : addr.toNat < region.base + size
    · rw [if_pos ⟨hle, by omega⟩, if_pos ⟨hle, hlt⟩]
    · rw [if_neg (by omega), if_neg (by omega)]
  · simp only [BitVec.le_def, hbase]
    rw [if_neg (fun h => hle h.1), if_neg (fun h => hle h.1)]

theorem find?_parts (board : Board) (addr : Word) :
    board.parts.find? addr = board.locate? addr := by
  rw [locate?, List.find?_eq_findSome?_guard, List.map_findSome?, Parts.find?]
  refine congrArg (Region.all.findSome? ·) (funext fun region => ?_)
  rw [window_eq, sizeOf_parts, Function.comp_apply, Option.map_guard]
  simp only [holds, Bool.and_eq_true, decide_eq_true_eq]
  exact apply_ite (Option.map fun off => (region, off)) ..

theorem size_lt_iff (board : Board) (width : Width) (haddr : addr.toNat = region.base + off) :
    board.sizeOf region < off + width.bytes ↔
      2 ^ 32 ≤ addr.toNat + (width.bytes - 1) ∨
        (board.locate? (addr + BitVec.ofNat 32 (width.bytes - 1))).map Prod.fst ≠ some region := by
  have hpos := width.bytes_pos
  constructor
  · intro hsize
    by_cases hwrap : 2 ^ 32 ≤ addr.toNat + (width.bytes - 1)
    · exact .inl hwrap
    · refine .inr fun hlast => ?_
      obtain ⟨place, hl, hregion⟩ := Option.map_eq_some_iff.mp hlast
      obtain ⟨ho, hbase⟩ := locate?_eq_some_iff.mp hl
      rw [toNat_add_of_lt (Nat.lt_of_not_le hwrap), hregion] at hbase
      rw [hregion] at ho
      omega
  · intro hout
    refine Nat.lt_of_not_le fun hsize => ?_
    have hin : off + (width.bytes - 1) < board.sizeOf region := by omega
    have hlast := toNat_add haddr hin
    obtain hwrap | hne := hout
    · have hlt := (addr + BitVec.ofNat 32 (width.bytes - 1)).isLt
      omega
    · exact hne (by rw [locate?_add haddr hin]; rfl)

theorem route_parts (board : Board) (addr : Word) (width : Width) :
    board.parts.route addr width = board.route addr width := by
  unfold Parts.route route
  rw [find?_parts]
  cases hl : board.locate? addr with
  | none => rfl
  | some place =>
    obtain ⟨region, off⟩ := place
    have hout := size_lt_iff board width (locate?_eq_some_iff.mp hl).2
    simp only [find?_parts, Bool.and_eq_true, decide_eq_true_eq]
    by_cases hsize : board.sizeOf region < off + width.bytes
    · rw [if_pos hsize]
      obtain hwrap | hne := hout.mp hsize
      · rw [if_pos hwrap]
      · rw [if_pos hne, ite_self]
    · have hwrap := fun h => hsize (hout.mpr (.inl h))
      have hsame := fun h => hsize (hout.mpr (.inr h))
      rw [if_neg hsize, if_neg hwrap, if_neg hsame]

-- ---------------------------------------------------------------------------
-- Accesses
-- ---------------------------------------------------------------------------

theorem readAt_parts (h : board.route addr width = .ok (region, off)) :
    Parts.readAt addr region off width board.parts =
      .ok (board.readAt region off width) board.parts := by
  obtain ⟨haddr, hsize, -⟩ := route_eq_ok_iff.mp h
  cases region with
  | rom =>
    have hrom := Memory.fetch_eq_ok (m := board.parts.rom) haddr hsize
    change Parts.onRom (Memory.fetch addr width) board.parts = _
    exact Work.part_of_ok hrom
  | ram =>
    have hram := Memory.fetch_eq_ok (m := board.parts.ram) haddr hsize
    change Parts.onRam (Memory.fetch addr width) board.parts = _
    exact Work.part_of_ok hram
  | timer => rfl
  | uart => rfl
  | gpio =>
    have hpos := width.bytes_pos
    have hoff : off < 8 := by
      change off + width.bytes ≤ 8 at hsize
      omega
    change Parts.onGpio (Gpio.fetch off width) board.parts = _
    exact Work.part_of_ok (Gpio.fetch_eq width hoff)

/-- A read of the parts is the read of the board: no part refuses what has been routed, no index
lies outside, and nothing changes. -/
theorem read_parts (board : Board) (addr : Word) (width : Width) (signed : Bool) :
    Parts.read addr width signed board.parts =
      Work.answer board.parts (Bus.load board addr width signed) := by
  change (Work.permit (board.parts.route addr width) >>= _) board.parts = _
  simp only [route_parts, Bus.load, Bus.read]
  cases hroute : board.route addr width with
  | error fault => rfl
  | ok place => exact Work.bind_of_ok (readAt_parts hroute)

theorem writeAt_parts (value : Word) (h : board.route addr width = .ok (region, off)) :
    Parts.writeAt addr region off value width board.parts =
      if board.isWritable region off then .ok () (board.writeAt region off value width).parts
      else .error (.refused (.readOnly addr)) board.parts := by
  obtain ⟨haddr, hsize, -⟩ := route_eq_ok_iff.mp h
  cases region with
  | rom =>
    have hrom := Memory.put_eq_ok (m := board.parts.rom) haddr hsize value
    change (if board.romWritable then Parts.onRom (Memory.put addr value width)
      else throw (.refused (.readOnly addr)) : Work Parts Unit) board.parts =
        if board.romWritable then _ else _
    by_cases hw : board.romWritable = true
    · rw [if_pos hw, if_pos hw]
      exact Work.part_of_ok hrom
    · rw [if_neg hw, if_neg hw]
      rfl
  | ram =>
    have hram := Memory.put_eq_ok (m := board.parts.ram) haddr hsize value
    change Parts.onRam (Memory.put addr value width) board.parts = _
    exact Work.part_of_ok hram
  | timer => rfl
  | uart =>
    change (if Uart.isWritable off then
        Parts.onUart (modifyGet fun uart => (uart.write off value width).swap) >>=
          fun event => Parts.emit event.toList
      else throw (.refused (.readOnly addr)) : Work Parts Unit) board.parts =
        if Uart.isWritable off then _ else _
    by_cases hw : Uart.isWritable off = true
    · rw [if_pos hw, if_pos hw]
      rfl
    · rw [if_neg hw, if_neg hw]
      rfl
  | gpio =>
    have hgpio : Parts.onGpio (Gpio.put off value width.bytes) board.parts =
        .ok (Gpio.shown off value width.bytes)
          { board.parts with gpio := board.gpio.writeBytes off value width.bytes } :=
      Work.part_of_ok (Gpio.put_eq value hsize)
    exact Work.bind_of_ok hgpio

/-- A write to the parts is the write to the board: what has been routed is refused only where
programs may not write, no index lies outside, and a refused write changes nothing. -/
theorem write_parts (board : Board) (addr value : Word) (width : Width) :
    Parts.write addr value width board.parts =
      Work.attempt ((Bus.write board addr value width).map id parts) := by
  change (Work.permit (board.parts.route addr width) >>= _) board.parts = _
  simp only [route_parts, Bus.write, Bus.refusal?, refusal?, Bus.store]
  cases hroute : board.route addr width with
  | error fault => rfl
  | ok place =>
    obtain ⟨region, off⟩ := place
    refine (writeAt_parts value hroute).trans ?_
    simp only [locate?_of_route hroute]
    cases board.isWritable region off with
    | true => rfl
    | false => rfl

end Board

end RiscvBoard
