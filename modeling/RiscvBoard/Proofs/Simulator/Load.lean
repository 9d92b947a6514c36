import RiscvBoard.Proofs.Board.AddressMap
import RiscvBoard.Proofs.Board.Load
import RiscvBoard.Proofs.Simulator.History

/-!
# Loading and resetting

A reset keeps the configuration and the program and nothing else, and a load
keeps the configuration only. So after a load nothing is left of what was done
before, and with a protected ROM a reset leads back to the moment after the load,
whatever the program did.
-/

namespace RiscvBoard

-- ---------------------------------------------------------------------------
-- One part after the other
-- ---------------------------------------------------------------------------

namespace Board

theorem size_clearRam (board : Board) : (Cells.zeros board.ram.size).size ≤ Region.maxMemory := by
  rw [Cells.size_zeros]
  exact board.ram_le

def clearRam (board : Board) : Board :=
  { board with ram := .zeros board.ram.size, ram_le := board.size_clearRam }

end Board

namespace Simulator

def resetInOrder : StateM Simulator Unit := do
  modify fun sim => { sim with board := sim.board.clearRam }
  modify fun sim => { sim with board.timer := {} }
  modify fun sim => { sim with board.uart := {} }
  modify fun sim => { sim with board.gpio := {} }
  modify fun sim => { sim with board.events := .empty }
  modify fun sim => { sim with hart.registers := Hart.startRegisters sim.board.ramTop }
  modify fun sim => { sim with hart.pc := 0 }
  modify fun sim => { sim with hart.counters := {} }
  modify fun sim => { sim with status := .running }

def loadInOrder (words : List Word) (lineMap : List Nat) : StateM Simulator (Option LoadError) := do
  resetInOrder
  let capacity := (← get).board.rom.size
  if capacity < 4 * words.length then return some (.tooLarge words.length capacity)
  modify fun sim => { sim with board := sim.board.fillRom words }
  modify fun sim => { sim with lineMap := lineMap.toArray }
  return none

variable {sim before after loaded : Simulator} {words : List Word} {lineMap : List Nat}

theorem resetInOrder_eq : resetInOrder = modify reset := rfl

theorem loadProgram_eq (sim : Simulator) (words : List Word) (lineMap : List Nat) :
    sim.loadProgram words lineMap =
      if 4 * words.length ≤ sim.board.rom.size then
        (none, { sim.reset with
          board := sim.reset.board.fillRom words, lineMap := lineMap.toArray })
      else (some (.tooLarge words.length sim.board.rom.size), sim.reset) := by
  have hsize : sim.reset.board.rom.size = sim.board.rom.size := rfl
  unfold loadProgram
  dsimp only
  rw [Board.loadRom_eq, hsize]
  by_cases hfits : 4 * words.length ≤ sim.board.rom.size
  · rw [if_pos hfits, if_pos hfits]
  · rw [if_neg hfits, if_neg hfits]

theorem loadInOrder_eq (sim : Simulator) (words : List Word) (lineMap : List Nat) :
    loadInOrder words lineMap sim = sim.loadProgram words lineMap := by
  rw [loadProgram_eq, loadInOrder, resetInOrder_eq]
  change (if sim.board.rom.size < 4 * words.length then _ else _ :
    StateM Simulator (Option LoadError)) sim.reset = _
  by_cases hfits : 4 * words.length ≤ sim.board.rom.size
  · rw [if_pos hfits, if_neg (Nat.not_lt.mpr hfits)]
    rfl
  · rw [if_neg hfits, if_pos (Nat.lt_of_not_le hfits)]
    rfl

-- ---------------------------------------------------------------------------
-- What a reset and a load keep
-- ---------------------------------------------------------------------------

theorem SameMachine.romSize (h : SameMachine before after) :
    after.board.rom.size = before.board.rom.size :=
  congrArg Board.Config.romSize h.board

theorem SameMachine.ramSize (h : SameMachine before after) :
    after.board.ram.size = before.board.ram.size :=
  congrArg Board.Config.ramSize h.board

theorem SameMachine.reset_eq (h : SameMachine before after)
    (hrom : after.board.rom = before.board.rom)
    (hlines : after.lineMap = before.lineMap) : after.reset = before.reset := by
  have hboard : after.board.reset = before.board.reset := by
    simp only [Board.reset, hrom, h.ramSize, h.romWritable]
  simp only [reset, Hart.reset, hboard, h.hart, hlines]

theorem SameMachine.loadProgram_eq (h : SameMachine before after)
    (hfits : 4 * words.length ≤ before.board.rom.size) :
    after.loadProgram words lineMap = before.loadProgram words lineMap := by
  have hfits' : 4 * words.length ≤ after.board.rom.size := by rwa [h.romSize]
  have hboard : after.board.reset.fillRom words = before.board.reset.fillRom words := by
    simp only [Board.fillRom, Board.reset, h.romSize, h.ramSize, h.romWritable]
  have htop : after.board.reset.ramTop = before.board.reset.ramTop := by
    simp only [Board.ramTop, Board.reset, h.ramSize]
  rw [Simulator.loadProgram_eq, Simulator.loadProgram_eq, if_pos hfits, if_pos hfits']
  simp only [reset, Hart.reset, hboard, htop, h.hart]

theorem reset_of_loaded (h : sim.loadProgram words lineMap = (none, loaded)) :
    loaded.reset = loaded := by
  rw [loadProgram_eq] at h
  split at h
  · cases h
    have hram : (Cells.zeros (Cells.zeros sim.board.ram.size).size) =
        Cells.zeros sim.board.ram.size :=
      congrArg Cells.zeros (Cells.size_zeros _)
    simp only [reset, Board.reset, Board.fillRom, Hart.reset, Board.ramTop, hram]
  · cases h

theorem sameMachine_ofConfig (config : Config) (history : List Input) :
    SameMachine (ofConfig config) ((ofConfig config).after history) :=
  sameMachine_after (ofConfig config) history

theorem romSize_ofConfig (config : Config) :
    (ofConfig config).board.rom.size = config.board.span .rom :=
  congrArg Board.Config.romSize (Board.config_ofConfig config.board)

theorem ramSize_ofConfig (config : Config) :
    (ofConfig config).board.ram.size = config.board.span .ram :=
  congrArg Board.Config.ramSize ((Board.config_reset _).trans (Board.config_ofConfig config.board))

theorem sameMachine_of_load {config : Config} {history : List Input}
    (h : ((ofConfig config).after history).loadProgram words lineMap = (none, loaded)) :
    SameMachine (ofConfig config) loaded := by
  have hloaded := sameMachine_loadProgram ((ofConfig config).after history) words lineMap
  rw [h] at hloaded
  exact (sameMachine_ofConfig config history).trans hloaded

-- ---------------------------------------------------------------------------
-- Histories and loads
-- ---------------------------------------------------------------------------

/-- If a program fits, a load after any history is a load of a fresh simulator. If it does not, the
load is a reset, which leaves the program that was there and its line map. -/
theorem loadProgram_after (config : Config) (history : List Input) (words : List Word)
    (lineMap : List Nat) : let sim := (ofConfig config).after history
    loadInOrder words lineMap sim = sim.loadProgram words lineMap ∧
      sim.loadProgram words lineMap =
        (if 4 * words.length ≤ config.board.span .rom then
          (none, ((ofConfig config).loadProgram words lineMap).2)
        else (some (.tooLarge words.length (config.board.span .rom)), sim.reset)) ∧
      sim.reset.board.rom = sim.board.rom ∧ sim.reset.lineMap = sim.lineMap := by
  intro sim
  have hsame : SameMachine (ofConfig config) sim := sameMachine_ofConfig config history
  have hsize : sim.board.rom.size = config.board.span .rom :=
    hsame.romSize.trans (romSize_ofConfig config)
  refine ⟨loadInOrder_eq sim words lineMap, ?_, rfl, rfl⟩
  by_cases hfits : 4 * words.length ≤ config.board.span .rom
  · have hroom : 4 * words.length ≤ (ofConfig config).board.rom.size := by rwa [romSize_ofConfig]
    rw [if_pos hfits, hsame.loadProgram_eq hroom, loadProgram_eq, if_pos hroom]
  · rw [if_neg hfits, loadProgram_eq, hsize, if_neg hfits]

/-- With a protected ROM nothing that is done after a load reaches the program, a reset leads back
to the moment after the load, and the same run follows. -/
theorem reset_after_load {config : Config} {history inputs : List Input}
    (hrom : config.board.romWritable = false)
    (hload : ((ofConfig config).after history).loadProgram words lineMap = (none, loaded))
    (hinputs : ∀ input ∈ inputs, input.loads = false) :
    (loaded.after inputs).board.rom = loaded.board.rom ∧ (loaded.after inputs).reset = loaded ∧
      ∀ count, run count (loaded.after inputs).reset = run count loaded ∧
        (run count (loaded.after inputs).reset).status.exit = (run count loaded).status.exit := by
  have hmachine := sameMachine_of_load hload
  have hprogram : SameProgram loaded (loaded.after inputs) := sameProgram_after hinputs
  have hkept : (loaded.after inputs).board.rom = loaded.board.rom :=
    hprogram.rom (hmachine.romWritable.trans hrom)
  have hreset : (loaded.after inputs).reset = loaded :=
    (hprogram.reset_eq hkept hprogram.lineMap).trans (reset_of_loaded hload)
  refine ⟨hkept, hreset, fun count => ?_⟩
  rw [hreset]
  exact ⟨rfl, rfl⟩

def protectedConfig : Config := { board := { romSize := 18, ramSize := 16, romWritable := false } }

def counting : Simulator :=
  (((ofConfig protectedConfig).after [.setRegister 3 4, .step]).loadProgram
    [0x00150513, 0xFEA12E23, 0xFF9FF06F] [1, 2, 3]).2

def meddling : List Input :=
  [.run 5, .setRegister 10 9, .write 0 0 .word, .write 0x30000000 1 .word, .advanceTimer 7,
    .receive 8, .drain, .step]

theorem reset_after_load_meddling :
    (counting.after meddling).board.peek? 0x1000000C = some 2 ∧
      (counting.after meddling).hart.register 10 = 9 ∧ (counting.after meddling).reset = counting ∧
      run 6 (counting.after meddling).reset = run 6 counting := by
  have hload : ((ofConfig protectedConfig).after [.setRegister 3 4, .step]).loadProgram
      [0x00150513, 0xFEA12E23, 0xFF9FF06F] [1, 2, 3] = (none, counting) :=
      Prod.ext (by decide +kernel) rfl
  have hinputs : ∀ input ∈ meddling, input.loads = false := by decide
  obtain ⟨-, hreset, hrun⟩ := reset_after_load rfl hload hinputs
  exact ⟨by decide +kernel, by decide +kernel, hreset, (hrun 6).1⟩

end Simulator

end RiscvBoard
