import RiscvBoard.Proofs.Assembly.Layout
import RiscvBoard.Proofs.Simulator.Load

/-!
# Programs from the assembler

The words that the assembler makes are instructions, and none of them is zero. A
protected ROM keeps them, and zeros behind them, whatever programs and hosts
write. So a hart with all instructions finds no illegal one in the ROM, and it
halts only behind the program.
-/

namespace RiscvBoard

def Trap.isIllegal : Trap → Bool
  | .unknownOpcode .. | .unimplemented .. => true
  | _ => false

-- ---------------------------------------------------------------------------
-- Words that a hart decodes
-- ---------------------------------------------------------------------------

namespace Hart

variable {β : Type} [Bus β] {hart : Hart} {bus : β} {trap : Trap}

theorem decode_of_mExtension (h : hart.config.mExtension = true) {raw : Word} {i : Instruction}
    (hi : RiscvBoard.decode raw = .ok i) : hart.decode raw = .ok i := by
  simp only [decode, hi, h, Bool.not_true, Bool.and_false, Bool.false_eq_true, if_false]

/-- A step that finds a word to halt at or an instruction does not trap as illegal, whatever else
goes wrong. -/
theorem step_legal (hword : ∀ raw, hart.fetch bus = .ok raw →
      raw = 0 ∧ hart.config.haltOnZero = true ∨ ∃ i, hart.decode raw = .ok i)
    (h : (hart.step bus).1 = .trapped trap) : trap.isIllegal = false := by
  rcases trap_of_plan (trapped_iff.mp h) with hfetch | ⟨raw, hraw, hzero, hrest⟩
  · rcases trap_of_fetch hfetch with rfl | ⟨cause, rfl⟩ <;> rfl
  · rcases hword raw hraw with hhalts | ⟨i, hi⟩
    · exact absurd hhalts hzero
    · rcases hrest with hdecode | ⟨j, -, heffect⟩
      · cases hi.symm.trans hdecode
      · rcases trap_of_effect heffect with ⟨addr, cause, rfl⟩ | ⟨target, rfl⟩ <;> rfl

theorem fetch_of_halted (h : (hart.step bus).1 = .halted) : hart.fetch bus = .ok 0 := by
  obtain ⟨raw, hraw, rfl, -⟩ := plan_eq_halt.mp (plan_of_halted h)
  exact hraw

end Hart

-- ---------------------------------------------------------------------------
-- Words in the ROM
-- ---------------------------------------------------------------------------

namespace Board

variable {board : Board} {words : List Word}

/-- What is fetched from the ROM is a word of the program, or zero behind it. -/
theorem fetch_of_hasProgram {hart : Hart} {raw : Word} (h : board.HasProgram words)
    (hpc : hart.pc.toNat < board.rom.size) (hfetch : hart.fetch board = .ok raw) :
    raw = words.getD (hart.pc.toNat / 4) 0 := by
  unfold Hart.fetch at hfetch
  split at hfetch
  · cases hfetch
  rename_i haligned
  split at hfetch <;> cases hfetch
  rename_i hload
  obtain ⟨found, hread, -⟩ := map_eq_ok.mp hload
  rw [read_eq] at hread
  obtain ⟨⟨region, off⟩, hroute, -⟩ := map_eq_ok.mp hread
  obtain ⟨haddr, hsize, -⟩ := route_eq_ok_iff.mp hroute
  have hrom : Region.rom.base + hart.pc.toNat = hart.pc.toNat := Nat.zero_add _
  obtain rfl : region = .rom :=
    eq_of_same_address (Nat.lt_of_lt_of_le (Nat.lt_add_of_pos_right Width.word.bytes_pos) hsize) hpc
      (haddr.symm.trans hrom.symm)
  obtain rfl : hart.pc.toNat = off := haddr.trans (Nat.zero_add off)
  exact Except.ok.inj
    (hload.symm.trans (load_of_hasProgram h (Decidable.not_not.mp haligned) hsize))

end Board

-- ---------------------------------------------------------------------------
-- Words from the assembler
-- ---------------------------------------------------------------------------

namespace Assembly

variable {origin w : Word} {source : String} {program : Program}

theorem decode_of_mem_words (h : assemble origin source = .ok program) (hw : w ∈ program.words) :
    ∃ i, decode w = .ok i := by
  obtain ⟨-, -, hwords⟩ := assemble_eq_ok h
  have hmem : .ok w ∈ (results program.symbols origin (Text.lines source.toList)).map (·.2) := by
    rw [← hwords]
    exact List.mem_map_of_mem hw
  obtain ⟨result, hresult, hencode⟩ := List.mem_map.mp hmem
  obtain ⟨k, text, -, hfound⟩ := mem_onLines.mp hresult
  obtain ⟨statement, -, rfl⟩ := Option.map_eq_some_iff.mp hfound
  obtain ⟨i, hi, -⟩ := decode_of_encodeStatement hencode
  exact ⟨i, hi⟩

theorem ne_zero_of_decode {i : Instruction} (h : decode w = .ok i) : w ≠ 0 := by
  rintro rfl
  cases h

end Assembly

namespace Simulator

open Assembly

variable {sim : Simulator} {origin : Word} {source : String} {program : Program}

theorem exists_loadProgram {words : List Word} (hfits : 4 * words.length ≤ sim.board.rom.size)
    (lineMap : List Nat) :
    ∃ loaded, sim.loadProgram words lineMap = (none, loaded) ∧ loaded.board.HasProgram words := by
  have hsize : sim.reset.board.rom.size = sim.board.rom.size := rfl
  unfold loadProgram
  dsimp only
  cases hboard : sim.reset.board.loadRom words with
  | ok board => exact ⟨_, rfl, Board.hasProgram_loadRom hboard⟩
  | error capacity =>
    rw [Board.loadRom_eq, hsize, if_pos hfits] at hboard
    cases hboard

theorem hasProgram_of_same {before after : Simulator} {words : List Word}
    (h : SameProgram before after)
    (hrom : before.board.romWritable = false) (hbefore : before.board.HasProgram words) :
    after.board.HasProgram words := by
  intro j
  rw [h.rom hrom]
  exact hbefore j

theorem step_assembled (h : assemble origin source = .ok program)
    (hrom : sim.board.HasProgram program.words)
    (hpc : sim.hart.pc.toNat < sim.board.rom.size) (hm : sim.hart.config.mExtension = true)
    (hz : sim.hart.config.haltOnZero = true) :
    (∀ trap, (sim.hart.step sim.board).1 = .trapped trap → trap.isIllegal = false) ∧
      (sim.hart.pc.toNat < 4 * program.words.length → (sim.hart.step sim.board).1 ≠ .halted) := by
  have hin : ∀ k < program.words.length, ∃ i, decode (program.words.getD k 0) = .ok i := by
    intro k hk
    rw [List.getD_eq_getElem?_getD, List.getElem?_eq_getElem hk]
    exact decode_of_mem_words h (List.getElem_mem hk)
  constructor
  · intro trap
    refine Hart.step_legal fun raw hraw => ?_
    rw [Board.fetch_of_hasProgram hrom hpc hraw]
    by_cases hk : sim.hart.pc.toNat / 4 < program.words.length
    · obtain ⟨i, hi⟩ := hin _ hk
      exact .inr ⟨i, Hart.decode_of_mExtension hm hi⟩
    · refine .inl ⟨?_, hz⟩
      rw [List.getD_eq_getElem?_getD, List.getElem?_eq_none (Nat.le_of_not_lt hk)]
      rfl
  · intro hbefore hhalted
    obtain ⟨i, hi⟩ := hin _ (Nat.div_lt_of_lt_mul hbefore)
    exact ne_zero_of_decode hi
      (Board.fetch_of_hasProgram hrom hpc (Hart.fetch_of_halted hhalted)).symm

/-- However a simulator with a protected ROM is used after an assembled program has been loaded, no
step in the ROM traps at an illegal instruction, and none within the program halts. -/
theorem assembled_legal {config : Config} {history inputs : List Input} {lineMap : List Nat}
    (h : assemble origin source = .ok program)
    (hfits : 4 * program.words.length ≤ config.board.span .rom)
    (hm : config.hart.mExtension = true) (hz : config.hart.haltOnZero = true)
    (hrom : config.board.romWritable = false) (hinputs : ∀ input ∈ inputs, input.loads = false) :
    ∃ loaded, ((ofConfig config).after history).loadProgram program.words lineMap = (none, loaded) ∧
      ∀ count, let sim := run count (loaded.after inputs)
        (config.board.Covers .rom sim.hart.pc.toNat →
          ∀ trap, (sim.hart.step sim.board).1 = .trapped trap → trap.isIllegal = false) ∧
        (sim.hart.pc.toNat < 4 * program.words.length → (sim.hart.step sim.board).1 ≠ .halted) := by
  have hhistory := sameMachine_ofConfig config history
  have hroom : 4 * program.words.length ≤ ((ofConfig config).after history).board.rom.size := by
    rwa [hhistory.romSize, romSize_ofConfig]
  obtain ⟨loaded, hload, hloaded⟩ := exists_loadProgram hroom lineMap
  have hmachine := sameMachine_of_load hload
  refine ⟨loaded, hload, fun count => ?_⟩
  intro sim
  have hprogram : SameProgram loaded sim :=
    (sameProgram_after hinputs).trans (sameProgram_run count _)
  have hsame := hmachine.trans hprogram.toSameMachine
  have hsize : sim.board.rom.size = config.board.span .rom :=
    hsame.romSize.trans (romSize_ofConfig config)
  have hwords : sim.board.HasProgram program.words :=
    hasProgram_of_same hprogram (hmachine.romWritable.trans hrom) hloaded
  have hstep := fun hpc => step_assembled h hwords hpc
    ((congrArg Hart.Config.mExtension hsame.hart).trans hm)
    ((congrArg Hart.Config.haltOnZero hsame.hart).trans hz)
  constructor
  · rintro ⟨-, hpc⟩
    rw [Region.base, Nat.zero_add, ← hsize] at hpc
    exact (hstep hpc).1
  · intro hpc
    refine (hstep ?_).2 hpc
    rw [hsize]
    exact Nat.lt_of_lt_of_le hpc hfits

def squares : String := "loop: addi a0, a0, 1\n\tmul a1, a0, a0\n\tjal zero, loop\n"

theorem assembled_legal_squares :
    ∃ program loaded, assemble 0 squares = .ok program ∧ program.words.length = 3 ∧
      ((ofConfig protectedConfig).after [.setRegister 3 4, .step]).loadProgram program.words
        program.lineMap = (none, loaded) ∧
      ∀ count, let sim := run count (loaded.after meddling)
        (protectedConfig.board.Covers .rom sim.hart.pc.toNat →
          ∀ trap, (sim.hart.step sim.board).1 = .trapped trap → trap.isIllegal = false) ∧
        (sim.hart.pc.toNat < 4 * 3 → (sim.hart.step sim.board).1 ≠ .halted) := by
  have hprogram : assemble 0 squares = .ok {
      words := [0x00150513, 0x02A505B3, 0xFF9FF06F], lineMap := [1, 2, 3],
      symbols := ⟨[("loop".toList, 0)]⟩ } := rfl
  have hinputs : ∀ input ∈ meddling, input.loads = false := by decide
  obtain ⟨loaded, hload, hsteps⟩ := assembled_legal hprogram
    (show _ ≤ protectedConfig.board.span .rom by decide) rfl rfl rfl hinputs
  exact ⟨_, loaded, hprogram, rfl, hload, hsteps⟩

end Simulator

end RiscvBoard
