import RiscvBoard.Proofs.Hart.Multiplication
import RiscvBoard.Proofs.Simulator.Assembled
import RiscvBoard.Proofs.Simulator.Run

/-!
# Straight programs

A program of instructions that only compute runs from its first word to its last,
one word after the other, and then finds a zero and halts. Its registers are what
the manual makes of them, instruction by instruction.
-/

namespace RiscvBoard

/-- Whether a hart has an operation, and all that the operation does is to compute. -/
def Hart.Config.computes (config : Hart.Config) (op : Operation) : Bool :=
  match op.category with
  | .alu | .upper => true
  | .mul | .div => config.mExtension
  | _ => false

-- ---------------------------------------------------------------------------
-- Instructions that compute
-- ---------------------------------------------------------------------------

namespace Manual

def written? (i : Instruction) (view : View) : Option Int :=
  ((change? i view).bind Change.written).or
    (extended? i.op (view.register i.rs1) (view.register i.rs2))

def View.advance (view : View) (i : Instruction) : View where
  pc := view.pc + 4
  register n :=
    if n = i.rd ∧ n ≠ 0 then ((written? i view).map unsigned).getD (view.register n)
    else view.register n
  byte? := view.byte?

def View.start (ramSize : Nat) : View where
  pc := 0
  register n := if n = 2 then 0x10000000 + ramSize else 0
  byte? _ := none

structure View.Describes (view : View) (hart : Hart) : Prop where
  pc : (hart.pc.toNat : Int) = view.pc
  register : ∀ n < 32, ((hart.register n).toNat : Int) = view.register n

variable {config : Hart.Config} {op : Operation} {hart : Hart} {view : View} {i : Instruction}

theorem mExtension_of_computes (h : config.computes op = true) (hm : op.isMExtension = true) :
    config.mExtension = true := by
  cases op <;> first | exact h | cases hm

theorem action_of_computes (h : config.computes op = true) :
    op.action = .compute op.value ∨ op.action = .upper ∨ op.action = .upperRelative := by
  cases op <;> first | exact .inl rfl | exact .inr (.inl rfl) | exact .inr (.inr rfl) | cases h

theorem result?_of_isMExtension (h : op.isMExtension = true) (a b : Int) :
    result? op a b = none := by
  cases op <;> first | rfl | cases h

theorem sources_lt_of_decode {w : Word} (h : decode w = .ok i) : i.rs1 < 32 ∧ i.rs2 < 32 := by
  obtain ⟨op, -, rfl⟩ := decode_eq_ok_iff.mp h
  have hrs1 := w.rs1_lt
  have hrs2 := w.rs2_lt
  have hnone : 0 < 32 := Nat.zero_lt_succ 31
  unfold Operation.instruction
  split <;> constructor <;> assumption

namespace View.Describes

variable (hview : view.Describes hart)
include hview

theorem ofInt_register {n : Nat} (hn : n < 32) :
    BitVec.ofInt 32 (view.register n) = hart.register n := by
  rw [← hview.register n hn, ofInt_toNat]

theorem ofInt_pc : BitVec.ofInt 32 view.pc = hart.pc := by
  rw [← hview.pc, ofInt_toNat]

theorem written_of_value (hrs1 : i.rs1 < 32) (hrs2 : i.rs2 < 32)
    (haction : i.op.action = .compute i.op.value) : ∃ v, written? i view = some v ∧
      i.op.value (hart.register i.rs1)
        (if i.op.format = .r then hart.register i.rs2 else BitVec.ofInt 32 i.imm) =
        BitVec.ofInt 32 v := by
  rw [← hview.ofInt_register hrs1, ← hview.ofInt_register hrs2, ← apply_ite (BitVec.ofInt 32)]
  cases hm : i.op.isMExtension with
  | false =>
    obtain ⟨v, hv, hvalue⟩ := compute_eq (view.register i.rs1)
      (if i.op.format = .r then view.register i.rs2 else i.imm) haction hm
    refine ⟨v, ?_, hvalue⟩
    rw [written?, change?_of_compute view haction, hv]
    rfl
  | true =>
    obtain ⟨v, hv, hvalue⟩ := extended_eq hm (view.register i.rs1) (view.register i.rs2)
    rw [if_pos (Operation.action_of_isMExtension hm).2]
    refine ⟨v, ?_, hvalue⟩
    rw [written?, change?_of_compute view haction, result?_of_isMExtension hm, hv]
    rfl

theorem effect_eq (board : Board) (hrs1 : i.rs1 < 32) (hrs2 : i.rs2 < 32)
    (h : hart.config.computes i.op = true) :
    ∃ v, written? i view = some v ∧ hart.effect board i =
      .ok (.result i.rd (BitVec.ofInt 32 v)) := by
  rcases action_of_computes h with haction | haction | haction
  · obtain ⟨v, hv, hvalue⟩ := hview.written_of_value hrs1 hrs2 haction
    exact ⟨v, hv, by simp only [Hart.effect, haction, hvalue]⟩
  · refine ⟨i.imm * 2 ^ 12, ?_, by simp only [Hart.effect, haction, shiftLeft_eq]⟩
    rw [written?, change?_of_upper view haction]
    rfl
  · refine ⟨view.pc + i.imm * 2 ^ 12, ?_, ?_⟩
    · rw [written?, change?_of_upperRelative view haction]
      rfl
    · simp only [Hart.effect, haction, BitVec.ofInt_add, hview.ofInt_pc, shiftLeft_eq]

theorem advance {v : Int} {next : Word} {counters : Counters} (hrd : i.rd < 32)
    (hv : written? i view = some v) (hnext : (next.toNat : Int) = view.pc + 4) :
    (view.advance i).Describes
      { hart.setRegister i.rd (BitVec.ofInt 32 v) with pc := next, counters } where
  pc := hnext
  register n hn := by
    change ((Hart.register (hart.setRegister i.rd (BitVec.ofInt 32 v)) n).toNat : Int) =
      if n = i.rd ∧ n ≠ 0 then ((written? i view).map unsigned).getD (view.register n)
      else view.register n
    rw [Hart.register_setRegister, Nat.mod_eq_of_lt hn, Nat.mod_eq_of_lt hrd, hv]
    by_cases h : n = i.rd ∧ n ≠ 0
    · have h' : n = i.rd ∧ i.rd ≠ 0 := ⟨h.1, h.1 ▸ h.2⟩
      rw [if_pos h, if_pos h']
      exact toNat_ofInt v
    · have h' : ¬(n = i.rd ∧ i.rd ≠ 0) := fun h' => h ⟨h'.1, h'.1 ▸ h'.2⟩
      rw [if_neg h, if_neg h']
      exact hview.register n hn

end View.Describes

theorem pc_foldl_advance (view : View) (program : List Instruction) :
    (program.foldl View.advance view).pc = view.pc + 4 * program.length := by
  induction program generalizing view with
  | nil => simp
  | cons i program ih =>
    have hpc : (view.advance i).pc = view.pc + 4 := rfl
    rw [List.foldl_cons, ih, hpc, List.length_cons]
    omega

theorem describes_start (hart : Hart) (board : Board) :
    (View.start board.ram.size).Describes (hart.reset board.ramTop) where
  pc := rfl
  register n hn := by
    have hram := board.ram_le
    have htop : board.ramTop.toNat = 0x10000000 + board.ram.size := by
      rw [Board.ramTop, BitVec.toNat_ofNat]
      refine Nat.mod_eq_of_lt ?_
      simp only [Region.base, Region.maxMemory] at hram ⊢
      omega
    have hstart : (hart.reset board.ramTop).register n = if n = 2 then board.ramTop else 0 := by
      simp only [Hart.register, Hart.reset, Hart.startRegisters, Vector.getElem_set,
        Vector.getElem_replicate, Nat.mod_eq_of_lt hn, Register.stackPointer, eq_comm]
    change _ = if n = 2 then (0x10000000 + board.ram.size : Int) else 0
    rw [hstart]
    by_cases h : n = 2
    · rw [if_pos h, if_pos h, htop]
      rfl
    · rw [if_neg h, if_neg h]
      rfl

end Manual

-- ---------------------------------------------------------------------------
-- Steps and runs
-- ---------------------------------------------------------------------------

namespace Simulator

open Manual

variable {sim loaded : Simulator} {words : List Word} {program done : List Instruction}
  {i : Instruction}

/-- The simulator has executed some instructions one after the other since it was loaded, and
nothing else. -/
structure Executed (loaded sim : Simulator) (done : List Instruction) : Prop where
  status : sim.status = .running
  board : sim.board = loaded.board
  config : sim.hart.config = loaded.hart.config
  counted : sim.hart.counters.instructions = done.length
  view : (done.foldl View.advance (View.start loaded.board.ram.size)).Describes sim.hart

theorem Executed.pc (h : Executed loaded sim done) : sim.hart.pc.toNat = 4 * done.length := by
  have hpc := h.view.pc
  have hstart : (View.start loaded.board.ram.size).pc = 0 := rfl
  rw [pc_foldl_advance, hstart] at hpc
  omega

theorem Executed.load (h : Executed loaded sim done) (hrom : loaded.board.HasProgram words)
    (hroom : 4 * done.length + 4 ≤ loaded.board.rom.size) :
    Bus.load sim.board sim.hart.pc .word false = .ok (words.getD done.length 0) := by
  have hpc := h.pc
  rw [h.board, Board.load_of_hasProgram hrom (by omega) (by omega), hpc,
    Nat.mul_div_cancel_left _ (by decide)]

theorem Executed.step (h : Executed loaded sim done) (hrom : loaded.board.HasProgram words)
    (hroom : 4 * done.length + 4 ≤ loaded.board.rom.size)
    (hi : decode (words.getD done.length 0) = .ok i)
    (hcomputes : loaded.hart.config.computes i.op = true) :
    Executed loaded sim.step (done ++ [i]) := by
  have hpc := h.pc
  have hsize := loaded.board.rom_le
  rw [← h.config] at hcomputes
  obtain ⟨hrs1, hrs2⟩ := sources_lt_of_decode hi
  obtain ⟨v, hv, heffect⟩ := h.view.effect_eq sim.board hrs1 hrs2 hcomputes
  have hstep :=
    Hart.step_of_effect (by omega) (h.load hrom hroom) hi (mExtension_of_computes hcomputes) heffect
  rw [step_of_running h.status, hstep]
  refine ⟨rfl, h.board, ?_, ?_, ?_⟩
  · exact (Hart.config_setRegister _ _ _).trans h.config
  · rw [List.length_append]
    exact (Counters.instructions_record _ _ _).trans
      (congrArg Nat.succ
        ((congrArg Counters.instructions (Hart.counters_setRegister _ _ _)).trans h.counted))
  · rw [List.foldl_concat]
    refine h.view.advance (Hart.rd_lt_of_decode hi) hv ?_
    have hnext : (sim.hart.pc + 4).toNat = sim.hart.pc.toNat + 4 := by
      refine Board.toNat_add_of_lt (k := 4) ?_
      rw [Region.maxMemory] at hsize
      omega
    rw [← h.view.pc]
    exact congrArg Nat.cast hnext

theorem Executed.halt (h : Executed loaded sim done) (hrom : loaded.board.HasProgram words)
    (hroom : 4 * done.length + 4 ≤ loaded.board.rom.size) (hend : words.length ≤ done.length)
    (hz : loaded.hart.config.haltOnZero = true) : sim.step = { sim with status := .halted } := by
  have hpc := h.pc
  have hload := h.load hrom hroom
  rw [List.getD_eq_getElem?_getD, List.getElem?_eq_none hend, Option.getD_none] at hload
  have hfetch := Hart.fetch_of_load (by omega) hload
  have hplan :=
    Hart.plan_eq_halt.mpr ⟨0, hfetch, rfl, (congrArg Hart.Config.haltOnZero h.config).trans hz⟩
  rw [step_of_running h.status, Hart.step, hplan]
  rfl

theorem length_of_decode (hdecode : words.map decode = program.map .ok) :
    words.length = program.length := by
  simpa using congrArg List.length hdecode

theorem decode_getD (hdecode : words.map decode = program.map .ok) {k : Nat}
    (hk : k < program.length) : decode (words.getD k 0) = .ok program[k] := by
  have hlength := length_of_decode hdecode
  have hget := congrArg (·[k]?) hdecode
  simp only [List.getElem?_map, List.getElem?_eq_getElem hk,
    List.getElem?_eq_getElem (hlength ▸ hk), Option.map_some, Option.some.injEq] at hget
  rwa [List.getD_eq_getElem?_getD, List.getElem?_eq_getElem (hlength ▸ hk)]

theorem exists_executed_nil (hroom : 4 * words.length ≤ sim.board.rom.size) (lineMap : List Nat) :
    ∃ loaded, sim.loadProgram words lineMap = (none, loaded) ∧ loaded.board.HasProgram words ∧
      loaded.hart.config = sim.hart.config ∧ loaded.board.config = sim.board.config ∧
        loaded.board.events = .empty ∧ Executed loaded loaded [] := by
  obtain ⟨loaded, hload, hprogram⟩ := exists_loadProgram hroom lineMap
  have hsame := sameMachine_loadProgram sim words lineMap
  rw [hload] at hsame
  have hreset : loaded.reset = loaded := reset_of_loaded hload
  have hboard : loaded.board.reset = loaded.board := congrArg board hreset
  have hhart : loaded.hart.reset loaded.board.reset.ramTop = loaded.hart := congrArg hart hreset
  refine ⟨loaded, hload, hprogram, hsame.hart, hsame.board, (congrArg Board.events hboard).symm, ?_⟩
  refine ⟨(congrArg status hreset).symm, rfl, rfl,
    (congrArg (·.counters.instructions) hhart).symm, ?_⟩
  have hview := describes_start loaded.hart loaded.board
  rwa [← hboard, hhart, hboard] at hview

/-- The ROM has the words of a straight program and room for one more, and the hart halts at a
zero. -/
structure Straight (loaded : Simulator) (words : List Word)
    (program : List Instruction) : Prop where
  start : Executed loaded loaded []
  rom : loaded.board.HasProgram words
  decode : words.map decode = program.map .ok
  computes : ∀ i ∈ program, loaded.hart.config.computes i.op = true
  halts : loaded.hart.config.haltOnZero = true
  room : 4 * (words.length + 1) ≤ loaded.board.rom.size

namespace Straight

variable (h : Straight loaded words program) {count : Nat}
include h

/-- A run that does not get past the end of the program executes one instruction in each step. -/
theorem executed (hcount : count ≤ program.length) :
    Executed loaded (run count loaded) (program.take count) := by
  have hroom := h.room
  have hlength := length_of_decode h.decode
  induction count with
  | zero => exact h.start
  | succ count ih =>
    have hdone : (program.take count).length = count :=
      List.length_take_of_le (Nat.le_of_succ_le hcount)
    have hi := decode_getD h.decode (Nat.lt_of_succ_le hcount)
    rw [run_add count 1, run_succ, run, ← List.take_append_getElem (Nat.lt_of_succ_le hcount)]
    refine (ih (Nat.le_of_succ_le hcount)).step h.rom ?_ ?_ (h.computes _ (List.getElem_mem _))
    · omega
    · rwa [hdone]

/-- The step behind the program halts, and a run ends there. -/
theorem run_past_end (hcount : program.length < count) :
    run count loaded = { run program.length loaded with status := .halted } := by
  have hlength := length_of_decode h.decode
  have hroom := h.room
  have hend := h.executed (Nat.le_refl program.length)
  rw [List.take_length] at hend
  obtain ⟨rest, rfl⟩ := Nat.exists_eq_add_of_lt hcount
  rw [Nat.add_assoc, run_add, run_succ,
    hend.halt h.rom (hlength ▸ hroom) (Nat.le_of_eq hlength) h.halts]
  exact run_of_stopped rest nofun

/-- What a run leaves is what the run up to the end leaves, but for the status. -/
theorem run_eq (count : Nat) : run count loaded =
    { run (min count program.length) loaded with
      status := if program.length < count then .halted else .running } := by
  by_cases hcount : program.length < count
  · rw [if_pos hcount, Nat.min_eq_right (Nat.le_of_lt hcount)]
    exact h.run_past_end hcount
  · have hle := Nat.le_of_not_lt hcount
    rw [if_neg hcount, ← (h.executed hle).status, Nat.min_eq_left hle]

end Straight

/-- A program that only computes runs to its end and halts there, if the run is long enough, and
else stops at the limit. Up to there each word is executed once, in order, and nothing but the
registers changes. -/
theorem run_straight {sim : Simulator} {words : List Word} {program : List Instruction}
    (lineMap : List Nat) (hdecode : words.map decode = program.map .ok)
    (hcomputes : ∀ i ∈ program, sim.hart.config.computes i.op = true)
    (hz : sim.hart.config.haltOnZero = true)
    (hroom : 4 * (words.length + 1) ≤ sim.board.config.romSize) :
    ∃ loaded, sim.loadProgram words lineMap = (none, loaded) ∧
      ∀ count, let executed := min count words.length
        let final := (runInOrder count loaded).2
        (runInOrder count loaded).1 = (if words.length < count then .halted else .stepLimit) ∧
          final.hart.pc.toNat = 4 * executed ∧
          (∀ n < 32, ((final.hart.register n).toNat : Int) =
            ((program.take executed).foldl View.advance
              (View.start sim.board.config.ramSize)).register n) ∧
          final.hart.counters.instructions = executed ∧
          final.board = loaded.board ∧ final.drain.1 = [] := by
  have hfits : 4 * words.length ≤ sim.board.rom.size := Nat.le_trans (by omega) hroom
  obtain ⟨loaded, hload, hrom, hconfig, hboard, hevents, hnil⟩ := exists_executed_nil hfits lineMap
  have hlength := length_of_decode hdecode
  have hstraight : Straight loaded words program := by
    refine ⟨hnil, hrom, hdecode, ?_, ?_, ?_⟩
    · rwa [hconfig]
    · rwa [hconfig]
    · rwa [← hboard] at hroom
  refine ⟨loaded, hload, fun count => ?_⟩
  rw [runInOrder_eq, hlength, ← hboard]
  intro executed final
  have hfinal : final = { run executed loaded with
      status := if program.length < count then .halted else .running } := hstraight.run_eq count
  have hdone := hstraight.executed (Nat.min_le_right count program.length)
  have htaken : (program.take executed).length = executed :=
    List.length_take_of_le (Nat.min_le_right _ _)
  have hempty : (run executed loaded).board.events = .empty :=
    (congrArg Board.events hdone.board).trans hevents
  have hexit : final.status.exit = if program.length < count then .halted else .stepLimit := by
    rw [hfinal]
    split <;> rfl
  refine ⟨hexit, ?_⟩
  rw [hfinal]
  exact ⟨hdone.pc.trans (congrArg _ htaken), fun n hn => hdone.view.register n hn,
    hdone.counted.trans htaken, hdone.board, congrArg EventQueue.toList hempty⟩

/-- The program `lui a0, 0xFFFFF`, `auipc a1, 1`, `mul a2, a0, a1` in a ROM that has room for one
more word. -/
theorem run_straight_mul :
    let sim := ofConfig { board := { romSize := 16, ramSize := 16 } }
    ∃ loaded, sim.loadProgram [0xFFFFF537, 0x00001597, 0x02B50633] [] = (none, loaded) ∧
      (runInOrder 3 loaded).1 = .stepLimit ∧ (runInOrder 3 loaded).2.hart.pc.toNat = 12 ∧
        (runInOrder 9 loaded).1 = .halted ∧ (runInOrder 9 loaded).2.hart.pc.toNat = 12 ∧
          ((runInOrder 9 loaded).2.hart.register 12).toNat = 2 ^ 32 - 0x1000 * 0x1004 := by
  intro sim
  let program : List Instruction := [
    { op := .lui, raw := 0xFFFFF537, rd := 10, imm := 0xFFFFF },
    { op := .auipc, raw := 0x00001597, rd := 11, imm := 1 },
    { op := .mul, raw := 0x02B50633, rd := 12, rs1 := 10, rs2 := 11 }]
  have hdecode : [0xFFFFF537, 0x00001597, 0x02B50633].map decode = program.map .ok := rfl
  have hcomputes : ∀ i ∈ program, sim.hart.config.computes i.op = true := by decide
  obtain ⟨loaded, hload, hruns⟩ := run_straight [] hdecode hcomputes rfl (by decide)
  obtain ⟨hlimit, hpc, -⟩ := hruns 3
  obtain ⟨hhalted, hend, hregisters, -⟩ := hruns 9
  have hfold : ((program.take 3).foldl View.advance (View.start 16)).register 12 =
      2 ^ 32 - 0x1000 * 0x1004 := by
    decide +kernel
  refine ⟨loaded, hload, hlimit, hpc, hhalted, hend, ?_⟩
  exact Int.ofNat_inj.mp ((hregisters 12 (by decide)).trans hfold)

end Simulator

end RiscvBoard
