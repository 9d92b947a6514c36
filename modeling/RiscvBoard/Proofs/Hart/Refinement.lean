import RiscvBoard.Proofs.Hart.Arithmetic
import RiscvBoard.Proofs.Hart.Step
import RiscvBoard.Proofs.Instruction.Decoding

/-!
# Steps do what the manual says

`Manual.change?` is read off for each kind of action, an effect is matched with
the change that it makes, and a step that executes is both.
-/

namespace RiscvBoard

namespace Manual

variable {hart : Hart} {board : Board}

-- ---------------------------------------------------------------------------
-- Views
-- ---------------------------------------------------------------------------

theorem ofInt_add_natCast (v : Int) (k : Nat) :
    BitVec.ofInt 32 (v + k) = BitVec.ofInt 32 v + BitVec.ofNat 32 k := by
  rw [BitVec.ofInt_add, BitVec.ofInt_natCast]

theorem ofInt_register (hart : Hart) (board : Board) (n : Nat) :
    BitVec.ofInt 32 ((view hart board).register n) = hart.register n := ofInt_toNat _

theorem ofInt_pc (hart : Hart) (board : Board) : BitVec.ofInt 32 (view hart board).pc = hart.pc :=
  ofInt_toNat _

theorem ofInt_register_add (hart : Hart) (board : Board) (n : Nat) (imm : Int) :
    BitVec.ofInt 32 ((view hart board).register n + imm) =
      hart.register n + BitVec.ofInt 32 imm := by
  rw [BitVec.ofInt_add, ofInt_register]

theorem ofInt_pc_add (hart : Hart) (board : Board) (v : Int) :
    BitVec.ofInt 32 ((view hart board).pc + v) = hart.pc + BitVec.ofInt 32 v := by
  rw [BitVec.ofInt_add, ofInt_pc]

theorem number?_view {f : Nat → Byte} {addr : Int} {start n : Nat}
    (h : ∀ k < n, board.peek? (BitVec.ofInt 32 (addr + k)) = some (f (start + k))) :
    (view hart board).number? addr n = some (littleEndian f start n : Int) := by
  induction n generalizing addr start with
  | zero => rfl
  | succ n ih =>
    have hlow : (view hart board).byte? addr = some ((f start).toNat : Int) := by
      have h0 := h 0 (Nat.succ_pos n)
      rw [Int.natCast_zero, Int.add_zero, Nat.add_zero] at h0
      exact congrArg (Option.map fun byte => (byte.toNat : Int)) h0
    have hrest : (view hart board).number? (addr + 1) n =
        some (littleEndian f (start + 1) n : Int) := by
      refine ih fun k hk => ?_
      have hs := h (k + 1) (Nat.succ_lt_succ hk)
      rwa [Int.natCast_succ, Int.add_comm k, ← Int.add_assoc, Nat.add_comm k, ← Nat.add_assoc] at hs
    rw [View.number?, hlow, hrest, littleEndian]
    simp only [Option.bind_some, Option.map_some, Int.natCast_add, Int.natCast_mul]
    rfl

theorem loaded?_view (hart : Hart) {addr : Int} {width : Width} {withSign : Bool} {value : Word}
    (h : Bus.load board (BitVec.ofInt 32 addr) width withSign = .ok value) :
    ∃ v, (view hart board).loaded? addr width withSign = some v ∧ value = BitVec.ofInt 32 v := by
  obtain ⟨raw, hread, rfl⟩ := map_eq_ok.mp h
  obtain ⟨f, rfl, hbytes⟩ := Board.read_eq_ok hread
  refine ⟨_, ?_, Word.extend_ofBytes f width withSign⟩
  have hnumber : (view hart board).number? addr width.bytes =
      some (littleEndian f 0 width.bytes : Int) :=
    number?_view fun k hk => by rw [ofInt_add_natCast, hbytes k hk, Nat.zero_add]
  rw [View.loaded?, hnumber, Option.map_some]

-- ---------------------------------------------------------------------------
-- What the manual says about an action
-- ---------------------------------------------------------------------------

section Actions

variable {i : Instruction} (view : View)

theorem change?_of_compute {f : Word → Word → Word} (h : i.op.action = .compute f) :
    change? i view = (result? i.op (view.register i.rs1)
      (if i.op.format = .r then view.register i.rs2 else i.imm)).map
        fun v => { pc := view.pc + 4, written := some v } := by
  obtain ⟨op, raw, rd, rs1, rs2, imm⟩ := i
  cases op <;> cases h <;> rfl

theorem change?_of_load {width : Width} {withSign : Bool} (h : i.op.action = .load width withSign) :
    change? i view = (view.loaded? (view.register i.rs1 + i.imm) width withSign).map
      fun v => { pc := view.pc + 4, written := some v } := by
  obtain ⟨op, raw, rd, rs1, rs2, imm⟩ := i
  cases op <;> cases h <;> rfl

theorem change?_of_store {width : Width} (h : i.op.action = .store width) :
    change? i view = some
      { pc := view.pc + 4,
        store := some ⟨view.register i.rs1 + i.imm, view.register i.rs2, width⟩ } := by
  obtain ⟨op, raw, rd, rs1, rs2, imm⟩ := i
  cases op <;> cases h <;> rfl

theorem change?_of_branch {c : Word → Word → Bool} (h : i.op.action = .branch c) :
    change? i view = some
      { pc := if related i.op (view.register i.rs1) (view.register i.rs2) then view.pc + i.imm
          else view.pc + 4 } := by
  obtain ⟨op, raw, rd, rs1, rs2, imm⟩ := i
  cases op <;> cases h <;> rfl

theorem change?_of_jump (h : i.op.action = .jump) :
    change? i view = some { pc := view.pc + i.imm, written := some (view.pc + 4) } := by
  obtain ⟨op, raw, rd, rs1, rs2, imm⟩ := i
  cases op <;> cases h
  rfl

theorem change?_of_jumpRegister (h : i.op.action = .jumpRegister) :
    change? i view = some
      { pc := unsigned (view.register i.rs1 + i.imm) / 2 * 2, written := some (view.pc + 4) } := by
  obtain ⟨op, raw, rd, rs1, rs2, imm⟩ := i
  cases op <;> cases h
  rfl

theorem change?_of_upper (h : i.op.action = .upper) :
    change? i view = some { pc := view.pc + 4, written := some (i.imm * 2 ^ 12) } := by
  obtain ⟨op, raw, rd, rs1, rs2, imm⟩ := i
  cases op <;> cases h
  rfl

theorem change?_of_upperRelative (h : i.op.action = .upperRelative) :
    change? i view = some { pc := view.pc + 4, written := some (view.pc + i.imm * 2 ^ 12) } := by
  obtain ⟨op, raw, rd, rs1, rs2, imm⟩ := i
  cases op <;> cases h
  rfl

end Actions

-- ---------------------------------------------------------------------------
-- What the effects change
-- ---------------------------------------------------------------------------

section Effects

variable {rd : Nat} {next : Word} {target : Int} {counters : Counters}

theorem describes_written {value : Word} {v : Int} (hrd : rd < 32)
    (hnext : next = BitVec.ofInt 32 target) (hvalue : value = BitVec.ofInt 32 v) :
    Change.Describes { pc := target, written := some v } rd (hart, board)
      ({ hart.setRegister rd value with pc := next, counters }, board) := by
  refine ⟨?_, fun n hn => ?_, ?_, fun _ => rfl, ?_, ?_, ?_⟩
  · rw [hnext]
    exact toNat_ofInt target
  · change ((Hart.register (hart.setRegister rd value) n).toNat : Int) = _
    rw [Hart.register_setRegister, Nat.mod_eq_of_lt hn, Nat.mod_eq_of_lt hrd]
    by_cases h : n = rd ∧ rd ≠ 0
    · obtain ⟨rfl, hne⟩ := h
      rw [if_pos ⟨rfl, hne⟩, if_pos ⟨rfl, hne⟩, hvalue]
      exact toNat_ofInt v
    · rw [if_neg h, if_neg]
      rintro ⟨rfl, hne⟩
      exact h ⟨rfl, hne⟩
  · simp only [Hart.setRegister]
    split <;> rfl
  all_goals
    intro store h
    cases h

theorem describes_branch (hnext : next = BitVec.ofInt 32 target) :
    Change.Describes { pc := target } rd (hart, board)
      ({ hart with pc := next, counters }, board) := by
  refine ⟨?_, fun n _ => ?_, rfl, fun _ => rfl, ?_, ?_, ?_⟩
  · rw [hnext]
    exact toNat_ofInt target
  · exact (ite_self _).symm
  all_goals
    intro store h
    cases h

theorem describes_store {addr value : Word} {a v : Int} {width : Width}
    (hnext : next = BitVec.ofInt 32 target) (haddr : addr = BitVec.ofInt 32 a)
    (hvalue : value = BitVec.ofInt 32 v) (hrefusal : Bus.refusal? board addr width = none) :
    Change.Describes { pc := target, store := some ⟨a, v, width⟩ } rd (hart, board)
      ({ hart with pc := next, counters }, Bus.store board addr value width) := by
  obtain ⟨⟨region, off, hoff, hsize, hbytes⟩, hothers⟩ := Board.peek?_store hrefusal value
  refine ⟨?_, fun n _ => ?_, rfl, ?_, ?_, ?_, ?_⟩
  · rw [hnext]
    exact toNat_ofInt target
  · exact (ite_self _).symm
  · intro h
    cases h
  · rintro store ⟨rfl⟩
    simp only [Bus.write, ← haddr, ← hvalue, hrefusal]
  · rintro store ⟨rfl⟩
    refine ⟨region, off, ?_, hsize, fun k hk => ?_⟩
    · rw [← hoff, haddr, toNat_ofInt]
    · have hbyte : BitVec.ofInt 8 (v / 256 ^ k) = value.byte k := by
        rw [hvalue]
        exact (byte_eq v (Nat.lt_of_lt_of_le hk (width.bytes_le))).symm
      rw [ofInt_add_natCast, ← haddr, hbytes k hk, hbyte]
  · rintro store ⟨rfl⟩ x hx
    refine hothers x fun k hk => ?_
    rw [haddr, ← ofInt_add_natCast]
    exact hx k hk

end Effects

-- ---------------------------------------------------------------------------
-- Instructions
-- ---------------------------------------------------------------------------

theorem ofInt_next (hart : Hart) (board : Board) :
    hart.pc + 4 = BitVec.ofInt 32 ((view hart board).pc + 4) := (ofInt_pc_add hart board 4).symm

theorem jumpTarget_ok {target found : Word} (h : hart.jumpTarget target = .ok found) :
    found = target := by
  unfold Hart.jumpTarget at h
  split at h <;> cases h
  rfl

theorem related_view (hart : Hart) (board : Board) {i : Instruction} {c : Word → Word → Bool}
    (h : i.op.action = .branch c) : c (hart.register i.rs1) (hart.register i.rs2) =
      related i.op ((view hart board).register i.rs1) ((view hart board).register i.rs2) := by
  rw [← condition_eq _ _ h, ofInt_register, ofInt_register]

/-- What an instruction that does not trap does is what the manual says. -/
theorem retire_describes {i : Instruction} {effect : Effect} (hrd : i.rd < 32)
    (hbase : i.op.isMExtension = false) (h : hart.effect board i = .ok effect) :
    ∃ change, change? i (view hart board) = some change ∧
      change.Describes i.rd (hart, board) (hart.retire board i effect) := by
  have hnext := ofInt_next hart board
  have haddr := ofInt_register_add hart board i.rs1 i.imm
  have hjump := ofInt_pc_add hart board i.imm
  have hleft := ofInt_register hart board i.rs1
  have hright := ofInt_register hart board i.rs2
  unfold Hart.effect at h
  cases hop : i.op.action <;> simp only [hop] at h
  case compute f =>
    cases h
    obtain ⟨v, hv, hf⟩ := compute_eq ((view hart board).register i.rs1)
      (if i.op.format = .r then (view hart board).register i.rs2 else i.imm) hop hbase
    rw [hleft, apply_ite (BitVec.ofInt 32), hright] at hf
    refine ⟨_, ?_, describes_written hrd hnext hf⟩
    rw [change?_of_compute _ hop, hv, Option.map_some]
  case load width withSign =>
    split at h <;> cases h
    rename_i value hload
    rw [← haddr] at hload
    obtain ⟨v, hv, hvalue⟩ := loaded?_view hart hload
    refine ⟨_, ?_, describes_written hrd hnext hvalue⟩
    rw [change?_of_load _ hop, hv, Option.map_some]
  case store width =>
    split at h <;> cases h
    rename_i hrefusal
    exact ⟨_, change?_of_store _ hop, describes_store hnext haddr.symm hright.symm hrefusal⟩
  case branch condition =>
    rw [related_view hart board hop] at h
    refine ⟨_, change?_of_branch _ hop, ?_⟩
    split at h
    · rename_i htaken
      obtain ⟨target, htarget, rfl⟩ := map_eq_ok.mp h
      cases jumpTarget_ok htarget
      rw [if_pos htaken]
      exact describes_branch hjump.symm
    · rename_i htaken
      cases h
      rw [if_neg htaken]
      exact describes_branch hnext
  case jump =>
    obtain ⟨target, htarget, rfl⟩ := map_eq_ok.mp h
    cases jumpTarget_ok htarget
    exact ⟨_, change?_of_jump _ hop, describes_written hrd hjump.symm hnext⟩
  case jumpRegister =>
    obtain ⟨target, htarget, rfl⟩ := map_eq_ok.mp h
    cases jumpTarget_ok htarget
    have hclear := clearBit_eq ((view hart board).register i.rs1 + i.imm)
    rw [haddr] at hclear
    exact ⟨_, change?_of_jumpRegister _ hop, describes_written hrd hclear hnext⟩
  case upper =>
    cases h
    exact ⟨_, change?_of_upper _ hop, describes_written hrd hnext (shiftLeft_eq i.imm 12)⟩
  case upperRelative =>
    cases h
    have hvalue := ofInt_pc_add hart board (i.imm * 2 ^ 12)
    rw [← shiftLeft_eq] at hvalue
    exact ⟨_, change?_of_upperRelative _ hop, describes_written hrd hnext hvalue.symm⟩

end Manual

namespace Hart

theorem rd_lt_of_decode {w : Word} {i : Instruction} (h : RiscvBoard.decode w = .ok i) :
    i.rd < 32 := by
  obtain ⟨op, -, rfl⟩ := decode_eq_ok_iff.mp h
  unfold Operation.instruction
  split
  all_goals first | exact Word.rd_lt w | exact Nat.zero_lt_succ 31

/-- A step that executes an instruction of the base set has exactly the effect that the manual gives
it. -/
theorem step_refines_manual {hart : Hart} {board : Board} {raw : Word} {i : Instruction}
    (hpc : hart.pc.toNat % 4 = 0) (hfetch : Bus.load board hart.pc .word false = .ok raw)
    (hdecode : RiscvBoard.decode raw = .ok i) (hbase : i.op.isMExtension = false)
    (hexecuted : (hart.step board).1 = .executed) :
    ∃ change, Manual.change? i (Manual.view hart board) = some change ∧
      change.Describes i.rd (hart, board) (hart.step board).2 := by
  obtain ⟨j, effect, hplan, hstep⟩ := step_executed hexecuted
  obtain ⟨found, hfound, -, hj, heffect⟩ := plan_eq_retire.mp hplan
  have hraw : hart.fetch board = .ok raw := by
    rw [fetch, if_neg (Decidable.not_not.mpr hpc), hfetch]
  cases hraw.symm.trans hfound
  cases hdecode.symm.trans (decode_eq_ok hj)
  rw [hstep]
  exact Manual.retire_describes (rd_lt_of_decode hdecode) hbase heffect

def linkCall : Board where
  rom := #[0xE7, 0x80, 0x50, 0x00]
  ram := #[]
  romWritable := true
  rom_le := by decide
  ram_le := Nat.zero_le Region.maxMemory

theorem step_refines_manual_linkCall :
    RiscvBoard.decode 0x005080E7 =
      .ok { op := .jalr, raw := 0x005080E7, rd := 1, rs1 := 1, imm := 5 } ∧
      (({} : Hart).step linkCall).1 = .executed ∧
        Manual.Change.Describes { pc := 4, written := some 4 } 1 ({}, linkCall)
          (({} : Hart).step linkCall).2 := by
  have hdecode : RiscvBoard.decode 0x005080E7 =
      .ok { op := .jalr, raw := 0x005080E7, rd := 1, rs1 := 1, imm := 5 } := rfl
  have hexecuted : (({} : Hart).step linkCall).1 = .executed := rfl
  obtain ⟨change, hchange, hdescribes⟩ := step_refines_manual (by decide)
    (show Bus.load linkCall ({} : Hart).pc .word false = .ok 0x005080E7 from rfl)
    hdecode rfl hexecuted
  cases hchange
  exact ⟨hdecode, hexecuted, hdescribes⟩

end Hart

end RiscvBoard
