import RiscvBoard.Proofs.Hart.Refinement

/-!
# Jumps go to words

A hart that begins at the address of a word stays at addresses of words, and its
register zero stays zero, whatever it finds on the bus. It never fetches from
between two words: an instruction that would lead there is the one that traps.
-/

namespace RiscvBoard

namespace Hart

variable {β : Type} [Bus β] {hart : Hart} {bus : β} {i : Instruction} {effect : Effect}
  {target : Word}

-- ---------------------------------------------------------------------------
-- Jumps
-- ---------------------------------------------------------------------------

/-- Where an effect leads to is the destination of its instruction, and the address of a word. -/
theorem target?_of_effect (h : hart.effect bus i = .ok effect) :
    effect.target? = hart.destination? i ∧ ∀ target, effect.target? = some target →
      target.toNat % 4 = 0 := by
  cases hd : hart.destination? i with
  | none =>
    rcases effect_of_no_destination bus hd with ⟨found, hnone, hfound⟩ | ⟨addr, cause, htrap⟩
    · cases h.symm.trans hfound
      exact ⟨hnone, fun target htarget => by cases hnone.symm.trans htarget⟩
    · cases h.symm.trans htrap
  | some target =>
    obtain ⟨jump, hjump, hmap⟩ := effect_of_destination bus hd
    rw [h, jumpTarget] at hmap
    split at hmap
    · rename_i haligned
      cases hmap
      refine ⟨hjump target, fun found hfound => ?_⟩
      cases (hjump target).symm.trans hfound
      exact haligned
    · cases hmap

theorem effect_eq_misalignedJump {pc : Word} :
    hart.effect bus i = .error (.misalignedJump pc target) ↔
      pc = hart.pc ∧ hart.destination? i = some target ∧ target.toNat % 4 ≠ 0 := by
  cases hd : hart.destination? i with
  | none =>
    have hother : hart.effect bus i ≠ .error (.misalignedJump pc target) := by
      intro h
      rcases effect_of_no_destination bus hd with ⟨found, -, hfound⟩ | ⟨addr, cause, htrap⟩
      · cases h.symm.trans hfound
      · cases h.symm.trans htrap
    exact ⟨fun h => absurd h hother, fun h => by cases h.2.1⟩
  | some found =>
    obtain ⟨jump, -, hmap⟩ := effect_of_destination bus hd
    rw [hmap, jumpTarget]
    by_cases haligned : found.toNat % 4 = 0
    · rw [if_pos haligned]
      refine ⟨nofun, fun ⟨_, hfound, hodd⟩ => ?_⟩
      cases hfound
      exact absurd haligned hodd
    · rw [if_neg haligned]
      constructor
      · rintro ⟨rfl⟩
        exact ⟨rfl, rfl, haligned⟩
      · rintro ⟨rfl, ⟨rfl⟩, -⟩
        rfl

-- ---------------------------------------------------------------------------
-- Steps
-- ---------------------------------------------------------------------------

/-- The program counter is the address of a word, and register zero is zero. -/
structure Aligned (hart : Hart) : Prop where
  pc : hart.pc.toNat % 4 = 0
  zero : hart.register 0 = 0

theorem Aligned.setRegister (h : hart.Aligned) (number : Nat) (value : Word) :
    (hart.setRegister number value).Aligned where
  pc := by rw [pc_setRegister]; exact h.pc
  zero := by
    rw [register_setRegister, if_neg]
    · exact h.zero
    · rintro ⟨hzero, hne⟩
      exact hne hzero.symm

theorem toNat_next (h : hart.pc.toNat % 4 = 0) : (hart.pc + 4).toNat % 4 = 0 := by
  rw [BitVec.toNat_add]
  change (hart.pc.toNat + 4) % 2 ^ 32 % 4 = 0
  omega

theorem Aligned.apply (h : hart.Aligned) (effect : Effect) (bus : β) :
    (effect.apply hart bus).1.Aligned := by
  cases effect with
  | result rd value => exact h.setRegister rd value
  | store addr value width => exact h
  | branch target => exact h
  | link rd target => exact h.setRegister rd _

theorem Aligned.step (h : hart.Aligned) (bus : β) : (hart.step bus).2.1.Aligned := by
  by_cases hexecuted : (hart.step bus).1 = .executed
  · obtain ⟨i, effect, hplan, hstep⟩ := step_executed hexecuted
    obtain ⟨-, -, -, -, heffect⟩ := plan_eq_retire.mp hplan
    rw [hstep]
    refine ⟨?_, (h.apply effect bus).zero⟩
    change (effect.target?.getD (hart.pc + 4)).toNat % 4 = 0
    cases htarget : effect.target? with
    | none => exact toNat_next h.pc
    | some target => exact (target?_of_effect heffect).2 target htarget
  · rw [step_eq_of_not_executed hexecuted]
    exact h

theorem Aligned.ne_misalignedFetch (h : hart.Aligned) (pc : Word) :
    (hart.step bus).1 ≠ .trapped (.misalignedFetch pc) := by
  intro htrap
  rcases trap_of_plan (trapped_iff.mp htrap) with hfetch | ⟨raw, -, -, hdecode | ⟨i, -, heffect⟩⟩
  · rw [fetch, if_neg (Decidable.not_not.mpr h.pc)] at hfetch
    split at hfetch <;> cases hfetch
  · rcases trap_of_decode hdecode with hother | hother <;> cases hother
  · rcases trap_of_effect heffect with ⟨addr, cause, hother⟩ | ⟨target, hother⟩ <;> cases hother

end Hart

-- ---------------------------------------------------------------------------
-- Jumps by the manual
-- ---------------------------------------------------------------------------

namespace Manual

variable {hart : Hart} {board : Board} {i : Instruction} {target : Word}

/-- By the manual an instruction leads to its destination, and to the next one if it has none. -/
theorem ofInt_change {change : Change} (h : change? i (view hart board) = some change) :
    BitVec.ofInt 32 change.pc = (hart.destination? i).getD (hart.pc + 4) := by
  have hnext := (ofInt_next hart board).symm
  have hjump := ofInt_pc_add hart board i.imm
  cases hop : i.op.action <;> simp only [Hart.destination?, hop, Option.getD_none, Option.getD_some]
  case compute f =>
    rw [change?_of_compute _ hop] at h
    obtain ⟨v, -, rfl⟩ := Option.map_eq_some_iff.mp h
    exact hnext
  case load width withSign =>
    rw [change?_of_load _ hop] at h
    obtain ⟨v, -, rfl⟩ := Option.map_eq_some_iff.mp h
    exact hnext
  case store width =>
    cases (change?_of_store _ hop).symm.trans h
    exact hnext
  case branch condition =>
    cases (change?_of_branch _ hop).symm.trans h
    rw [related_view hart board hop]
    split
    · exact hjump
    · exact hnext
  case jump =>
    cases (change?_of_jump _ hop).symm.trans h
    exact hjump
  case jumpRegister =>
    cases (change?_of_jumpRegister _ hop).symm.trans h
    rw [← ofInt_register_add hart board i.rs1 i.imm, clearBit_eq]
  case upper =>
    cases (change?_of_upper _ hop).symm.trans h
    exact hnext
  case upperRelative =>
    cases (change?_of_upperRelative _ hop).symm.trans h
    exact hnext

theorem exists_change (board : Board) (h : hart.destination? i = some target) :
    ∃ change, change? i (view hart board) = some change := by
  cases hop : i.op.action <;> simp only [Hart.destination?, hop] at h
  case branch condition => exact ⟨_, change?_of_branch _ hop⟩
  case jump => exact ⟨_, change?_of_jump _ hop⟩
  case jumpRegister => exact ⟨_, change?_of_jumpRegister _ hop⟩
  all_goals cases h

def Leads (hart : Hart) (board : Board) (target : Word) : Prop :=
  ∃ raw i change, hart.fetch board = .ok raw ∧ ¬(raw = 0 ∧ hart.config.haltOnZero = true) ∧
    hart.decode raw = .ok i ∧
    change? i (view hart board) = some change ∧ (target.toNat : Int) = unsigned change.pc

theorem toNat_eq_unsigned_iff {v : Int} :
    (target.toNat : Int) = unsigned v ↔ target = BitVec.ofInt 32 v := by
  rw [← toNat_ofInt, Int.ofNat_inj, BitVec.toNat_inj]

theorem change_eq_iff_destination (hpc : hart.pc.toNat % 4 = 0) (htarget : target.toNat % 4 ≠ 0) :
    (∃ change, change? i (view hart board) = some change ∧
      (target.toNat : Int) = unsigned change.pc) ↔ hart.destination? i = some target := by
  constructor
  · rintro ⟨change, hchange, hunsigned⟩
    rw [toNat_eq_unsigned_iff, ofInt_change hchange] at hunsigned
    cases hd : hart.destination? i with
    | none =>
      rw [hd, Option.getD_none] at hunsigned
      rw [hunsigned] at htarget
      exact absurd (Hart.toNat_next hpc) htarget
    | some found =>
      rw [hd, Option.getD_some] at hunsigned
      rw [hunsigned]
  · intro hd
    obtain ⟨change, hchange⟩ := exists_change board hd
    refine ⟨change, hchange, toNat_eq_unsigned_iff.mpr ?_⟩
    rw [ofInt_change hchange, hd, Option.getD_some]

end Manual

namespace Hart

variable {hart : Hart} {board : Board} {pc target : Word}

/-- An instruction that leads to no word traps at its own address, and nothing else traps that
way. -/
theorem step_misalignedJump_iff (hpc : hart.pc.toNat % 4 = 0) :
    (hart.step board).1 = .trapped (.misalignedJump pc target) ↔
      pc = hart.pc ∧ target.toNat % 4 ≠ 0 ∧ Manual.Leads hart board target := by
  rw [trapped_iff]
  constructor
  · intro hplan
    rcases trap_of_plan hplan with hfetch | ⟨raw, hraw, hzero, hdecode | ⟨i, hi, heffect⟩⟩
    · rcases trap_of_fetch hfetch with hother | ⟨cause, hother⟩ <;> cases hother
    · rcases trap_of_decode hdecode with hother | hother <;> cases hother
    · obtain ⟨hat, hd, htarget⟩ := effect_eq_misalignedJump.mp heffect
      obtain ⟨change, hchange, hleads⟩ := (Manual.change_eq_iff_destination hpc htarget).mpr hd
      exact ⟨hat, htarget, raw, i, change, hraw, hzero, hi, hchange, hleads⟩
  · rintro ⟨hat, htarget, raw, i, change, hraw, hzero, hi, hchange, hleads⟩
    have hd := (Manual.change_eq_iff_destination hpc htarget).mp ⟨change, hchange, hleads⟩
    exact plan_of_effect hraw hzero hi (effect_eq_misalignedJump.mpr ⟨hat, hd, htarget⟩)

end Hart

end RiscvBoard
