import RiscvBoard.Hart.Step
import RiscvBoard.Proofs.Result

/-!
# What a step can do

A step that executes has fetched a word, decoded it and worked out an effect. A
step that traps names the address of its instruction, whichever check failed.
-/

namespace RiscvBoard

theorem Counters.instructions_record (counters : Counters) (op : Operation) (taken : Bool) :
    (counters.record op taken).instructions = counters.instructions + 1 := by
  unfold record tally
  cases op.category <;> rfl

namespace Hart

variable {β : Type} [Bus β] {hart : Hart} {bus : β}

-- ---------------------------------------------------------------------------
-- Plans
-- ---------------------------------------------------------------------------

theorem fetch_of_load {raw : Word} (hpc : hart.pc.toNat % 4 = 0)
    (h : Bus.load bus hart.pc .word false = .ok raw) : hart.fetch bus = .ok raw := by
  rw [fetch, if_neg (Decidable.not_not.mpr hpc), h]

theorem plan_eq_retire {i : Instruction} {effect : Effect} :
    hart.plan bus = .ok (.retire i effect) ↔
      ∃ raw, hart.fetch bus = .ok raw ∧ ¬(raw = 0 ∧ hart.config.haltOnZero = true) ∧
        hart.decode raw = .ok i ∧ hart.effect bus i = .ok effect := by
  unfold plan
  constructor
  · intro h
    obtain ⟨raw, hraw, h⟩ := bind_eq_ok.mp h
    split at h
    · cases pure_eq_ok.mp h
    · rename_i hzero
      obtain ⟨i', hi, h⟩ := bind_eq_ok.mp h
      obtain ⟨effect', he, h⟩ := bind_eq_ok.mp h
      cases pure_eq_ok.mp h
      exact ⟨raw, hraw, hzero, hi, he⟩
  · rintro ⟨raw, hraw, hzero, hi, he⟩
    refine bind_eq_ok.mpr ⟨raw, hraw, ?_⟩
    rw [if_neg hzero]
    exact bind_eq_ok.mpr ⟨i, hi, bind_eq_ok.mpr ⟨effect, he, rfl⟩⟩

theorem plan_eq_halt : hart.plan bus = .ok .halt ↔
    ∃ raw, hart.fetch bus = .ok raw ∧ raw = 0 ∧ hart.config.haltOnZero = true := by
  unfold plan
  constructor
  · intro h
    obtain ⟨raw, hraw, h⟩ := bind_eq_ok.mp h
    split at h
    · rename_i hzero
      exact ⟨raw, hraw, hzero⟩
    · obtain ⟨i, -, h⟩ := bind_eq_ok.mp h
      obtain ⟨effect, -, h⟩ := bind_eq_ok.mp h
      cases pure_eq_ok.mp h
  · rintro ⟨raw, hraw, hzero⟩
    refine bind_eq_ok.mpr ⟨raw, hraw, ?_⟩
    rw [if_pos hzero]
    rfl

theorem step_executed (h : (hart.step bus).1 = .executed) :
    ∃ i effect, hart.plan bus = .ok (.retire i effect) ∧
      (hart.step bus).2 = hart.retire bus i effect := by
  unfold step at h ⊢
  cases hp : hart.plan bus with
  | error trap => simp only [hp, reduceCtorEq] at h
  | ok plan =>
    cases plan with
    | halt => simp only [hp, reduceCtorEq] at h
    | retire i effect => exact ⟨i, effect, rfl, rfl⟩

theorem plan_of_halted (h : (hart.step bus).1 = .halted) : hart.plan bus = .ok .halt := by
  unfold step at h
  split at h <;> cases h
  assumption

theorem decode_eq_ok {raw : Word} {i : Instruction} (h : hart.decode raw = .ok i) :
    RiscvBoard.decode raw = .ok i := by
  unfold decode at h
  split at h
  · cases h
  · cases h
  · rename_i i' hi
    split at h
    · cases h
    · cases h
      exact hi

-- ---------------------------------------------------------------------------
-- Effects
-- ---------------------------------------------------------------------------

section Effects

variable {i : Instruction} {target : Word}

def destination? (hart : Hart) (i : Instruction) : Option Word :=
  match i.op.action with
  | .branch condition =>
    if condition (hart.register i.rs1) (hart.register i.rs2)
      then some (hart.pc + BitVec.ofInt 32 i.imm) else none
  | .jump => some (hart.pc + BitVec.ofInt 32 i.imm)
  | .jumpRegister => some ((hart.register i.rs1 + BitVec.ofInt 32 i.imm) &&& ~~~1#32)
  | _ => none

/-- An instruction that jumps has an effect if its destination is the address of a word. -/
theorem effect_of_destination (bus : β) (h : hart.destination? i = some target) :
    ∃ jump : Word → Effect, (∀ found, (jump found).target? = some found) ∧
      hart.effect bus i = (hart.jumpTarget target).map jump := by
  unfold destination? at h
  unfold effect
  cases hop : i.op.action <;> simp only [hop] at h ⊢
  case branch condition =>
    split at h <;> cases h
    rename_i htaken
    exact ⟨fun found => .branch (some found), fun _ => rfl, by rw [if_pos htaken]⟩
  case jump =>
    cases h
    exact ⟨.link i.rd, fun _ => rfl, rfl⟩
  case jumpRegister =>
    cases h
    exact ⟨.link i.rd, fun _ => rfl, rfl⟩
  all_goals cases h

theorem effect_of_no_destination (bus : β) (h : hart.destination? i = none) :
    (∃ effect, effect.target? = none ∧ hart.effect bus i = .ok effect) ∨
      ∃ addr cause, hart.effect bus i = .error (.bus hart.pc addr cause) := by
  unfold destination? at h
  unfold effect
  cases hop : i.op.action <;> simp only [hop] at h ⊢
  case compute f => exact .inl ⟨_, rfl, rfl⟩
  case load width signed =>
    cases Bus.load bus (hart.register i.rs1 + BitVec.ofInt 32 i.imm) width signed with
    | ok value => exact .inl ⟨_, rfl, rfl⟩
    | error cause => exact .inr ⟨_, cause, rfl⟩
  case store width =>
    cases Bus.refusal? bus (hart.register i.rs1 + BitVec.ofInt 32 i.imm) width with
    | none => exact .inl ⟨_, rfl, rfl⟩
    | some cause => exact .inr ⟨_, cause, rfl⟩
  case branch condition =>
    split at h
    · cases h
    · rename_i hstays
      exact .inl ⟨.branch none, rfl, by rw [if_neg hstays]⟩
  case upper => exact .inl ⟨_, rfl, rfl⟩
  case upperRelative => exact .inl ⟨_, rfl, rfl⟩
  all_goals cases h

end Effects

-- ---------------------------------------------------------------------------
-- Traps
-- ---------------------------------------------------------------------------

section Traps

variable {trap : Trap}

theorem trap_of_fetch (h : hart.fetch bus = .error trap) :
    trap = .misalignedFetch hart.pc ∨ ∃ cause, trap = .fetch hart.pc cause := by
  unfold fetch at h
  split at h
  · cases h
    exact .inl rfl
  · split at h <;> cases h
    exact .inr ⟨_, rfl⟩

theorem trap_of_decode {raw : Word} (h : hart.decode raw = .error trap) :
    trap = .unknownOpcode hart.pc raw ∨ trap = .unimplemented hart.pc raw := by
  unfold decode at h
  split at h
  · cases h
    exact .inl rfl
  · cases h
    exact .inr rfl
  · split at h <;> cases h
    exact .inr rfl

theorem trap_of_jumpTarget {target : Word} (h : hart.jumpTarget target = .error trap) :
    trap = .misalignedJump hart.pc target := by
  unfold jumpTarget at h
  split at h <;> cases h
  rfl

theorem trap_of_effect {i : Instruction} (h : hart.effect bus i = .error trap) :
    (∃ addr cause, trap = .bus hart.pc addr cause) ∨
      ∃ target, trap = .misalignedJump hart.pc target := by
  cases hd : hart.destination? i with
  | none =>
    rcases effect_of_no_destination bus hd with ⟨effect, -, hok⟩ | ⟨addr, cause, hbus⟩
    · cases hok.symm.trans h
    · cases hbus.symm.trans h
      exact .inl ⟨addr, cause, rfl⟩
  | some target =>
    obtain ⟨jump, -, hmap⟩ := effect_of_destination bus hd
    exact .inr ⟨target, trap_of_jumpTarget (map_eq_error.mp (hmap.symm.trans h))⟩

theorem trap_of_plan (h : hart.plan bus = .error trap) :
    hart.fetch bus = .error trap ∨ ∃ raw, hart.fetch bus = .ok raw ∧
      ¬(raw = 0 ∧ hart.config.haltOnZero = true) ∧
        (hart.decode raw = .error trap ∨ ∃ i, hart.decode raw = .ok i ∧
          hart.effect bus i = .error trap) := by
  unfold plan at h
  obtain hfetch | ⟨raw, hraw, h⟩ := bind_eq_error.mp h
  · exact .inl hfetch
  split at h
  · cases h
  rename_i hzero
  refine .inr ⟨raw, hraw, hzero, ?_⟩
  obtain hdecode | ⟨i, hi, h⟩ := bind_eq_error.mp h
  · exact .inl hdecode
  obtain heffect | ⟨effect, -, h⟩ := bind_eq_error.mp h
  · exact .inr ⟨i, hi, heffect⟩
  · cases h

theorem plan_of_effect {raw : Word} {i : Instruction} (hraw : hart.fetch bus = .ok raw)
    (hzero : ¬(raw = 0 ∧ hart.config.haltOnZero = true)) (hi : hart.decode raw = .ok i)
    (heffect : hart.effect bus i = .error trap) : hart.plan bus = .error trap := by
  refine bind_eq_error.mpr (.inr ⟨raw, hraw, ?_⟩)
  rw [if_neg hzero]
  exact bind_eq_error.mpr (.inr ⟨i, hi, bind_eq_error.mpr (.inl heffect)⟩)

theorem trapped_iff : (hart.step bus).1 = .trapped trap ↔ hart.plan bus = .error trap := by
  refine ⟨fun h => ?_, fun h => by rw [step, h]⟩
  unfold step at h
  split at h <;> cases h
  assumption

theorem pc_of_plan (h : hart.plan bus = .error trap) : trap.pc = hart.pc := by
  rcases trap_of_plan h with h | ⟨raw, -, -, h | ⟨i, -, h⟩⟩
  · rcases trap_of_fetch h with rfl | ⟨cause, rfl⟩ <;> rfl
  · rcases trap_of_decode h with rfl | rfl <;> rfl
  · rcases trap_of_effect h with ⟨addr, cause, rfl⟩ | ⟨target, rfl⟩ <;> rfl

theorem pc_of_step (h : (hart.step bus).1 = .trapped trap) : trap.pc = hart.pc :=
  pc_of_plan (trapped_iff.mp h)

end Traps

-- ---------------------------------------------------------------------------
-- What a step leaves
-- ---------------------------------------------------------------------------

theorem config_setRegister (hart : Hart) (number : Nat) (value : Word) :
    (hart.setRegister number value).config = hart.config := by
  unfold setRegister
  split <;> rfl

theorem pc_setRegister (hart : Hart) (number : Nat) (value : Word) :
    (hart.setRegister number value).pc = hart.pc := by
  unfold setRegister
  split <;> rfl

theorem counters_setRegister (hart : Hart) (number : Nat) (value : Word) :
    (hart.setRegister number value).counters = hart.counters := by
  unfold setRegister
  split <;> rfl

theorem counters_apply (effect : Effect) (hart : Hart) (bus : β) :
    (effect.apply hart bus).1.counters = hart.counters := by
  cases effect with
  | result rd value => exact counters_setRegister hart rd value
  | store => rfl
  | branch => rfl
  | link rd => exact counters_setRegister hart rd _

theorem instructions_step (hart : Hart) (bus : β) : (hart.step bus).2.1.counters.instructions =
    hart.counters.instructions + if (hart.step bus).1 = .executed then 1 else 0 := by
  by_cases h : (hart.step bus).1 = .executed
  · obtain ⟨i, effect, -, hleft⟩ := step_executed h
    rw [if_pos h, hleft]
    exact (Counters.instructions_record _ _ _).trans
      (congrArg (·.instructions + 1) (counters_apply effect hart bus))
  · rw [if_neg h, step_eq_of_not_executed h]
    rfl

theorem config_step : (hart.step bus).2.1.config = hart.config := by
  unfold step
  split
  · rfl
  · rfl
  · rename_i effect _
    cases effect with
    | result rd value => exact config_setRegister hart rd value
    | store => rfl
    | branch => rfl
    | link rd target => exact config_setRegister hart rd _

/-- A store is worked out only if the bus will take it. -/
theorem refusal?_of_effect {i : Instruction} {addr value : Word} {width : Width}
    (h : hart.effect bus i = .ok (.store addr value width)) :
    Bus.refusal? bus addr width = none := by
  unfold effect at h
  cases hop : i.op.action <;> simp only [hop] at h
  case compute => cases h
  case load => split at h <;> cases h
  case store =>
    split at h <;> cases h
    assumption
  case branch =>
    split at h
    · obtain ⟨target, -, htarget⟩ := map_eq_ok.mp h
      cases htarget
    · cases h
  case jump | jumpRegister =>
    obtain ⟨target, -, htarget⟩ := map_eq_ok.mp h
    cases htarget
  case upper => cases h
  case upperRelative => cases h

def stored? (hart : Hart) (bus : β) : Option (Word × Word × Width) :=
  match hart.plan bus with
  | .ok (.retire _ (.store addr value width)) => some (addr, value, width)
  | _ => none

/-- A step leaves the bus as a write of its store does. -/
theorem bus_step_eq (hart : Hart) (bus : β) : (hart.step bus).2.2 =
    match hart.stored? bus with
    | some (addr, value, width) => (Bus.write bus addr value width).2
    | none => bus := by
  unfold step stored?
  cases hplan : hart.plan bus with
  | error trap => rfl
  | ok plan =>
    cases plan with
    | halt => rfl
    | retire i effect =>
      obtain ⟨-, -, -, -, heffect⟩ := plan_eq_retire.mp hplan
      cases effect with
      | result => rfl
      | store addr value width =>
        simp only [Bus.write, refusal?_of_effect heffect]
        rfl
      | branch => rfl
      | link => rfl

/-- A step leaves the bus as it is or makes one store that the bus takes. -/
theorem bus_step (hart : Hart) (bus : β) : (hart.step bus).2.2 = bus ∨
    ∃ addr value width, Bus.refusal? bus addr width = none ∧
      (hart.step bus).2.2 = Bus.store bus addr value width := by
  rw [bus_step_eq]
  split
  · rename_i addr value width _
    unfold Bus.write
    split
    · exact .inl rfl
    · exact .inr ⟨addr, value, width, ‹_›, rfl⟩
  · exact .inl rfl

end Hart

end RiscvBoard
