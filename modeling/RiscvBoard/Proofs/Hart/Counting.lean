import RiscvBoard.Proofs.Hart.Alignment
import RiscvBoard.Proofs.Hart.Extension

/-!
# What the counters count

A step that executes retires the instruction that it has fetched; a trap or a
halt retires nothing. The counters of a hart are those of the list of retired
instructions since its reset: every instruction is counted in one category, and a
branch that is not taken is a conditional one whose condition does not hold.
-/

namespace RiscvBoard

structure Retired where
  hart : Hart
  instruction : Instruction
  deriving DecidableEq

namespace Retired

def category (r : Retired) : Category := r.instruction.op.category

def holds (r : Retired) : Bool :=
  Manual.related r.instruction.op (r.hart.register r.instruction.rs1).toNat
    (r.hart.register r.instruction.rs2).toNat

/-- Jumps are always taken, also to the next instruction. -/
def taken (r : Retired) : Bool := r.category = .jump || r.category = .branch && r.holds

def falls (r : Retired) : Bool := r.category = .branch && !r.holds

end Retired

-- ---------------------------------------------------------------------------
-- Counters of a list
-- ---------------------------------------------------------------------------

namespace Counters

def ofRetired (retired : List Retired) : Counters where
  instructions := retired.length
  branches := retired.countP fun r => r.category = .branch || r.category = .jump
  taken := retired.countP Retired.taken
  loads := retired.countP (·.category = .load)
  stores := retired.countP (·.category = .store)
  muls := retired.countP (·.category = .mul)
  divs := retired.countP (·.category = .div)
  other := retired.countP fun r => r.category = .alu || r.category = .upper

def values (counters : Counters) : List Nat :=
  [counters.instructions, counters.branches, counters.taken, counters.loads, counters.stores,
    counters.muls, counters.divs, counters.other]

/-- The counters are those of the retired instructions, and every one of these is in one
category. -/
structure Accounts (counters : Counters) (retired : List Retired) : Prop where
  eq : counters = ofRetired retired
  partition : counters.instructions =
    counters.branches + counters.loads + counters.stores + counters.muls + counters.divs +
      counters.other
  taken : counters.taken ≤ counters.branches
  falls : counters.branches - counters.taken = retired.countP Retired.falls

theorem ofRetired_concat (retired : List Retired) (r : Retired) :
    ofRetired (retired ++ [r]) = (ofRetired retired).record r.instruction.op r.taken := by
  have hcategory : r.instruction.op.category = r.category := rfl
  unfold record tally
  cases h : r.category <;> cases hh : r.holds <;>
    simp [ofRetired, Retired.taken, hcategory, h, hh, List.countP_append]

theorem accounts_nil : Accounts {} [] := ⟨rfl, rfl, Nat.le_refl 0, rfl⟩

theorem Accounts.record {counters : Counters} {retired : List Retired}
    (h : counters.Accounts retired) (r : Retired) :
    (counters.record r.instruction.op r.taken).Accounts (retired ++ [r]) := by
  have hcategory : r.instruction.op.category = r.category := rfl
  have hfalls : (retired ++ [r]).countP Retired.falls =
      retired.countP Retired.falls + if r.falls then 1 else 0 := by
    rw [List.countP_append, List.countP_singleton]
  have hpartition := h.partition
  have htaken := h.taken
  have hbranches := h.falls
  refine ⟨by rw [ofRetired_concat, ← h.eq], ?_, ?_, Eq.trans ?_ hfalls.symm⟩
  all_goals
    unfold Counters.record tally
    cases hc : r.category <;> cases hh : r.holds <;>
      simp [Retired.taken, Retired.falls, hcategory, hc, hh] <;> omega

theorem Accounts.le {counters : Counters} {retired : List Retired} (h : counters.Accounts retired) :
    ∀ value ∈ counters.values, value ≤ counters.instructions := by
  have hpartition := h.partition
  have htaken := h.taken
  simp only [values, List.forall_mem_cons]
  refine ⟨?_, ?_, ?_, ?_, ?_, ?_, ?_, ?_, nofun⟩ <;> omega

end Counters

-- ---------------------------------------------------------------------------
-- What a step retires
-- ---------------------------------------------------------------------------

namespace Operation

variable {op : Operation}

theorem category_eq_branch_iff :
    op.category = .branch ↔ ∃ condition, op.action = .branch condition := by
  cases op <;> simp [category, action]

theorem category_eq_jump_iff :
    op.category = .jump ↔ op.action = .jump ∨ op.action = .jumpRegister := by
  cases op <;> simp [category, action]

end Operation

namespace Hart

variable {β : Type} [Bus β] {hart : Hart} {bus : β}

def retired? (hart : Hart) (bus : β) : Option Retired :=
  if (hart.step bus).1 = .executed then
    (hart.fetch bus).toOption.bind fun raw => (RiscvBoard.decode raw).toOption.map (Retired.mk hart)
  else none

def retired (hart : Hart) (bus : β) : Nat → List Retired
  | 0 => []
  | count + 1 => (hart.retired? bus).toList ++ retired (hart.step bus).2.1 (hart.step bus).2.2 count

theorem retired?_of_plan {i : Instruction} {effect : Effect}
    (h : hart.plan bus = .ok (.retire i effect)) : hart.retired? bus = some ⟨hart, i⟩ := by
  obtain ⟨raw, hraw, -, hi, -⟩ := plan_eq_retire.mp h
  have hexecuted : (hart.step bus).1 = .executed := by rw [step, h]
  rw [retired?, if_pos hexecuted, hraw]
  change (RiscvBoard.decode raw).toOption.map _ = _
  rw [decode_eq_ok hi]
  rfl

theorem isSome_destination? (hart : Hart) (i : Instruction) :
    (hart.destination? i).isSome = Retired.taken ⟨hart, i⟩ := by
  unfold destination? Retired.taken
  cases hop : i.op.action with
  | branch condition =>
    have hcategory : Retired.category ⟨hart, i⟩ = .branch :=
      Operation.category_eq_branch_iff.mpr ⟨condition, hop⟩
    have hcondition :=
      Manual.condition_eq (hart.register i.rs1).toNat (hart.register i.rs2).toNat hop
    rw [Manual.ofInt_toNat, Manual.ofInt_toNat] at hcondition
    simp only [hcategory, hcondition, Retired.holds]
    cases Manual.related i.op (hart.register i.rs1).toNat (hart.register i.rs2).toNat <;> rfl
  | jump =>
    have hcategory : Retired.category ⟨hart, i⟩ = .jump :=
      Operation.category_eq_jump_iff.mpr (.inl hop)
    rw [hcategory]
    rfl
  | jumpRegister =>
    have hcategory : Retired.category ⟨hart, i⟩ = .jump :=
      Operation.category_eq_jump_iff.mpr (.inr hop)
    rw [hcategory]
    rfl
  | compute | load | store | upper | upperRelative =>
    have hbranch : Retired.category ⟨hart, i⟩ ≠ .branch := fun h => by
      obtain ⟨condition, haction⟩ := Operation.category_eq_branch_iff.mp h
      cases hop.symm.trans haction
    have hjump : Retired.category ⟨hart, i⟩ ≠ .jump := fun h => by
      rcases Operation.category_eq_jump_iff.mp h with haction | haction <;>
        cases hop.symm.trans haction
    rw [decide_eq_false hbranch, decide_eq_false hjump]
    rfl

theorem counters_step (hart : Hart) (bus : β) : (hart.step bus).2.1.counters =
    match hart.retired? bus with
    | some r => hart.counters.record r.instruction.op r.taken
    | none => hart.counters := by
  by_cases h : (hart.step bus).1 = .executed
  · obtain ⟨i, effect, hplan, hleft⟩ := step_executed h
    obtain ⟨-, -, -, -, heffect⟩ := plan_eq_retire.mp hplan
    rw [retired?_of_plan hplan, hleft, retire]
    simp only [counters_apply]
    rw [(target?_of_effect heffect).1, isSome_destination?]
  · rw [retired?, if_neg h, step_eq_of_not_executed h]

theorem isSome_retired? : (hart.retired? bus).isSome = true ↔ (hart.step bus).1 = .executed := by
  by_cases h : (hart.step bus).1 = .executed
  · obtain ⟨i, effect, hplan, -⟩ := step_executed h
    simp only [retired?_of_plan hplan, h, Option.isSome_some]
  · simp only [retired?, h, if_false, Option.isSome_none, Bool.false_eq_true]

theorem accounts_step {retired : List Retired} (h : hart.counters.Accounts retired) (bus : β) :
    (hart.step bus).2.1.counters.Accounts (retired ++ (hart.retired? bus).toList) := by
  rw [counters_step]
  cases hart.retired? bus with
  | none => rwa [Option.toList_none, List.append_nil]
  | some r => exact h.record r

def Gated (hart : Hart) : Prop :=
  hart.config.mExtension = false → hart.counters.muls = 0 ∧ hart.counters.divs = 0

theorem gated_reset (hart : Hart) (stack : Word) : (hart.reset stack).Gated := fun _ => ⟨rfl, rfl⟩

theorem Gated.setRegister (h : hart.Gated) (number : Nat) (value : Word) :
    (hart.setRegister number value).Gated := by
  unfold Gated
  rw [config_setRegister, counters_setRegister]
  exact h

theorem isMExtension_of_retired? (hm : hart.config.mExtension = false) {r : Retired}
    (h : hart.retired? bus = some r) : r.instruction.op.isMExtension = false := by
  obtain ⟨i, effect, hplan, -⟩ := step_executed (isSome_retired?.mp (Option.isSome_of_eq_some h))
  cases (retired?_of_plan hplan).symm.trans h
  obtain ⟨raw, -, -, hdecode, -⟩ := plan_eq_retire.mp hplan
  unfold decode at hdecode
  split at hdecode
  · cases hdecode
  · cases hdecode
  · split at hdecode <;> cases hdecode
    simp_all

theorem Gated.step (h : hart.Gated) (bus : β) : (hart.step bus).2.1.Gated := by
  intro hm
  rw [config_step] at hm
  rw [counters_step]
  cases hretired : hart.retired? bus with
  | none => exact h hm
  | some r =>
    have hop := isMExtension_of_retired? hm hretired
    obtain ⟨hmuls, hdivs⟩ := h hm
    simp only [Operation.isMExtension, Bool.or_eq_false_iff, decide_eq_false_iff_not] at hop
    simp only [Counters.record, Counters.tally]
    cases hcategory : r.instruction.op.category with
    | mul => exact absurd hcategory hop.1
    | div => exact absurd hcategory hop.2
    | alu | load | store | branch | jump | upper => exact ⟨hmuls, hdivs⟩

-- ---------------------------------------------------------------------------
-- Steps in a row
-- ---------------------------------------------------------------------------

theorem accounts_steps {retired : List Retired} (h : hart.counters.Accounts retired) (bus : β)
    (count : Nat) :
    (hart.steps bus count).2.1.counters.Accounts (retired ++ hart.retired bus count) := by
  induction count generalizing hart bus retired with
  | zero => rwa [Hart.retired, List.append_nil]
  | succ count ih =>
    rw [Hart.retired, ← List.append_assoc]
    exact ih (accounts_step h bus) _

/-- What each step keeps is kept by steps in a row. -/
theorem steps_of_step {P : Hart → Prop} (h : ∀ hart (bus : β), P hart → P (hart.step bus).2.1)
    (hstart : P hart) (bus : β) (count : Nat) : P (hart.steps bus count).2.1 := by
  induction count generalizing hart bus with
  | zero => exact hstart
  | succ count ih => exact ih (h hart bus hstart) _

theorem Gated.steps (h : hart.Gated) (bus : β) (count : Nat) : (hart.steps bus count).2.1.Gated :=
  steps_of_step (fun _ bus h => h.step bus) h bus count

theorem config_steps (hart : Hart) (bus : β) (count : Nat) :
    (hart.steps bus count).2.1.config = hart.config :=
  steps_of_step (P := fun later => later.config = hart.config)
    (fun _ _ h => config_step.trans h) rfl bus count

theorem length_steps (hart : Hart) (bus : β) (count : Nat) :
    (hart.steps bus count).1.length = count := by
  induction count generalizing hart bus with
  | zero => rfl
  | succ count ih => exact congrArg (· + 1) (ih _ _)

theorem length_retired (hart : Hart) (bus : β) (count : Nat) :
    (hart.retired bus count).length = (hart.steps bus count).1.count .executed := by
  induction count generalizing hart bus with
  | zero => rfl
  | succ count ih =>
    rw [Hart.retired, List.length_append, ih, Hart.steps, List.count_cons, Nat.add_comm]
    by_cases h : (hart.step bus).1 = .executed
    · obtain ⟨r, hr⟩ := Option.isSome_iff_exists.mp (isSome_retired?.mpr h)
      simp [hr, h]
    · have hnone : hart.retired? bus = none := by rw [retired?, if_neg h]
      simp [hnone, h]

end Hart

end RiscvBoard
