import RiscvBoard.Proofs.Hart.Step

/-!
# What a step reads

A step reads the word that it fetches and, if the instruction in it is a load,
what the instruction loads. Two buses that answer these accesses alike, and
refuse the same writes, see the same step.
-/

namespace RiscvBoard.Hart

/-- The accesses by which a step reads the bus, whether or not they succeed. -/
inductive Reads {β : Type} [Bus β] (hart : Hart) (bus : β) : Word → Width → Prop
  | fetch (haligned : hart.pc.toNat % 4 = 0) : Reads hart bus hart.pc .word
  | load {raw : Word} {i : Instruction} {width : Width} {signed : Bool}
      (hraw : hart.fetch bus = .ok raw)
      (hzero : ¬(raw = 0 ∧ hart.config.haltOnZero = true)) (hdecode : hart.decode raw = .ok i)
      (hload : i.op.action = .load width signed) :
      Reads hart bus (hart.register i.rs1 + BitVec.ofInt 32 i.imm) width

variable {α β : Type} [Bus α] [Bus β] {hart : Hart} {a : α} {b : β}

theorem load_of_read {addr : Word} {width : Width}
    (h : Bus.read b addr width = Bus.read a addr width)
    (signed : Bool) : Bus.load b addr width signed = Bus.load a addr width signed := by
  rw [Bus.load, Bus.load, h]

section Agree

variable
  (hreads : ∀ addr width, hart.Reads a addr width → Bus.read b addr width = Bus.read a addr width)
include hreads

theorem fetch_of_agree : hart.fetch b = hart.fetch a := by
  unfold fetch
  by_cases haligned : hart.pc.toNat % 4 ≠ 0
  · rw [if_pos haligned, if_pos haligned]
  · rw [load_of_read (hreads _ _ (.fetch (Decidable.not_not.mp haligned)))]

variable (hrefusal : ∀ addr width, Bus.refusal? b addr width = Bus.refusal? a addr width)
include hrefusal

theorem effect_of_agree {raw : Word} {i : Instruction} (hraw : hart.fetch a = .ok raw)
    (hzero : ¬(raw = 0 ∧ hart.config.haltOnZero = true)) (hdecode : hart.decode raw = .ok i) :
    hart.effect b i = hart.effect a i := by
  unfold effect
  cases hop : i.op.action with
  | load width signed => simp only [load_of_read (hreads _ _ (.load hraw hzero hdecode hop))]
  | store width => simp only [hrefusal]
  | compute | branch | jump | jumpRegister | upper | upperRelative => rfl

theorem plan_of_agree : hart.plan b = hart.plan a := by
  unfold plan
  rw [fetch_of_agree hreads]
  refine bind_congr_ok fun raw hraw => ?_
  split
  · rfl
  · rename_i hzero
    refine bind_congr_ok fun i hdecode => ?_
    rw [effect_of_agree hreads hrefusal hraw hzero hdecode]

end Agree

/-- What changes no answer to a step stays after the step. -/
theorem step_map {f : β → β}
    (hreads : ∀ addr width, hart.Reads b addr width →
      Bus.read (f b) addr width = Bus.read b addr width)
    (hrefusal : ∀ addr width, Bus.refusal? (f b) addr width = Bus.refusal? b addr width)
    (hstore : ∀ addr value width, Bus.store (f b) addr value width =
      f (Bus.store b addr value width)) :
    hart.step (f b) = ((hart.step b).1, (hart.step b).2.1, f (hart.step b).2.2) := by
  unfold step
  rw [plan_of_agree hreads hrefusal]
  split
  · rfl
  · rfl
  · rename_i effect _
    cases effect with
    | store addr value width => exact congrArg (fun bus => (_, _, bus)) (hstore addr value width)
    | result | branch | link => rfl

end RiscvBoard.Hart
