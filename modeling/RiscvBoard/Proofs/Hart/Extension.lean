import RiscvBoard.Proofs.Hart.Step

/-!
# One bus in place of another

A bus extends another one if it answers every access that the other one answers,
and in the same way. A hart cannot tell the two apart before the first trap.
-/

namespace RiscvBoard

variable {α β : Type} [Bus α] [Bus β] {R : α → β → Prop}

/-- Buses of one kind extend related buses of another kind, and stores keep them related. -/
structure Bus.Extends (R : α → β → Prop) : Prop where
  read : ∀ {a b addr width raw}, R a b → Bus.read a addr width = .ok raw →
    Bus.read b addr width = .ok raw
  takes : ∀ {a b addr width}, R a b → Bus.refusal? a addr width = none →
    Bus.refusal? b addr width = none
  store : ∀ {a b addr width}, R a b → Bus.refusal? a addr width = none → ∀ value,
    R (Bus.store a addr value width) (Bus.store b addr value width)

namespace Hart

def steps (hart : Hart) (bus : β) : Nat → List Outcome × Hart × β
  | 0 => ([], hart, bus)
  | count + 1 =>
    let (outcome, hart, bus) := hart.step bus
    let (outcomes, left) := steps hart bus count
    (outcome :: outcomes, left)

variable {hart : Hart} {a : α} {b : β} (hR : Bus.Extends R) (h : R a b)
include hR h

-- ---------------------------------------------------------------------------
-- One step
-- ---------------------------------------------------------------------------

theorem load_of_extends {addr value : Word} {width : Width} {signed : Bool}
    (hload : Bus.load a addr width signed = .ok value) :
    Bus.load b addr width signed = .ok value := by
  obtain ⟨raw, hread, rfl⟩ := map_eq_ok.mp hload
  exact map_eq_ok.mpr ⟨raw, hR.read h hread, rfl⟩

theorem fetch_of_extends {raw : Word} (hfetch : hart.fetch a = .ok raw) :
    hart.fetch b = .ok raw := by
  unfold fetch at hfetch ⊢
  split at hfetch
  · cases hfetch
  · rename_i haligned
    split at hfetch <;> cases hfetch
    rename_i hload
    rw [if_neg haligned, load_of_extends hR h hload]

theorem effect_of_extends {i : Instruction} {effect : Effect}
    (heffect : hart.effect a i = .ok effect) : hart.effect b i = .ok effect := by
  unfold Hart.effect at heffect ⊢
  cases hop : i.op.action <;> simp only [hop] at heffect ⊢
  case load width signed =>
    split at heffect <;> cases heffect
    rename_i hload
    rw [load_of_extends hR h hload]
  case store width =>
    split at heffect <;> cases heffect
    rename_i htakes
    rw [hR.takes h htakes]
  all_goals exact heffect

theorem plan_of_extends {plan : Plan} (hplan : hart.plan a = .ok plan) :
    hart.plan b = .ok plan := by
  cases plan with
  | halt =>
    obtain ⟨raw, hraw, hzero⟩ := plan_eq_halt.mp hplan
    exact plan_eq_halt.mpr ⟨raw, fetch_of_extends hR h hraw, hzero⟩
  | retire i effect =>
    obtain ⟨raw, hraw, hzero, hi, heffect⟩ := plan_eq_retire.mp hplan
    exact plan_eq_retire.mpr ⟨raw, fetch_of_extends hR h hraw, hzero, hi,
      effect_of_extends hR h heffect⟩

theorem retire_of_extends {i : Instruction} {effect : Effect}
    (heffect : hart.effect a i = .ok effect) :
    (hart.retire b i effect).1 = (hart.retire a i effect).1 ∧
      R (hart.retire a i effect).2 (hart.retire b i effect).2 := by
  cases effect with
  | result rd value => exact ⟨rfl, h⟩
  | store addr value width => exact ⟨rfl, hR.store h (refusal?_of_effect heffect) value⟩
  | branch target => exact ⟨rfl, h⟩
  | link rd target => exact ⟨rfl, h⟩

/-- A step that does not trap on one bus is the same step on the other. -/
theorem step_of_extends (hok : ∀ trap, (hart.step a).1 ≠ .trapped trap) :
    (hart.step b).1 = (hart.step a).1 ∧ (hart.step b).2.1 = (hart.step a).2.1 ∧
      R (hart.step a).2.2 (hart.step b).2.2 := by
  cases hplan : hart.plan a with
  | error trap => exact absurd (trapped_iff.mpr hplan) (hok trap)
  | ok plan =>
    have hplan' := plan_of_extends hR h hplan
    unfold step
    simp only [hplan, hplan']
    cases plan with
    | halt => exact ⟨rfl, rfl, h⟩
    | retire i effect =>
      obtain ⟨-, -, -, -, heffect⟩ := plan_eq_retire.mp hplan
      exact ⟨rfl, retire_of_extends hR h heffect⟩

-- ---------------------------------------------------------------------------
-- Steps in a row
-- ---------------------------------------------------------------------------

omit h in
theorem steps_of_extends {count : Nat} (h : R a b)
    (hok : ∀ trap, .trapped trap ∉ (hart.steps a count).1) :
    (hart.steps b count).1 = (hart.steps a count).1 ∧
      (hart.steps b count).2.1 = (hart.steps a count).2.1 ∧
      R (hart.steps a count).2.2 (hart.steps b count).2.2 := by
  induction count generalizing hart a b with
  | zero => exact ⟨rfl, rfl, h⟩
  | succ count ih =>
    obtain ⟨hfirst, hhart, hbus⟩ := step_of_extends hR h fun trap htrap =>
      hok trap (List.mem_cons.mpr (.inl htrap.symm))
    obtain ⟨houtcomes, hlast, hleft⟩ :=
      ih hbus fun trap htrap => hok trap (List.mem_cons.mpr (.inr htrap))
    simp only [steps, hfirst, hhart]
    exact ⟨congrArg _ houtcomes, hlast, hleft⟩

end Hart

end RiscvBoard
