import RiscvBoard.Bus

/-!
# Work in place

Work changes its state as it goes, and stops at the first fault or at an index
outside of an array; what was changed before that stays changed. So work that
ends like a function which answers with a fault or a new state has not been
stopped halfway.
-/

namespace RiscvBoard

inductive Stop
  | refused (fault : Fault)
  | outside
  deriving DecidableEq, Repr

/-- Work on a state. What was changed before a stop stays changed. -/
abbrev Work (σ : Type) := EStateM Stop σ

namespace Work

variable {σ τ α γ : Type}

def index : Option α → Work σ α
  | some a => pure a
  | none => throw .outside

def permit : Except Fault α → Work σ α
  | .ok a => pure a
  | .error fault => throw (.refused fault)

def part (get : σ → τ) (set : σ → τ → σ) (work : Work τ α) : Work σ α := fun state =>
  match work (get state) with
  | .ok a after => .ok a (set state after)
  | .error stop after => .error stop (set state after)

def answer (state : σ) : Except Fault α → EStateM.Result Stop σ α
  | .ok a => .ok a state
  | .error fault => .error (.refused fault) state

def attempt : Option Fault × σ → EStateM.Result Stop σ Unit
  | (none, after) => .ok () after
  | (some fault, after) => .error (.refused fault) after

theorem bind_of_ok {x : Work σ α} {f : α → Work σ γ} {state after : σ} {a : α}
    (h : x state = .ok a after) : (x >>= f) state = f a after := by
  simp only [bind, EStateM.bind, h]

theorem part_of_ok {get : σ → τ} {set : σ → τ → σ} {work : Work τ α} {state : σ} {after : τ} {a : α}
    (h : work (get state) = .ok a after) : part get set work state = .ok a (set state after) := by
  simp only [part, h]

end Work

/-- The number with the bytes `f? start, …, f? (start + n - 1)`, if all of them are there. -/
def littleEndian? (f? : Nat → Option Byte) (start : Nat) : Nat → Option Nat
  | 0 => some 0
  | n + 1 => do
    let low ← f? start
    let rest ← littleEndian? f? (start + 1) n
    return low.toNat + 256 * rest

theorem littleEndian?_eq {f? : Nat → Option Byte} {f : Nat → Byte} {start n : Nat}
    (h : ∀ i, start ≤ i → i < start + n → f? i = some (f i)) :
    littleEndian? f? start n = some (littleEndian f start n) := by
  induction n generalizing start with
  | zero => rfl
  | succ n ih =>
    have hlow : f? start = some (f start) := h start (Nat.le_refl start) (by omega)
    have hrest : littleEndian? f? (start + 1) n = some (littleEndian f (start + 1) n) :=
      ih fun i hs hi => h i (by omega) (by omega)
    rw [littleEndian?, hlow, hrest, littleEndian]
    rfl

end RiscvBoard
