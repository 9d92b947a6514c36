import RiscvBoard.Assembly.Line
import RiscvBoard.Proofs.Text.Blank

/-!
# What a line says

The form of a line, without a word on how its parts are found: a label with its
colon, an instruction, both or neither, blanks around them and a comment behind
them. A line has this form in one way only, and `Line.read?` finds it.
-/

namespace RiscvBoard.Assembly

def labelOn? (text : List Char) : Option (List Char) := (Line.read? 0 text).bind Line.label

def instructionOn? (text : List Char) : Option (List Char) :=
  (Line.read? 0 text).bind Line.instruction

inductive Comment : List Char → Prop
  | none : Comment []
  | hash (rest : List Char) : Comment ('#' :: rest)
  | slashes (rest : List Char) : Comment ('/' :: '/' :: rest)

/-- The part of a text before its comment; no comment begins within it. -/
def Precedes (said text : List Char) : Prop :=
  ∃ comment, text = said ++ comment ∧ Comment comment ∧
    ∀ front back, said = front ++ back → back ≠ [] → ¬Comment (back ++ comment)

/-- The label and the instruction in a text without comment and without blanks at its ends. -/
inductive Says : List Char → Option (List Char) → Option (List Char) → Prop
  | nothing : Says [] none none
  | label {head name rest : List Char} (hcolon : ':' ∉ head) (hhead : Text.Pads head name)
      (hname : isName name = true) (hrest : Text.Pads rest []) :
      Says (head ++ ':' :: rest) (some name) none
  | both {head name rest statement : List Char} (hcolon : ':' ∉ head) (hhead : Text.Pads head name)
      (hname : isName name = true) (hrest : Text.Pads rest statement) (hne : statement ≠ []) :
      Says (head ++ ':' :: rest) (some name) (some statement)
  | instruction {statement : List Char} (hne : statement ≠ [])
      (h : ∀ head rest name, statement = head ++ ':' :: rest → ':' ∉ head → Text.Pads head name →
        isName name = false) : Says statement none (some statement)

def Carries (text : List Char) (label instruction : Option (List Char)) : Prop :=
  ∃ said bare, Precedes said text ∧ Text.Pads said bare ∧ Says bare label instruction

theorem pairwise_zipIdx {α : Type} (l : List α) (first : Nat) :
    (l.zipIdx first).Pairwise fun a b => a.2 < b.2 := by
  have hrange := List.pairwise_lt_range' (s := first) (n := l.length)
  rw [← List.zipIdx_map_snd] at hrange
  exact List.pairwise_map.mp hrange

theorem map_snd_placed (origin : Word) (lines : List Line) :
    (placed origin lines).map (·.2) = lines := by
  induction lines generalizing origin with
  | nil => rfl
  | cons line lines ih => simp only [placed, List.map_cons, ih]

theorem continuesName_of_startsName {c : Char} (h : startsName c = true) :
    continuesName c = true := by
  simp only [startsName, continuesName, Char.isAlphanum, Bool.or_eq_true] at h ⊢
  exact h.imp_left .inl

-- ---------------------------------------------------------------------------
-- Comments
-- ---------------------------------------------------------------------------

theorem uncommented_of_comment {text : List Char} (h : Comment text) : uncommented text = [] := by
  cases h <;> rfl

theorem uncommented_cons {c : Char} {text : List Char} (h : ¬Comment (c :: text)) :
    uncommented (c :: text) = c :: uncommented text := by
  rw [uncommented.eq_def]
  split
  · rename_i he
    cases he
  · rename_i rest he
    exact absurd (he ▸ .hash rest) h
  · rename_i rest he
    exact absurd (he ▸ .slashes rest) h
  · rename_i he
    cases he
    rfl

theorem Comment.head {c : Char} {text : List Char} (h : Comment (c :: text)) :
    c = '#' ∨ c = '/' := by
  cases h with
  | hash => exact .inl rfl
  | slashes => exact .inr rfl

theorem uncommented_append_of_forall {text : List Char} (rest : List Char)
    (h : ∀ c ∈ text, c ≠ '#' ∧ c ≠ '/') :
    uncommented (text ++ rest) = text ++ uncommented rest := by
  induction text with
  | nil => rfl
  | cons c text ih =>
    obtain ⟨hhash, hslash⟩ := h c List.mem_cons_self
    have hfirst : ¬Comment (c :: (text ++ rest)) := fun hc => hc.head.elim hhash hslash
    rw [List.cons_append, uncommented_cons hfirst, ih fun d hd => h d (List.mem_cons_of_mem c hd),
      List.cons_append]

theorem uncommented_of_forall {text : List Char} (h : ∀ c ∈ text, c ≠ '#' ∧ c ≠ '/') :
    uncommented text = text := by
  have happend := uncommented_append_of_forall [] h
  rwa [List.append_nil, uncommented, List.append_nil] at happend

theorem precedes_uncommented (text : List Char) : Precedes (uncommented text) text := by
  induction text with
  | nil =>
    exact ⟨[], rfl, .none, fun _ back h hne => absurd (List.append_eq_nil_iff.mp h.symm).2 hne⟩
  | cons c text ih =>
    by_cases hc : Comment (c :: text)
    · rw [uncommented_of_comment hc]
      exact ⟨c :: text, rfl, hc, fun _ back h hne =>
        absurd (List.append_eq_nil_iff.mp h.symm).2 hne⟩
    · obtain ⟨comment, htext, hcomment, hwithin⟩ := ih
      rw [uncommented_cons hc]
      refine ⟨comment, congrArg (c :: ·) htext, hcomment, fun front back h hne => ?_⟩
      cases front with
      | nil =>
        rw [List.nil_append] at h
        rwa [← h, List.cons_append, ← htext]
      | cons d front => exact hwithin front back (List.cons.inj h).2 hne

theorem uncommented_append {said comment : List Char} (hcomment : Comment comment)
    (hwithin : ∀ front back, said = front ++ back → back ≠ [] → ¬Comment (back ++ comment)) :
    uncommented (said ++ comment) = said := by
  induction said with
  | nil => exact uncommented_of_comment hcomment
  | cons c said ih =>
    have hfirst : ¬Comment (c :: (said ++ comment)) :=
      hwithin [] (c :: said) rfl (List.cons_ne_nil c said)
    rw [List.cons_append, uncommented_cons hfirst,
      ih fun front back h => hwithin (c :: front) back (congrArg (c :: ·) h)]

theorem precedes_iff {said text : List Char} : Precedes said text ↔ uncommented text = said := by
  constructor
  · rintro ⟨comment, rfl, hcomment, hwithin⟩
    exact uncommented_append hcomment hwithin
  · rintro rfl
    exact precedes_uncommented text

-- ---------------------------------------------------------------------------
-- Labels and instructions
-- ---------------------------------------------------------------------------

theorem splitFirst?_colon {text head rest : List Char} :
    Text.splitFirst? (· == ':') text = some (head, rest) ↔
      text = head ++ ':' :: rest ∧ ':' ∉ head := by
  rw [Text.splitFirst?_eq_some_iff]
  constructor
  · rintro ⟨c, rfl, hc, hhead⟩
    rw [eq_of_beq hc]
    exact ⟨rfl, fun hmem => absurd (hhead ':' hmem) (by decide)⟩
  · rintro ⟨rfl, hcolon⟩
    exact ⟨':', rfl, rfl, fun d hd => beq_eq_false_iff_ne.mpr fun h => hcolon (h ▸ hd)⟩

variable {text bare : List Char} {label instruction : Option (List Char)}

theorem present?_of_ne_nil {text : List Char} (h : text ≠ []) : Line.present? text = some text :=
  if_neg fun hempty => h (List.isEmpty_iff.mp hempty)

theorem says_of_read (text : List Char) :
    Says (Text.trim (uncommented text)) (labelOn? text) (instructionOn? text) := by
  unfold labelOn? instructionOn? Line.read?
  dsimp only
  generalize Text.trim (uncommented text) = bare
  split
  · rename_i hempty
    rw [List.isEmpty_iff.mp hempty]
    exact .nothing
  · rename_i hempty
    have hne : bare ≠ [] := fun h => hempty (List.isEmpty_iff.mpr h)
    split
    · rename_i head rest hsplit
      obtain ⟨rfl, hcolon⟩ := splitFirst?_colon.mp hsplit
      split
      · rename_i hname
        dsimp only [Option.bind_some]
        by_cases hrest : Text.trim rest = []
        · rw [hrest]
          exact .label hcolon (Text.pads_trim head) hname (Text.pads_iff.mpr hrest)
        · rw [present?_of_ne_nil hrest]
          exact .both hcolon (Text.pads_trim head) hname (Text.pads_trim rest) hrest
      · rename_i hname
        refine .instruction hne fun other rest' name heq hother hpads => ?_
        have hsame := hsplit.symm.trans (splitFirst?_colon.mpr ⟨heq, hother⟩)
        cases hsame
        rw [← Text.pads_iff.mp hpads]
        exact Bool.not_eq_true _ ▸ hname
    · rename_i hsplit
      refine .instruction hne fun head rest name heq hhead hpads => ?_
      cases hsplit.symm.trans (splitFirst?_colon.mpr ⟨heq, hhead⟩)

theorem read_of_says (h : Says (Text.trim (uncommented text)) label instruction) :
    labelOn? text = label ∧ instructionOn? text = instruction := by
  unfold labelOn? instructionOn? Line.read?
  dsimp only
  generalize Text.trim (uncommented text) = bare at h
  cases h with
  | nothing => exact ⟨rfl, rfl⟩
  | @label head name rest hcolon hhead hname hrest =>
    have hne : ¬(head ++ ':' :: rest).isEmpty = true := by simp
    simp only [if_neg hne, splitFirst?_colon.mpr ⟨rfl, hcolon⟩, Text.pads_iff.mp hhead, hname,
      if_true, Text.pads_iff.mp hrest]
    exact ⟨rfl, rfl⟩
  | @both head name rest statement hcolon hhead hname hrest hstatement =>
    have hne : ¬(head ++ ':' :: rest).isEmpty = true := by simp
    simp only [if_neg hne, splitFirst?_colon.mpr ⟨rfl, hcolon⟩, Text.pads_iff.mp hhead, hname,
      if_true, Text.pads_iff.mp hrest, present?_of_ne_nil hstatement]
    exact ⟨rfl, rfl⟩
  | instruction hstatement hno =>
    have hne : ¬bare.isEmpty = true := fun hempty => hstatement (List.isEmpty_iff.mp hempty)
    rw [if_neg hne]
    split
    · rename_i head rest hsplit
      obtain ⟨heq, hcolon⟩ := splitFirst?_colon.mp hsplit
      rw [hno head rest _ heq hcolon (Text.pads_trim head)]
      exact ⟨rfl, rfl⟩
    · exact ⟨rfl, rfl⟩

/-- The reader finds what a line carries, and nothing else can be found on it. -/
theorem carries_iff : Carries text label instruction ↔
    labelOn? text = label ∧ instructionOn? text = instruction := by
  constructor
  · rintro ⟨said, bare, hsaid, hbare, hsays⟩
    rw [← Text.pads_iff.mp hbare, ← precedes_iff.mp hsaid] at hsays
    exact read_of_says hsays
  · rintro ⟨rfl, rfl⟩
    exact ⟨_, _, precedes_uncommented text, Text.pads_trim _, says_of_read text⟩

end RiscvBoard.Assembly
