import RiscvBoard.Proofs.Assembly.Change
import RiscvBoard.Proofs.Assembly.Layout

/-!
# All errors of a source

A line is wrong for two reasons: its label is that of an earlier line, or its
instruction cannot be encoded where it stands. Each reason gives one error, and
no error of one line hides or causes one of another.
-/

namespace RiscvBoard.Assembly

-- ---------------------------------------------------------------------------
-- What is wrong with a line
-- ---------------------------------------------------------------------------

def labelAt? (texts : List (List Char)) (k : Nat) : Option (List Char) := texts[k]?.bind labelOn?

def instructionAt? (texts : List (List Char)) (k : Nat) : Option (List Char) :=
  texts[k]?.bind instructionOn?

/-- Line `j` is the first one with this name, in lower case, as its label. -/
def Introduces (texts : List (List Char)) (j : Nat) (name : List Char) : Prop :=
  (labelAt? texts j).map Text.lower = some name ∧
    ∀ i < j, (labelAt? texts i).map Text.lower ≠ some name

/-- The label on line `k` is on an earlier line, and `first` is the address of the first such
line. -/
def Repeats (origin : Word) (texts : List (List Char)) (k : Nat) (label : List Char)
    (first : Word) : Prop :=
  labelAt? texts k = some label ∧
    ∃ j < k, Introduces texts j (Text.lower label) ∧ first = addressAt origin texts j

def Fails (symbols : Symbols) (origin : Word) (texts : List (List Char)) (k : Nat)
    (error : Error) : Prop :=
  ∃ statement, instructionAt? texts k = some statement ∧
    encodeStatement symbols (addressAt origin texts k) statement = .error error

def Error.aboutLabel : Error → Bool
  | .duplicateLabel .. => true
  | _ => false

/-- The order of reported errors. No two that are about a label, and no two that are not, are on one
line. -/
def LineError.Before (a b : LineError) : Prop :=
  a.line < b.line ∨ a.line = b.line ∧ a.error.aboutLabel = true ∧ b.error.aboutLabel = false

def reported : Except (List LineError) Program → List LineError
  | .ok _ => []
  | .error errors => errors

-- ---------------------------------------------------------------------------
-- Labels
-- ---------------------------------------------------------------------------

section Labels

variable {texts : List (List Char)} {text name label : List Char}
  {origin addr first : Word} {j k : Nat}

theorem introduces_zero : Introduces (text :: texts) 0 name ↔
    (labelOn? text).map Text.lower = some name :=
  ⟨fun h => h.1, fun h => ⟨h, nofun⟩⟩

theorem introduces_succ : Introduces (text :: texts) (j + 1) name ↔
    (labelOn? text).map Text.lower ≠ some name ∧ Introduces texts j name := by
  constructor
  · rintro ⟨hname, hfirst⟩
    exact ⟨hfirst 0 (Nat.zero_lt_succ j), hname, fun i hi => hfirst (i + 1) (Nat.succ_lt_succ hi)⟩
  · rintro ⟨hhead, hname, hfirst⟩
    refine ⟨hname, fun i hi => ?_⟩
    cases i with
    | zero => exact hhead
    | succ i => exact hfirst i (Nat.lt_of_succ_lt_succ hi)

theorem introduces_take : Introduces (texts.take k) j name ↔ j < k ∧ Introduces texts j name := by
  have hbefore : ∀ i < k, labelAt? (texts.take k) i = labelAt? texts i := fun i hi => by
    rw [labelAt?, List.getElem?_take_of_lt hi, labelAt?]
  constructor
  · rintro ⟨hname, hfirst⟩
    have hj : j < k := by
      refine Nat.lt_of_not_le fun hle => ?_
      rw [labelAt?, List.getElem?_take_eq_none hle] at hname
      cases hname
    rw [hbefore j hj] at hname
    exact ⟨hj, hname, fun i hi => hbefore i (hi.trans hj) ▸ hfirst i hi⟩
  · rintro ⟨hj, hname, hfirst⟩
    exact ⟨(hbefore j hj).symm ▸ hname, fun i hi => (hbefore i (hi.trans hj)).symm ▸ hfirst i hi⟩

theorem lookup_onLines (address : Nat → Word) :
    (onLines (fun text k => (labelOn? text).map fun label => (Text.lower label, address k))
      texts).lookup name =
        some first ↔
      ∃ j, Introduces texts j name ∧ first = address j := by
  induction texts generalizing address with
  | nil => exact ⟨nofun, fun ⟨j, hj, _⟩ => by cases hj.1⟩
  | cons text texts ih =>
    rw [onLines_cons, ← Nat.or_exists_add_one]
    simp only [introduces_zero, introduces_succ, and_assoc, exists_and_left,
      ← ih fun k => address (k + 1)]
    cases labelOn? text with
    | none => simp
    | some label =>
      dsimp only [Option.map_some]
      rw [List.lookup_cons]
      by_cases hname : Text.lower label = name
      · simp [hname, eq_comm]
      · simp [hname, beq_eq_false_iff_ne.mpr (Ne.symm hname)]

end Labels

-- ---------------------------------------------------------------------------
-- Complaints about labels
-- ---------------------------------------------------------------------------

/-- What precedes an element that is found on the lines is found on the lines before. -/
theorem onLines_eq_append_cons_iff {β : Type} {f : List Char → Nat → Option β}
    {texts : List (List Char)}
    {front : List β} {b : β} : (∃ back, onLines f texts = front ++ b :: back) ↔
      ∃ k text, texts[k]? = some text ∧ f text k = some b ∧ front = onLines f (texts.take k) := by
  induction texts generalizing f front with
  | nil => simp [onLines]
  | cons text texts ih =>
    rw [← Nat.or_exists_add_one]
    simp only [List.getElem?_cons_zero, Option.some.injEq, List.getElem?_cons_succ,
      List.take_succ_cons, List.take_zero, onLines_cons]
    cases hf : f text 0 with
    | none =>
      dsimp only
      rw [ih]
      simp [hf]
    | some found =>
      cases front with
      | nil => simp [hf, onLines]
      | cons first front =>
        constructor
        · rintro ⟨back, h⟩
          obtain ⟨rfl, hlater⟩ := List.cons.inj h
          obtain ⟨k, other, htext, hb, hfront⟩ := ih.mp ⟨back, hlater⟩
          exact .inr ⟨k, other, htext, hb, congrArg (found :: ·) hfront⟩
        · rintro (⟨_, -, -, h⟩ | ⟨k, other, htext, hb, h⟩)
          · cases h
          · obtain ⟨rfl, hfront⟩ := List.cons.inj h
            obtain ⟨back, hlater⟩ := ih.mpr ⟨k, other, htext, hb, hfront⟩
            exact ⟨back, congrArg (first :: ·) hlater⟩

section Complaints

variable {origin addr first : Word} {source : String} {texts : List (List Char)}
  {name : List Char} {k : Nat} {e : LineError}

theorem find?_collectSymbols : (collectSymbols origin source).1.find? name = some addr ↔
    ∃ j, Introduces (Text.lines source.toList) j (Text.lower name) ∧
      addr = addressAt origin (Text.lines source.toList) j := by
  rw [collectSymbols, find?_define, labelled_eq_labels]
  exact lookup_onLines (addressAt origin (Text.lines source.toList))

theorem read?_label (number : Nat) (text : List Char) :
    (Line.read? number text).bind Line.label = labelOn? text := by
  rw [read?_number, labelOn?]
  cases Line.read? 0 text <;> rfl

theorem number_of_read? {number : Nat} {text : List Char} {line : Line}
    (h : Line.read? number text = some line) : line.number = number := by
  rw [read?_number] at h
  obtain ⟨_, -, rfl⟩ := Option.map_eq_some_iff.mp h
  rfl

def placedLine? (origin : Word) (texts : List (List Char)) (text : List Char) (k : Nat) :
    Option (Word × Line) :=
  (Line.read? (k + 1) text).map fun line => (addressAt origin texts k, line)

theorem placed_eq_onLines (origin : Word) (source : String) : placed origin (sourceLines source) =
    onLines (placedLine? origin (Text.lines source.toList)) (Text.lines source.toList) := by
  rw [placed_sourceLines]
  simp only [← read?_number]
  rfl

theorem find?_define_take :
    (define {} (onLines (placedLine? origin texts) (texts.take k))).1.find? name = some first ↔
      ∃ j < k, Introduces texts j (Text.lower name) ∧ first = addressAt origin texts j := by
  have hlabelled : labelled (onLines (placedLine? origin texts) (texts.take k)) =
      onLines (fun text j =>
      (labelOn? text).map fun label =>
        (Text.lower label, addressAt origin texts j)) (texts.take k) := by
    rw [labelled, filterMap_onLines]
    refine congrArg (onLines · _) (funext fun text => funext fun j => ?_)
    rw [placedLine?, ← read?_label (j + 1)]
    cases Line.read? (j + 1) text <;> rfl
  rw [find?_define, hlabelled]
  refine (lookup_onLines (addressAt origin texts)).trans ?_
  simp only [introduces_take, and_assoc]

theorem mem_collectSymbols : e ∈ (collectSymbols origin source).2 ↔ ∃ k label first,
    Repeats origin (Text.lines source.toList) k label first ∧
      e = ⟨k + 1, .duplicateLabel (String.ofList label) first⟩ := by
  rw [collectSymbols, mem_define, placed_eq_onLines]
  generalize Text.lines source.toList = texts
  constructor
  · rintro ⟨front, addr, line, back, hlines, hcomplaint⟩
    obtain ⟨k, text, htext, hplaced, rfl⟩ := onLines_eq_append_cons_iff.mp ⟨back, hlines⟩
    obtain ⟨label, first, hlabel, hfirst, rfl⟩ := complaint?_eq_some_iff.mp hcomplaint
    obtain ⟨_, hread, hpair⟩ := Option.map_eq_some_iff.mp hplaced
    obtain ⟨-, rfl⟩ := Prod.mk.inj hpair
    refine ⟨k, label, first, ⟨?_, find?_define_take.mp hfirst⟩, by rw [number_of_read? hread]⟩
    rw [labelAt?, htext, Option.bind_some, ← read?_label (k + 1), hread, Option.bind_some, hlabel]
  · rintro ⟨k, label, first, ⟨hlabel, hfirst⟩, rfl⟩
    obtain ⟨text, htext, hlabel⟩ := Option.bind_eq_some_iff.mp hlabel
    rw [← read?_label (k + 1)] at hlabel
    obtain ⟨line, hread, hlabel⟩ := Option.bind_eq_some_iff.mp hlabel
    have hplaced : placedLine? origin texts text k = some (addressAt origin texts k, line) := by
      rw [placedLine?, hread, Option.map_some]
    obtain ⟨back, hlines⟩ := onLines_eq_append_cons_iff.mpr ⟨k, text, htext, hplaced, rfl⟩
    refine ⟨_, _, line, back, hlines, complaint?_eq_some_iff.mpr ⟨label, first, hlabel, ?_, ?_⟩⟩
    · exact find?_define_take.mpr hfirst
    · rw [number_of_read? hread]

end Complaints

-- ---------------------------------------------------------------------------
-- Errors of instructions
-- ---------------------------------------------------------------------------

section Failures

variable {symbols : Symbols} {origin pc : Word} {texts : List (List Char)} {statement : List Char}
  {error : Error} {e : LineError} {k : Nat}

/-- An error of an instruction does not change when addresses do, and so it is not about a label. -/
theorem aboutLabel_of_encodeStatement (h : encodeStatement symbols pc statement = .error error) :
    error.aboutLabel = false := by
  have hsame := encodeStatement_change (c := { addr := (· + 1) }) Text.keepsLetters_id
    (rfl : symbols.distance? pc = symbols.distance? pc) statement
  rw [List.map_id, h] at hsame
  cases error with
  | duplicateLabel name first =>
    simp only [Except.mapError, Change.error, Except.error.injEq,
      Error.duplicateLabel.injEq] at hsame
    exact absurd hsame.2 (by bv_omega)
  | _ => rfl

theorem aboutLabel_of_fails (h : Fails symbols origin texts k error) : error.aboutLabel = false :=
  h.elim fun _ ⟨_, hencode⟩ => aboutLabel_of_encodeStatement hencode

theorem mem_encodingErrors : e ∈ encodingErrors (results symbols origin texts) ↔ ∃ k error,
    Fails symbols origin texts k error ∧ e = ⟨k + 1, error⟩ := by
  rw [encodingErrors, results, filterMap_onLines, mem_onLines]
  constructor
  · rintro ⟨k, text, htext, he⟩
    obtain ⟨result, hresult, he⟩ := Option.bind_eq_some_iff.mp he
    obtain ⟨statement, hstatement, rfl⟩ := Option.map_eq_some_iff.mp hresult
    cases hencode : encodeStatement symbols (addressAt origin texts k) statement with
    | ok w =>
      rw [hencode] at he
      cases he
    | error error =>
      rw [hencode] at he
      refine ⟨k, error, ⟨statement, ?_, hencode⟩, (Option.some.inj he).symm⟩
      rw [instructionAt?, htext, Option.bind_some, hstatement]
  · rintro ⟨k, error, ⟨statement, hstatement, hencode⟩, rfl⟩
    obtain ⟨text, htext, hstatement⟩ := Option.bind_eq_some_iff.mp hstatement
    refine ⟨k, text, htext, ?_⟩
    rw [hstatement, Option.map_some, Option.bind_some, hencode]

theorem pairwise_encodingErrors :
    (encodingErrors (results symbols origin texts)).Pairwise (·.line < ·.line) := by
  refine List.Pairwise.filterMap _ ?_ (List.pairwise_map.mp pairwise_numbers)
  rintro ⟨m, first⟩ ⟨n, second⟩ hlt a ha b hb
  cases first <;> cases ha
  cases second <;> cases hb
  exact hlt

theorem pairwise_sourceLines (source : String) :
    (sourceLines source).Pairwise (·.number < ·.number) := by
  refine List.Pairwise.filterMap _ ?_ (pairwise_zipIdx (Text.lines source.toList) 1)
  rintro ⟨_, m⟩ ⟨_, n⟩ hlt a ha b hb
  rw [number_of_read? ha, number_of_read? hb]
  exact hlt

theorem pairwise_collectSymbols (origin : Word) (source : String) :
    (collectSymbols origin source).2.Pairwise (·.line < ·.line) := by
  have hnumbers : ((placed origin (sourceLines source)).map (·.2.number)).Pairwise (· < ·) := by
    have hlines := List.pairwise_map.mpr (pairwise_sourceLines source)
    rwa [← map_snd_placed origin (sourceLines source), List.map_map] at hlines
  exact List.pairwise_map.mp (hnumbers.sublist (sublist_define {} _))

end Failures

-- ---------------------------------------------------------------------------
-- All errors
-- ---------------------------------------------------------------------------

section Reported

variable {origin : Word} {source : String} {e : LineError}

def complaints (origin : Word) (source : String) : List LineError :=
  (collectSymbols origin source).2 ++
    encodingErrors (results (collectSymbols origin source).1 origin (Text.lines source.toList))

theorem mem_complaints : e ∈ complaints origin source ↔
    (∃ k label first, Repeats origin (Text.lines source.toList) k label first ∧
      e = ⟨k + 1, .duplicateLabel (String.ofList label) first⟩) ∨
    ∃ k error, Fails (collectSymbols origin source).1 origin (Text.lines source.toList) k error ∧
      e = ⟨k + 1, error⟩ := by
  rw [complaints, List.mem_append, mem_collectSymbols, mem_encodingErrors]

theorem exists_assemble_eq_ite (origin : Word) (source : String) :
    ∃ program, assemble origin source = if (complaints origin source).isEmpty then .ok program
      else .error ((complaints origin source).mergeSort fun a b => a.line ≤ b.line) := by
  rw [complaints, ← encoded_eq_results]
  exact ⟨_, rfl⟩

theorem reported_assemble (origin : Word) (source : String) :
    reported (assemble origin source) =
      (complaints origin source).mergeSort fun a b => a.line ≤ b.line := by
  obtain ⟨program, h⟩ := exists_assemble_eq_ite origin source
  rw [h]
  split
  · rename_i hempty
    rw [List.isEmpty_iff.mp hempty, List.mergeSort_nil]
    rfl
  · rfl

theorem exists_program_iff : (∃ program, assemble origin source = .ok program) ↔
    complaints origin source = [] := by
  obtain ⟨program, h⟩ := exists_assemble_eq_ite origin source
  rw [h, ← List.isEmpty_iff]
  split
  · rename_i hempty
    exact ⟨fun _ => hempty, fun _ => ⟨program, rfl⟩⟩
  · rename_i hempty
    exact ⟨nofun, fun hnil => absurd hnil hempty⟩

theorem mem_reported : e ∈ reported (assemble origin source) ↔ e ∈ complaints origin source := by
  rw [reported_assemble, List.mem_mergeSort]

theorem line_le_trans (a b c : LineError) (hab : decide (a.line ≤ b.line) = true)
    (hbc : decide (b.line ≤ c.line) = true) : decide (a.line ≤ c.line) = true :=
  decide_eq_true (Nat.le_trans (of_decide_eq_true hab) (of_decide_eq_true hbc))

theorem line_le_total (a b : LineError) :
    (decide (a.line ≤ b.line) || decide (b.line ≤ a.line)) = true := by
  rw [Bool.or_eq_true, decide_eq_true_eq, decide_eq_true_eq]
  exact Nat.le_total a.line b.line

/-- Sorting by lines keeps the order of the errors on one line. -/
theorem filter_mergeSort (errors : List LineError) (n : Nat) :
    (errors.mergeSort fun a b => a.line ≤ b.line).filter (·.line = n) =
      errors.filter (·.line = n) := by
  -- the errors on one line are sorted already, and sorting keeps a sublist that is
  have hline : (errors.filter (·.line = n)).Pairwise fun a b => decide (a.line ≤ b.line) = true :=
    List.pairwise_of_forall_mem_list fun a ha b hb => by
      have ha := of_decide_eq_true (List.mem_filter.mp ha).2
      have hb := of_decide_eq_true (List.mem_filter.mp hb).2
      exact decide_eq_true (by rw [ha, hb])
  have hsub :=
    (List.sublist_mergeSort line_le_trans line_le_total hline List.filter_sublist).filter
      (·.line = n)
  rw [List.filter_filter] at hsub
  simp only [Bool.and_self] at hsub
  exact (hsub.eq_of_length ((List.mergeSort_perm errors _).filter _).length_eq.symm).symm

theorem pairwise_before_of_line {errors : List LineError}
    (hsorted : errors.Pairwise (·.line ≤ ·.line))
    (hline : ∀ n, (errors.filter (·.line = n)).Pairwise LineError.Before) :
    errors.Pairwise LineError.Before := by
  rw [List.pairwise_iff_forall_sublist] at hsorted ⊢
  intro a b hpair
  rcases Nat.lt_or_eq_of_le (hsorted hpair) with hlt | heq
  · exact .inl hlt
  · have hsame := hpair.filter (·.line = b.line)
    rw [List.filter_cons_of_pos (by simp [heq]), List.filter_cons_of_pos (by simp),
      List.filter_nil] at hsame
    exact List.pairwise_iff_forall_sublist.mp (hline b.line) hsame

theorem pairwise_reported (origin : Word) (source : String) :
    (reported (assemble origin source)).Pairwise LineError.Before := by
  rw [reported_assemble]
  refine pairwise_before_of_line ?_ fun n => ?_
  · exact (List.pairwise_mergeSort line_le_trans line_le_total _).imp of_decide_eq_true
  · rw [filter_mergeSort, complaints, List.filter_append]
    refine List.pairwise_append.mpr ⟨?_, ?_, fun a ha b hb => ?_⟩
    · exact ((pairwise_collectSymbols origin source).filter _).imp .inl
    · exact (pairwise_encodingErrors.filter _).imp .inl
    · obtain ⟨hcomplaint, hn⟩ := List.mem_filter.mp ha
      obtain ⟨hfailure, hm⟩ := List.mem_filter.mp hb
      obtain ⟨_, _, _, -, rfl⟩ := mem_collectSymbols.mp hcomplaint
      obtain ⟨_, _, hfails, rfl⟩ := mem_encodingErrors.mp hfailure
      exact .inr ⟨(of_decide_eq_true hn).trans (of_decide_eq_true hm).symm, rfl,
        aboutLabel_of_fails hfails⟩

end Reported

end RiscvBoard.Assembly
