import RiscvBoard.Proofs.Assembly.Layout
import RiscvBoard.Proofs.Text.Case

/-!
# Entering labels

Each line is entered into the table that the lines before it leave. A name keeps
its first address, and a line whose label is there already is complained about.
-/

namespace RiscvBoard.Assembly

namespace Symbols

variable {symbols : Symbols} {name other : List Char} {addr first : Word}

theorem find?_eq_of_lower_eq (h : Text.lower name = Text.lower other) :
    symbols.find? name = symbols.find? other := by
  rw [find?, h, find?]

theorem insert_eq_error_iff : symbols.insert name addr = .error first ↔
    symbols.find? name = some first := by
  unfold insert
  cases symbols.find? name with
  | none => exact ⟨nofun, nofun⟩
  | some address =>
    exact ⟨fun h => congrArg some (Except.error.inj h), fun h => congrArg _ (Option.some.inj h)⟩

def enter (symbols : Symbols) (addr : Word) (line : Line) : Symbols :=
  match line.label with
  | none => symbols
  | some name => (symbols.insert name addr).toOption.getD symbols

def add (symbols : Symbols) (entry : List Char × Word) : Symbols :=
  (symbols.insert entry.1 entry.2).toOption.getD symbols

theorem add_lower (symbols : Symbols) (name : List Char) (addr : Word) :
    symbols.add (Text.lower name, addr) = (symbols.insert name addr).toOption.getD symbols := by
  have hlower : Text.lower (Text.lower name) = Text.lower name :=
    Text.keepsLetters_toLower.lower name
  rw [add, insert, insert, find?_eq_of_lower_eq hlower, hlower]

def complaint? (symbols : Symbols) (line : Line) : Option LineError :=
  line.label.bind fun name => (symbols.find? name).map fun first =>
    ⟨line.number, .duplicateLabel (String.ofList name) first⟩

theorem add_of_find?_eq_none (h : symbols.find? name = none) (addr : Word) :
    symbols.add (name, addr) = ⟨(Text.lower name, addr) :: symbols.entries⟩ := by
  rw [add, insert_eq_ok_iff.mpr ⟨h, rfl⟩]
  rfl

theorem add_of_find?_eq_some (h : symbols.find? name = some first) (addr : Word) :
    symbols.add (name, addr) = symbols := by
  rw [add, insert_eq_error_iff.mpr h]
  rfl

theorem find?_add (symbols : Symbols) (label : List Char) (addr : Word) (name : List Char) :
    (symbols.add (label, addr)).find? name = (symbols.find? name).or
      (if Text.lower label = Text.lower name then some addr else none) := by
  cases hfind : symbols.find? label with
  | none =>
    rw [add_of_find?_eq_none hfind, find?_of_insert_ok (insert_eq_ok_iff.mpr ⟨hfind, rfl⟩)]
    by_cases hname : Text.lower label = Text.lower name
    · rw [if_pos hname, if_pos hname.symm, find?_eq_of_lower_eq hname.symm, hfind, Option.none_or]
    · rw [if_neg hname, if_neg (Ne.symm hname), Option.or_none]
  | some first =>
    rw [add_of_find?_eq_some hfind]
    by_cases hname : Text.lower label = Text.lower name
    · rw [find?_eq_of_lower_eq hname.symm, hfind, Option.some_or]
    · rw [if_neg hname, Option.or_none]

theorem find?_enter (symbols : Symbols) (addr : Word) (line : Line) (name : List Char) :
    (symbols.enter addr line).find? name = (symbols.find? name).or
      (if line.label.map Text.lower = some (Text.lower name) then some addr else none) := by
  unfold enter
  cases line.label with
  | none => exact Option.or_none.symm
  | some label =>
    simp only [Option.map_some, Option.some.injEq]
    exact find?_add symbols label addr name

end Symbols

section Define

variable {symbols : Symbols} {lines : List (Word × Line)} {line : Line} {addr : Word}
  {name : List Char} {e : LineError}

theorem define_cons (symbols : Symbols) (addr : Word) (line : Line) (rest : List (Word × Line)) :
    define symbols ((addr, line) :: rest) = ((define (symbols.enter addr line) rest).1,
      (symbols.complaint? line).toList ++ (define (symbols.enter addr line) rest).2) := by
  rw [define, Symbols.enter, Symbols.complaint?]
  cases line.label with
  | none => rfl
  | some name =>
    dsimp only
    cases hinsert : symbols.insert name addr with
    | ok after =>
      obtain ⟨hnone, -⟩ := Symbols.insert_eq_ok_iff.mp hinsert
      simp only [Option.bind_some, hnone]
      rfl
    | error first =>
      simp only [Option.bind_some, Symbols.insert_eq_error_iff.mp hinsert]
      rfl

theorem define_labelled (symbols : Symbols) (lines : List (Word × Line)) :
    (define symbols lines).1 = (labelled lines).foldl Symbols.add symbols := by
  induction lines generalizing symbols with
  | nil => rfl
  | cons entry lines ih =>
    obtain ⟨addr, line⟩ := entry
    rw [define_cons, labelled_cons, ih, Symbols.enter]
    cases line.label with
    | none => rfl
    | some label => rw [List.foldl_cons, Symbols.add_lower]

/-- A name has the address that it had, or else that of the first line with the name. -/
theorem find?_define (symbols : Symbols) (lines : List (Word × Line)) (name : List Char) :
    (define symbols lines).1.find? name =
      (symbols.find? name).or ((labelled lines).lookup (Text.lower name)) := by
  induction lines generalizing symbols with
  | nil => exact Option.or_none.symm
  | cons entry lines ih =>
    obtain ⟨addr, line⟩ := entry
    rw [define_cons, labelled_cons, ih, Symbols.find?_enter, Option.or_assoc]
    congr 1
    cases line.label with
    | none => rfl
    | some label =>
      dsimp only [Option.map_some]
      rw [List.lookup_cons]
      by_cases hname : Text.lower label = Text.lower name
      · simp [hname]
      · simp [hname, beq_eq_false_iff_ne.mpr (Ne.symm hname)]

theorem exists_of_find?_define (h : (define {} lines).1.find? name = some addr) :
    ∃ entry ∈ lines, entry.1 = addr := by
  rw [find?_define] at h
  obtain ⟨_, _, hlabelled, -⟩ := List.lookup_eq_some_iff.mp h
  have hmem : (Text.lower name, addr) ∈ labelled lines := by
    rw [hlabelled]
    exact List.mem_append_right _ List.mem_cons_self
  obtain ⟨entry, hentry, hlabel⟩ := List.mem_filterMap.mp hmem
  obtain ⟨label, -, hpair⟩ := Option.map_eq_some_iff.mp hlabel
  exact ⟨entry, hentry, (Prod.mk.inj hpair).2⟩

theorem complaint?_eq_some_iff :
    symbols.complaint? line = some e ↔ ∃ label first, line.label = some label ∧
      symbols.find? label = some first ∧
        e = ⟨line.number, .duplicateLabel (String.ofList label) first⟩ := by
  simp only [Symbols.complaint?, Option.bind_eq_some_iff, Option.map_eq_some_iff, exists_and_left,
    eq_comm (a := e)]

theorem mem_define : e ∈ (define symbols lines).2 ↔
    ∃ front addr line back, lines = front ++ (addr, line) :: back ∧
    (define symbols front).1.complaint? line = some e := by
  induction lines generalizing symbols with
  | nil => simp [define]
  | cons entry lines ih =>
    obtain ⟨addr, line⟩ := entry
    rw [define_cons, List.mem_append, Option.mem_toList, ih]
    constructor
    · rintro (hhead | ⟨front, addr', line', back, rfl, hlater⟩)
      · exact ⟨[], addr, line, lines, rfl, hhead⟩
      · exact ⟨(addr, line) :: front, addr', line', back, rfl, by rwa [define_cons]⟩
    · rintro ⟨front, addr', line', back, hlines, he⟩
      cases front with
      | nil =>
        cases hlines
        exact .inl he
      | cons entry front =>
        cases hlines
        rw [define_cons] at he
        exact .inr ⟨front, addr', line', back, rfl, he⟩

theorem sublist_define (symbols : Symbols) (lines : List (Word × Line)) :
    ((define symbols lines).2.map (·.line)).Sublist (lines.map (·.2.number)) := by
  induction lines generalizing symbols with
  | nil => exact List.Sublist.refl _
  | cons entry lines ih =>
    obtain ⟨addr, line⟩ := entry
    rw [define_cons, List.map_cons]
    cases hcomplaint : symbols.complaint? line with
    | none => exact (ih _).cons _
    | some e =>
      obtain ⟨label, first, -, -, rfl⟩ := complaint?_eq_some_iff.mp hcomplaint
      exact (ih _).cons_cons _

end Define

end RiscvBoard.Assembly
