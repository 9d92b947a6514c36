import RiscvBoard.Proofs.Assembly.Table
import RiscvBoard.Proofs.Result
import RiscvBoard.Proofs.Text.Case

/-!
# Changes of a source

A source may be written in letters of the other case, on other lines and for
another origin. Its words do not change as long as the distances between its
lines do not, and its labels, line numbers and errors change as the source does.
-/

namespace RiscvBoard

namespace Assembly

/-- A change of the characters of a source, of the numbers of its lines and of its addresses. -/
structure Change where
  char : Char → Char := id
  number : Nat → Nat := id
  addr : Word → Word := id

namespace Change

variable (c : Change)

def line (line : Line) : Line where
  number := c.number line.number
  label := line.label.map (List.map c.char)
  instruction := line.instruction.map (List.map c.char)

def placed (entry : Word × Line) : Word × Line := (c.addr entry.1, c.line entry.2)

def string (text : String) : String := String.ofList (text.toList.map c.char)

def error : Error → Error
  | .unknownMnemonic name => .unknownMnemonic (c.string name)
  | .invalidRegister text => .invalidRegister (c.string text)
  | .undefinedLabel name => .undefinedLabel (c.string name)
  | .duplicateLabel name first => .duplicateLabel (c.string name) (c.addr first)
  | .malformedOperands op => .malformedOperands op
  | .invalidImmediate text => .invalidImmediate (c.string text)
  | .unencodable cause => .unencodable cause

def lineError (e : LineError) : LineError := ⟨c.number e.line, c.error e.error⟩

def symbols (symbols : Symbols) : Symbols := ⟨symbols.entries.map (Prod.map id c.addr)⟩

def program (program : Program) : Program where
  words := program.words
  lineMap := program.lineMap.map c.number
  symbols := c.symbols program.symbols

def outcome : Except (List LineError) Program → Except (List LineError) Program
  | .ok program => .ok (c.program program)
  | .error errors => .error (errors.map c.lineError)

@[simp] theorem string_ofList (text : List Char) :
    c.string (String.ofList text) = String.ofList (text.map c.char) := by
  rw [string, String.toList_ofList]

variable {c}

theorem line_of_id (hchar : c.char = id) (line : Line) :
    c.line line = { line with number := c.number line.number } := by
  simp only [Change.line, hchar, List.map_id_fun, id_eq, Option.map_id_fun]

theorem error_of_id (hchar : c.char = id) {error : Error}
    (haddr : ∀ name first, error = .duplicateLabel name first → c.addr first = first) :
    c.error error = error := by
  have hstring : ∀ text, c.string text = text := fun text => by
    rw [string, hchar, List.map_id, String.ofList_toList]
  cases error with
  | duplicateLabel name first => rw [Change.error, hstring, haddr name first rfl]
  | _ => simp only [Change.error, hstring]

theorem symbols_of_id (haddr : c.addr = id) (symbols : Symbols) : c.symbols symbols = symbols := by
  rw [Change.symbols, haddr, Prod.map_id, List.map_id]

end Change

-- ---------------------------------------------------------------------------
-- Statements
-- ---------------------------------------------------------------------------

def Symbols.distance? (symbols : Symbols) (pc : Word) (name : List Char) : Option Int :=
  (symbols.find? name).map fun addr => addr.toNat - pc.toNat

section Statements

variable {c : Change} {symbols symbols' : Symbols} {pc pc' : Word} {text : List Char}

theorem target_eq_distance (symbols : Symbols) (pc : Word) (text : List Char) :
    target symbols pc text =
      if (Numeral.immediate? text).isSome then immediate text
      else if !isName text then .error (.invalidImmediate (String.ofList text))
      else match symbols.distance? pc text with
        | none => .error (.undefinedLabel (String.ofList text))
        | some offset =>
          if fitsWord offset then .ok (.immediate offset)
          else .error (.invalidImmediate (String.ofList text)) := by
  unfold target Symbols.distance?
  cases symbols.find? text <;> rfl

variable (hchar : Text.KeepsLetters c.char)
include hchar

theorem isName_change (text : List Char) : isName (text.map c.char) = isName text := by
  cases text with
  | nil => rfl
  | cons first rest =>
    have hcontinues : continuesName ∘ c.char = continuesName :=
      funext (hchar.apply (Text.apply_toLower (by decide)))
    rw [List.map_cons, isName, isName, List.all_map, hcontinues,
      hchar.apply (p := startsName) (Text.apply_toLower (by decide))]

theorem register_change (text : List Char) :
    register (text.map c.char) = (register text).mapError c.error := by
  unfold register
  rw [Register.read?_map hchar]
  cases Register.read? text with
  | none => exact congrArg _ (congrArg _ (c.string_ofList text).symm)
  | some number => rfl

theorem immediate_change (text : List Char) :
    immediate (text.map c.char) = (immediate text).mapError c.error := by
  unfold immediate
  rw [Numeral.immediate?_map hchar]
  cases (Numeral.immediate? text).filter fitsWord with
  | none => exact congrArg _ (congrArg _ (c.string_ofList text).symm)
  | some value => rfl

theorem target_change (hdistance : symbols'.distance? pc' = symbols.distance? pc)
    (text : List Char) :
    target symbols' pc' (text.map c.char) = (target symbols pc text).mapError c.error := by
  have hlabel : symbols.distance? pc (text.map c.char) = symbols.distance? pc text := by
    rw [Symbols.distance?, Symbols.distance?, Symbols.find?, Symbols.find?, hchar.lower]
  rw [target_eq_distance, target_eq_distance, Numeral.immediate?_map hchar, immediate_change hchar,
    isName_change hchar, hdistance, hlabel]
  split
  · rfl
  · split
    · exact congrArg _ (congrArg _ (c.string_ofList text).symm)
    · cases symbols.distance? pc text with
      | none => exact congrArg _ (congrArg _ (c.string_ofList text).symm)
      | some offset =>
        dsimp only
        split
        · rfl
        · exact congrArg _ (congrArg _ (c.string_ofList text).symm)

theorem displaced?_change (text : List Char) : displaced? (text.map c.char) =
    (displaced? text).map (Prod.map (List.map c.char) (List.map c.char)) := by
  unfold displaced?
  rw [Text.splitFirst?_map (hchar.beq (by decide))]
  cases Text.splitFirst? (· == '(') text with
  | none => rfl
  | some parts =>
    obtain ⟨displacement, rest⟩ := parts
    have hclose : (rest.map c.char).getLast? = some ')' ↔ rest.getLast? = some ')' := by
      rw [List.getLast?_map, Option.map_eq_some_iff]
      simp only [hchar.eq_iff (by decide : ')'.isAlpha = false), exists_eq_right]
    have hzero : ['0'] = ['0'].map c.char := by rw [List.map_singleton, hchar.sign (by decide)]
    simp only [Option.map_some, Prod.map, hclose, Text.trim_map hchar, List.isEmpty_map,
      ← List.map_dropLast]
    split
    · split
      · conv => lhs; rw [hzero]
        rfl
      · rfl
    · rfl

theorem operands_change (hdistance : symbols'.distance? pc' = symbols.distance? pc) (op : Operation)
    (texts : List (List Char)) : operands symbols' pc' op (texts.map (List.map c.char)) =
      (operands symbols pc op texts).mapError c.error := by
  unfold operands
  rcases texts with _ | ⟨first, _ | ⟨second, _ | ⟨third, _ | ⟨fourth, rest⟩⟩⟩⟩ <;>
    cases op.format <;>
    simp only [List.map_cons, List.map_nil, mapError_bind, register_change hchar,
      immediate_change hchar, target_change hchar hdistance, displaced?_change hchar] <;> try rfl
  -- what is left are the addresses, of jumps, loads and stores
  case cons.cons.nil.i =>
    cases displaced? second with
    | none => cases op <;> rfl
    | some parts =>
      cases op
      case jalr =>
        simp only [Option.map_some, Prod.map, mapError_bind, register_change hchar,
          immediate_change hchar]
        rfl
      all_goals rfl
  case cons.cons.nil.load | cons.cons.nil.s =>
    cases displaced? second with
    | none => rfl
    | some parts =>
      simp only [Option.map_some, Prod.map, mapError_bind, register_change hchar,
        immediate_change hchar]
      rfl

theorem mnemonicAndRest_change (text : List Char) : mnemonicAndRest (text.map c.char) =
    Prod.map (List.map c.char) (List.map c.char) (mnemonicAndRest text) := by
  unfold mnemonicAndRest
  rw [Text.splitFirst?_map hchar.isBlank]
  cases Text.splitFirst? Text.isBlank text with
  | none => rfl
  | some parts => exact congrArg (Prod.mk _) (Text.trim_map hchar parts.2)

theorem operandTexts_change (text : List Char) :
    operandTexts (text.map c.char) = (operandTexts text).map (List.map c.char) := by
  unfold operandTexts
  rw [List.isEmpty_map, Text.pieces_map (hchar.beq (by decide)), apply_ite (List.map _),
    List.map_map, List.map_map]
  exact congrArg (ite _ _) (congrArg (List.map · _) (funext (Text.trim_map hchar)))

theorem encodeStatement_change (hdistance : symbols'.distance? pc' = symbols.distance? pc)
    (text : List Char) :
    encodeStatement symbols' pc' (text.map c.char) =
      (encodeStatement symbols pc text).mapError c.error := by
  unfold encodeStatement
  rw [mnemonicAndRest_change hchar]
  obtain ⟨mnemonic, rest⟩ := mnemonicAndRest text
  have hname : Operation.ofMnemonic? (mnemonic.map c.char) = Operation.ofMnemonic? mnemonic := by
    rw [Operation.ofMnemonic?, Operation.ofMnemonic?, hchar.lower]
  dsimp only [Prod.map]
  rw [hname, operandTexts_change hchar]
  cases Operation.ofMnemonic? mnemonic with
  | none => exact congrArg _ (congrArg _ (c.string_ofList mnemonic).symm)
  | some op =>
    dsimp only
    rw [operands_change hchar hdistance]
    cases operands symbols pc op (operandTexts rest) with
    | error e => rfl
    | ok given =>
      dsimp only [Except.mapError]
      cases op.encode given <;> rfl

end Statements

-- ---------------------------------------------------------------------------
-- Placed lines
-- ---------------------------------------------------------------------------

def assembled (lines : List (Word × Line)) : Except (List LineError) Program :=
  let (symbols, repeated) := define {} lines
  let results := encoded symbols lines
  let errors := repeated ++ encodingErrors results
  if errors.isEmpty then
    .ok { words := results.filterMap (·.2.toOption), lineMap := results.map (·.1), symbols }
  else .error (errors.mergeSort fun a b => a.line ≤ b.line)

theorem assemble_eq_assembled (origin : Word) (source : String) :
    assemble origin source = assembled (placed origin (sourceLines source)) := rfl

/-- What a change of a source may do: letters change their case, lines keep their order, and the
distances between the placed lines stay the same. -/
structure Change.Keeps (c : Change) (lines : List (Word × Line)) : Prop where
  letters : Text.KeepsLetters c.char
  order : ∀ m n, c.number m ≤ c.number n ↔ m ≤ n
  step : ∀ addr, c.addr (addr + 4) = c.addr addr + 4
  distance : ∀ a ∈ lines, ∀ b ∈ lines,
    ((c.addr a.1).toNat : Int) - (c.addr b.1).toNat = a.1.toNat - b.1.toNat

section Lines

variable {c : Change} {symbols : Symbols} {lines : List (Word × Line)} {addr : Word}

theorem lookup_map_id {name : List Char} (entries : List (List Char × Word)) (f : Word → Word) :
    (entries.map (Prod.map id f)).lookup name = (entries.lookup name).map f := by
  induction entries with
  | nil => rfl
  | cons entry entries ih =>
    rw [List.map_cons, List.lookup_cons, List.lookup_cons, ih]
    dsimp only [Prod.map, id]
    split <;> rfl

section

variable (hchar : Text.KeepsLetters c.char)
include hchar

theorem find?_change (symbols : Symbols) (name : List Char) :
    (c.symbols symbols).find? (name.map c.char) = (symbols.find? name).map c.addr := by
  rw [Symbols.find?, Change.symbols, lookup_map_id, hchar.lower, Symbols.find?]

theorem insert_change (symbols : Symbols) (name : List Char) (addr : Word) :
    (c.symbols symbols).insert (name.map c.char) (c.addr addr) =
      ((symbols.insert name addr).map c.symbols).mapError c.addr := by
  unfold Symbols.insert
  rw [find?_change hchar, hchar.lower]
  cases symbols.find? name <;> rfl

theorem enter_change (symbols : Symbols) (addr : Word) (line : Line) :
    (c.symbols symbols).enter (c.addr addr) (c.line line) =
      c.symbols (symbols.enter addr line) := by
  unfold Symbols.enter
  rw [Change.line]
  cases line.label with
  | none => rfl
  | some name =>
    dsimp only [Option.map_some]
    rw [insert_change hchar]
    cases symbols.insert name addr <;> rfl

theorem complaint?_change (symbols : Symbols) (line : Line) :
    (c.symbols symbols).complaint? (c.line line) = (symbols.complaint? line).map c.lineError := by
  unfold Symbols.complaint?
  rw [Change.line]
  cases line.label with
  | none => rfl
  | some name =>
    dsimp only [Option.map_some, Option.bind_some]
    rw [find?_change hchar]
    cases symbols.find? name with
    | none => rfl
    | some first => simp only [Option.map_some, Change.lineError, Change.error, c.string_ofList]

theorem define_change (symbols : Symbols) (lines : List (Word × Line)) :
    define (c.symbols symbols) (lines.map c.placed) =
      Prod.map c.symbols (List.map c.lineError) (define symbols lines) := by
  induction lines generalizing symbols with
  | nil => rfl
  | cons entry lines ih =>
    obtain ⟨addr, line⟩ := entry
    rw [List.map_cons, Change.placed, define_cons, define_cons, enter_change hchar,
      complaint?_change hchar, ih]
    simp only [Prod.map, List.map_append]
    cases symbols.complaint? line <;> rfl

end

theorem Change.Keeps.distance?_eq (h : c.Keeps lines) {entry : Word × Line}
    (hentry : entry ∈ lines) :
    (c.symbols (define {} lines).1).distance? (c.addr entry.1) =
      (define {} lines).1.distance? entry.1 := by
  funext name
  have hfind : (c.symbols (define {} lines).1).find? name =
      ((define {} lines).1.find? name).map c.addr :=
    lookup_map_id _ c.addr
  unfold Symbols.distance?
  rw [hfind]
  cases hname : (define {} lines).1.find? name with
  | none => rfl
  | some addr =>
    obtain ⟨line, hline, rfl⟩ := exists_of_find?_define hname
    exact congrArg some (h.distance line hline entry hentry)

theorem encoded_change (hchar : Text.KeepsLetters c.char)
    (hdistance : ∀ entry ∈ lines, (c.symbols symbols).distance? (c.addr entry.1) =
      symbols.distance? entry.1) :
    encoded (c.symbols symbols) (lines.map c.placed) =
      (encoded symbols lines).map fun (line, result) =>
        (c.number line, result.mapError c.error) := by
  induction lines with
  | nil => rfl
  | cons entry lines ih =>
    obtain ⟨addr, line⟩ := entry
    obtain ⟨hhead, hrest⟩ := List.forall_mem_cons.mp hdistance
    rw [List.map_cons, Change.placed, encoded_cons, encoded_cons, ih hrest]
    dsimp only [Change.line]
    cases line.instruction with
    | none => rfl
    | some text =>
      exact congrArg (· :: _) (congrArg (Prod.mk _) (encodeStatement_change hchar hhead text))

theorem encodingErrors_change (results : List (Nat × Except Error Word)) :
    encodingErrors (results.map fun (line, result) => (c.number line, result.mapError c.error)) =
      (encodingErrors results).map c.lineError := by
  rw [encodingErrors, encodingErrors, List.filterMap_map, List.map_filterMap]
  refine congrArg (List.filterMap · results) (funext fun (line, result) => ?_)
  cases result <;> rfl

theorem assembled_change (h : c.Keeps lines) :
    assembled (lines.map c.placed) = c.outcome (assembled lines) := by
  have hdefine := define_change h.letters {} lines
  unfold assembled
  rw [show c.symbols {} = {} from rfl] at hdefine
  have hencoded := encoded_change h.letters fun entry hentry => h.distance?_eq hentry
  have hwords : ∀ results : List (Nat × Except Error Word),
      (results.map fun (line, result) =>
        (c.number line, result.mapError c.error)).filterMap (·.2.toOption) =
        results.filterMap (·.2.toOption) := fun results => by
    rw [List.filterMap_map]
    exact congrArg (List.filterMap · results) (funext fun (_, result) => by cases result <;> rfl)
  simp only [hdefine, Prod.map, hencoded, encodingErrors_change, ← List.map_append,
    List.isEmpty_map]
  split
  · simp only [hwords, Change.outcome, Change.program, List.map_map]
    rfl
  · have horder : ∀ a b : LineError, (decide (a.line ≤ b.line)) =
        decide ((c.lineError a).line ≤ (c.lineError b).line) :=
      fun a b => decide_eq_decide.mpr (h.order a.line b.line).symm
    exact congrArg _ (List.map_mergeSort fun a _ b _ => horder a b).symm

theorem placed_change (hstep : ∀ addr, c.addr (addr + 4) = c.addr addr + 4) (origin : Word)
    (lines : List Line) :
    placed (c.addr origin) (lines.map c.line) = (placed origin lines).map c.placed := by
  induction lines generalizing origin with
  | nil => rfl
  | cons line lines ih =>
    have hnext : (if (c.line line).instruction.isSome then c.addr origin + 4 else c.addr origin) =
        c.addr (if line.instruction.isSome then origin + 4 else origin) := by
      rw [Change.line, Option.isSome_map, ← hstep, apply_ite c.addr]
    rw [List.map_cons, placed, placed, hnext, ih]
    rfl

/-- A source whose lines are changed gives the changed program, or the changed errors. -/
theorem assemble_change {origin : Word} {source changed : String}
    (hlines : sourceLines changed = (sourceLines source).map c.line)
    (h : c.Keeps (placed origin (sourceLines source))) :
    assemble (c.addr origin) changed = c.outcome (assemble origin source) := by
  rw [assemble_eq_assembled, assemble_eq_assembled, hlines, placed_change h.step,
    assembled_change h]

end Lines

end Assembly

end RiscvBoard
