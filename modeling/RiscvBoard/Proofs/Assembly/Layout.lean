import RiscvBoard.Proofs.Assembly.Line
import RiscvBoard.Proofs.Assembly.Passes
import RiscvBoard.Proofs.Assembly.Statement
import RiscvBoard.Proofs.Assembly.Symbols

/-!
# The layout of a program

A source that assembles has one word for each line with an instruction. The words
lie four bytes apart from the origin on, and a label has the address of the next
instruction. The counts are taken over the lines of the text, so that they say
the same for labels and for words, whatever stands between them.
-/

namespace RiscvBoard.Assembly

def hasInstruction (text : List Char) : Bool := (instructionOn? text).isSome

/-- The address of the next instruction at a line; the first line has index zero. -/
def addressAt (origin : Word) (texts : List (List Char)) (k : Nat) : Word :=
  origin + BitVec.ofNat 32 (4 * (texts.take k).countP hasInstruction)

/-- Some line has this name, in lower case, as its label, and the line has this address. -/
def Labels (origin : Word) (texts : List (List Char)) (name : List Char) (addr : Word) : Prop :=
  ∃ k text label, texts[k]? = some text ∧ labelOn? text = some label ∧ Text.lower label = name ∧
    addr = addressAt origin texts k

structure Layout (origin : Word) (texts : List (List Char)) (program : Program) : Prop where
  lines : ∀ text ∈ texts, ∀ label instruction,
    Carries text label instruction ↔ labelOn? text = label ∧ instructionOn? text = instruction
  length : program.words.length = texts.countP hasInstruction
  increasing : program.lineMap.Pairwise (· < ·)
  numbered : ∀ n, n ∈ program.lineMap ↔
    ∃ k text, n = k + 1 ∧ texts[k]? = some text ∧ hasInstruction text = true
  word : ∀ i w, program.words[i]? = some w → ∃ k text statement,
    program.lineMap[i]? = some (k + 1) ∧ texts[k]? = some text ∧
    instructionOn? text = some statement ∧
    addressAt origin texts k = origin + BitVec.ofNat 32 (4 * i) ∧
    encodeStatement program.symbols (origin + BitVec.ofNat 32 (4 * i)) statement = .ok w ∧
    ∃ instruction, decode w = .ok instruction ∧
      Text.lower (Text.before Text.isBlank statement) = instruction.op.mnemonic.toList
  entries : ∀ name addr, (name, addr) ∈ program.symbols.entries ↔ Labels origin texts name addr
  found : ∀ name addr, program.symbols.find? name = some addr ↔
    Labels origin texts (Text.lower name) addr
  distinct : program.symbols.Distinct
  size : program.symbols.size = texts.countP fun text => (labelOn? text).isSome

-- ---------------------------------------------------------------------------
-- Something on each line
-- ---------------------------------------------------------------------------

section

variable {β : Type} {f : List Char → Nat → Option β} {p : List Char → Bool}
  {texts : List (List Char)}

/-- What `f` finds on the lines, given a text and its index. -/
def onLines (f : List Char → Nat → Option β) (texts : List (List Char)) : List β :=
  texts.zipIdx.filterMap fun (text, k) => f text k

theorem onLines_cons (f : List Char → Nat → Option β) (text : List Char)
    (texts : List (List Char)) : onLines f (text :: texts) = match f text 0 with
      | none => onLines (fun text k => f text (k + 1)) texts
      | some b => b :: onLines (fun text k => f text (k + 1)) texts := by
  rw [onLines, List.zipIdx_cons, List.filterMap_cons, List.zipIdx_succ, List.filterMap_map]
  rfl

theorem filterMap_onLines {γ : Type} (g : β → Option γ) :
    (onLines f texts).filterMap g = onLines (fun text k => (f text k).bind g) texts :=
  List.filterMap_filterMap

theorem mem_onLines {b : β} :
    b ∈ onLines f texts ↔ ∃ k text, texts[k]? = some text ∧ f text k = some b := by
  rw [onLines, List.mem_filterMap]
  constructor
  · rintro ⟨⟨text, k⟩, hmem, hf⟩
    exact ⟨k, text, List.mem_zipIdx_iff_getElem?.mp hmem, hf⟩
  · rintro ⟨k, text, htext, hf⟩
    exact ⟨(text, k), List.mem_zipIdx_iff_getElem?.mpr htext, hf⟩

theorem length_onLines (h : ∀ text k, (f text k).isSome = p text) :
    (onLines f texts).length = texts.countP p := by
  induction texts generalizing f with
  | nil => rfl
  | cons text texts ih =>
    rw [onLines_cons, List.countP_cons, ← h text 0, ← ih fun text k => h text (k + 1)]
    cases f text 0 with
    | none => rfl
    | some b => rfl

theorem onLines_getElem? (h : ∀ text k, (f text k).isSome = p text) {i : Nat} {b : β}
    (hi : (onLines f texts)[i]? = some b) :
    ∃ k text, texts[k]? = some text ∧ f text k = some b ∧ (texts.take k).countP p = i := by
  induction texts generalizing f i with
  | nil => cases hi
  | cons text texts ih =>
    have hlater : ∀ j, (onLines (fun text k => f text (k + 1)) texts)[j]? = some b →
        j + (if p text then 1 else 0) = i →
        ∃ k other, (text :: texts)[k]? = some other ∧ f other k = some b ∧
          ((text :: texts).take k).countP p = i := by
      intro j hj hij
      obtain ⟨k, other, hk, hb, hcount⟩ := ih (fun text k => h text (k + 1)) hj
      refine ⟨k + 1, other, hk, hb, ?_⟩
      rw [List.take_succ_cons, List.countP_cons, hcount, hij]
    rw [onLines_cons] at hi
    cases hf : f text 0 with
    | none =>
      rw [hf] at hi
      exact hlater i hi (by rw [← h text 0, hf]; rfl)
    | some found =>
      rw [hf] at hi
      cases i with
      | zero =>
        cases hi
        exact ⟨0, text, rfl, hf, rfl⟩
      | succ i => exact hlater i hi (by rw [← h text 0, hf]; rfl)

end

-- ---------------------------------------------------------------------------
-- Lines
-- ---------------------------------------------------------------------------

theorem read?_number (number : Nat) (text : List Char) :
    Line.read? number text = (Line.read? 0 text).map fun line => { line with number } := by
  unfold Line.read?
  dsimp only
  split
  · rfl
  · split
    · split <;> rfl
    · rfl

theorem addressAt_zero (origin : Word) (texts : List (List Char)) :
    addressAt origin texts 0 = origin := by
  rw [addressAt, List.take_zero, List.countP_nil]
  exact BitVec.add_zero origin

theorem addressAt_succ (origin : Word) (text : List Char) (texts : List (List Char)) (k : Nat) :
    addressAt origin (text :: texts) (k + 1) =
      addressAt (if hasInstruction text then origin + 4 else origin) texts k := by
  rw [addressAt, addressAt, List.take_succ_cons, List.countP_cons]
  by_cases h : hasInstruction text = true
  · rw [if_pos h, if_pos h, Nat.mul_add, BitVec.ofNat_add, BitVec.add_comm (BitVec.ofNat 32 _),
      ← BitVec.add_assoc]
    rfl
  · rw [if_neg h, if_neg h, Nat.add_zero]

theorem sourceLines_eq (source : String) :
    sourceLines source =
      onLines (fun text k => Line.read? (k + 1) text) (Text.lines source.toList) := by
  rw [sourceLines, onLines, List.zipIdx_succ, List.filterMap_map]
  rfl

theorem placed_onLines {f : List Char → Nat → Option Line} (origin : Word)
    (texts : List (List Char))
    (hf : ∀ text k, (f text k).bind Line.instruction = instructionOn? text) :
    placed origin (onLines f texts) =
      onLines (fun text k => (f text k).map fun line =>
        (addressAt origin texts k, line)) texts := by
  induction texts generalizing origin f with
  | nil => rfl
  | cons text texts ih =>
    have hhead : hasInstruction text = ((f text 0).bind Line.instruction).isSome := by
      rw [hf, hasInstruction]
    have hrest := ih (if hasInstruction text then origin + 4 else origin) fun text k =>
      hf text (k + 1)
    simp only [onLines_cons, addressAt_zero, addressAt_succ]
    rw [← hrest, hhead]
    cases f text 0 with
    | none => rfl
    | some line => rfl

variable {symbols after : Symbols} {origin pc w : Word} {texts : List (List Char)} {source : String}
  {program : Program}

def results (symbols : Symbols) (origin : Word) (texts : List (List Char)) :
    List (Nat × Except Error Word) :=
  onLines (fun text k => (instructionOn? text).map fun statement =>
    (k + 1, encodeStatement symbols (addressAt origin texts k) statement)) texts

def labels (origin : Word) (texts : List (List Char)) : List (List Char × Word) :=
  onLines (fun text k => (labelOn? text).map fun label =>
    (Text.lower label, addressAt origin texts k)) texts

theorem placed_sourceLines (origin : Word) (source : String) : placed origin (sourceLines source) =
    onLines (fun text k => ((Line.read? 0 text).map fun line => { line with number := k + 1 }).map
      fun line => (addressAt origin (Text.lines source.toList) k, line))
      (Text.lines source.toList) := by
  simp only [← read?_number]
  rw [sourceLines_eq, placed_onLines]
  intro text k
  rw [read?_number, instructionOn?]
  cases Line.read? 0 text <;> rfl

theorem encoded_eq_results (symbols : Symbols) (origin : Word) (source : String) :
    encoded symbols (placed origin (sourceLines source)) =
      results symbols origin (Text.lines source.toList) := by
  rw [encoded, placed_sourceLines, filterMap_onLines, results]
  refine congrArg (onLines · (Text.lines source.toList)) (funext fun text => funext fun k => ?_)
  rw [instructionOn?]
  cases Line.read? 0 text with
  | none => rfl
  | some line => rfl

-- ---------------------------------------------------------------------------
-- Words
-- ---------------------------------------------------------------------------

theorem map_ok_toOption {outcomes : List (Nat × Except Error Word)}
    (h : ∀ result ∈ outcomes, result.2.isOk = true) :
    (outcomes.filterMap (·.2.toOption)).map .ok = outcomes.map (·.2) := by
  induction outcomes with
  | nil => rfl
  | cons result outcomes ih =>
    have hrest := ih fun other ho => h other (List.mem_cons_of_mem result ho)
    have hok := h result List.mem_cons_self
    obtain ⟨number, result⟩ := result
    cases result with
    | ok w => exact congrArg (.ok w :: ·) hrest
    | error error => cases hok

theorem assemble_eq_ok (h : assemble origin source = .ok program) :
    define {} (placed origin (sourceLines source)) = (program.symbols, []) ∧
      program.lineMap = (results program.symbols origin (Text.lines source.toList)).map (·.1) ∧
      program.words.map .ok =
        (results program.symbols origin (Text.lines source.toList)).map (·.2) := by
  simp only [assemble, encoded_eq_results] at h
  split at h
  · rename_i hempty
    obtain ⟨hrepeated, hresults⟩ := List.append_eq_nil_iff.mp (List.isEmpty_iff.mp hempty)
    have hprogram := Except.ok.inj h
    rw [← hprogram]
    dsimp only
    exact ⟨Prod.ext rfl hrepeated, rfl, map_ok_toOption (isOk_of_encodingErrors hresults)⟩
  · cases h

theorem length_results : (results symbols origin texts).length = texts.countP hasInstruction :=
  length_onLines fun _ _ => Option.isSome_map ..

theorem results_getElem? {i : Nat} {result : Nat × Except Error Word}
    (h : (results symbols origin texts)[i]? = some result) :
    ∃ k text statement, texts[k]? = some text ∧ instructionOn? text = some statement ∧
      result = (k + 1, encodeStatement symbols (addressAt origin texts k) statement) ∧
        addressAt origin texts k = origin + BitVec.ofNat 32 (4 * i) := by
  rw [results] at h
  obtain ⟨k, text, htext, hresult, hcount⟩ :=
    onLines_getElem? (p := hasInstruction) (fun _ _ => Option.isSome_map ..) h
  obtain ⟨statement, hstatement, rfl⟩ := Option.map_eq_some_iff.mp hresult
  refine ⟨k, text, statement, htext, hstatement, rfl, ?_⟩
  rw [addressAt, hcount]

theorem mem_numbers {n : Nat} : n ∈ (results symbols origin texts).map (·.1) ↔
    ∃ k text, n = k + 1 ∧ texts[k]? = some text ∧ hasInstruction text = true := by
  rw [List.mem_map]
  constructor
  · rintro ⟨result, hmem, rfl⟩
    obtain ⟨k, text, htext, hresult⟩ := mem_onLines.mp hmem
    obtain ⟨statement, hstatement, rfl⟩ := Option.map_eq_some_iff.mp hresult
    exact ⟨k, text, rfl, htext, Option.isSome_iff_exists.mpr ⟨statement, hstatement⟩⟩
  · rintro ⟨k, text, rfl, htext, hinstruction⟩
    obtain ⟨statement, hstatement⟩ := Option.isSome_iff_exists.mp hinstruction
    exact ⟨_, mem_onLines.mpr ⟨k, text, htext,
      Option.map_eq_some_iff.mpr ⟨statement, hstatement, rfl⟩⟩, rfl⟩

theorem pairwise_numbers : ((results symbols origin texts).map (·.1)).Pairwise (· < ·) := by
  refine List.pairwise_map.mpr (List.Pairwise.filterMap _ ?_ (pairwise_zipIdx texts 0))
  rintro ⟨_, j⟩ ⟨_, k⟩ hlt a ha b hb
  obtain ⟨_, -, rfl⟩ := Option.map_eq_some_iff.mp ha
  obtain ⟨_, -, rfl⟩ := Option.map_eq_some_iff.mp hb
  exact Nat.succ_lt_succ hlt

/-- A statement that has a word begins with the mnemonic of an operation, and the word decodes to
it. -/
theorem decode_of_encodeStatement {statement : List Char}
    (h : encodeStatement symbols pc statement = .ok w) : ∃ instruction, decode w = .ok instruction ∧
      Text.lower (Text.before Text.isBlank statement) = instruction.op.mnemonic.toList := by
  have hmnemonic : (mnemonicAndRest statement).1 = Text.before Text.isBlank statement := by
    have hall := List.takeWhile_append_dropWhile (p := (!Text.isBlank ·)) (l := statement)
    unfold mnemonicAndRest Text.splitFirst? Text.before
    cases hdrop : statement.dropWhile (!Text.isBlank ·) with
    | nil =>
      rw [hdrop, List.append_nil] at hall
      exact hall.symm
    | cons c rest => rfl
  obtain ⟨op, given, hop, -, hencode⟩ := encodeStatement_eq_ok_iff.mp h
  obtain ⟨instruction, hdecode, rfl, -⟩ := Operation.decode_of_encode hencode
  have hname := List.find?_some hop
  rw [← hmnemonic]
  exact ⟨instruction, hdecode, (of_decide_eq_true hname).symm⟩

-- ---------------------------------------------------------------------------
-- Labels
-- ---------------------------------------------------------------------------

def labelled (lines : List (Word × Line)) : List (List Char × Word) :=
  lines.filterMap fun (addr, line) => line.label.map fun label => (Text.lower label, addr)

theorem labelled_cons (addr : Word) (line : Line) (rest : List (Word × Line)) :
    labelled ((addr, line) :: rest) = match line.label with
      | none => labelled rest
      | some label => (Text.lower label, addr) :: labelled rest := by
  rw [labelled, List.filterMap_cons]
  dsimp only
  cases line.label with
  | none => rfl
  | some label => rfl

theorem labelled_eq_labels (origin : Word) (source : String) :
    labelled (placed origin (sourceLines source)) = labels origin (Text.lines source.toList) := by
  rw [labelled, placed_sourceLines, filterMap_onLines, labels]
  refine congrArg (onLines · (Text.lines source.toList)) (funext fun text => funext fun k => ?_)
  rw [labelOn?]
  cases Line.read? 0 text with
  | none => rfl
  | some line => rfl

theorem define_eq {lines : List (Word × Line)} (h : define symbols lines = (after, [])) :
    after.entries = (labelled lines).reverse ++ symbols.entries ∧
      (symbols.Distinct → after.Distinct) := by
  induction lines generalizing symbols with
  | nil =>
    cases h
    exact ⟨rfl, id⟩
  | cons entry lines ih =>
    obtain ⟨addr, line⟩ := entry
    rw [define] at h
    rw [labelled_cons]
    cases hlabel : line.label with
    | none =>
      rw [hlabel] at h
      exact ih h
    | some name =>
      simp only [hlabel] at h
      cases hinsert : symbols.insert name addr with
      | error first =>
        rw [hinsert] at h
        cases h
      | ok next =>
        rw [hinsert] at h
        obtain ⟨hentries, hdistinct⟩ := ih h
        obtain ⟨-, hnext⟩ := Symbols.insert_eq_ok_iff.mp hinsert
        refine ⟨?_, fun hs => hdistinct (hs.insert hinsert)⟩
        rw [hentries, hnext, List.reverse_cons, List.append_assoc]
        rfl

theorem mem_labels {name : List Char} {addr : Word} :
    (name, addr) ∈ labels origin texts ↔ Labels origin texts name addr := by
  rw [labels, mem_onLines]
  constructor
  · rintro ⟨k, text, htext, hentry⟩
    obtain ⟨label, hlabel, hpair⟩ := Option.map_eq_some_iff.mp hentry
    obtain ⟨hname, haddr⟩ := Prod.mk.inj hpair
    exact ⟨k, text, label, htext, hlabel, hname, haddr.symm⟩
  · rintro ⟨k, text, label, htext, hlabel, rfl, rfl⟩
    exact ⟨k, text, htext, Option.map_eq_some_iff.mpr ⟨label, hlabel, rfl⟩⟩

theorem length_labels :
    (labels origin texts).length = texts.countP fun text => (labelOn? text).isSome :=
  length_onLines fun _ _ => Option.isSome_map ..

-- ---------------------------------------------------------------------------
-- Programs
-- ---------------------------------------------------------------------------

/-- One pass over the lines and two passes give the same programs, and a program has the layout of
its source. -/
theorem assemble_layout (origin : Word) (source : String) :
    assembleTwice origin source = assemble origin source ∧
      ∀ program, assemble origin source = .ok program →
        Layout origin (Text.lines source.toList) program := by
  refine ⟨assembleTwice_eq origin source, fun program h => ?_⟩
  obtain ⟨hdefine, hlines, hwords⟩ := assemble_eq_ok h
  obtain ⟨hentries, hdistinct⟩ := define_eq hdefine
  rw [labelled_eq_labels, List.append_nil] at hentries
  replace hdistinct := hdistinct Symbols.distinct_empty
  have hlabels : ∀ name addr, (name, addr) ∈ program.symbols.entries ↔
      Labels origin (Text.lines source.toList) name addr := fun name addr => by
    rw [hentries, List.mem_reverse, mem_labels]
  constructor
  case lines => exact fun text _ label instruction => carries_iff
  case length =>
    have hlength := congrArg List.length hwords
    rwa [List.length_map, List.length_map, length_results] at hlength
  case increasing =>
    rw [hlines]
    exact pairwise_numbers
  case numbered =>
    intro n
    rw [hlines, mem_numbers]
  case word =>
    intro i w hw
    have hresult : ((results program.symbols origin (Text.lines source.toList)).map (·.2))[i]? =
        some (.ok w) := by
      rw [← hwords, List.getElem?_map, hw]
      rfl
    rw [List.getElem?_map, Option.map_eq_some_iff] at hresult
    obtain ⟨result, hresult, hencode⟩ := hresult
    obtain ⟨k, text, statement, htext, hstatement, rfl, haddr⟩ := results_getElem? hresult
    rw [haddr] at hencode
    have hline : program.lineMap[i]? = some (k + 1) := by
      rw [hlines, List.getElem?_map, hresult]
      rfl
    exact ⟨k, text, statement, hline, htext, hstatement, haddr, hencode,
      decode_of_encodeStatement hencode⟩
  case entries => exact hlabels
  case found => exact fun name addr => (Symbols.find?_eq_some_iff hdistinct).trans (hlabels ..)
  case distinct => exact hdistinct
  case size => rw [Symbols.size, hentries, List.length_reverse, length_labels]

def wrapping : String :=
  "# counts\r\n\nLoop: addi a0, a0, 1 // once\r\nHere:\n\tBNE a0, a1, here\nend:\n"

def wrapped : Program where
  words := [0x00150513, 0x00B51063]
  lineMap := [3, 5]
  symbols := ⟨[("end".toList, 4), ("here".toList, 0), ("loop".toList, 0xFFFFFFFC)]⟩

theorem assemble_layout_wrapping :
    assemble 0xFFFFFFFC wrapping = .ok wrapped ∧
      Layout 0xFFFFFFFC (Text.lines wrapping.toList) wrapped := by
  have hprogram : assemble 0xFFFFFFFC wrapping = .ok wrapped := rfl
  exact ⟨hprogram, (assemble_layout 0xFFFFFFFC wrapping).2 wrapped hprogram⟩

end RiscvBoard.Assembly
