import Mathlib.Order.Monotone.Basic
import RiscvBoard.Proofs.Assembly.Change
import RiscvBoard.Proofs.Assembly.Place

/-!
# Comments, empty lines and labels on lines of their own

A source can be spaced out without another effect than on the numbers of its
lines. A comment says nothing, a line without a label and an instruction is no
line of the program, and a label names the next instruction whether it is on the
same line or not.
-/

namespace RiscvBoard.Assembly

/-- A line of blanks and perhaps a comment. -/
def Silent (text : List Char) : Prop :=
  ∃ lead comment, text = lead ++ comment ∧ lead.all Text.isBlank = true ∧ Comment comment

def later (place : Nat → Nat) : Nat → Nat
  | 0 => 0
  | k + 1 => place k + 1

/-- The second text has the lines of the first one and silent lines between them. Line `k` of the
first is line `place k` of the second, counted from zero. -/
inductive Spaced : List (List Char) → List (List Char) → (Nat → Nat) → Prop
  | nil : Spaced [] [] id
  | keep {text : List Char} {texts others : List (List Char)} {place : Nat → Nat}
      (h : Spaced texts others place) :
      Spaced (text :: texts) (text :: others) (later place)
  | insert {text : List Char} {texts others : List (List Char)} {place : Nat → Nat}
      (hsilent : Silent text)
      (h : Spaced texts others place) : Spaced texts (text :: others) fun k => place k + 1

def renumbered (number : Nat → Nat) :
    Except (List LineError) Program → Except (List LineError) Program
  | .ok program => .ok { program with lineMap := program.lineMap.map number }
  | .error errors => .error (errors.map fun e => { e with line := number e.line })

structure Spacing (origin : Word) (source : String) : Prop where
  comment : ∀ k lead comment after, lead.all Text.isBlank = true →
    Text.lines after.toList = (Text.lines source.toList).modify k (· ++ (lead ++ '#' :: comment)) →
    assemble origin after = assemble origin source
  lines : ∀ place after, Spaced (Text.lines source.toList) (Text.lines after.toList) place →
    StrictMono place ∧
      (∀ k text, (Text.lines source.toList)[k]? = some text →
        (Text.lines after.toList)[place k]? = some text) ∧
      assemble origin after = renumbered (later place) (assemble origin source)
  /-- The label before an instruction may stand on a line of its own. -/
  label : ∀ front text back name statement program,
    Text.lines source.toList = front ++ text :: back →
    Carries text (some name) (some statement) → assemble origin source = .ok program →
    Carries (name ++ [':']) (some name) none ∧ Carries statement none (some statement) ∧
      ∀ own instruction after, Carries own (some name) none →
        Carries instruction none (some statement) →
        Text.lines after.toList = front ++ own :: instruction :: back →
        assemble origin after = .ok { program with
          lineMap := program.lineMap.map fun n => if n ≤ front.length then n else n + 1 }

variable {text other lead comment name statement : List Char}
  {texts others front back : List (List Char)}
  {place : Nat → Nat} {origin addr : Word} {source after : String} {program : Program}

-- ---------------------------------------------------------------------------
-- Comments and silent lines
-- ---------------------------------------------------------------------------

theorem read?_of_trim_eq (h : Text.trim (uncommented text) = Text.trim (uncommented other))
    (number : Nat) : Line.read? number text = Line.read? number other := by
  unfold Line.read?
  rw [h]

theorem uncommented_append_or (text : List Char) {rest : List Char}
    (h : ∀ c ∈ rest.head?, c ≠ '/') : uncommented (text ++ rest) = uncommented text ∨
      uncommented text = text ∧ uncommented (text ++ rest) = text ++ uncommented rest := by
  induction text with
  | nil => exact .inr ⟨rfl, rfl⟩
  | cons c text ih =>
    -- only a slash at the end could begin a comment together with what follows
    have hcomment : Comment (c :: (text ++ rest)) → Comment (c :: text) := by
      intro hc
      generalize hall : text ++ rest = all at hc
      cases hc with
      | hash => exact .hash text
      | slashes =>
        cases text with
        | nil =>
          rw [List.nil_append] at hall
          rw [hall] at h
          exact absurd rfl (h '/' rfl)
        | cons d text =>
          rw [List.cons_append, List.cons.injEq] at hall
          rw [hall.1]
          exact .slashes text
    by_cases hc : Comment (c :: text)
    · refine .inl ?_
      cases hc <;> rfl
    · rw [List.cons_append, uncommented_cons hc, uncommented_cons fun h => hc (hcomment h)]
      exact ih.imp (congrArg (c :: ·)) (And.imp (congrArg (c :: ·)) (congrArg (c :: ·)))

theorem read?_append_comment (hlead : lead.all Text.isBlank = true) (text comment : List Char)
    (number : Nat) :
    Line.read? number (text ++ (lead ++ '#' :: comment)) = Line.read? number text := by
  have hhead : ∀ c ∈ (lead ++ '#' :: comment).head?, c ≠ '/' := by
    intro c hc
    cases lead with
    | nil =>
      cases hc
      decide
    | cons blank lead =>
      cases hc
      rw [List.all_cons, Bool.and_eq_true] at hlead
      rintro rfl
      exact absurd hlead.1 (by decide)
  have hrest : uncommented (lead ++ '#' :: comment) = lead := by
    rw [uncommented_append_of_isSource (isSource_of_all hlead),
      uncommented_of_comment (.hash comment), List.append_nil]
  refine read?_of_trim_eq ?_ number
  rcases uncommented_append_or text hhead with h | ⟨hself, h⟩
  · rw [h]
  · rw [h, hself, hrest, Text.trim_append_of_all hlead]

theorem read?_silent (h : Silent text) (number : Nat) : Line.read? number text = none := by
  obtain ⟨lead, comment, rfl, hlead, hcomment⟩ := h
  have htrim : Text.trim (uncommented (lead ++ comment)) = [] := by
    rw [uncommented_append_of_isSource (isSource_of_all hlead), uncommented_of_comment hcomment,
      Text.trim_append_left hlead]
    rfl
  unfold Line.read?
  rw [htrim]
  rfl

theorem read?_of_carries {label instruction : Option (List Char)}
    (h : Carries text label instruction) (hany : label ≠ none ∨ instruction ≠ none) (number : Nat) :
    Line.read? number text = some ⟨number, label, instruction⟩ := by
  obtain ⟨rfl, rfl⟩ := carries_iff.mp h
  rw [read?_number]
  unfold labelOn? instructionOn? at hany ⊢
  cases hread : Line.read? 0 text with
  | none =>
    rw [hread] at hany
    exact hany.elim (fun h => absurd rfl h) fun h => absurd rfl h
  | some line => rfl

-- ---------------------------------------------------------------------------
-- Lines of a source that is spaced out
-- ---------------------------------------------------------------------------

section OnLines

variable {β : Type} {f : List Char → Nat → Option β}

theorem onLines_append (front back : List (List Char)) :
    onLines f (front ++ back) = onLines f front ++
      onLines (fun text k => f text (k + front.length)) back := by
  rw [onLines, List.zipIdx_append, List.filterMap_append, Nat.zero_add, onLines, onLines,
    List.zipIdx_eq_map_add (i := front.length), List.filterMap_map]
  simp only [Function.comp_def, Nat.add_comm]

theorem onLines_modify {g : List Char → List Char}
    (h : ∀ text k, f (g text) k = f text k) (k : Nat) :
    onLines f (texts.modify k g) = onLines f texts := by
  induction texts generalizing f k with
  | nil => rw [List.modify_nil]
  | cons text texts ih =>
    cases k with
    | zero => rw [List.modify_zero_cons, onLines_cons, onLines_cons, h]
    | succ k =>
      rw [List.modify_succ_cons, onLines_cons, onLines_cons, ih fun text k => h text (k + 1)]

/-- What is found on the lines is found where they are now, if nothing is found on silent ones. -/
theorem Spaced.onLines_eq (h : Spaced texts others place)
    (hsilent : ∀ text k, Silent text → f text k = none) :
    onLines f others = onLines (fun text k => f text (place k)) texts := by
  -- behind the first line `f` is asked for the next index, so that it is not the same throughout
  induction h generalizing f with
  | nil => rfl
  | keep _ ih =>
    rw [onLines_cons, onLines_cons, ih fun text k => hsilent text (k + 1)]
    rfl
  | insert htext _ ih =>
    rw [onLines_cons, hsilent _ 0 htext]
    exact ih fun text k => hsilent text (k + 1)

end OnLines

theorem strictMono_later (h : StrictMono place) : StrictMono (later place) := by
  refine strictMono_nat_of_lt_succ fun k => ?_
  cases k with
  | zero => exact Nat.succ_pos _
  | succ k => exact Nat.succ_lt_succ (h (Nat.lt_succ_self k))

theorem Spaced.strictMono (h : Spaced texts others place) : StrictMono place := by
  induction h with
  | nil => exact strictMono_id
  | keep _ ih => exact strictMono_later ih
  | insert _ _ ih => exact fun _ _ hlt => Nat.succ_lt_succ (ih hlt)

theorem Spaced.getElem? (h : Spaced texts others place) {k : Nat} (htext : texts[k]? = some text) :
    others[place k]? = some text := by
  induction h generalizing k with
  | nil => cases htext
  | keep _ ih =>
    cases k with
    | zero => exact htext
    | succ k => exact ih htext
  | insert _ _ ih => exact ih htext

theorem Spaced.refl (texts : List (List Char)) : Spaced texts texts id := by
  have hlater : later id = id := funext fun k => by cases k <;> rfl
  induction texts with
  | nil => exact .nil
  | cons text texts ih => exact hlater ▸ ih.keep

theorem spaced_insert (hsilent : Silent text) (front back : List (List Char)) :
    Spaced (front ++ back) (front ++ text :: back)
      fun k => if k < front.length then k else k + 1 := by
  induction front with
  | nil => exact (Spaced.refl back).insert hsilent
  | cons first front ih =>
    have hlater : (later fun k => if k < front.length then k else k + 1) =
        fun k => if k < (first :: front).length then k else k + 1 := by
      funext k
      cases k with
      | zero => rfl
      | succ k => simp only [later, List.length_cons, Nat.succ_lt_succ_iff, apply_ite (· + 1)]
    exact hlater ▸ ih.keep

theorem Spaced.map_line (h : Spaced texts others place) :
    onLines (fun text k => Line.read? (k + 1) text) others =
      (onLines (fun text k => Line.read? (k + 1) text) texts).map
        ({ number := later place } : Change).line := by
  rw [h.onLines_eq fun text k htext => read?_silent htext (k + 1), onLines, onLines,
    List.map_filterMap]
  refine congrArg (List.filterMap · texts.zipIdx) (funext fun entry => ?_)
  obtain ⟨text, k⟩ := entry
  dsimp only
  rw [read?_number, read?_number (k + 1)]
  cases Line.read? 0 text with
  | none => rfl
  | some line =>
    rw [Option.map_some, Option.map_some, Option.map_some, Change.line_of_id rfl]
    rfl

theorem keeps_number {number : Nat → Nat} (h : StrictMono number) (lines : List (Word × Line)) :
    ({ number } : Change).Keeps lines where
  letters := Text.keepsLetters_id
  order _ _ := h.le_iff_le
  step _ := rfl
  distance _ _ _ _ := rfl

theorem outcome_number (number : Nat → Nat) (result : Except (List LineError) Program) :
    ({ number } : Change).outcome result = renumbered number result := by
  cases result with
  | ok program => rw [Change.outcome, Change.program, Change.symbols_of_id rfl, renumbered]
  | error errors =>
    refine congrArg Except.error (List.map_congr_left fun e _ => ?_)
    rw [Change.lineError, Change.error_of_id rfl fun _ _ _ => rfl]

theorem assembled_renumbered (origin : Word) (h : Spaced (Text.lines source.toList) others place) :
    assembled (placed origin (onLines (fun text k => Line.read? (k + 1) text) others)) =
      renumbered (later place) (assemble origin source) := by
  have hkeeps := keeps_number (strictMono_later h.strictMono) (placed origin (sourceLines source))
  rw [h.map_line, ← sourceLines_eq, ← outcome_number, assemble_eq_assembled,
    ← assembled_change hkeeps, ← placed_change hkeeps.step]
  rfl

-- ---------------------------------------------------------------------------
-- A label on a line of its own
-- ---------------------------------------------------------------------------

theorem define_append (symbols : Symbols) (front back : List (Word × Line)) :
    define symbols (front ++ back) = ((define (define symbols front).1 back).1,
      (define symbols front).2 ++ (define (define symbols front).1 back).2) := by
  induction front generalizing symbols with
  | nil => rfl
  | cons entry front ih =>
    obtain ⟨addr, line⟩ := entry
    rw [List.cons_append, define_cons, define_cons, ih, List.append_assoc]

theorem exists_placed_append (origin : Word) (front : List Line) :
    ∃ addr, ∀ back, placed origin (front ++ back) = placed origin front ++ placed addr back := by
  induction front generalizing origin with
  | nil => exact ⟨origin, fun _ => rfl⟩
  | cons line front ih =>
    obtain ⟨addr, hplaced⟩ := ih (if line.instruction.isSome then origin + 4 else origin)
    refine ⟨addr, fun back => ?_⟩
    rw [List.cons_append, placed, placed, hplaced, List.cons_append]

theorem assembled_eq_ok {lines others : List (Word × Line)} (h : assembled lines = .ok program)
    (htable : (define {} others).1 = (define {} lines).1)
    (hcomplaints : (define {} lines).2 = [] → (define {} others).2 = [])
    (hencoded : ∀ symbols, encoded symbols others = encoded symbols lines) :
    assembled others = .ok program := by
  unfold assembled at h ⊢
  dsimp only at h ⊢
  rw [htable, hencoded]
  split at h
  · rename_i hempty
    obtain ⟨hlines, hresults⟩ := List.append_eq_nil_iff.mp (List.isEmpty_iff.mp hempty)
    rw [hcomplaints hlines, hresults]
    exact h
  · cases h

theorem assembled_parted {front back : List Line} {m n : Nat}
    (h : assembled (placed origin (front ++ ⟨n, some name, some statement⟩ :: back)) =
      .ok program) :
    assembled (placed origin (front ++ ⟨m, some name, none⟩ :: ⟨n, none, some statement⟩ :: back)) =
      .ok program := by
  obtain ⟨addr, hplaced⟩ := exists_placed_append origin front
  rw [hplaced] at h ⊢
  have hcomplaint : ∀ symbols : Symbols,
      (symbols.complaint? ⟨n, some name, some statement⟩).toList = [] →
      (symbols.complaint? ⟨m, some name, none⟩).toList = [] := by
    intro symbols hnone
    unfold Symbols.complaint? at hnone ⊢
    dsimp only [Option.bind_some] at hnone ⊢
    cases hfind : symbols.find? name with
    | none => rfl
    | some first =>
      rw [hfind] at hnone
      cases hnone
  refine assembled_eq_ok h ?_ ?_ ?_
  · rw [define_append, define_append]
    simp only [placed, define_cons]
    rfl
  · rw [define_append, define_append]
    simp only [placed, define_cons, List.append_eq_nil_iff]
    rintro ⟨hfront, hline, hback⟩
    exact ⟨hfront, hcomplaint _ hline, rfl, hback⟩
  · intro symbols
    rw [encoded, encoded, List.filterMap_append, List.filterMap_append]
    rfl

theorem carries_label (h : Carries text (some name) (some statement)) :
    Carries (name ++ [':']) (some name) none := by
  obtain ⟨said, bare, -, -, hsays⟩ := h
  cases hsays with
  | both _ hhead hname =>
    obtain ⟨-, -, -, -, -, htight⟩ := hhead
    exact carries_iff.mpr (read_of_label (Text.pads_iff.mpr (Text.trim_of_tight htight)) hname [])

theorem carries_instruction (h : Carries text (some name) (some statement))
    (hsource : IsSource statement) : Carries statement none (some statement) := by
  obtain ⟨said, bare, -, -, hsays⟩ := h
  cases hsays with
  | both _ _ _ hrest hne =>
    obtain ⟨-, -, -, -, -, htight⟩ := hrest
    obtain ⟨hlabel, hinstruction⟩ := read_of_isSource hsource
    rw [Text.trim_of_tight htight, present?_of_ne_nil hne] at hinstruction
    exact carries_iff.mpr ⟨hlabel, hinstruction⟩

theorem assemble_parted {front back : List (List Char)} {own instruction : List Char}
    (hsource : Text.lines source.toList = front ++ text :: back)
    (htext : Carries text (some name) (some statement))
    (h : assemble origin source = .ok program) (hown : Carries own (some name) none)
    (hinstruction : Carries instruction none (some statement))
    (hafter : Text.lines after.toList = front ++ own :: instruction :: back) :
    assemble origin after = .ok
      { program with lineMap := program.lineMap.map fun n =>
          if n ≤ front.length then n else n + 1 } := by
  have hnumber : (later fun k => if k < front.length then k else k + 1) =
      fun n => if n ≤ front.length then n else n + 1 := by
    funext n
    cases n with
    | zero => rfl
    | succ k => simp only [later, Nat.succ_le_iff, apply_ite (· + 1)]
  have hspaced : Spaced (Text.lines source.toList) (front ++ [] :: text :: back)
      fun k => if k < front.length then k else k + 1 := by
    rw [hsource]
    exact spaced_insert ⟨[], [], rfl, rfl, .none⟩ front (text :: back)
  have hsilent : ∀ number, Line.read? number [] = none := fun _ => rfl
  have hempty := assembled_renumbered origin hspaced
  rw [h, renumbered, hnumber, onLines_append, onLines_cons, onLines_cons] at hempty
  simp only [hsilent, read?_of_carries htext (.inl (Option.some_ne_none name))] at hempty
  rw [assemble_eq_assembled, sourceLines_eq, hafter, onLines_append, onLines_cons, onLines_cons]
  simp only [read?_of_carries hown (.inl (Option.some_ne_none name)),
    read?_of_carries hinstruction (.inr (Option.some_ne_none statement))]
  exact assembled_parted hempty

/-- The layout of a source does not matter. -/
theorem spacing (origin : Word) (source : String) : Spacing origin source where
  comment k lead comment after hlead hafter := by
    have hlines : sourceLines after = sourceLines source := by
      rw [sourceLines_eq, sourceLines_eq, hafter]
      exact onLines_modify (fun text j => read?_append_comment hlead text comment (j + 1)) k
    rw [assemble_eq_assembled, assemble_eq_assembled, hlines]
  lines place after h := by
    refine ⟨h.strictMono, fun _ _ => h.getElem?, ?_⟩
    rw [assemble_eq_assembled, sourceLines_eq]
    exact assembled_renumbered origin h
  label front text back name statement program hsource hcarries h := by
    have hstatement : IsSource statement := by
      have hmem : text ∈ Text.lines source.toList := by
        rw [hsource]
        exact List.mem_append_right front List.mem_cons_self
      obtain ⟨symbols, pc, w, hencode⟩ :=
        encodes_of_assemble h text hmem statement (carries_iff.mp hcarries).2
      exact (isSource_of_encodeStatement hencode).1
    exact ⟨carries_label hcarries, carries_instruction hcarries hstatement,
      fun own instruction after hown hinstruction hafter =>
      assemble_parted hsource hcarries h hown hinstruction hafter⟩

def plainLoop : String := "loop: addi a0, a0, -1\nbne a0, x0, loop\n"

def spacedLoop : String :=
  "# count: down\nloop: addi a0, a0, -1\n\n  // jal x0, loop\nbne a0, x0, loop\n \t\n"

theorem spacing_loop : ∃ program, assemble 0x80000000 plainLoop = .ok program ∧
    program.lineMap = [1, 2] ∧
    assemble 0x80000000 "loop: addi a0, a0, -1\nbne a0, x0, loop# again: jal x0, loop\n" =
      .ok program ∧
    assemble 0x80000000 spacedLoop = .ok { program with lineMap := [2, 5] } ∧
    assemble 0x80000000 "loop:\naddi a0, a0, -1\nbne a0, x0, loop\n" =
      .ok { program with lineMap := [2, 3] } := by
  obtain ⟨program, hprogram, hlineMap⟩ : ∃ program, assemble 0x80000000 plainLoop = .ok program ∧
    program.lineMap = [1, 2] := ⟨_, rfl, rfl⟩
  have hcomment := (spacing 0x80000000 plainLoop).comment 1 [] " again: jal x0, loop".toList
    "loop: addi a0, a0, -1\nbne a0, x0, loop# again: jal x0, loop\n" rfl (by decide +kernel)
  have hspaced : Spaced (Text.lines plainLoop.toList) (Text.lines spacedLoop.toList) _ :=
    .insert ⟨[], _, rfl, rfl, .hash _⟩ (.keep (.insert ⟨[], _, rfl, rfl, .none⟩
      (.insert ⟨[' ', ' '], _, rfl, rfl, .slashes _⟩
        (.keep (.insert ⟨[' ', '\t'], _, rfl, rfl, .none⟩ .nil)))))
  obtain ⟨-, -, hlines⟩ := (spacing 0x80000000 plainLoop).lines _ spacedLoop hspaced
  obtain ⟨hown, hinstruction, hlabel⟩ :=
    (spacing 0x80000000 plainLoop).label [] "loop: addi a0, a0, -1".toList
    ["bne a0, x0, loop".toList] "loop".toList "addi a0, a0, -1".toList program rfl
      (carries_iff.mpr ⟨rfl, rfl⟩) hprogram
  have hparted := hlabel _ _ "loop:\naddi a0, a0, -1\nbne a0, x0, loop\n" hown hinstruction rfl
  rw [hprogram] at hcomment
  rw [hprogram, renumbered, hlineMap] at hlines
  rw [hlineMap] at hparted
  exact ⟨program, hprogram, hlineMap, hcomment, hlines, hparted⟩

end RiscvBoard.Assembly
