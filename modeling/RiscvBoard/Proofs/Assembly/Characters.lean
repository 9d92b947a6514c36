import RiscvBoard.Proofs.Assembly.Layout
import RiscvBoard.Proofs.Text.Digits

/-!
# The characters of a source

An instruction that can be encoded has two operands at least, so there is a
comma in it. It is made of letters, digits, blanks and a few signs, and a label
of fewer. So a line of a program has no other characters before its comment.
-/

namespace RiscvBoard

namespace Text

variable {p : Char → Bool} {text : List Char}

theorem forall_mem_of_trim (hblank : ∀ c, isBlank c = true → p c = true)
    (h : ∀ c ∈ trim text, p c = true) : ∀ c ∈ text, p c = true := by
  obtain ⟨lead, trail, htext, hlead, htrail, -⟩ := pads_trim text
  intro c hc
  rw [htext] at hc
  rcases List.mem_append.mp hc with hc | hc
  · exact hblank c (List.all_eq_true.mp hlead c hc)
  · rcases List.mem_append.mp hc with hc | hc
    · exact h c hc
    · exact hblank c (List.all_eq_true.mp htrail c hc)

theorem mem_trim {c : Char} (h : c ∈ text) (hc : isBlank c = false) : c ∈ trim text := by
  obtain ⟨lead, trail, htext, hlead, htrail, -⟩ := pads_trim text
  rw [htext] at h
  rcases List.mem_append.mp h with h | h
  · exact absurd (List.all_eq_true.mp hlead c h) (Bool.eq_false_iff.mp hc)
  · rcases List.mem_append.mp h with h | h
    · exact h
    · exact absurd (List.all_eq_true.mp htrail c h) (Bool.eq_false_iff.mp hc)

/-- A character is in one of the pieces, or it is a separator. -/
theorem exists_piece (p : Char → Bool) {c : Char} (h : c ∈ text) :
    p c = true ∨ ∃ piece ∈ pieces p text, c ∈ piece := by
  induction text with
  | nil => cases h
  | cons a text ih =>
    cases ha : p a with
    | true =>
      rw [pieces_cons_of_sep ha]
      rcases List.mem_cons.mp h with rfl | h
      · exact .inl ha
      · exact (ih h).imp_right fun ⟨piece, hp, hc⟩ => ⟨piece, List.mem_cons_of_mem _ hp, hc⟩
    | false =>
      obtain ⟨first, others, hpieces⟩ := List.exists_cons_of_ne_nil (pieces_ne_nil p text)
      rw [pieces_cons_of_not_sep ha hpieces]
      rw [hpieces] at ih
      rcases List.mem_cons.mp h with rfl | h
      · exact .inr ⟨_, List.mem_cons_self, List.mem_cons_self⟩
      · refine (ih h).imp_right ?_
        rintro ⟨piece, hp, hc⟩
        rcases List.mem_cons.mp hp with rfl | hp
        · exact ⟨_, List.mem_cons_self, List.mem_cons_of_mem a hc⟩
        · exact ⟨piece, List.mem_cons_of_mem _ hp, hc⟩

end Text

namespace Assembly

def isSource (c : Char) : Bool :=
  Numeral.isNumeric c || ['_', ',', '(', ')'].contains c || Text.isBlank c

def IsSource (text : List Char) : Prop := ∀ c ∈ text, isSource c = true

variable {symbols : Symbols} {pc w : Word} {op : Operation} {text : List Char}
  {texts : List (List Char)} {operand : Operand} {given : List Operand}

theorem isSource_of_isBlank {c : Char} (h : Text.isBlank c = true) : isSource c = true := by
  simp [isSource, h]

theorem isSource_of_isNumeric (h : ∀ c ∈ text, Numeral.isNumeric c = true) : IsSource text := by
  intro c hc
  simp [isSource, h c hc]

theorem isSource_of_trim (h : IsSource (Text.trim text)) : IsSource text :=
  Text.forall_mem_of_trim (fun _ => isSource_of_isBlank) h

theorem isSource_of_pads {inner : List Char} (h : Text.Pads text inner) (hinner : IsSource inner) :
    IsSource text := by
  rw [← Text.pads_iff.mp h] at hinner
  exact isSource_of_trim hinner

theorem isSource_of_isName (h : isName text = true) : IsSource text := by
  have hcontinues : ∀ c, continuesName c = true → isSource c = true := by
    intro c hc
    rcases Bool.or_eq_true_iff.mp hc with hc | hc
    · simp [isSource, Numeral.isNumeric, hc]
    · rw [eq_of_beq hc]
      decide
  cases text with
  | nil => exact List.forall_mem_nil _
  | cons c rest =>
    obtain ⟨hc, hrest⟩ := Bool.and_eq_true_iff.mp h
    exact List.forall_mem_cons.mpr ⟨hcontinues c (continuesName_of_startsName hc),
      fun d hd => hcontinues d (List.all_eq_true.mp hrest d hd)⟩

-- ---------------------------------------------------------------------------
-- Mnemonics and operands
-- ---------------------------------------------------------------------------

theorem isSource_of_ofMnemonic? (h : Operation.ofMnemonic? text = some op) : IsSource text := by
  unfold Operation.ofMnemonic? at h
  dsimp only at h
  have hname := List.find?_some h
  exact isSource_of_isNumeric (isNumeric_of_lower op.bare_mnemonic (of_decide_eq_true hname))

theorem isSource_of_register (h : register text = .ok operand) : IsSource text := by
  unfold register at h
  split at h
  · rename_i number hread
    obtain ⟨-, hspelled⟩ := Register.read?_eq_some_iff.mp hread
    exact isSource_of_trim (isSource_of_isNumeric hspelled.isNumeric.2)
  · cases h

theorem isSource_of_immediate (h : immediate text = .ok operand) : IsSource text := by
  unfold immediate at h
  split at h
  · rename_i value hread
    obtain ⟨hvalue, -⟩ := Option.filter_eq_some_iff.mp hread
    exact isSource_of_trim (isSource_of_isNumeric (Numeral.isNumeric_of_immediate? hvalue))
  · cases h

theorem isSource_of_target (h : target symbols pc text = .ok operand) : IsSource text := by
  unfold target at h
  split at h
  · exact isSource_of_immediate h
  · split at h
    · cases h
    · rename_i hname
      exact isSource_of_isName (by simpa using hname)

theorem isSource_of_displaced? {displacement base : List Char}
    (h : displaced? text = some (displacement, base))
    (hd : IsSource displacement) (hb : IsSource base) : IsSource text := by
  unfold displaced? at h
  split at h
  · cases h
  · rename_i front rest hsplit
    split at h
    · rename_i hlast
      obtain ⟨hfront, hbase⟩ := Prod.mk.inj (Option.some.inj h)
      obtain ⟨c, rfl, hc, -⟩ := Text.splitFirst?_eq_some_iff.mp hsplit
      obtain ⟨inside, rfl⟩ := List.getLast?_eq_some_iff.mp hlast
      rw [List.dropLast_concat] at hbase
      have hbefore : IsSource (Text.trim front) := by
        by_cases hempty : (Text.trim front).isEmpty = true
        · rw [List.isEmpty_iff.mp hempty]
          nofun
        · rw [if_neg hempty] at hfront
          rwa [hfront]
      have hbehind : IsSource (inside ++ [')']) :=
        List.forall_mem_append.mpr ⟨isSource_of_trim (hbase ▸ hb),
          List.forall_mem_singleton.mpr rfl⟩
      rw [eq_of_beq hc]
      exact List.forall_mem_append.mpr ⟨isSource_of_trim hbefore,
        List.forall_mem_cons.mpr ⟨rfl, hbehind⟩⟩
    · cases h

theorem isSource_of_operands (h : operands symbols pc op texts = .ok given) :
    2 ≤ texts.length ∧ ∀ text ∈ texts, IsSource text := by
  unfold operands at h
  split at h
  case h_1 =>
    simp only [bind_eq_ok] at h
    obtain ⟨_, hrd, _, hrs1, _, hrs2, -⟩ := h
    simp [isSource_of_register hrd, isSource_of_register hrs1, isSource_of_register hrs2]
  case h_2 | h_3 =>
    simp only [bind_eq_ok] at h
    obtain ⟨_, hrd, _, hrs1, _, himm, -⟩ := h
    simp [isSource_of_register hrd, isSource_of_register hrs1, isSource_of_immediate himm]
  case h_4 =>
    split at h
    · rename_i haddress _
      simp only [bind_eq_ok] at h
      obtain ⟨_, hrd, _, hbase, _, himm, -⟩ := h
      have hparts :=
        isSource_of_displaced? haddress (isSource_of_immediate himm) (isSource_of_register hbase)
      simp [isSource_of_register hrd, hparts]
    · cases h
  case h_5 | h_6 =>
    split at h
    · rename_i haddress
      simp only [bind_eq_ok] at h
      obtain ⟨_, hr, _, himm, _, hbase, -⟩ := h
      have hparts :=
        isSource_of_displaced? haddress (isSource_of_immediate himm) (isSource_of_register hbase)
      simp [isSource_of_register hr, hparts]
    · cases h
  case h_7 =>
    simp only [bind_eq_ok] at h
    obtain ⟨_, hrs1, _, hrs2, _, htarget, -⟩ := h
    simp [isSource_of_register hrs1, isSource_of_register hrs2, isSource_of_target htarget]
  case h_8 =>
    simp only [bind_eq_ok] at h
    obtain ⟨_, hrd, _, himm, -⟩ := h
    simp [isSource_of_register hrd, isSource_of_immediate himm]
  case h_9 =>
    simp only [bind_eq_ok] at h
    obtain ⟨_, hrd, _, htarget, -⟩ := h
    simp [isSource_of_register hrd, isSource_of_target htarget]
  case h_10 => cases h

-- ---------------------------------------------------------------------------
-- Instructions
-- ---------------------------------------------------------------------------

theorem comma_mem_of_operandTexts (h : 2 ≤ (operandTexts text).length) : ',' ∈ text := by
  refine Decidable.byContradiction fun hcomma => ?_
  have hclear : ∀ c ∈ text, (c == ',') = false := by
    intro c hc
    refine beq_eq_false_iff_ne.mpr ?_
    rintro rfl
    exact hcomma hc
  unfold operandTexts at h
  split at h
  · exact absurd h (by decide)
  · rw [Text.pieces_of_forall hclear] at h
    simp at h

theorem isSource_of_operandTexts (h : ∀ piece ∈ operandTexts text, IsSource piece) :
    IsSource text := by
  intro c hc
  unfold operandTexts at h
  split at h
  · rename_i hempty
    rw [List.isEmpty_iff.mp hempty] at hc
    cases hc
  · rcases Text.exists_piece (· == ',') hc with hcomma | ⟨piece, hpiece, hmem⟩
    · rw [eq_of_beq hcomma]
      rfl
    · exact isSource_of_trim (h _ (List.mem_map_of_mem hpiece)) c hmem

theorem exists_of_encodeStatement (h : encodeStatement symbols pc text = .ok w) :
    ∃ mnemonic blank rest op given,
      text = mnemonic ++ blank :: rest ∧ Text.isBlank blank = true ∧
        Operation.ofMnemonic? mnemonic = some op ∧
        operands symbols pc op (operandTexts (Text.trim rest)) = .ok given := by
  obtain ⟨op, given, hop, hgiven, -⟩ := encodeStatement_eq_ok_iff.mp h
  unfold mnemonicAndRest at hop hgiven
  cases hsplit : Text.splitFirst? Text.isBlank text with
  | none =>
    rw [hsplit] at hgiven
    obtain ⟨htwo, -⟩ := isSource_of_operands hgiven
    simp [operandTexts] at htwo
  | some parts =>
    rw [hsplit] at hop hgiven
    obtain ⟨blank, htext, hblank, -⟩ := Text.splitFirst?_eq_some_iff.mp hsplit
    exact ⟨parts.1, blank, parts.2, op, given, htext, hblank, hop, hgiven⟩

/-- An instruction that can be encoded has a comma, and no character that instructions do not
have. -/
theorem isSource_of_encodeStatement (h : encodeStatement symbols pc text = .ok w) :
    IsSource text ∧ ',' ∈ text := by
  obtain ⟨mnemonic, blank, rest, op, given, rfl, hblank, hop, hgiven⟩ := exists_of_encodeStatement h
  obtain ⟨htwo, hsources⟩ := isSource_of_operands hgiven
  have hrest : IsSource rest := isSource_of_trim (isSource_of_operandTexts hsources)
  have hcomma : ',' ∈ rest := (Text.trim_sublist rest).subset (comma_mem_of_operandTexts htwo)
  refine ⟨?_, List.mem_append_right mnemonic (List.mem_cons_of_mem blank hcomma)⟩
  exact List.forall_mem_append.mpr
    ⟨isSource_of_ofMnemonic? hop, List.forall_mem_cons.mpr ⟨isSource_of_isBlank hblank, hrest⟩⟩

-- ---------------------------------------------------------------------------
-- Lines
-- ---------------------------------------------------------------------------

def Encodes (text : List Char) : Prop :=
  ∀ statement, instructionOn? text = some statement →
    ∃ symbols pc w, encodeStatement symbols pc statement = .ok w

def isLine (c : Char) : Bool := isSource c || c == ':'

theorem isLine_of_isSource (h : IsSource text) : ∀ c ∈ text, isLine c = true := by
  intro c hc
  simp [isLine, h c hc]

theorem isLine_of_pads {inner : List Char} (h : Text.Pads text inner) (hinner : IsSource inner) :
    ∀ c ∈ text, isLine c = true :=
  isLine_of_isSource (isSource_of_pads h hinner)

theorem isLine_of_encodes (h : Encodes text) : ∀ c ∈ uncommented text, isLine c = true := by
  refine Text.forall_mem_of_trim (fun c hc => by simp [isLine, isSource_of_isBlank hc]) ?_
  have hsource : ∀ statement, instructionOn? text = some statement → IsSource statement := by
    intro statement hfound
    obtain ⟨symbols, pc, w, hencode⟩ := h statement hfound
    exact (isSource_of_encodeStatement hencode).1
  have hempty : IsSource [] := nofun
  have hsays := says_of_read text
  generalize Text.trim (uncommented text) = bare, labelOn? text = label,
    instructionOn? text = instruction
    at hsays hsource
  cases hsays with
  | nothing => nofun
  | label _ hhead hname hrest =>
    exact List.forall_mem_append.mpr ⟨isLine_of_pads hhead (isSource_of_isName hname),
      List.forall_mem_cons.mpr ⟨rfl, isLine_of_pads hrest hempty⟩⟩
  | both _ hhead hname hrest =>
    exact List.forall_mem_append.mpr ⟨isLine_of_pads hhead (isSource_of_isName hname),
      List.forall_mem_cons.mpr ⟨rfl, isLine_of_pads hrest (hsource _ rfl)⟩⟩
  | instruction => exact isLine_of_isSource (hsource _ rfl)

theorem encodes_of_assemble {origin : Word} {source : String} {program : Program}
    (h : assemble origin source = .ok program) :
    ∀ text ∈ Text.lines source.toList, Encodes text := by
  intro text htext statement hfound
  obtain ⟨k, hk⟩ := List.mem_iff_getElem?.mp htext
  obtain ⟨-, -, hwords⟩ := assemble_eq_ok h
  have hresult :
      (k + 1, encodeStatement program.symbols (addressAt origin (Text.lines source.toList) k)
        statement) ∈
      results program.symbols origin (Text.lines source.toList) := by
    refine mem_onLines.mpr ⟨k, text, hk, ?_⟩
    rw [hfound]
    rfl
  have hmem := List.mem_map_of_mem (f := Prod.snd) hresult
  rw [← hwords] at hmem
  obtain ⟨w, -, hw⟩ := List.mem_map.mp hmem
  exact ⟨program.symbols, _, w, hw.symm⟩

end Assembly

end RiscvBoard
