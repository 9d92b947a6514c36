import RiscvBoard.Proofs.Assembly.Spacing
import RiscvBoard.Proofs.Image.Detection

/-!
# Images without content

Images and assembly do not have the same comments. A text of blanks and comments is
taken for assembly, and a line that opens with a semicolon is an instruction there
that nobody knows. Whatever else loads as bits or as hexadecimal words also loads as
what is detected.
-/

namespace RiscvBoard

namespace Assembly

variable {origin : Word} {source : String} {program : Program} {text : List Char}

theorem assemble_of_silent (h : ∀ text ∈ Text.lines source.toList, Silent text) :
    assemble origin source = .ok { words := [], lineMap := [], symbols := {} } := by
  have hlines : sourceLines source = [] := by
    refine List.filterMap_eq_nil_iff.mpr fun ⟨text, number⟩ hmem => ?_
    exact read?_silent (h text (List.fst_mem_of_mem_zipIdx hmem)) number
  rw [assemble, hlines]
  rfl

def OpensWithSemicolon (text : List Char) : Prop := (text.dropWhile Text.isBlank).head? = some ';'

instance (text : List Char) : Decidable (OpensWithSemicolon text) :=
  inferInstanceAs (Decidable ((text.dropWhile Text.isBlank).head? = some ';'))

theorem not_encodes_of_semicolon (h : OpensWithSemicolon text) : ¬Encodes text := by
  obtain ⟨rest, hrest⟩ := List.head?_eq_some_iff.mp h
  have htext := List.takeWhile_append_dropWhile (p := Text.isBlank) (l := text)
  have hlead : (text.takeWhile Text.isBlank).all Text.isBlank = true := List.all_takeWhile
  rw [hrest] at htext
  generalize text.takeWhile Text.isBlank = lead at htext hlead
  subst htext
  intro hencodes
  have hkept : uncommented (lead ++ ';' :: rest) = lead ++ ';' :: uncommented rest := by
    rw [uncommented_append_of_isSource (isSource_of_all hlead),
      uncommented_cons fun hcomment => by cases hcomment]
  have hmem : ';' ∈ uncommented (lead ++ ';' :: rest) := by simp [hkept]
  exact absurd (isLine_of_encodes hencodes ';' hmem) (by decide)

end Assembly

namespace Image

open Assembly (Silent OpensWithSemicolon)

variable {text : String} {bytes : ByteArray} {image : Image} {line : List Char}

theorem silent_or_semicolon (h : ∀ c ∈ Text.before startsComment line, Text.isBlank c = true) :
    Silent line ∨ OpensWithSemicolon line := by
  have hline := List.takeWhile_append_dropWhile (p := (!startsComment ·)) (l := line)
  have hfirst := List.head?_dropWhile_not (!startsComment ·) line
  have hlead : (Text.before startsComment line).all Text.isBlank = true := List.all_eq_true.mpr h
  cases hrest : line.dropWhile (!startsComment ·) with
  | nil => exact .inl ⟨_, [], by rw [← hrest]; exact hline.symm, hlead, .none⟩
  | cons c rest =>
    rw [hrest] at hfirst hline
    have hstarts : startsComment c = true := by simpa using hfirst
    rcases Bool.or_eq_true_iff.mp hstarts with hc | hc
    · obtain rfl := eq_of_beq hc
      exact .inl ⟨_, _, hline.symm, hlead, .hash rest⟩
    · obtain rfl := eq_of_beq hc
      refine .inr ?_
      rw [OpensWithSemicolon, ← hline]
      change ((Text.before startsComment line ++ ';' :: rest).dropWhile Text.isBlank).head? =
        some ';'
      rw [List.dropWhile_append_of_pos h]
      rfl

theorem blank_of_not_hasContent (h : ¬HasContent text.toList) : ∀ line ∈ Text.lines text.toList,
    ∀ c ∈ Text.before startsComment line, Text.isBlank c = true := by
  intro line hline c hc
  by_contra hblank
  exact h ⟨line, hline, c, hc, by simpa using hblank⟩

theorem load_bits_of_not_hasContent (h : ¬HasContent text.toList) :
    load (.words .bits) text.toUTF8 = .ok { words := [] } := by
  have hbits : parseBits text.toList = .ok [] := by
    rw [parseBits, contentLines_eq_nil h]
    rfl
  simp only [load, WordFormat.parse, charsOf_toUTF8, bind, Except.bind, hbits]
  rfl

theorem looksLike_of_not_hasContent (h : ¬HasContent text.toList) :
    looksLike text.toList = if text.toList.isEmpty then .words .bits else .assembly := by
  simp [looksLike, contentLines_eq_nil h]

/-- A text without content is an empty program, unless a line opens with a semicolon. -/
theorem load_of_not_hasContent (h : ¬HasContent text.toList)
    (hlines : ∀ line ∈ Text.lines text.toList, ¬OpensWithSemicolon line) :
    load (detect none text.toUTF8) text.toUTF8 = .ok { words := [] } := by
  have hsilent : ∀ line ∈ Text.lines text.toList, Silent line := fun line hline =>
    (silent_or_semicolon (blank_of_not_hasContent h line hline)).resolve_right (hlines line hline)
  rw [detect_toUTF8, looksLike_of_not_hasContent h]
  split
  · exact load_bits_of_not_hasContent h
  · rw [load_assembly, Assembly.assemble_of_silent hsilent]

theorem not_loads_of_semicolon (h : ¬HasContent text.toList) (hline : line ∈ Text.lines text.toList)
    (hopens : OpensWithSemicolon line) : ¬Loads (detect none text.toUTF8) text.toUTF8 := by
  have hsome : ¬text.toList.isEmpty = true := by
    intro hempty
    rw [List.isEmpty_iff.mp hempty] at hline
    cases hline
  rw [detect_toUTF8, looksLike_of_not_hasContent h, if_neg hsome, Loads, load_assembly]
  rintro ⟨image, himage⟩
  cases hprogram : Assembly.assemble 0 text with
  | ok program =>
    exact Assembly.not_encodes_of_semicolon hopens
      (Assembly.encodes_of_assemble hprogram line hline)
  | error errors =>
    rw [hprogram] at himage
    cases himage

theorem exists_text_of_loads {format : WordFormat} (hformat : format ≠ .raw)
    (h : Loads (.words format) bytes) : ∃ text : String, text.toUTF8 = bytes := by
  by_contra hbytes
  have hchars : chars? bytes = none := chars?_eq_none_iff.mpr fun text htext => hbytes ⟨text, htext⟩
  obtain ⟨words, hwords⟩ := loads_words_iff.mp h
  cases format with
  | raw => exact hformat rfl
  | bits | hex => simp [WordFormat.parse, charsOf, hchars, bind, Except.bind] at hwords

theorem exists_looksLike (h : Loads (.words .bits) text.toUTF8 ∨ Loads (.words .hex) text.toUTF8)
    (hcontent : HasContent text.toList) : ∃ format, looksLike text.toList = .words format ∧
      Loads (.words format) text.toUTF8 ∧ (format = .bits ∨ format = .hex) := by
  obtain ⟨hbits, hhex, -⟩ := looksLike_iff hcontent
  by_cases hloads : Loads (.words .bits) text.toUTF8
  · exact ⟨.bits, hbits.mpr hloads, hloads, .inl rfl⟩
  · have hboth := h.resolve_left hloads
    exact ⟨.hex, hhex.mpr ⟨hloads, hboth⟩, hboth, .inr rfl⟩

/-- Bytes that load as bits or as hexadecimal words are a text. What is detected loads as well,
unless there are only comments and one of them begins with the semicolon that assembly does not
have. -/
theorem detected_loads (h : Loads (.words .bits) bytes ∨ Loads (.words .hex) bytes) :
    (∃ text : String, text.toUTF8 = bytes) ∧ ∀ text : String, text.toUTF8 = bytes →
      (Loads (detect none bytes) bytes ↔
        HasContent text.toList ∨ ∀ line ∈ Text.lines text.toList, ¬OpensWithSemicolon line) ∧
      (∀ image, load (detect none bytes) bytes = .ok image →
        load (.words .bits) bytes = .ok image ∨ load (.words .hex) bytes = .ok image) ∧
      (¬HasContent text.toList → ∀ image, load (detect none bytes) bytes = .ok image →
        image = { words := [] }) := by
  refine ⟨h.elim (exists_text_of_loads nofun) (exists_text_of_loads nofun), ?_⟩
  rintro text rfl
  by_cases hcontent : HasContent text.toList
  · obtain ⟨format, hlooks, hloads, hformat⟩ := exists_looksLike h hcontent
    rw [detect_toUTF8, hlooks]
    refine ⟨iff_of_true hloads (.inl hcontent), fun image himage => ?_,
      fun hnot => absurd hcontent hnot⟩
    obtain rfl | rfl := hformat
    · exact .inl himage
    · exact .inr himage
  · by_cases hlines : ∀ line ∈ Text.lines text.toList, ¬OpensWithSemicolon line
    · have hload := load_of_not_hasContent hcontent hlines
      refine ⟨iff_of_true ⟨_, hload⟩ (.inr hlines), fun image himage => ?_,
        fun _ image himage => ?_⟩
      · rw [hload] at himage
        exact .inl (himage ▸ load_bits_of_not_hasContent hcontent)
      · rw [hload] at himage
        exact (Except.ok.inj himage).symm
    · obtain ⟨line, hline, hopens⟩ : ∃ line ∈ Text.lines text.toList, OpensWithSemicolon line := by
        simpa using hlines
      have hnot := not_loads_of_semicolon hcontent hline hopens
      refine ⟨iff_of_false hnot (not_or.mpr ⟨hcontent, hlines⟩), fun image himage => ?_,
        fun _ image himage => ?_⟩
      · exact absurd ⟨image, himage⟩ hnot
      · exact absurd ⟨image, himage⟩ hnot

theorem detected_loads_hash : Loads (.words .hex) "\t# ; first\n".toUTF8 ∧
    load (detect none "\t# ; first\n".toUTF8) "\t# ; first\n".toUTF8 = .ok { words := [] } := by
  have hcontent : ¬HasContent "\t# ; first\n".toList := by
    rintro ⟨line, hline, c, hc, hblank⟩
    obtain rfl := List.mem_singleton.mp (hline : line ∈ ["\t# ; first".toList])
    obtain rfl := List.mem_singleton.mp (hc : c ∈ ['\t'])
    exact absurd hblank (by decide)
  have hlines : ∀ line ∈ Text.lines "\t# ; first\n".toList, ¬OpensWithSemicolon line := by decide
  have hloads := (loads_of_not_hasContent hcontent).2
  obtain ⟨hiff, -, hempty⟩ := (detected_loads (.inr hloads)).2 _ rfl
  obtain ⟨image, himage⟩ := hiff.mpr (.inr hlines)
  rw [hempty hcontent image himage] at himage
  exact ⟨hloads, himage⟩

def remark : String := "; nothing to run\n"

theorem not_loads_remark : Loads (.words .bits) remark.toUTF8 ∧
    load (detect none remark.toUTF8) remark.toUTF8 =
      .error (.assembly [⟨1, .unknownMnemonic ";"⟩]) := by
  have hcontent : ¬HasContent remark.toList := by
    rintro ⟨line, hline, c, hc, -⟩
    obtain rfl := List.mem_singleton.mp (hline : line ∈ ["; nothing to run".toList])
    cases hc
  have hlooks : looksLike remark.toList = .assembly := rfl
  have hreported : Assembly.assemble 0 remark =
      .error ([⟨1, .unknownMnemonic ";"⟩].mergeSort fun a b => a.line ≤ b.line) := rfl
  refine ⟨⟨_, load_bits_of_not_hasContent hcontent⟩, ?_⟩
  rw [detect_toUTF8, hlooks, load_assembly, hreported, List.mergeSort_singleton]

end Image

end RiscvBoard
