import RiscvBoard.Proofs.Assembly.Characters
import RiscvBoard.Proofs.Bytes
import RiscvBoard.Proofs.Image.Grammar

/-!
# The forms of a program

A program can be loaded from its source and from its words in three forms, and
each form is told apart from the others. A source that assembles never looks
like words: on each line with something on it there is a comma, a colon or a
slash, which no row of bits and no hexadecimal number has.
-/

namespace RiscvBoard

open Assembly (Encodes uncommented)

theorem wordsOfBytes_bytesOfWords (words : List Word) :
    wordsOfBytes (bytesOfWords words) = words := by
  induction words with
  | nil => rfl
  | cons word words ih => exact congrArg₂ List.cons (Word.ofBytes_byte word) ih

namespace Image

variable {text line : List Char} {number : Nat} {words : List Word} {c : Char}

-- ---------------------------------------------------------------------------
-- Texts that are no words
-- ---------------------------------------------------------------------------

theorem looksLike_of_mem (hline : (number, line) ∈ contentLines text) (hc : c ∈ line)
    (hblank : Text.isBlank c = false) (hnumeric : Numeral.isNumeric c = false) :
    looksLike text = .assembly := by
  have hnot : ¬Numeral.isNumeric c = true := Bool.eq_false_iff.mp hnumeric
  rcases looksLike_of_content (List.ne_nil_of_mem hline) with
    ⟨hbits, -⟩ | ⟨-, hhex, -⟩ | ⟨-, -, hassembly⟩
  · exact absurd (isNumeric_of_bitRow (hbits _ hline) hc hblank) hnot
  · have hkept : c ∈ (Text.words line).flatten := by
      rw [Text.flatten_words]
      exact List.mem_filter.mpr ⟨hc, by simp [hblank]⟩
    obtain ⟨item, hitem, hmem⟩ := List.mem_flatten.mp hkept
    have hitems : (number, item) ∈ hexItems text :=
      List.mem_flatMap.mpr ⟨(number, line), hline, List.mem_map.mpr ⟨item, hitem, rfl⟩⟩
    exact absurd (isNumeric_of_hexItem (hhex _ hitems) c hmem) hnot
  · exact hassembly

-- ---------------------------------------------------------------------------
-- Sources
-- ---------------------------------------------------------------------------

theorem before_clear (hslash : '/' ∉ Text.before startsComment text) :
    ∀ c ∈ Text.before startsComment text, c ≠ '#' ∧ c ≠ '/' := by
  intro c hc
  have hnot := List.all_eq_true.mp List.all_takeWhile c hc
  constructor
  · rintro rfl
    exact absurd hnot (by decide)
  · rintro rfl
    exact hslash hc

/-- An image shows the whole of a line that assembles, up to the comment, unless a slash is in
it. -/
theorem uncommented_eq_before (h : Encodes text) (hslash : '/' ∉ Text.before startsComment text) :
    uncommented text = Text.before startsComment text := by
  have htext := List.takeWhile_append_dropWhile (p := (!startsComment ·)) (l := text)
  have hcut : uncommented text =
      Text.before startsComment text ++ uncommented (text.dropWhile (!startsComment ·)) := by
    rw [← Assembly.uncommented_append_of_forall _ (before_clear hslash), Text.before, htext]
  suffices hrest : uncommented (text.dropWhile (!startsComment ·)) = [] by
    rw [hcut, hrest, List.append_nil]
  have hfirst := List.head?_dropWhile_not (!startsComment ·) text
  cases hdrop : text.dropWhile (!startsComment ·) with
  | nil => rfl
  | cons c rest =>
    rw [hdrop] at hfirst hcut
    have hstarts : startsComment c = true := by simpa using hfirst
    rcases Bool.or_eq_true_iff.mp hstarts with hc | hc
    · rw [eq_of_beq hc]
      exact Assembly.uncommented_of_comment (.hash rest)
    · -- a semicolon would be a part of the instruction or of the label
      obtain rfl := eq_of_beq hc
      have hkept : uncommented (';' :: rest) = ';' :: uncommented rest :=
        Assembly.uncommented_cons fun hcomment => by cases hcomment
      have hmem : ';' ∈ uncommented text := by
        rw [hcut, hkept]
        exact List.mem_append_right _ List.mem_cons_self
      exact absurd (Assembly.isLine_of_encodes h ';' hmem) (by decide)

theorem exists_of_encodes (h : Encodes text)
    (hne : Text.trim (Text.before startsComment text) ≠ []) :
    ∃ c ∈ Text.trim (Text.before startsComment text), Text.isBlank c = false ∧
      Numeral.isNumeric c = false := by
  by_cases hslash : '/' ∈ Text.before startsComment text
  · exact ⟨'/', Text.mem_trim hslash rfl, rfl, rfl⟩
  · rw [← uncommented_eq_before h hslash] at hne ⊢
    have hcomma : ∀ statement, Assembly.instructionOn? text = some statement → ',' ∈ statement := by
      intro statement hfound
      obtain ⟨symbols, pc, w, hencode⟩ := h statement hfound
      exact (Assembly.isSource_of_encodeStatement hencode).2
    have hsays := Assembly.says_of_read text
    generalize Text.trim (uncommented text) = bare, Assembly.labelOn? text = label,
      Assembly.instructionOn? text = instruction at hsays hcomma hne ⊢
    cases hsays with
    | nothing => exact absurd rfl hne
    | label => exact ⟨':', List.mem_append_right _ List.mem_cons_self, rfl, rfl⟩
    | both => exact ⟨':', List.mem_append_right _ List.mem_cons_self, rfl, rfl⟩
    | instruction => exact ⟨',', hcomma _ rfl, rfl, rfl⟩

theorem looksLike_of_assemble {source : String} {program : Assembly.Program} {origin : Word}
    (h : Assembly.assemble origin source = .ok program) (hne : source ≠ "") :
    looksLike source.toList = .assembly := by
  cases hlines : contentLines source.toList with
  | nil =>
    have htext : ¬source.toList.isEmpty = true := by simpa using hne
    unfold looksLike
    dsimp only
    rw [if_neg htext, hlines]
    rfl
  | cons item items =>
    obtain ⟨number, line⟩ := item
    have hline : (number, line) ∈ contentLines source.toList := hlines ▸ List.mem_cons_self
    obtain ⟨_, whole, -, hwhole, rfl, hsome⟩ := mem_contentLines.mp hline
    obtain ⟨c, hc, hblank, hnumeric⟩ :=
      exists_of_encodes (Assembly.encodes_of_assemble h whole (List.mem_of_getElem? hwhole)) hsome
    exact looksLike_of_mem hline hc hblank hnumeric

-- ---------------------------------------------------------------------------
-- Files
-- ---------------------------------------------------------------------------

theorem chars?_toUTF8 (source : String) : chars? source.toUTF8 = some source.toList := by
  have hvalid : source.toUTF8.IsValidUTF8 := source.isValidUTF8
  rw [chars?, String.fromUTF8?, dif_pos hvalid]
  rfl

theorem detect_toUTF8 (source : String) : detect none source.toUTF8 = looksLike source.toList := by
  simp only [detect, Option.bind_none, chars?_toUTF8]

theorem charsOf_toUTF8 (source : String) : charsOf source.toUTF8 = .ok source.toList := by
  simp only [charsOf, chars?_toUTF8]

theorem load_assembly (text : String) :
    load .assembly text.toUTF8 = match Assembly.assemble 0 text with
      | .ok program => .ok { words := program.words, lineMap := program.lineMap }
      | .error errors => .error (.assembly errors) := by
  simp only [load, charsOf_toUTF8, bind, Except.bind, String.ofList_toList]
  cases Assembly.assemble 0 text <;> rfl

theorem bytesOf_ofBytes (bytes : List Byte) : bytesOf (ofBytes bytes) = bytes := by
  simp [bytesOf, ofBytes, Function.comp_def]

theorem parse_render (format : WordFormat) (words : List Word) :
    format.parse (format.render words) = .ok words := by
  cases format with
  | bits =>
    simp only [WordFormat.parse, WordFormat.render, charsOf_toUTF8, String.toList_ofList]
    exact parseBits_renderBits words
  | hex =>
    simp only [WordFormat.parse, WordFormat.render, charsOf_toUTF8, String.toList_ofList]
    exact parseHex_renderHex words
  | raw =>
    have hlength : (bytesOfWords words).length % 4 = 0 := by
      rw [length_bytesOfWords, Nat.mul_mod_right]
    simp only [WordFormat.parse, WordFormat.render, parseRaw, bytesOf_ofBytes, if_pos hlength,
      wordsOfBytes_bytesOfWords]

theorem load_render (format : WordFormat) (words : List Word) :
    load (.words format) (format.render words) = .ok { words } := by
  simp only [load, parse_render]
  rfl

-- ---------------------------------------------------------------------------
-- Words
-- ---------------------------------------------------------------------------

/-- Rows of words are a text with content, unless there are no words. -/
theorem contentLines_rows_ne_nil {row : Word → List Char} (hplain : ∀ w, IsPlain (row w))
    (hne : words ≠ []) : contentLines (words.flatMap fun w => row w ++ ['\n']) ≠ [] := by
  rw [contentLines_rows hplain]
  simpa using hne

theorem looksLike_renderBits (words : List Word) : looksLike (renderBits words) = .words .bits := by
  by_cases hne : words = []
  · rw [hne]
    rfl
  · have hbits := exists_parseBits_iff.mp ⟨words, parseBits_renderBits words⟩
    rcases looksLike_of_content (contentLines_rows_ne_nil isPlain_ofWord hne) with h | h | h
    · exact h.2
    · exact absurd hbits h.1
    · exact absurd hbits h.1

theorem bitRow?_fixed (w : Word) : bitRow? (Numeral.fixed 16 8 w.toNat) = none := by
  rw [bitRow?, (isPlain_hex w).words, List.flatten_singleton, BitString.word?_eq_none_iff,
    Numeral.length_fixed]
  exact fun h => absurd h.1 (by decide)

theorem looksLike_renderHex (words : List Word) :
    looksLike (renderHex words) = .words (if words = [] then .bits else .hex) := by
  cases words with
  | nil => rfl
  | cons w words =>
    have hhex := exists_parseHex_iff.mp ⟨w :: words, parseHex_renderHex (w :: words)⟩
    have hbits : ¬∀ row ∈ contentLines (renderHex (w :: words)), BitRow row.2 := by
      intro hrows
      have hfirst : (1, Numeral.fixed 16 8 w.toNat) ∈ contentLines (renderHex (w :: words)) := by
        rw [renderHex, contentLines_rows isPlain_hex]
        exact List.mem_cons_self
      have hrow := bitRow?_isSome_iff.mpr (hrows _ hfirst)
      rw [bitRow?_fixed] at hrow
      cases hrow
    rw [if_neg (List.cons_ne_nil w words)]
    rcases looksLike_of_content (contentLines_rows_ne_nil isPlain_hex (List.cons_ne_nil w words))
      with h | h | h
    · exact absurd h.1 hbits
    · exact h.2.2
    · exact absurd hhex h.2.1

-- ---------------------------------------------------------------------------
-- All forms
-- ---------------------------------------------------------------------------

/-- A source that assembles is told apart from words and loads as what the assembler makes of it.
Words written in bits or in hexadecimal are told apart, too, and load as they were in each of the
three forms. -/
theorem load_forms :
    (∀ source program, Assembly.assemble 0 source = .ok program →
      detect none source.toUTF8 = (if source = "" then .words .bits else .assembly) ∧
      load (detect none source.toUTF8) source.toUTF8 =
        .ok { words := program.words, lineMap := program.lineMap }) ∧
    ∀ words : List Word,
      detect none (WordFormat.bits.render words) = .words .bits ∧
      detect none (WordFormat.hex.render words) = .words (if words = [] then .bits else .hex) ∧
      load (detect none (WordFormat.hex.render words)) (WordFormat.hex.render words) =
        .ok { words, lineMap := [] } ∧
      ∀ format : WordFormat, load (.words format) (format.render words) =
        .ok { words, lineMap := [] } := by
  constructor
  · intro source program hprogram
    rw [detect_toUTF8]
    by_cases hempty : source = ""
    · subst hempty
      cases hprogram
      exact ⟨rfl, rfl⟩
    · rw [looksLike_of_assemble hprogram hempty, if_neg hempty]
      refine ⟨rfl, ?_⟩
      simp only [load, charsOf_toUTF8, bind, Except.bind, String.ofList_toList, hprogram]
      rfl
  · intro words
    have hhex : detect none (WordFormat.hex.render words) =
        .words (if words = [] then .bits else .hex) := by
      rw [WordFormat.render, detect_toUTF8, String.toList_ofList, looksLike_renderHex]
    refine ⟨?_, hhex, ?_, fun format => load_render format words⟩
    · rw [WordFormat.render, detect_toUTF8, String.toList_ofList, looksLike_renderBits]
    · rw [hhex]
      split
      · rename_i hnil
        rw [hnil]
        rfl
      · exact load_render .hex words

def digitLike : String :=
  "// 00A00093\nadd: add a0, a0, a1 # dead ; beef\n\tbne a0, a1, ADD // 0b\n"

theorem load_forms_digitLike :
    Assembly.assemble 0 digitLike = .ok {
        words := [0x00B50533, 0xFEB51EE3], lineMap := [2, 3], symbols := ⟨[("add".toList, 0)]⟩ } ∧
      detect none digitLike.toUTF8 = .assembly ∧
      load .assembly digitLike.toUTF8 =
        .ok { words := [0x00B50533, 0xFEB51EE3], lineMap := [2, 3] } := by
  have hprogram : Assembly.assemble 0 digitLike = .ok {
      words := [0x00B50533, 0xFEB51EE3], lineMap := [2, 3],
      symbols := ⟨[("add".toList, 0)]⟩ } := rfl
  obtain ⟨hdetect, hload⟩ := load_forms.1 digitLike _ hprogram
  rw [if_neg (by decide)] at hdetect
  rw [hdetect] at hload
  exact ⟨hprogram, hdetect, hload⟩

end Image

end RiscvBoard
