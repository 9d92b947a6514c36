import RiscvBoard.Proofs.Assembly.Place
import RiscvBoard.Proofs.Image.Detection
import RiscvBoard.Proofs.Image.Hexadecimal

/-!
# Raw images and text

Words are stored as four bytes each, and any four bytes are a word, so the bytes of
some programs are also a text. Such a text is loaded as a text, and the words are
lost: whatever it is read as, a word takes more characters of the text than it has
bytes to offer. Raw images that are no text keep their words.
-/

namespace RiscvBoard

-- ---------------------------------------------------------------------------
-- Instructions
-- ---------------------------------------------------------------------------

namespace Assembly

variable {symbols : Symbols} {pc w : Word} {op : Operation} {given : List Operand}
  {text : List Char}

theorem isOk_operands_empty (symbols : Symbols) (pc : Word) (op : Operation) :
    (operands symbols pc op [[], []]).isOk = false := by
  cases op <;> rfl

theorem two_le_length_of_operands (h : operands symbols pc op (operandTexts text) = .ok given) :
    2 ≤ text.length := by
  have hcomma := comma_mem_of_operandTexts (isSource_of_operands h).1
  by_contra hshort
  have hone : text.length = 1 := by
    have hpos := List.length_pos_of_mem hcomma
    omega
  obtain ⟨c, rfl⟩ := List.length_eq_one_iff.mp hone
  obtain rfl := List.mem_singleton.mp hcomma
  have htexts : operandTexts [','] = [[], []] := rfl
  have hempty := isOk_operands_empty symbols pc op
  rw [← htexts, h] at hempty
  cases hempty

theorem two_le_length_of_ofMnemonic? (h : Operation.ofMnemonic? text = some op) :
    2 ≤ text.length := by
  have hall : ∀ op ∈ Operation.all, 2 ≤ op.mnemonic.toList.length := by decide
  have hname : op.mnemonic.toList = Text.lower text := by simpa using List.find?_some h
  have hlength := hall op (Operation.mem_all op)
  rw [hname] at hlength
  simpa [Text.lower] using hlength

/-- A mnemonic of two letters, a blank, an operand and a comma are the least. -/
theorem five_le_length_of_encodeStatement (h : encodeStatement symbols pc text = .ok w) :
    5 ≤ text.length := by
  obtain ⟨mnemonic, blank, rest, op, given, rfl, -, hop, hgiven⟩ := exists_of_encodeStatement h
  have hmnemonic := two_le_length_of_ofMnemonic? hop
  have hoperands := two_le_length_of_operands hgiven
  have hrest := (Text.trim_sublist rest).length_le
  simp only [List.length_append, List.length_cons]
  omega

end Assembly

namespace Image

variable {chars token : List Char} {text : String} {words : List Word} {w : Word} {p : Byte → Bool}
  {q : Char → Bool}

-- ---------------------------------------------------------------------------
-- Characters and bytes
-- ---------------------------------------------------------------------------

def encoding (c : Char) : List Byte := (String.utf8EncodeChar c).map UInt8.toBitVec

def isWide (b : Byte) : Bool := 16 ≤ b.toNat

theorem bytesOf_toUTF8 (text : String) : bytesOf text.toUTF8 = text.toList.flatMap encoding := by
  have hencode : text.toUTF8 = (text.toList.flatMap String.utf8EncodeChar).toByteArray := by
    rw [String.toUTF8_eq_toByteArray, ← String.utf8Encode_toList, List.utf8Encode]
  rw [hencode, bytesOf, List.data_toByteArray, List.map_flatMap]
  rfl

theorem isWide_ofNat {n : Nat} : isWide (UInt8.ofNat n).toBitVec = true ↔ 16 ≤ n % 256 := by
  simp [isWide]

theorem any_isWide_encoding {c : Char} (h : 16 ≤ c.toNat) : (encoding c).any isWide = true := by
  have hcode : c.val.toNat = c.toNat := rfl
  unfold encoding
  fun_cases String.utf8EncodeChar c
  all_goals
    simp only [List.map_cons, List.any_cons, Bool.or_eq_true, isWide_ofNat]
    omega

theorem le_toNat_of_isNumeric {c : Char} (h : Numeral.isNumeric c = true) : 16 ≤ c.toNat := by
  by_contra hsmall
  have hall : ∀ code < 16, Numeral.isNumeric (Char.ofNat code) = false := by decide
  have hnot := hall c.toNat (Nat.lt_of_not_le hsmall)
  rw [Char.ofNat_toNat, h] at hnot
  cases hnot

theorem le_toNat_of_isWide {i : Nat} (h : isWide (w.byte i) = true) :
    16 ^ (2 * i + 1) ≤ w.toNat := by
  have hbyte : 16 ≤ w.toNat / 256 ^ i % 256 := by simpa [isWide, Word.toNat_byte] using h
  calc 16 ^ (2 * i + 1)
    _ = 16 * 256 ^ i := by rw [Nat.pow_succ', Nat.pow_mul]
    _ ≤ w.toNat := (Nat.le_div_iff_mul_le (by positivity)).mp (hbyte.trans (Nat.mod_le _ _))

theorem countP_isWide_lt {count : Nat} (hcount : 0 < count) (h : w.toNat < 16 ^ count) :
    w.bytes.countP isWide < count := by
  have hindex : ∀ i ∈ [0, 1, 2, 3], isWide (w.byte i) = true →
      decide (2 * i + 1 < count) = true := by
    intro i _ hwide
    exact decide_eq_true
      ((Nat.pow_lt_pow_iff_right (by decide)).mp ((le_toNat_of_isWide hwide).trans_lt h))
  calc w.bytes.countP isWide
    _ = [0, 1, 2, 3].countP (fun i => isWide (w.byte i)) := rfl
    _ ≤ [0, 1, 2, 3].countP (fun i => decide (2 * i + 1 < count)) := List.countP_mono_left hindex
    _ < count := by
      simp only [List.countP_cons, List.countP_nil, decide_eq_true_eq]
      split_ifs <;> omega

-- ---------------------------------------------------------------------------
-- Texts that outweigh their words
-- ---------------------------------------------------------------------------

/-- Each word has a piece of the text for itself, with more characters of one kind than the word has
bytes of another kind. In the bytes of each such character there is such a byte. -/
def Outweighs (chars : List Char) (words : List Word) : Prop :=
  ∃ (p : Byte → Bool) (q : Char → Bool) (pieces : _),
  (∀ c, q c = true → (encoding c).any p = true) ∧ pieces.flatten.Sublist chars ∧
    List.Forall₂ (fun piece w => w.bytes.countP p < piece.countP q) pieces words

theorem countP_le_countP_flatMap (h : ∀ c, q c = true → (encoding c).any p = true)
    (chars : List Char) : chars.countP q ≤ (chars.flatMap encoding).countP p := by
  induction chars with
  | nil => exact Nat.le_refl _
  | cons c chars ih =>
    rw [List.flatMap_cons, List.countP_append, List.countP_cons, Nat.add_comm]
    refine Nat.add_le_add ?_ ih
    split
    · exact List.countP_pos_iff.mpr (List.any_eq_true.mp (h c ‹_›))
    · exact Nat.zero_le _

theorem countP_bytesOfWords_le {pieces : List (List Char)}
    (h : List.Forall₂ (fun piece w => w.bytes.countP p < piece.countP q) pieces words) :
    (bytesOfWords words).countP p + words.length ≤ pieces.flatten.countP q := by
  induction h with
  | nil => exact Nat.le_refl _
  | cons hfirst _ ih =>
    simp only [bytesOfWords, List.flatMap_cons, List.countP_append, List.length_cons,
      List.flatten_cons] at ih ⊢
    omega

/-- No text with the bytes of the words themselves outweighs them. -/
theorem eq_nil_of_outweighs (h : Outweighs text.toList words)
    (hbytes : bytesOf text.toUTF8 = bytesOfWords words) : words = [] := by
  obtain ⟨p, q, pieces, hkinds, hsublist, hpieces⟩ := h
  have hcount := calc (bytesOfWords words).countP p + words.length
    _ ≤ pieces.flatten.countP q := countP_bytesOfWords_le hpieces
    _ ≤ text.toList.countP q := hsublist.countP_le
    _ ≤ (text.toList.flatMap encoding).countP p := countP_le_countP_flatMap hkinds _
    _ = (bytesOfWords words).countP p := by rw [← bytesOf_toUTF8, hbytes]
  exact List.length_eq_zero_iff.mp (by omega)

theorem outweighs_of_length {pieces : List (List Char)} (hsublist : pieces.flatten.Sublist chars)
    (hlength : pieces.length = words.length) (hpieces : ∀ piece ∈ pieces, 5 ≤ piece.length) :
    Outweighs chars words := by
  refine ⟨fun _ => true, fun _ => true, pieces, fun c _ => ?_, hsublist,
    List.forall₂_iff_zip.mpr ⟨hlength, ?_⟩⟩
  · have hne : encoding c ≠ [] := by simp [encoding, String.utf8EncodeChar_ne_nil]
    obtain ⟨b, hb⟩ := List.exists_mem_of_ne_nil _ hne
    exact List.any_eq_true.mpr ⟨b, hb, rfl⟩
  · intro piece w hmem
    rw [List.countP_true, List.countP_true, Word.length_bytes]
    exact hpieces piece (List.of_mem_zip hmem).1

-- ---------------------------------------------------------------------------
-- What texts are read as
-- ---------------------------------------------------------------------------

theorem contentLines_sublist (text : List Char) :
    ((contentLines text).map (·.2)).flatten.Sublist text := by
  have hrows : (contentLines text).map (·.2) =
      ((Text.lines text).map fun line => Text.trim (Text.before startsComment line)).filter
        (!·.isEmpty) := by
    conv => rhs; rw [← List.zipIdx_map_fst 1 (Text.lines text)]
    rw [contentLines, List.map_map, List.filter_map, List.map_map, List.filter_map]
    rfl
  rw [hrows, List.flatten_filter_not_isEmpty, ← List.flatMap_def]
  refine (Text.flatMap_sublist (fun line => ?_) _).trans (Text.flatten_lines_sublist text)
  exact (Text.trim_sublist _).trans (List.takeWhile_sublist _)

theorem hexItems_sublist (text : List Char) : ((hexItems text).map (·.2)).flatten.Sublist text := by
  have hitems : ((hexItems text).map (·.2)).flatten =
      ((contentLines text).map (·.2)).flatMap fun line => (Text.words line).flatten := by
    rw [hexItems, List.map_flatMap, ← List.flatMap_id, List.flatMap_assoc, List.flatMap_map]
    simp [Function.comp_def]
  rw [hitems]
  refine (Text.flatMap_sublist (fun line => ?_) _).trans (contentLines_sublist text)
  rw [Text.flatten_words]
  exact List.filter_sublist

theorem outweighs_of_parseBits (h : parseBits chars = .ok words) : Outweighs chars words := by
  have hrows : ∀ row ∈ contentLines chars, BitRow row.2 := exists_parseBits_iff.mp ⟨words, h⟩
  refine outweighs_of_length (contentLines_sublist chars) ?_ ?_
  · simpa using congrArg List.length (readAll_eq_ok_iff.mp h)
  · intro piece hpiece
    obtain ⟨row, hrow, rfl⟩ := List.mem_map.mp hpiece
    have hbits := (hrows row hrow).1
    have hlength := List.length_filter_le (!Text.isBlank ·) row.2
    omega

theorem exists_digits_of_isHexWord (h : IsHexWord w token) :
    ∃ count > 0, w.toNat < 16 ^ count ∧ count ≤ token.length := by
  rcases h with h | h <;> cases h with
  | bare h | marked _ h =>
    obtain ⟨hpos, hvalue⟩ := Numeral.lt_of_row h
    refine ⟨_, hpos, hvalue, ?_⟩
    simp only [List.length_cons, List.length_append]
    omega

theorem outweighs_of_parseHex (h : parseHex chars = .ok words) : Outweighs chars words := by
  have hkinds : ∀ c, Numeral.isNumeric c = true → (encoding c).any isWide = true := fun c hc =>
    any_isWide_encoding (le_toNat_of_isNumeric hc)
  refine ⟨isWide, Numeral.isNumeric, _, hkinds, hexItems_sublist chars,
    List.forall₂_map_left_iff.mpr ?_⟩
  rw [hexItems_eq_tokens]
  refine (parseHex_eq_ok_iff.mp h).imp fun token w htoken => ?_
  obtain ⟨count, hcount, hvalue, hlength⟩ := exists_digits_of_isHexWord htoken
  have hitem : HexItem token.2 :=
    hexWord?_isSome_iff.mp (hexWord?_isSome_iff_exists.mpr ⟨w, htoken⟩)
  calc w.bytes.countP isWide
    _ < count := countP_isWide_lt hcount hvalue
    _ ≤ token.2.length := hlength
    _ = token.2.countP Numeral.isNumeric :=
      (List.countP_eq_length.mpr (isNumeric_of_hexItem hitem)).symm

theorem outweighs_of_assemble {origin : Word} {source : String} {program : Assembly.Program}
    (h : Assembly.assemble origin source = .ok program) :
    Outweighs source.toList program.words := by
  obtain ⟨-, -, hwords⟩ := Assembly.assemble_eq_ok h
  have hlines : ((Text.lines source.toList).filter Assembly.hasInstruction).flatten.Sublist
      source.toList :=
    List.filter_sublist.flatten.trans (Text.flatten_lines_sublist source.toList)
  refine outweighs_of_length hlines ?_ ?_
  · have hlength := congrArg List.length hwords
    rw [List.length_map, List.length_map, Assembly.length_results,
      List.countP_eq_length_filter] at hlength
    exact hlength.symm
  · intro line hline
    obtain ⟨hmem, hsome⟩ := List.mem_filter.mp hline
    obtain ⟨statement, hstatement⟩ := Option.isSome_iff_exists.mp hsome
    obtain ⟨symbols, pc, w, hencode⟩ :=
      Assembly.encodes_of_assemble h line hmem statement hstatement
    obtain ⟨front, back, rfl, -⟩ := Assembly.exists_place hstatement
    have hfive := Assembly.five_le_length_of_encodeStatement hencode
    simp only [List.length_append]
    omega

theorem outweighs_of_load {format : Format} {image : Image} (hformat : format ≠ .words .raw)
    (h : load format text.toUTF8 = .ok image) : Outweighs text.toList image.words := by
  cases format with
  | assembly =>
    rw [load_assembly] at h
    split at h
    · cases h
      exact outweighs_of_assemble ‹_›
    · cases h
  | words format =>
    simp only [load, bind_eq_ok, pure_eq_ok] at h
    obtain ⟨words, hwords, rfl⟩ := h
    cases format with
    | raw => exact absurd rfl hformat
    | bits =>
      simp only [WordFormat.parse, charsOf_toUTF8, bind_eq_ok, Except.ok.injEq,
        exists_eq_left'] at hwords
      exact outweighs_of_parseBits hwords
    | hex =>
      simp only [WordFormat.parse, charsOf_toUTF8, bind_eq_ok, Except.ok.injEq,
        exists_eq_left'] at hwords
      exact outweighs_of_parseHex hwords

-- ---------------------------------------------------------------------------
-- Raw images
-- ---------------------------------------------------------------------------

/-- A raw image is loaded as its words in the format that is detected if its bytes are no text, and
only then. -/
theorem load_raw_iff (hne : words ≠ []) : (∃ image, load (detect none (WordFormat.raw.render words))
    (WordFormat.raw.render words) = .ok image ∧ image.words = words) ↔
      ∀ text : String, text.toUTF8 ≠ WordFormat.raw.render words := by
  constructor
  · rintro ⟨image, himage, rfl⟩ text htext
    rw [← htext, detect_toUTF8] at himage
    have hbytes : bytesOf text.toUTF8 = bytesOfWords image.words := by
      rw [htext]
      exact bytesOf_ofBytes _
    exact hne (eq_nil_of_outweighs (outweighs_of_load (looksLike_ne_raw _) himage) hbytes)
  · intro h
    have hdetect : detect none (WordFormat.raw.render words) = .words .raw :=
      detect_not_text nofun h
    rw [hdetect]
    exact ⟨_, load_render .raw words, rfl⟩

/-- No text begins with the byte `0x93`. -/
theorem load_raw_addi : [0x00A00093, 0] ≠ ([] : List Word) ∧
    ∃ image, load (detect none (WordFormat.raw.render [0x00A00093, 0]))
      (WordFormat.raw.render [0x00A00093, 0]) = .ok image ∧ image.words = [0x00A00093, 0] := by
  have hchars : chars? (WordFormat.raw.render [0x00A00093, 0]) = none := by
    rw [chars?, String.fromUTF8?, dif_neg (by decide)]
    rfl
  exact ⟨List.cons_ne_nil _ _,
    (load_raw_iff (List.cons_ne_nil _ _)).mpr (chars?_eq_none_iff.mp hchars)⟩

/-- The word of `addi x0, x0, 0` is taken for assembly. -/
theorem not_load_raw_nop :
    load (detect none (WordFormat.raw.render [0x13])) (WordFormat.raw.render [0x13]) =
      .error (.assembly [⟨1, .unknownMnemonic "\x13\x00\x00\x00"⟩]) := by
  have htext : WordFormat.raw.render [0x13] = "\x13\x00\x00\x00".toUTF8 := rfl
  have hlooks : looksLike "\x13\x00\x00\x00".toList = .assembly := rfl
  have hreported : Assembly.assemble 0 "\x13\x00\x00\x00" =
      .error ([⟨1, .unknownMnemonic "\x13\x00\x00\x00"⟩].mergeSort fun a b => a.line ≤ b.line) :=
        rfl
  rw [htext, detect_toUTF8, hlooks, load_assembly, hreported, List.mergeSort_singleton]

end Image

end RiscvBoard
