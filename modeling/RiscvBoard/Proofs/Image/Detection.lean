import RiscvBoard.Proofs.Image.Format

/-!
# What is detected also loads

Unless the extension of a file decides, the format is the first one of bits and
hexadecimal that the bytes load in; a text that loads in neither is taken for
assembly, and what is no text is raw.
-/

namespace RiscvBoard.Image

/-- The extension is none of those that stand for a format, in whatever case its letters are. -/
def Undecided (extension : Option String) : Prop :=
  ∀ name ∈ extension, ∀ known ∈ ["s", "asm", "hex"], Text.lower name.toList ≠ known.toList

def Loads (format : Format) (bytes : ByteArray) : Prop := ∃ image, load format bytes = .ok image

structure Agrees (bytes : ByteArray) (format : Format) : Prop where
  raw : format = .words .raw ↔ ∀ text : String, text.toUTF8 ≠ bytes
  bits : ∀ text : String, text.toUTF8 = bytes → HasContent text.toList →
    (format = .words .bits ↔ Loads (.words .bits) bytes)
  hex : ∀ text : String, text.toUTF8 = bytes → HasContent text.toList →
    (format = .words .hex ↔ ¬Loads (.words .bits) bytes ∧ Loads (.words .hex) bytes)
  assembly : ∀ text : String, text.toUTF8 = bytes → HasContent text.toList →
    (format = .assembly ↔ ¬Loads (.words .bits) bytes ∧ ¬Loads (.words .hex) bytes)
  loads : format = .words .bits ∨ format = .words .hex → Loads format bytes

variable {extension : Option String} {bytes : ByteArray} {text : String}

theorem formatOfExtension?_of_undecided (h : Undecided extension) :
    extension.bind formatOfExtension? = none := by
  cases extension with
  | none => rfl
  | some name =>
    have hname : ∀ known ∈ ["s", "asm", "hex"], String.ofList (Text.lower name.toList) ≠ known := by
      intro known hknown heq
      refine h name rfl known hknown ?_
      rw [← heq, String.toList_ofList]
    rw [Option.bind_some, formatOfExtension?]
    split
    · exact absurd ‹_› (hname "s" (by decide))
    · exact absurd ‹_› (hname "asm" (by decide))
    · exact absurd ‹_› (hname "hex" (by decide))
    · rfl

theorem chars?_eq_none_iff : chars? bytes = none ↔ ∀ text : String, text.toUTF8 ≠ bytes := by
  constructor
  · rintro h text rfl
    rw [chars?_toUTF8] at h
    cases h
  · intro h
    rw [chars?, Option.map_eq_none_iff, String.fromUTF8?, dif_neg]
    exact fun hvalid => h (String.fromUTF8 bytes hvalid) rfl

theorem loads_words_iff {format : WordFormat} :
    Loads (.words format) bytes ↔ ∃ words, format.parse bytes = .ok words := by
  simp only [Loads, load, bind_eq_ok, pure_eq_ok]
  constructor
  · rintro ⟨image, words, h, -⟩
    exact ⟨words, h⟩
  · rintro ⟨words, h⟩
    exact ⟨_, words, h, rfl⟩

theorem loads_bits_iff : Loads (.words .bits) text.toUTF8 ↔
    ∀ row ∈ contentLines text.toList, BitRow row.2 := by
  simp only [loads_words_iff, WordFormat.parse, charsOf_toUTF8, bind_eq_ok, Except.ok.injEq,
    exists_eq_left', exists_parseBits_iff]

theorem loads_hex_iff : Loads (.words .hex) text.toUTF8 ↔
    ∀ item ∈ hexItems text.toList, HexItem item.2 := by
  simp only [loads_words_iff, WordFormat.parse, charsOf_toUTF8, bind_eq_ok, Except.ok.injEq,
    exists_eq_left', exists_parseHex_iff]

theorem looksLike_ne_raw (text : List Char) : looksLike text ≠ .words .raw := by
  unfold looksLike
  dsimp only
  repeat' split
  all_goals nofun

/-- A text with content loads in what it looks like, or in neither of the two forms. -/
theorem looksLike_iff (h : HasContent text.toList) :
    (looksLike text.toList = .words .bits ↔ Loads (.words .bits) text.toUTF8) ∧
    (looksLike text.toList = .words .hex ↔ ¬Loads (.words .bits) text.toUTF8 ∧
      Loads (.words .hex) text.toUTF8) ∧
    (looksLike text.toList = .assembly ↔ ¬Loads (.words .bits) text.toUTF8 ∧
      ¬Loads (.words .hex) text.toUTF8) := by
  have hcases := looksLike_of_content (contentLines_ne_nil_iff.mpr h)
  rw [← loads_bits_iff, ← loads_hex_iff] at hcases
  rcases hcases with ⟨hbits, hlooks⟩ | ⟨hbits, hhex, hlooks⟩ | ⟨hbits, hhex, hlooks⟩
  · simp only [hbits, hlooks, Format.words.injEq, reduceCtorEq, not_true_eq_false, false_and,
      and_self]
  · simp only [hbits, hhex, hlooks, Format.words.injEq, reduceCtorEq, not_true_eq_false,
      not_false_eq_true, and_self, and_false]
  · simp only [hbits, hhex, hlooks, reduceCtorEq, not_false_eq_true, and_self, and_false]

/-- Without content there is no row and no item that could fail. -/
theorem loads_of_not_hasContent (h : ¬HasContent text.toList) :
    Loads (.words .bits) text.toUTF8 ∧ Loads (.words .hex) text.toUTF8 := by
  rw [loads_bits_iff, loads_hex_iff, hexItems, contentLines_eq_nil h, List.flatMap_nil]
  exact ⟨List.forall_mem_nil _, List.forall_mem_nil _⟩

theorem loads_of_looksLike {format : WordFormat} (h : looksLike text.toList = .words format) :
    Loads (.words format) text.toUTF8 := by
  by_cases hcontent : HasContent text.toList
  · cases format with
    | bits => exact (looksLike_iff hcontent).1.mp h
    | hex => exact ((looksLike_iff hcontent).2.1.mp h).2
    | raw => exact absurd h (looksLike_ne_raw _)
  · cases format with
    | bits => exact (loads_of_not_hasContent hcontent).1
    | hex => exact (loads_of_not_hasContent hcontent).2
    | raw => exact absurd h (looksLike_ne_raw _)

theorem detect_text (h : Undecided extension) (text : String) :
    detect extension text.toUTF8 = looksLike text.toList := by
  simp only [detect, formatOfExtension?_of_undecided h, chars?_toUTF8]

theorem detect_not_text (h : Undecided extension) (hbytes : ∀ text : String, text.toUTF8 ≠ bytes) :
    detect extension bytes = .words .raw := by
  simp only [detect, formatOfExtension?_of_undecided h, chars?_eq_none_iff.mpr hbytes]

theorem detect_agrees (h : Undecided extension) (bytes : ByteArray) :
    Agrees bytes (detect extension bytes) where
  raw := by
    refine ⟨?_, detect_not_text h⟩
    rintro hraw text rfl
    rw [detect_text h] at hraw
    exact looksLike_ne_raw _ hraw
  bits text htext hcontent := by
    rw [← htext, detect_text h]
    exact (looksLike_iff hcontent).1
  hex text htext hcontent := by
    rw [← htext, detect_text h]
    exact (looksLike_iff hcontent).2.1
  assembly text htext hcontent := by
    rw [← htext, detect_text h]
    exact (looksLike_iff hcontent).2.2
  loads hformat := by
    by_cases hbytes : ∀ text : String, text.toUTF8 ≠ bytes
    · rw [detect_not_text h hbytes] at hformat
      cases hformat <;> contradiction
    obtain ⟨text, rfl⟩ : ∃ text : String, text.toUTF8 = bytes := by simpa using hbytes
    rw [detect_text h] at hformat ⊢
    obtain hbits | hhex := hformat
    · rw [hbits]
      exact loads_of_looksLike hbits
    · rw [hhex]
      exact loads_of_looksLike hhex

def mixed : String := "1001 0011 ; two words\r\n\t0x+13\u00a0DEAD # two more\n"

theorem detect_agrees_mixed : Undecided (some "S19") ∧ HasContent mixed.toList ∧
    detect (some "S19") mixed.toUTF8 = .words .hex ∧
    load (.words .hex) mixed.toUTF8 = .ok { words := [0x1001, 0x0011, 0x13, 0xDEAD] } ∧
    ¬Loads (.words .bits) mixed.toUTF8 := by
  have hextension : Undecided (some "S19") := by
    intro name hname
    obtain rfl := Option.mem_some_iff.mp hname
    decide
  have hcontent : HasContent mixed.toList :=
    ⟨"1001 0011 ; two words".toList, by decide, '1', by decide, by decide⟩
  have hdetect : detect (some "S19") mixed.toUTF8 = .words .hex := by
    rw [detect_text hextension]
    rfl
  have hagrees := detect_agrees hextension mixed.toUTF8
  refine ⟨hextension, hcontent, hdetect, ?_, ((hagrees.hex mixed rfl hcontent).mp hdetect).1⟩
  simp only [load, WordFormat.parse, charsOf_toUTF8]
  rfl

end RiscvBoard.Image
