import RiscvBoard.Proofs.Image.Rows

/-!
# What images are made of

A row of bits has thirty-two bits, with blanks anywhere on the line. An item of a
hex image is up to eight characters behind the mark of the base or none: one or
more digits, or a plus sign and digits. An image is read exactly when all of its
rows or items are of this form, and what a text looks like is decided by the same
two forms.
-/

namespace RiscvBoard.Image

open Numeral (IsNatural)

def BitRow (line : List Char) : Prop :=
  (line.filter (!Text.isBlank ·)).length = 32 ∧
    ∀ c ∈ line, Text.isBlank c = true ∨ c = '0' ∨ c = '1'

inductive HexItem : List Char → Prop
  | bare {digits : List Char} (h : IsNatural 16 digits)
      (hlength : digits.length ≤ 8) : HexItem digits
  | marked {mark : Char} {digits : List Char} (hmark : mark = 'x' ∨ mark = 'X')
      (h : IsNatural 16 digits) (hlength : digits.length ≤ 8) : HexItem ('0' :: mark :: digits)

/-- On some line there is more than blanks and a comment. -/
def HasContent (text : List Char) : Prop :=
  ∃ line ∈ Text.lines text, ∃ c ∈ Text.before startsComment line, Text.isBlank c = false

variable {text line item : List Char} {number : Nat} {c : Char}

-- ---------------------------------------------------------------------------
-- Rows and items
-- ---------------------------------------------------------------------------

theorem bitRow?_isSome_iff : (bitRow? line).isSome = true ↔ BitRow line := by
  rw [bitRow?, Text.flatten_words, BitString.word?_isSome_iff, BitRow]
  simp only [List.mem_filter, Bool.not_eq_true', and_imp, ← Bool.not_eq_true,
    ← or_iff_not_imp_right, or_comm]

theorem not_isNatural_of_mark {mark : Char} (hmark : mark = 'x' ∨ mark = 'X') :
    ¬IsNatural 16 ('0' :: mark :: text) := by
  intro h
  cases h with
  | plain hne h =>
    have hdigit := h mark (List.mem_cons_of_mem '0' List.mem_cons_self)
    obtain rfl | rfl := hmark <;> exact absurd hdigit (by decide)

theorem hexItem_iff :
    HexItem item ↔ IsNatural 16 ((Numeral.hexPart? item).getD item) ∧
      ((Numeral.hexPart? item).getD item).length ≤ 8 := by
  constructor
  · intro h
    cases h with
    | bare h hlength =>
      cases hpart : Numeral.hexPart? item with
      | none => exact ⟨h, hlength⟩
      | some rest =>
        obtain ⟨mark, rfl, hmark⟩ := Numeral.hexPart?_eq_some_iff.mp hpart
        exact absurd h (not_isNatural_of_mark hmark)
    | marked hmark h hlength =>
      rw [Numeral.hexPart?_eq_some_iff.mpr ⟨_, rfl, hmark⟩]
      exact ⟨h, hlength⟩
  · intro ⟨h, hlength⟩
    cases hpart : Numeral.hexPart? item with
    | none =>
      rw [hpart] at h hlength
      exact .bare h hlength
    | some rest =>
      rw [hpart] at h hlength
      obtain ⟨mark, rfl, hmark⟩ := Numeral.hexPart?_eq_some_iff.mp hpart
      exact .marked hmark h hlength

theorem hexWord?_isSome_iff : (hexWord? item).isSome = true ↔ HexItem item := by
  rw [hexItem_iff, hexWord?]
  generalize (Numeral.hexPart? item).getD item = digits
  by_cases hlength : digits.length ≤ 8
  · have hlimit : 16 ^ digits.length ≤ 0x100000000 :=
      Nat.pow_le_pow_right (by decide : 16 > 0) hlength
    rw [if_pos hlength, ← Numeral.exists_natural_eq_ok_iff (by decide) hlimit, Option.isSome_map]
    cases Numeral.natural 16 0x100000000 digits with
    | ok n => simp [hlength, Except.toOption]
    | error fault => simp [Except.toOption]
  · simp [hlength]

theorem isNumeric_of_bitRow (h : BitRow line) (hc : c ∈ line) (hblank : Text.isBlank c = false) :
    Numeral.isNumeric c = true := by
  obtain hc | rfl | rfl := h.2 c hc
  · rw [hblank] at hc
    cases hc
  · rfl
  · rfl

theorem isNumeric_of_hexItem (h : HexItem item) : ∀ c ∈ item, Numeral.isNumeric c = true := by
  cases h with
  | bare h => exact Numeral.isNumeric_of_isNatural h
  | marked hmark h =>
    exact Numeral.isNumeric_of_hexPart? (Numeral.hexPart?_eq_some_iff.mpr ⟨_, rfl, hmark⟩)
      (Numeral.isNumeric_of_isNatural h)

-- ---------------------------------------------------------------------------
-- Texts
-- ---------------------------------------------------------------------------

theorem mem_contentLines : (number, line) ∈ contentLines text ↔ ∃ k whole, number = k + 1 ∧
    (Text.lines text)[k]? = some whole ∧ line = Text.trim (Text.before startsComment whole) ∧
      line ≠ [] := by
  rw [contentLines, List.mem_filter, List.mem_map]
  constructor
  · rintro ⟨⟨⟨whole, i⟩, hwhole, heq⟩, hne⟩
    obtain ⟨rfl, rfl⟩ := Prod.mk.inj heq
    obtain ⟨hpos, hwhole⟩ := List.mk_mem_zipIdx_iff_le_and_getElem?_sub.mp hwhole
    exact ⟨i - 1, whole, (Nat.sub_add_cancel hpos).symm, hwhole, rfl, by simpa using hne⟩
  · rintro ⟨k, whole, rfl, hwhole, rfl, hne⟩
    have hmem : (whole, k + 1) ∈ (Text.lines text).zipIdx 1 := by
      rw [Nat.add_comm, List.mk_add_mem_zipIdx_iff_getElem?, hwhole]
    exact ⟨⟨(whole, k + 1), hmem, rfl⟩, by simpa using hne⟩

theorem contentLines_ne_nil_iff : contentLines text ≠ [] ↔ HasContent text := by
  have hcontent : ∀ line, Text.trim line ≠ [] ↔ ∃ c ∈ line, Text.isBlank c = false := by
    intro line
    rw [Ne, Text.trim_eq_nil_iff, List.all_eq_true]
    simp
  constructor
  · intro h
    obtain ⟨⟨number, line⟩, hline⟩ := List.exists_mem_of_ne_nil _ h
    obtain ⟨k, whole, -, hwhole, rfl, hne⟩ := mem_contentLines.mp hline
    exact ⟨whole, List.mem_of_getElem? hwhole, (hcontent _).mp hne⟩
  · rintro ⟨whole, hwhole, hsome⟩
    obtain ⟨k, hk⟩ := List.mem_iff_getElem?.mp hwhole
    exact List.ne_nil_of_mem (mem_contentLines.mpr ⟨k, whole, rfl, hk, rfl, (hcontent _).mpr hsome⟩)

theorem contentLines_eq_nil (h : ¬HasContent text) : contentLines text = [] := by
  by_contra hne
  exact h (contentLines_ne_nil_iff.mp hne)

theorem exists_parseBits_iff :
    (∃ words, parseBits text = .ok words) ↔ ∀ row ∈ contentLines text, BitRow row.2 := by
  simp only [parseBits, exists_readAll_iff, bitRow?_isSome_iff]

theorem exists_parseHex_iff : (∃ words, parseHex text = .ok words) ↔
    ∀ item ∈ hexItems text, HexItem item.2 := by
  simp only [parseHex, exists_readAll_iff, hexWord?_isSome_iff]

theorem looksLike_of_content (h : contentLines text ≠ []) :
    (∀ row ∈ contentLines text, BitRow row.2) ∧ looksLike text = .words .bits ∨
    ¬(∀ row ∈ contentLines text, BitRow row.2) ∧ (∀ item ∈ hexItems text, HexItem item.2) ∧
      looksLike text = .words .hex ∨
    ¬(∀ row ∈ contentLines text, BitRow row.2) ∧ ¬(∀ item ∈ hexItems text, HexItem item.2) ∧
      looksLike text = .assembly := by
  have htext : ¬text.isEmpty = true := by
    intro hempty
    rw [List.isEmpty_iff.mp hempty] at h
    exact h rfl
  have hlines : ¬(contentLines text).isEmpty = true := fun hempty => h (List.isEmpty_iff.mp hempty)
  have hbits : ((contentLines text).all fun row => (bitRow? row.2).isSome) = true ↔
      ∀ row ∈ contentLines text, BitRow row.2 := by simp only [List.all_eq_true, bitRow?_isSome_iff]
  have hhex : ((hexItems text).all fun item => (hexWord? item.2).isSome) = true ↔
      ∀ item ∈ hexItems text, HexItem item.2 := by simp only [List.all_eq_true, hexWord?_isSome_iff]
  rw [← hbits, ← hhex]
  unfold looksLike
  dsimp only
  rw [if_neg htext, if_neg hlines]
  split
  · exact .inl ⟨‹_›, rfl⟩
  · split
    · exact .inr (.inl ⟨‹_›, ‹_›, rfl⟩)
    · exact .inr (.inr ⟨‹_›, ‹_›, rfl⟩)

end RiscvBoard.Image
