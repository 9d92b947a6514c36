import Mathlib.Data.List.Forall2
import RiscvBoard.Proofs.Assembly.Line
import RiscvBoard.Proofs.Image.Grammar
import RiscvBoard.Proofs.Text.BitString

/-!
# Words in base two

A bit image has one word on each line that has anything in front of its comment.
Without the blanks such a line is the row of the word, and the image is the words
of these lines in order. Otherwise the first line that is no row is reported, with
its number among all lines of the text.
-/

namespace RiscvBoard.Image

def content (line : List Char) : List Char := Text.trim (Text.before startsComment line)

def contents (text : List Char) : List (List Char) :=
  ((Text.lines text).map content).filter (!·.isEmpty)

def IsBitRow (w : Word) (line : List Char) : Prop :=
  line.filter (!Text.isBlank ·) = BitString.ofWord w

/-- The line at place `k`, counted from zero, is the first that says something and is no row. -/
structure FirstBadRow (text : List Char) (k : Nat) (line : List Char) : Prop where
  there : (Text.lines text)[k]? = some line
  nonempty : content line ≠ []
  bad : ¬∃ w, IsBitRow w (content line)
  earlier : ∀ j < k, ∀ other, (Text.lines text)[j]? = some other →
    content other = [] ∨ ∃ w, IsBitRow w (content other)

variable {text line row : List Char} {front behind : List (Nat × List Char)}
  {number k : Nat} {w : Word} {words : List Word} {error : LoadError}

-- ---------------------------------------------------------------------------
-- Rows
-- ---------------------------------------------------------------------------

theorem bitRow?_eq_some_iff : bitRow? row = some w ↔ IsBitRow w row := by
  rw [bitRow?, Text.flatten_words, BitString.word?_eq_some_iff, IsBitRow]

theorem bitRow?_isSome_iff_exists : (bitRow? row).isSome = true ↔ ∃ w, IsBitRow w row := by
  simp only [Option.isSome_iff_exists, bitRow?_eq_some_iff]

theorem bitRow?_eq_none_iff_not_exists : bitRow? row = none ↔ ¬∃ w, IsBitRow w row := by
  rw [← bitRow?_isSome_iff_exists, Option.not_isSome_iff_eq_none]

-- ---------------------------------------------------------------------------
-- Lines with content
-- ---------------------------------------------------------------------------

theorem map_snd_contentLines (text : List Char) :
    (contentLines text).map (·.2) = contents text := by
  conv => rhs; rw [contents, ← List.zipIdx_map_fst 1 (Text.lines text), List.map_map,
    List.filter_map]
  rw [contentLines, List.filter_map, List.map_map]
  rfl

theorem pairwise_contentLines (text : List Char) : (contentLines text).Pairwise (·.1 < ·.1) := by
  refine List.Pairwise.filter _ (List.pairwise_map.mpr ?_)
  exact Assembly.pairwise_zipIdx (Text.lines text) 1

theorem mem_front_iff (h : contentLines text = front ++ (k + 1, row) :: behind) :
    (number, line) ∈ front ↔ (number, line) ∈ contentLines text ∧ number < k + 1 := by
  have hsorted := pairwise_contentLines text
  rw [h, List.pairwise_append] at hsorted
  obtain ⟨-, hrest, hbefore⟩ := hsorted
  rw [h]
  constructor
  · intro hmem
    exact ⟨List.mem_append_left _ hmem, hbefore _ hmem _ List.mem_cons_self⟩
  · rintro ⟨hmem, hlt⟩
    rcases List.mem_append.mp hmem with hmem | hmem
    · exact hmem
    · rcases List.mem_cons.mp hmem with heq | hmem
      · exact absurd (Prod.mk.inj heq).1 (Nat.ne_of_lt hlt)
      · exact absurd ((List.pairwise_cons.mp hrest).1 _ hmem) (Nat.lt_asymm hlt)

theorem forall_front_iff (p : List Char → Prop)
    (h : contentLines text = front ++ (k + 1, row) :: behind) : (∀ earlier ∈ front, p earlier.2) ↔
      ∀ j < k, ∀ line, (Text.lines text)[j]? = some line →
        content line = [] ∨ p (content line) := by
  constructor
  · intro hfront j hj line hline
    by_cases hempty : content line = []
    · exact .inl hempty
    · have hmem : (j + 1, content line) ∈ front :=
        (mem_front_iff h).mpr ⟨mem_contentLines.mpr ⟨j, line, rfl, hline, rfl, hempty⟩,
          Nat.succ_lt_succ hj⟩
      exact .inr (hfront _ hmem)
  · rintro hlines ⟨number, earlier⟩ hmem
    obtain ⟨hitem, hlt⟩ := (mem_front_iff h).mp hmem
    obtain ⟨j, line, rfl, hline, rfl, hne⟩ := mem_contentLines.mp hitem
    exact (hlines j (Nat.lt_of_succ_lt_succ hlt) line hline).resolve_left hne

-- ---------------------------------------------------------------------------
-- Images
-- ---------------------------------------------------------------------------

theorem parseBits_eq_ok_iff :
    parseBits text = .ok words ↔
      List.Forall₂ (fun row w => IsBitRow w row) (contents text) words := by
  rw [parseBits, readAll_eq_ok_iff, ← map_snd_contentLines, ← List.forall₂_eq_eq_eq,
    List.forall₂_map_left_iff, List.forall₂_map_left_iff, List.forall₂_map_right_iff]
  simp only [bitRow?_eq_some_iff]

theorem parseBits_eq_error_iff : parseBits text = .error error ↔
    ∃ k line, FirstBadRow text k line ∧
      error = .notBits (k + 1) (String.ofList (content line)) := by
  rw [parseBits, readAll_eq_error_iff]
  simp only [bitRow?_isSome_iff_exists, bitRow?_eq_none_iff_not_exists]
  constructor
  · rintro ⟨front, number, row, behind, hitems, hfront, hrow, rfl⟩
    have hmem : (number, row) ∈ contentLines text :=
      hitems ▸ List.mem_append_right _ List.mem_cons_self
    obtain ⟨k, line, rfl, hline, rfl, hne⟩ := mem_contentLines.mp hmem
    have hearlier := (forall_front_iff (fun row => ∃ w, IsBitRow w row) hitems).mp hfront
    exact ⟨k, line, ⟨hline, hne, hrow, hearlier⟩, rfl⟩
  · rintro ⟨k, line, ⟨hline, hne, hrow, hearlier⟩, rfl⟩
    have hmem : (k + 1, content line) ∈ contentLines text :=
      mem_contentLines.mpr ⟨k, line, rfl, hline, rfl, hne⟩
    obtain ⟨front, behind, hitems⟩ := List.append_of_mem hmem
    have hfront := (forall_front_iff (fun row => ∃ w, IsBitRow w row) hitems).mpr hearlier
    exact ⟨front, k + 1, content line, behind, hitems, hfront, hrow, rfl⟩

/-- A row of bits and its word determine each other, and a bit image is the words of its rows. -/
theorem rows_are_words :
    (∀ (text : String) (w : Word), BitString.word? text.toList = some w ↔
      text = String.ofList (BitString.ofWord w)) ∧
    (∀ w : Word, (BitString.ofWord w).length = 32 ∧
      ∀ place < 32, (BitString.ofWord w)[place]? = some (if w.getMsbD place then '1' else '0')) ∧
    (∀ text : String, BitString.scan text = (BitString.word? text.toList).elim .notBits .word) ∧
    (∀ text : String, ¬(text.length = 32 ∧ ∀ c ∈ text.toList, c = '0' ∨ c = '1') →
      BitString.scan text = .notBits) ∧
    (∀ text words, parseBits text = .ok words ↔
      List.Forall₂ (fun row w => IsBitRow w row) (contents text) words) ∧
    ∀ text error, parseBits text = .error error ↔
      ∃ k line, FirstBadRow text k line ∧
        error = .notBits (k + 1) (String.ofList (content line)) := by
  refine ⟨fun text w => ?_,
    fun w => ⟨BitString.length_ofWord w, fun place => BitString.getElem?_ofWord w⟩,
    BitString.scan_eq, fun text h => ?_, fun _ _ => parseBits_eq_ok_iff,
      fun _ _ => parseBits_eq_error_iff⟩
  · rw [BitString.word?_eq_some_iff, ← String.toList_inj, String.toList_ofList]
  · rw [← String.length_toList, ← BitString.word?_eq_none_iff] at h
    rw [BitString.scan_eq, h]
    rfl

def wide : String := "é000000000000000000000000000000"

def spacious : List Char :=
  "# two words\r\n0000 0000 1010 0000 0000 0000 1001 0011\n\n\t00000000000000000000000000000000 ; halt".toList

theorem rows_are_words_wide : wide.utf8ByteSize = 32 ∧ BitString.scan wide = .notBits ∧
    parseBits spacious = .ok [0x00A00093, 0] ∧
    parseBits "# none\n0 1 2 ; three".toList = .error (.notBits 2 "0 1 2") := by
  obtain ⟨-, -, -, hscan, hok, herror⟩ := rows_are_words
  have hbad : FirstBadRow "# none\n0 1 2 ; three".toList 1 "0 1 2 ; three".toList := by
    refine ⟨rfl, by decide, bitRow?_eq_none_iff_not_exists.mp rfl, fun j hj other hother => ?_⟩
    obtain rfl := Nat.lt_one_iff.mp hj
    cases hother
    exact .inl rfl
  exact ⟨by decide, hscan wide (by decide), (hok _ _).mpr (.cons rfl (.cons rfl .nil)),
    (herror _ _).mpr ⟨1, _, hbad, rfl⟩⟩

end RiscvBoard.Image
