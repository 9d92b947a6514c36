import Mathlib.Data.List.Basic
import RiscvBoard.Image.Format
import RiscvBoard.Proofs.Result
import RiscvBoard.Proofs.Text.BitString

/-!
# Words and their rows

An image of rows is read item by item, and it is read as a list of words exactly
if each item is read as the word in its place. The rows that words are written
as consist of letters and digits, so no row is cut short, and each is one item.
-/

namespace RiscvBoard.Image

variable {text : List Char} {row : Word → List Char}

-- ---------------------------------------------------------------------------
-- Plain rows
-- ---------------------------------------------------------------------------

def IsPlain (text : List Char) : Prop := text ≠ [] ∧ ∀ c ∈ text, c.isAlphanum = true

namespace IsPlain

theorem not_mem (h : IsPlain text) {c : Char} (hc : c.isAlphanum = false) : c ∉ text := fun hmem =>
  Bool.false_ne_true (hc.symm.trans (h.2 c hmem))

theorem isBlank (h : IsPlain text) : ∀ c ∈ text, Text.isBlank c = false := fun c hc =>
  Text.isBlank_of_isAlphanum (h.2 c hc)

theorem before (h : IsPlain text) : Text.before startsComment text = text := by
  have hclear : ∀ c ∈ text, (!startsComment c) = true := by
    intro c hc
    simp only [startsComment, Bool.not_or, Bool.and_eq_true, Bool.not_eq_true', beq_eq_false_iff_ne]
    constructor
    · rintro rfl
      exact h.not_mem rfl hc
    · rintro rfl
      exact h.not_mem rfl hc
  have hall : (text ++ []).takeWhile (!startsComment ·) = text ++ [].takeWhile (!startsComment ·) :=
    List.takeWhile_append_of_pos hclear
  simpa [Text.before] using hall

theorem trim (h : IsPlain text) : Text.trim text = text := Text.trim_of_isAlphanum h.2

theorem words (h : IsPlain text) : Text.words text = [text] := by
  simp [Text.words, Text.pieces_of_forall h.isBlank, h.1]

end IsPlain

theorem isPlain_fixed {base count n : Nat} (hpos : 0 < base) (hbase : base ≤ 16)
    (hcount : 0 < count) : IsPlain (Numeral.fixed base count n) := by
  refine ⟨fun hnil => ?_, fun c hc => Numeral.isAlphanum_of_mem_fixed hpos hbase hc⟩
  have hlength := Numeral.length_fixed base count n
  rw [hnil] at hlength
  exact Nat.ne_of_lt hcount hlength

theorem isPlain_ofWord (w : Word) : IsPlain (BitString.ofWord w) :=
  isPlain_fixed (by decide) (by decide) (by decide)

theorem isPlain_hex (w : Word) : IsPlain (Numeral.fixed 16 8 w.toNat) :=
  isPlain_fixed (by decide) (by decide) (by decide)

section

variable (h : ∀ w, IsPlain (row w))
include h

theorem contentLines_rows (words : List Word) :
    contentLines (words.flatMap fun w => row w ++ ['\n']) =
      ((words.map row).zipIdx 1).map Prod.swap := by
  have hplain : ∀ line ∈ words.map row, IsPlain line := by
    intro line hline
    obtain ⟨w, -, rfl⟩ := List.mem_map.mp hline
    exact h w
  have hlines : Text.lines (words.flatMap fun w => row w ++ ['\n']) = words.map row := by
    rw [← List.flatMap_map row (· ++ ['\n'])]
    exact Text.lines_flatMap (fun line hl => (hplain line hl).not_mem rfl) fun line hl =>
      (hplain line hl).not_mem rfl
  have hitem : ∀ line number, (line, number) ∈ (words.map row).zipIdx 1 →
      Text.trim (Text.before startsComment line) = line ∧ line ≠ [] := by
    intro line number hi
    have hline := hplain line (List.fst_mem_of_mem_zipIdx hi)
    rw [hline.before, hline.trim]
    exact ⟨rfl, hline.1⟩
  rw [contentLines, hlines, List.filter_eq_self.mpr]
  · refine List.map_congr_left fun ⟨line, number⟩ hi => ?_
    dsimp only
    rw [(hitem line number hi).1]
    rfl
  · intro item hitems
    obtain ⟨⟨line, number⟩, hi, rfl⟩ := List.mem_map.mp hitems
    simp [hitem line number hi]

theorem hexItems_rows (words : List Word) : hexItems (words.flatMap fun w => row w ++ ['\n']) =
    ((words.map row).zipIdx 1).map Prod.swap := by
  rw [hexItems, contentLines_rows h, List.flatMap_map]
  refine Eq.trans (List.flatMap_congr fun item hi => ?_) List.map_eq_flatMap.symm
  obtain ⟨w, -, hw⟩ := List.mem_map.mp (List.fst_mem_of_mem_zipIdx hi)
  change (Text.words item.1).map (fun word => (item.2, word)) = [(item.2, item.1)]
  rw [← hw, (h w).words, List.map_singleton]

end

-- ---------------------------------------------------------------------------
-- Reading item by item
-- ---------------------------------------------------------------------------

theorem readAll_eq_ok_iff {read : List Char → Option Word} {fault : Nat → String → LoadError}
    {items : List (Nat × List Char)} {words : List Word} :
    readAll read fault items = .ok words ↔
      items.map (fun item => read item.2) = words.map some := by
  unfold readAll
  induction items generalizing words with
  | nil =>
    rw [List.mapM_nil, pure_eq_ok, List.map_nil]
    cases words <;> simp
  | cons item items ih =>
    obtain ⟨number, item⟩ := item
    rw [List.mapM_cons, List.map_cons]
    cases hitem : read item with
    | none =>
      simp only [hitem, bind_eq_ok, reduceCtorEq, false_and, exists_false, false_iff]
      cases words <;> simp
    | some w =>
      simp only [hitem, bind_eq_ok, pure_eq_ok, Except.ok.injEq, exists_eq_left', ih]
      cases words with
      | nil => simp
      | cons first words =>
        simp only [List.cons.injEq, List.map_cons, Option.some.injEq]
        constructor
        · rintro ⟨rest, hrest, hw, rfl⟩
          exact ⟨hw, hrest⟩
        · rintro ⟨hw, hrest⟩
          exact ⟨words, hrest, hw, rfl⟩

theorem exists_readAll_iff {read : List Char → Option Word} {fault : Nat → String → LoadError}
    {items : List (Nat × List Char)} :
    (∃ words, readAll read fault items = .ok words) ↔
      ∀ item ∈ items, (read item.2).isSome = true := by
  simp only [readAll_eq_ok_iff]
  constructor
  · rintro ⟨words, h⟩ item hitem
    have hread := List.mem_map_of_mem (f := fun item : Nat × List Char => read item.2) hitem
    rw [h] at hread
    obtain ⟨w, -, hw⟩ := List.mem_map.mp hread
    exact Option.isSome_iff_exists.mpr ⟨w, hw.symm⟩
  · intro h
    refine ⟨items.filterMap fun item => read item.2, ?_⟩
    rw [List.map_filterMap, ← List.filterMap_eq_map]
    refine List.filterMap_congr fun item hitem => ?_
    obtain ⟨w, hw⟩ := Option.isSome_iff_exists.mp (h item hitem)
    simp [hw]

section

variable {read : List Char → Option Word} {fault : Nat → String → LoadError}
  {front behind items : List (Nat × List Char)} {number : Nat} {item : List Char}

theorem readAll_append_cons (hfront : ∀ earlier ∈ front, (read earlier.2).isSome = true)
    (hitem : read item = none) :
    readAll read fault (front ++ (number, item) :: behind) =
      .error (fault number (String.ofList item)) := by
  induction front with
  | nil => simp [readAll, hitem, bind, Except.bind]
  | cons earlier front ih =>
    obtain ⟨hearlier, hfront⟩ := List.forall_mem_cons.mp hfront
    obtain ⟨w, hw⟩ := Option.isSome_iff_exists.mp hearlier
    have hrest := ih hfront
    unfold readAll at hrest
    simp [readAll, hw, hrest, bind, Except.bind]

theorem exists_first_unread (h : ¬∀ item ∈ items, (read item.2).isSome = true) :
    ∃ front number item behind,
      items = front ++ (number, item) :: behind ∧
        (∀ earlier ∈ front, (read earlier.2).isSome = true) ∧ read item = none := by
  induction items with
  | nil => exact absurd (List.forall_mem_nil _) h
  | cons first items ih =>
    cases hfirst : read first.2 with
    | none => exact ⟨[], first.1, first.2, items, rfl, List.forall_mem_nil _, hfirst⟩
    | some w =>
      have hsome : (read first.2).isSome = true := by simp [hfirst]
      obtain ⟨front, number, item, behind, rfl, hfront, hitem⟩ := ih fun hall =>
        h (List.forall_mem_cons.mpr ⟨hsome, hall⟩)
      exact ⟨first :: front, number, item, behind, rfl,
        List.forall_mem_cons.mpr ⟨hsome, hfront⟩, hitem⟩

theorem readAll_eq_error_iff {error : LoadError} : readAll read fault items = .error error ↔
    ∃ front number item behind, items = front ++ (number, item) :: behind ∧
      (∀ earlier ∈ front, (read earlier.2).isSome = true) ∧ read item = none ∧
      error = fault number (String.ofList item) := by
  constructor
  · intro h
    have hunread : ¬∀ item ∈ items, (read item.2).isSome = true := by
      intro hall
      obtain ⟨words, hwords⟩ : ∃ words, readAll read fault items = .ok words :=
        exists_readAll_iff.mpr hall
      rw [h] at hwords
      cases hwords
    obtain ⟨front, number, item, behind, rfl, hfront, hitem⟩ := exists_first_unread hunread
    rw [readAll_append_cons hfront hitem] at h
    exact ⟨front, number, item, behind, rfl, hfront, hitem, (Except.error.inj h).symm⟩
  · rintro ⟨front, number, item, behind, rfl, hfront, hitem, rfl⟩
    exact readAll_append_cons hfront hitem

end

theorem readAll_rows {read : List Char → Option Word} (fault : Nat → String → LoadError)
    (h : ∀ w, read (row w) = some w) (words : List Word) :
    readAll read fault (((words.map row).zipIdx 1).map Prod.swap) = .ok words := by
  rw [readAll_eq_ok_iff, List.map_map]
  calc ((words.map row).zipIdx 1).map (fun item => read item.1)
    _ = (((words.map row).zipIdx 1).map Prod.fst).map read := by rw [List.map_map]; rfl
    _ = words.map (fun w => read (row w)) := by rw [List.zipIdx_map_fst, List.map_map]; rfl
    _ = words.map some := List.map_congr_left fun w _ => h w

-- ---------------------------------------------------------------------------
-- Bits and hexadecimal digits
-- ---------------------------------------------------------------------------

theorem bitRow?_ofWord (w : Word) : bitRow? (BitString.ofWord w) = some w := by
  rw [bitRow?, (isPlain_ofWord w).words, List.flatten_singleton, BitString.word?_ofWord]

theorem hexWord?_fixed (w : Word) : hexWord? (Numeral.fixed 16 8 w.toNat) = some w := by
  have hdigits : Numeral.digits 16 0x100000000 0 (Numeral.fixed 16 8 w.toNat) = .ok w.toNat := by
    have hvalue : 16 ^ 8 * 0 + w.toNat % 16 ^ 8 = w.toNat := by omega
    rw [Numeral.digits_fixed (by decide) (by decide) (by omega), hvalue]
  have hfirst : '+' ∉ Numeral.fixed 16 8 w.toNat := (isPlain_hex w).not_mem rfl
  have hmark : ∀ x ∈ ['x', 'X'], x ∉ Numeral.fixed 16 8 w.toNat := by
    intro x hx hmem
    obtain ⟨d, hd, rfl⟩ := Numeral.exists_of_mem_fixed (by decide) hmem
    have hall : ∀ d < 16, Nat.digitChar d ∉ ['x', 'X'] := by decide
    exact hall d hd hx
  have hpart : Numeral.hexPart? (Numeral.fixed 16 8 w.toNat) = none := by
    refine Option.eq_none_iff_forall_ne_some.mpr fun rest hpart => ?_
    obtain ⟨mark, hdigits, hmem⟩ := Numeral.hexPart?_eq_some_iff.mp hpart
    exact hmark mark (by simpa using hmem) (hdigits ▸ by simp)
  have hnatural : Numeral.natural 16 0x100000000 (Numeral.fixed 16 8 w.toNat) = .ok w.toNat := by
    unfold Numeral.natural
    split
    · rename_i heq
      exact absurd heq (isPlain_hex w).1
    · rename_i heq
      exact absurd (heq ▸ List.mem_cons_self) hfirst
    · rename_i heq
      exact absurd (heq ▸ List.mem_cons_self) hfirst
    · exact hdigits
  simp [hexWord?, hpart, hnatural, Except.toOption]

theorem parseBits_renderBits (words : List Word) : parseBits (renderBits words) = .ok words := by
  rw [parseBits, renderBits, contentLines_rows isPlain_ofWord]
  exact readAll_rows _ bitRow?_ofWord words

theorem parseHex_renderHex (words : List Word) : parseHex (renderHex words) = .ok words := by
  rw [parseHex, renderHex, hexItems_rows isPlain_hex]
  exact readAll_rows _ hexWord?_fixed words

end RiscvBoard.Image
