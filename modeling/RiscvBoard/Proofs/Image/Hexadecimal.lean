import RiscvBoard.Proofs.Image.Grammar
import RiscvBoard.Proofs.Text.Reading

/-!
# Words in base sixteen

The items of a hex image are the tokens between blanks in front of the comments. A
token is a word if it spells one, with a plus sign in front of the digits or none,
and the image is the words of its tokens in order. Otherwise the first token that
is none is reported, with its line.
-/

namespace RiscvBoard.Image

def tokens (text : List Char) : List (Nat × List Char) :=
  ((Text.lines text).zipIdx 1).flatMap fun (line, number) =>
    (Text.words (Text.before startsComment line)).map fun token => (number, token)

/-- The digits of a word, eight characters at most with `sign` in front, behind the mark of base
sixteen or none. -/
inductive HexToken (sign : List Char) (w : Word) : List Char → Prop
  | bare {digits : List Char} (h : Numeral.Row 16 w.toNat digits)
      (hlength : (sign ++ digits).length ≤ 8) :
      HexToken sign w (sign ++ digits)
  | marked {mark : Char} {digits : List Char} (hmark : mark = 'x' ∨ mark = 'X')
      (h : Numeral.Row 16 w.toNat digits)
      (hlength : (sign ++ digits).length ≤ 8) : HexToken sign w ('0' :: mark :: (sign ++ digits))

def IsHexWord (w : Word) (token : List Char) : Prop := HexToken [] w token ∨ HexToken ['+'] w token

variable {text token : List Char} {w : Word}

-- ---------------------------------------------------------------------------
-- Tokens
-- ---------------------------------------------------------------------------

theorem hexItems_eq_tokens (text : List Char) : hexItems text = tokens text := by
  rw [hexItems, contentLines, tokens]
  induction (Text.lines text).zipIdx 1 with
  | nil => rfl
  | cons line lines ih =>
    rw [List.map_cons, List.flatMap_cons, ← ih]
    by_cases hempty : Text.trim (Text.before startsComment line.1) = []
    · have hwords : Text.words (Text.before startsComment line.1) = [] := by
        rw [← Text.words_trim, hempty]
        rfl
      simp [hempty, hwords]
    · simp [hempty, Text.words_trim]

theorem hexWord?_of_hexToken {sign : List Char} (hsign : sign = [] ∨ sign = ['+'])
    (h : HexToken sign w token) : hexWord? token = some w := by
  have hread : ∀ {digits}, Numeral.Row 16 w.toNat digits →
      (Numeral.natural 16 0x100000000 (sign ++ digits)).map (BitVec.ofNat 32) = .ok w := fun hrow =>
    (Numeral.natural_map_eq_ok_iff (by decide) (by decide)).mpr ⟨sign, _, hsign, rfl, hrow⟩
  unfold hexWord?
  cases h with
  | @bare digits h hlength =>
    have hpart : Numeral.hexPart? (sign ++ digits) = none := by
      refine Option.eq_none_iff_forall_ne_some.mpr fun rest hpart => ?_
      obtain ⟨mark, htext, hmark⟩ := Numeral.hexPart?_eq_some_iff.mp hpart
      obtain ⟨n, hn, -⟩ := map_eq_ok.mp (hread h)
      rw [htext] at hn
      exact not_isNatural_of_mark hmark (Numeral.isNatural_of_natural hn)
    simp only [hpart, Option.getD_none, if_pos hlength]
    exact toOption_map_eq_some.mpr (hread h)
  | marked hmark h hlength =>
    rw [Numeral.hexPart?_eq_some_iff.mpr ⟨_, rfl, hmark⟩]
    simp only [Option.getD_some, if_pos hlength]
    exact toOption_map_eq_some.mpr (hread h)

theorem hexToken_of_hexWord? (h : hexWord? token = some w) : IsHexWord w token := by
  unfold hexWord? at h
  dsimp only at h
  split at h
  · rename_i hlength
    obtain ⟨sign, row, hsign, hdigits, hrow⟩ :=
      (Numeral.natural_map_eq_ok_iff (by decide) (by decide)).mp (toOption_map_eq_some.mp h)
    have htoken : HexToken sign w token := by
      cases hpart : Numeral.hexPart? token with
      | none =>
        rw [hpart, Option.getD_none] at hdigits hlength
        subst hdigits
        exact .bare hrow hlength
      | some rest =>
        rw [hpart, Option.getD_some] at hdigits hlength
        obtain ⟨mark, rfl, hmark⟩ := Numeral.hexPart?_eq_some_iff.mp hpart
        subst hdigits
        exact .marked hmark hrow hlength
    obtain rfl | rfl := hsign
    · exact .inl htoken
    · exact .inr htoken
  · cases h

theorem hexWord?_eq_some_iff : hexWord? token = some w ↔ IsHexWord w token := by
  constructor
  · exact hexToken_of_hexWord?
  · rintro (h | h)
    · exact hexWord?_of_hexToken (.inl rfl) h
    · exact hexWord?_of_hexToken (.inr rfl) h

theorem hexWord?_isSome_iff_exists : (hexWord? token).isSome = true ↔ ∃ w, IsHexWord w token := by
  simp only [Option.isSome_iff_exists, hexWord?_eq_some_iff]

theorem hexWord?_eq_none_iff : hexWord? token = none ↔ ¬∃ w, IsHexWord w token := by
  rw [← hexWord?_isSome_iff_exists]
  simp

-- ---------------------------------------------------------------------------
-- Images
-- ---------------------------------------------------------------------------

theorem parseHex_eq_ok_iff {words : List Word} :
    parseHex text = .ok words ↔
      List.Forall₂ (fun token w => IsHexWord w token.2) (tokens text) words := by
  rw [parseHex, readAll_eq_ok_iff, hexItems_eq_tokens, ← List.forall₂_eq_eq_eq,
    List.forall₂_map_left_iff, List.forall₂_map_right_iff]
  simp only [hexWord?_eq_some_iff]

theorem parseHex_forms (text : List Char) :
    (∀ words, parseHex text = .ok words ↔
      List.Forall₂ (fun token w => IsHexWord w token.2) (tokens text) words) ∧
    ∀ error, parseHex text = .error error ↔ ∃ front number token behind,
      tokens text = front ++ (number, token) :: behind ∧
        (∀ earlier ∈ front, ∃ w, IsHexWord w earlier.2) ∧
      (¬∃ w, IsHexWord w token) ∧ error = .notHex number (String.ofList token) := by
  refine ⟨fun words => parseHex_eq_ok_iff, fun error => ?_⟩
  rw [parseHex, readAll_eq_error_iff, hexItems_eq_tokens]
  simp only [hexWord?_isSome_iff_exists, hexWord?_eq_none_iff]

theorem not_hexToken_of_plus :
    parseHex "+13".toList = .ok [0x13] ∧ tokens "+13".toList = [(1, "+13".toList)] ∧
      ¬∃ w, HexToken [] w "+13".toList := by
  refine ⟨rfl, rfl, ?_⟩
  rintro ⟨w, h⟩
  generalize htoken : "+13".toList = token at h
  cases h with
  | bare h =>
    simp only [List.nil_append] at htoken
    subst htoken
    exact absurd (Numeral.isAlphanum_of_row (by decide) (by decide) h '+' (by decide)) (by decide)
  | marked => cases htoken

end RiscvBoard.Image
