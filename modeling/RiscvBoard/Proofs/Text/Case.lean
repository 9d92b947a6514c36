import Mathlib.Tactic.IntervalCases
import RiscvBoard.Proofs.Text.Numeral
import RiscvBoard.Register

/-!
# Letters in the other case

A change of characters that keeps their lower case keeps all that a text is cut
at and read by: blanks, separators, digits of every base, the letters of names.
So cutting a changed text gives the changed pieces, and numbers, registers and
mnemonics have the values they had.
-/

namespace RiscvBoard

namespace Text

-- ---------------------------------------------------------------------------
-- Characters
-- ---------------------------------------------------------------------------

theorem apply_toLower {β : Type} {p : Char → β}
    (h : ∀ n < 26, p (Char.ofNat (n + 97)) = p (Char.ofNat (n + 65))) (c : Char) :
    p c.toLower = p c := by
  by_cases hupper : 'A'.val ≤ c.val ∧ c.val ≤ 'Z'.val
  · have hends : 'A'.val.toNat = 65 ∧ 'Z'.val.toNat = 90 := by decide
    simp only [UInt32.le_iff_toNat_le, hends] at hupper
    have hlow : 65 ≤ c.toNat := hupper.1
    have hhigh : c.toNat ≤ 90 := hupper.2
    have hcode : c = Char.ofNat (c.toNat - 65 + 65) := by
      rw [Nat.sub_add_cancel hlow, Char.ofNat_toNat]
    have hall : ∀ n < 26, (Char.ofNat (n + 65)).toLower = Char.ofNat (n + 97) := by decide
    rw [hcode, hall _ (by omega), h _ (by omega)]
  · exact congrArg p (dif_neg hupper)

theorem isBlank_toLower (c : Char) : isBlank c.toLower = isBlank c := apply_toLower (by decide) c

theorem isDigit_toLower (c : Char) : c.toLower.isDigit = c.isDigit := apply_toLower (by decide) c

theorem isAlpha_toLower (c : Char) : c.toLower.isAlpha = c.isAlpha := apply_toLower (by decide) c

theorem toLower_eq_iff {c sign : Char} (hsign : sign.isAlpha = false) :
    c.toLower = sign ↔ c = sign := by
  constructor
  · intro h
    have hletter : c.isAlpha = false := by rw [← isAlpha_toLower, h, hsign]
    have hlower : ¬('A'.val ≤ c.val ∧ c.val ≤ 'Z'.val) := fun hupper => by
      rw [isAlpha_iff.mpr (.inl hupper)] at hletter
      cases hletter
    have hsame : c.toLower = c := dif_neg hlower
    rwa [hsame] at h
  · rintro rfl
    refine dif_neg fun hupper => ?_
    rw [isAlpha_iff.mpr (.inl hupper)] at hsign
    cases hsign

/-- The change of characters changes letters into the other case at most. -/
def KeepsLetters (f : Char → Char) : Prop := ∀ c, (f c).toLower = c.toLower

theorem keepsLetters_id : KeepsLetters id := fun _ => rfl

theorem keepsLetters_toLower : KeepsLetters Char.toLower := apply_toLower (by decide)

section

variable {f : Char → Char} (hf : KeepsLetters f)
include hf

theorem KeepsLetters.apply {β : Type} {p : Char → β} (h : ∀ c, p c.toLower = p c) (c : Char) :
    p (f c) = p c := by
  rw [← h (f c), hf c, h c]

theorem KeepsLetters.eq_iff {c sign : Char} (hsign : sign.isAlpha = false) :
    f c = sign ↔ c = sign := by
  rw [← toLower_eq_iff hsign, hf c, toLower_eq_iff hsign]

theorem KeepsLetters.beq {sign : Char} (hsign : sign.isAlpha = false) (c : Char) :
    (f c == sign) = (c == sign) :=
  Bool.eq_iff_iff.mpr (by rw [beq_iff_eq, beq_iff_eq, hf.eq_iff hsign])

theorem KeepsLetters.sign {sign : Char} (hsign : sign.isAlpha = false) : f sign = sign :=
  (hf.eq_iff hsign).mpr rfl

theorem KeepsLetters.mark_iff {c : Char} : f c = 'x' ∨ f c = 'X' ↔ c = 'x' ∨ c = 'X' := by
  have hmark : ∀ c : Char, decide (c.toLower = 'x' ∨ c.toLower = 'X') =
      decide (c = 'x' ∨ c = 'X') :=
    apply_toLower (p := fun c => decide (c = 'x' ∨ c = 'X')) (by decide)
  exact decide_eq_decide.mp (hf.apply (p := fun c => decide (c = 'x' ∨ c = 'X')) hmark c)

theorem KeepsLetters.ne_cons {sign : Char} (hsign : sign.isAlpha = false) {text : List Char}
    (h : ∀ rest, text = sign :: rest → False) : ∀ rest, text.map f = sign :: rest → False := by
  intro rest hmap
  obtain ⟨c, others, rfl, hc, -⟩ := List.map_eq_cons_iff.mp hmap
  exact h others (congrArg (· :: others) ((hf.eq_iff hsign).mp hc))

theorem KeepsLetters.isBlank (c : Char) : isBlank (f c) = isBlank c := hf.apply isBlank_toLower c

theorem KeepsLetters.lower (text : List Char) : lower (text.map f) = lower text := by
  unfold Text.lower
  rw [List.map_map]
  exact congrArg (text.map ·) (funext hf)

end

-- ---------------------------------------------------------------------------
-- Pieces
-- ---------------------------------------------------------------------------

section

variable {f : Char → Char} {p : Char → Bool}

theorem splitFirst?_map (hp : ∀ c, p (f c) = p c) (text : List Char) :
    splitFirst? p (text.map f) = (splitFirst? p text).map (Prod.map (List.map f) (List.map f)) := by
  have hnot : (!p ·) ∘ f = (!p ·) := funext fun c => congrArg (! ·) (hp c)
  unfold splitFirst?
  rw [List.dropWhile_map, List.takeWhile_map, hnot]
  cases text.dropWhile (!p ·) with
  | nil => rfl
  | cons c rest => rfl

theorem pieces_map (hp : ∀ c, p (f c) = p c) (text : List Char) :
    pieces p (text.map f) = (pieces p text).map (List.map f) := by
  induction text with
  | nil => rfl
  | cons c text ih =>
    rw [List.map_cons]
    cases hc : p c with
    | true =>
      rw [pieces_cons_of_sep hc, pieces_cons_of_sep ((hp c).trans hc), ih, List.map_cons,
        List.map_nil]
    | false =>
      obtain ⟨piece, others, hpieces⟩ := List.exists_cons_of_ne_nil (pieces_ne_nil p text)
      rw [hpieces, List.map_cons] at ih
      rw [pieces_cons_of_not_sep hc hpieces, pieces_cons_of_not_sep ((hp c).trans hc) ih,
        List.map_cons, List.map_cons]

end

section

variable {f : Char → Char} (hf : KeepsLetters f)
include hf

theorem trim_map (text : List Char) : trim (text.map f) = (trim text).map f := by
  have hblank : Text.isBlank ∘ f = Text.isBlank := funext hf.isBlank
  unfold trim
  rw [List.dropWhile_map, hblank, ← List.map_reverse, List.dropWhile_map, hblank, List.map_reverse]

theorem dropReturn_map (line : List Char) : dropReturn (line.map f) = (dropReturn line).map f := by
  have hlast : (line.map f).getLast? = some '\r' ↔ line.getLast? = some '\r' := by
    rw [List.getLast?_map, Option.map_eq_some_iff]
    simp only [hf.eq_iff (by decide : '\r'.isAlpha = false), exists_eq_right]
  unfold dropReturn
  simp only [hlast, apply_ite (List.map f), List.map_dropLast]

theorem lines_map (text : List Char) : lines (text.map f) = (lines text).map (List.map f) := by
  unfold lines
  rw [pieces_map (hf.beq (by decide))]
  generalize pieces (· == '\n') text = all
  have hlast : (all.map (List.map f)).getLast?.getD [] = (all.getLast?.getD []).map f := by
    rw [List.getLast?_map]
    cases all.getLast? <;> rfl
  have hreturn : dropReturn ∘ List.map f = List.map f ∘ dropReturn := funext (dropReturn_map hf)
  simp only [hlast, List.map_append, List.map_map, ← List.map_dropLast, hreturn, List.isEmpty_map,
    apply_ite (List.map (List.map f)), List.map_nil, List.map_cons]

end

end Text

-- ---------------------------------------------------------------------------
-- Numbers
-- ---------------------------------------------------------------------------

namespace Numeral

variable {f : Char → Char} (hf : Text.KeepsLetters f)

theorem digit?_toLower (base : Nat) (c : Char) : digit? base c.toLower = digit? base c := by
  refine Text.apply_toLower (fun n hn => ?_) c
  interval_cases n <;> rfl

include hf

theorem digits_map (base limit read : Nat) (text : List Char) :
    digits base limit read (text.map f) = digits base limit read text := by
  induction text generalizing read with
  | nil => rfl
  | cons c text ih => simp only [List.map_cons, digits, hf.apply (digit?_toLower base), ih]

theorem magnitude?_map (base limit : Nat) (text : List Char) :
    magnitude? base limit (text.map f) = magnitude? base limit text := by
  rw [magnitude?, magnitude?, List.isEmpty_map, digits_map hf]

theorem hexPart?_map (text : List Char) :
    hexPart? (text.map f) = (hexPart? text).map (List.map f) := by
  ext rest
  rw [hexPart?_eq_some_iff, Option.map_eq_some_iff]
  constructor
  · rintro ⟨mark, htext, hmark⟩
    obtain ⟨zero, others, rfl, hzero, hothers⟩ := List.map_eq_cons_iff.mp htext
    obtain ⟨c, digits, rfl, rfl, rfl⟩ := List.map_eq_cons_iff.mp hothers
    rw [(hf.eq_iff (by decide)).mp hzero]
    exact ⟨digits, hexPart?_eq_some_iff.mpr ⟨c, rfl, hf.mark_iff.mp hmark⟩, rfl⟩
  · rintro ⟨digits, hpart, rfl⟩
    obtain ⟨mark, rfl, hmark⟩ := hexPart?_eq_some_iff.mp hpart
    refine ⟨f mark, ?_, hf.mark_iff.mpr hmark⟩
    rw [List.map_cons, List.map_cons, hf.sign (by decide)]

theorem long?_map (base : Nat) (text : List Char) : long? base (text.map f) = long? base text := by
  conv => rhs; unfold long?
  split
  · rw [List.map_cons, hf.sign (by decide), long?, magnitude?_map hf]
  · rw [List.map_cons, hf.sign (by decide), long?, magnitude?_map hf]
  · rename_i hminus hplus
    rw [long?.eq_3 base _ (hf.ne_cons (by decide) hminus) (hf.ne_cons (by decide) hplus),
      magnitude?_map hf]

theorem unsignedImmediate?_map (text : List Char) :
    unsignedImmediate? (text.map f) = unsignedImmediate? text := by
  unfold unsignedImmediate?
  rw [hexPart?_map hf, magnitude?_map hf]
  cases hexPart? text with
  | none => rfl
  | some rest => exact long?_map hf 16 rest

theorem immediate?_map (text : List Char) : immediate? (text.map f) = immediate? text := by
  unfold immediate?
  rw [Text.trim_map hf]
  generalize Text.trim text = text
  split
  · rename_i rest hminus
    obtain ⟨c, digits, rfl, hc, rfl⟩ := List.map_eq_cons_iff.mp hminus
    obtain rfl := (hf.eq_iff (by decide)).mp hc
    exact congrArg (Option.map _) (unsignedImmediate?_map hf digits)
  · rename_i rest hplus
    obtain ⟨c, digits, rfl, hc, rfl⟩ := List.map_eq_cons_iff.mp hplus
    obtain rfl := (hf.eq_iff (by decide)).mp hc
    exact unsignedImmediate?_map hf digits
  · rename_i hminus hplus
    rw [unsignedImmediate?_map hf]
    split
    · exact absurd (by rw [List.map_cons, hf.sign (by decide)]) (hminus _)
    · exact absurd (by rw [List.map_cons, hf.sign (by decide)]) (hplus _)
    · rfl

end Numeral

-- ---------------------------------------------------------------------------
-- Registers
-- ---------------------------------------------------------------------------

namespace Register

variable {f : Char → Char} (hf : Text.KeepsLetters f)
include hf

theorem read?_map (text : List Char) : read? (text.map f) = read? text := by
  unfold read?
  rw [Text.trim_map hf]
  cases Text.trim text with
  | nil => rfl
  | cons c rest =>
    have hdigits : (rest.map f).all Char.isDigit = rest.all Char.isDigit := by
      rw [List.all_map]
      exact congrArg rest.all (funext (hf.apply Text.isDigit_toLower))
    have hname : ofName? (f c :: rest.map f) = ofName? (c :: rest) := by
      simp only [ofName?, ← List.map_cons, hf.lower]
    simp only [List.map_cons, hf.mark_iff, ne_eq, List.map_eq_nil_iff, hdigits, hname, ofDigits?,
      Numeral.magnitude?_map hf]

end Register

end RiscvBoard
