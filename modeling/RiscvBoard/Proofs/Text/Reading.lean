import Mathlib.Data.List.Induction
import RiscvBoard.Proofs.Result
import RiscvBoard.Proofs.Text.Spelling

/-!
# What is read as a number

A text that is read as a number is a spelling of that number: its digits, whatever
their case, are those of the value, with zeros in front. What is read besides the
spellings is known, too. A plus sign may stand before the digits of a word, and an
immediate in base sixteen may have one more sign behind the mark of the base. An
immediate is negated in 64 bits, so two minus signs before 2^63 leave it negative.
-/

namespace RiscvBoard.Numeral

variable {base limit n d : Nat} {c : Char} {text front : List Char} {value : Int}

-- ---------------------------------------------------------------------------
-- Rows of digits
-- ---------------------------------------------------------------------------

theorem toLower_of_range {first last : Char} (least : Nat) (hrange : first ≤ c ∧ c ≤ last)
    (h : ∀ k ≤ last.toNat - first.toNat, (Char.ofNat (k + first.toNat)).toLower =
      Nat.digitChar (k + least)) :
    c.toLower = Nat.digitChar (c.toNat - first.toNat + least) := by
  have hfirst : first.toNat ≤ c.toNat := hrange.1
  have hcode := h (c.toNat - first.toNat) (Nat.sub_le_sub_right hrange.2 _)
  rwa [Nat.sub_add_cancel hfirst, Char.ofNat_toNat] at hcode

theorem toLower_of_digit? (h : digit? base c = some d) : c.toLower = Nat.digitChar d := by
  obtain ⟨hvalue, -⟩ := Option.filter_eq_some_iff.mp h
  split at hvalue
  · rename_i hrange
    cases hvalue
    exact toLower_of_range 0 hrange (by decide)
  split at hvalue
  · rename_i hrange
    cases hvalue
    exact toLower_of_range 10 hrange (by decide)
  split at hvalue
  · rename_i hrange
    cases hvalue
    exact toLower_of_range 10 hrange (by decide)
  · cases hvalue

theorem digits_concat_eq_ok (h : digits base limit 0 (front ++ [c]) = .ok n) :
    ∃ m d, digits base limit 0 front = .ok m ∧ digit? base c = some d ∧ n = base * m + d ∧
      n < limit := by
  rw [digits_append] at h
  cases hfront : digits base limit 0 front with
  | error fault => rw [hfront] at h; cases h
  | ok m =>
    rw [hfront] at h
    simp only [Except.bind, digits] at h
    split at h
    · cases h
    · rename_i d hd
      split at h
      · cases h
        exact ⟨m, d, rfl, hd, rfl, ‹_›⟩
      · cases h

theorem lower_of_digits (h : digits base limit 0 text = .ok n) :
    n < base ^ text.length ∧ Text.lower text = fixed base text.length n := by
  induction text using List.reverseRecOn generalizing n with
  | nil =>
    cases h
    exact ⟨Nat.one_pos, rfl⟩
  | append_singleton front c ih =>
    obtain ⟨m, d, hfront, hd, rfl, -⟩ := digits_concat_eq_ok h
    obtain ⟨hm, hlower⟩ := ih hfront
    have hdigit := lt_of_digit? hd
    have hquotient : (base * m + d) / base = m := by
      rw [Nat.mul_add_div (by omega), Nat.div_eq_of_lt hdigit, Nat.add_zero]
    have hremainder : (base * m + d) % base = d := by
      rw [Nat.mul_add_mod, Nat.mod_eq_of_lt hdigit]
    rw [List.length_append, List.length_singleton]
    constructor
    · calc base * m + d
        _ < base * m + base := Nat.add_lt_add_left hdigit _
        _ = base * (m + 1) := (Nat.mul_succ base m).symm
        _ ≤ base * base ^ front.length := Nat.mul_le_mul_left _ hm
        _ = base ^ (front.length + 1) := (Nat.pow_succ' ..).symm
    · simp only [Text.lower, List.map_append, List.map_cons, List.map_nil] at hlower ⊢
      rw [hlower, toLower_of_digit? hd, fixed, hquotient, hremainder]

theorem lt_of_digits (hne : text ≠ []) (h : digits base limit 0 text = .ok n) : n < limit := by
  induction text using List.reverseRecOn with
  | nil => exact absurd rfl hne
  | append_singleton front c =>
    obtain ⟨_, _, -, -, -, hlimit⟩ := digits_concat_eq_ok h
    exact hlimit

theorem magnitude?_eq_some_iff (hpos : 0 < base) (hbase : base ≤ 16) :
    magnitude? base limit text = some n ↔ Row base n text ∧ n < limit := by
  constructor
  · intro h
    unfold magnitude? at h
    split at h
    · cases h
    · rename_i hsome
      have hne : text ≠ [] := fun hnil => hsome (List.isEmpty_iff.mpr hnil)
      cases hdigits : digits base limit 0 text with
      | error fault => simp [hdigits, Except.toOption] at h
      | ok m =>
        obtain rfl : m = n := by simpa [hdigits, Except.toOption] using h
        exact ⟨⟨text.length, List.length_pos_of_ne_nil hne, lower_of_digits hdigits⟩,
          lt_of_digits hne hdigits⟩
  · rintro ⟨h, hlimit⟩
    exact magnitude?_of_row hpos hbase h hlimit

theorem digits_eq_ok_iff (hpos : 0 < base) (hbase : base ≤ 16) (hne : text ≠ []) :
    digits base limit 0 text = .ok n ↔ Row base n text ∧ n < limit := by
  have hsome : ¬text.isEmpty = true := fun hempty => hne (List.isEmpty_iff.mp hempty)
  rw [← magnitude?_eq_some_iff hpos hbase, magnitude?, if_neg hsome]
  cases digits base limit 0 text <;> simp [Except.toOption]

theorem natural_eq_ok_iff (hpos : 0 < base) (hbase : base ≤ 16) : natural base limit text = .ok n ↔
    ∃ sign row, (sign = [] ∨ sign = ['+']) ∧ text = sign ++ row ∧ Row base n row ∧ n < limit := by
  constructor
  · intro h
    unfold natural at h
    split at h
    · cases h
    · cases h
    · rename_i row hne
      exact ⟨['+'], row, .inr rfl, rfl, (digits_eq_ok_iff hpos hbase hne).mp h⟩
    · rename_i hne _ _
      exact ⟨[], text, .inl rfl, rfl, (digits_eq_ok_iff hpos hbase hne).mp h⟩
  · rintro ⟨sign, row, hsign, rfl, h, hlimit⟩
    have hdigits := (digits_eq_ok_iff hpos hbase (row_ne_nil h)).mpr ⟨h, hlimit⟩
    obtain rfl | rfl := hsign
    · have hplus : ∀ rest, row ≠ '+' :: rest :=
        ne_cons_of_isAlphanum (isAlphanum_of_row hpos hbase h) (by decide)
      rw [List.nil_append, natural.eq_4 base limit row (row_ne_nil h) (hplus []) hplus, hdigits]
    · rw [List.singleton_append, natural.eq_3 base limit row (row_ne_nil h), hdigits]

-- ---------------------------------------------------------------------------
-- Words
-- ---------------------------------------------------------------------------

/-- The digits of a word in decimal or behind the mark of base sixteen. A plus sign may stand before
the digits. -/
inductive IsWord (w : Word) : List Char → Prop
  | decimal {sign digits : List Char} (hsign : sign = [] ∨ sign = ['+'])
      (h : Row 10 w.toNat digits) :
      IsWord w (sign ++ digits)
  | hex {mark : Char} {sign digits : List Char} (hmark : mark = 'x' ∨ mark = 'X')
      (hsign : sign = [] ∨ sign = ['+'])
      (h : Row 16 w.toNat digits) : IsWord w ('0' :: mark :: (sign ++ digits))

theorem isWord_of_unsigned {w : Word} (h : Unsigned w.toNat text) : IsWord w text := by
  cases h with
  | decimal h => exact .decimal (.inl rfl) h
  | hex hmark h => exact .hex hmark (.inl rfl) h

theorem natural_map_eq_ok_iff (hpos : 0 < base) (hbase : base ≤ 16) {w : Word} :
    (natural base 0x100000000 text).map (BitVec.ofNat 32) = .ok w ↔
      ∃ sign row, (sign = [] ∨ sign = ['+']) ∧ text = sign ++ row ∧ Row base w.toNat row := by
  rw [map_eq_ok]
  constructor
  · rintro ⟨n, hread, rfl⟩
    obtain ⟨sign, row, hsign, htext, hrow, hlimit⟩ := (natural_eq_ok_iff hpos hbase).mp hread
    exact ⟨sign, row, hsign, htext, by rwa [BitVec.toNat_ofNat, Nat.mod_eq_of_lt hlimit]⟩
  · rintro ⟨sign, row, hsign, htext, hrow⟩
    refine ⟨w.toNat, (natural_eq_ok_iff hpos hbase).mpr ⟨sign, row, hsign, htext, hrow, w.isLt⟩, ?_⟩
    rw [BitVec.ofNat_toNat, BitVec.setWidth_eq]

/-- The mark of a base is no part of a decimal number. -/
theorem hexPart?_of_row {sign digits : List Char} (hsign : sign = [] ∨ sign = ['+'])
    (h : Row 10 n digits) : hexPart? (sign ++ digits) = none := by
  obtain rfl | rfl := hsign
  · exact hexPart?_of_forall_isDigit (isDigit_of_row h)
  · rfl

theorem word_eq_ok_iff {w : Word} : word text = .ok w ↔ IsWord w (Text.trim text) := by
  unfold word
  dsimp only
  generalize Text.trim text = text
  constructor
  · intro h
    cases hpart : hexPart? text with
    | some rest =>
      rw [hpart] at h
      obtain ⟨sign, row, hsign, rfl, hrow⟩ := (natural_map_eq_ok_iff (by decide) (by decide)).mp h
      obtain ⟨mark, rfl, hmark⟩ := hexPart?_eq_some_iff.mp hpart
      exact .hex hmark hsign hrow
    | none =>
      rw [hpart] at h
      obtain ⟨sign, row, hsign, rfl, hrow⟩ := (natural_map_eq_ok_iff (by decide) (by decide)).mp h
      exact .decimal hsign hrow
  · intro h
    cases h with
    | decimal hsign h =>
      rw [hexPart?_of_row hsign h]
      exact (natural_map_eq_ok_iff (by decide) (by decide)).mpr ⟨_, _, hsign, rfl, h⟩
    | hex hmark hsign h =>
      rw [hexPart?_eq_some_iff.mpr ⟨_, rfl, hmark⟩]
      exact (natural_map_eq_ok_iff (by decide) (by decide)).mpr ⟨_, _, hsign, rfl, h⟩

-- ---------------------------------------------------------------------------
-- Immediates
-- ---------------------------------------------------------------------------

/-- A number in base sixteen with a sign behind the mark of the base, as long as it fits 64 bits. -/
inductive Resigned : Int → List Char → Prop
  | plus {mark : Char} {n : Nat} {digits : List Char} (hmark : mark = 'x' ∨ mark = 'X')
      (h : Row 16 n digits) (hlimit : n < 2 ^ 63) : Resigned n ('0' :: mark :: '+' :: digits)
  | minus {mark : Char} {n : Nat} {digits : List Char} (hmark : mark = 'x' ∨ mark = 'X')
      (h : Row 16 n digits) (hlimit : n ≤ 2 ^ 63) : Resigned (-n) ('0' :: mark :: '-' :: digits)

/-- A sign or none in front of a body. A minus sign makes the value of the body negative, as far as
64 bits go: the lowest number has no negative there and stays. -/
inductive Prefixed (Body : Int → List Char → Prop) : Int → List Char → Prop
  | plain {value : Int} {text : List Char} (h : Body value text) : Prefixed Body value text
  | plus {value : Int} {text : List Char} (h : Body value text) : Prefixed Body value ('+' :: text)
  | minus {value : Int} {text : List Char} (h : Body value text) (hlow : -2 ^ 63 < value) :
      Prefixed Body (-value) ('-' :: text)
  | lowest {text : List Char} (h : Body (-2 ^ 63) text) : Prefixed Body (-2 ^ 63) ('-' :: text)

def Body (value : Int) (text : List Char) : Prop :=
  (∃ n : Nat, value = n ∧ Unsigned n text ∧ n < 2 ^ 63) ∨ Resigned value text

theorem body_of_long? {mark : Char} (hmark : mark = 'x' ∨ mark = 'X')
    (h : long? 16 text = some value) : Body value ('0' :: mark :: text) := by
  unfold long? at h
  split at h
  · obtain ⟨v, hv, rfl⟩ := Option.map_eq_some_iff.mp h
    obtain ⟨n, hn, hv⟩ := Option.bind_eq_some_iff.mp hv
    cases hv
    obtain ⟨hrow, hlimit⟩ := (magnitude?_eq_some_iff (by decide) (by decide)).mp hn
    exact .inr (.minus hmark hrow (Nat.le_of_lt_succ hlimit))
  · obtain ⟨n, hn, rfl⟩ := Option.map_eq_some_iff.mp h
    obtain ⟨hrow, hlimit⟩ := (magnitude?_eq_some_iff (by decide) (by decide)).mp hn
    exact .inr (.plus hmark hrow hlimit)
  · obtain ⟨n, hn, rfl⟩ := Option.map_eq_some_iff.mp h
    obtain ⟨hrow, hlimit⟩ := (magnitude?_eq_some_iff (by decide) (by decide)).mp hn
    exact .inl ⟨n, rfl, .hex hmark hrow, hlimit⟩

theorem unsignedImmediate?_of_resigned (h : Resigned value text) :
    unsignedImmediate? text = some value := by
  unfold unsignedImmediate?
  cases h with
  | @plus mark n digits hmark h hlimit =>
    have hread : magnitude? 16 0x8000000000000000 digits = some n :=
      magnitude?_of_row (by decide) (by decide) h hlimit
    rw [hexPart?_eq_some_iff.mpr ⟨_, rfl, hmark⟩]
    simp [long?, hread]
  | @minus mark n digits hmark h hlimit =>
    have hread : magnitude? 16 0x8000000000000001 digits = some n :=
      magnitude?_of_row (by decide) (by decide) h (Nat.lt_succ_of_le hlimit)
    rw [hexPart?_eq_some_iff.mpr ⟨_, rfl, hmark⟩]
    simp [long?, hread]

theorem unsignedImmediate?_eq_some_iff :
    unsignedImmediate? text = some value ↔ Body value text := by
  constructor
  · intro h
    unfold unsignedImmediate? at h
    split at h
    · rename_i rest hpart
      obtain ⟨mark, rfl, hmark⟩ := hexPart?_eq_some_iff.mp hpart
      exact body_of_long? hmark h
    · obtain ⟨n, hn, rfl⟩ := Option.map_eq_some_iff.mp h
      obtain ⟨hrow, hlimit⟩ := (magnitude?_eq_some_iff (by decide) (by decide)).mp hn
      exact .inl ⟨n, rfl, .decimal hrow, hlimit⟩
  · rintro (⟨n, rfl, h, hlimit⟩ | h)
    · exact unsignedImmediate?_of_unsigned h hlimit
    · exact unsignedImmediate?_of_resigned h

theorem Body.bounds (h : Body value text) : -2 ^ 63 ≤ value ∧ value < 2 ^ 63 := by
  obtain ⟨n, rfl, -, hlimit⟩ | h := h
  · omega
  · cases h <;> omega

theorem Body.ne_cons {sign : Char} (hsign : sign.isAlphanum = false) {rest : List Char} :
    ¬Body value (sign :: rest) := by
  rintro (⟨n, -, h, -⟩ | h)
  · exact ne_cons_of_isAlphanum (isAlphanum_of_unsigned h) hsign rest rfl
  · cases h <;> exact absurd hsign (by decide)

theorem prefixed_negate (h : Body value text) : Prefixed Body (negate value) ('-' :: text) := by
  obtain ⟨hlow, hhigh⟩ := h.bounds
  obtain hlow | rfl := hlow.lt_or_eq
  · rw [negate_of_lt hlow hhigh]
    exact .minus h hlow
  · rw [negate_lowest]
    exact .lowest h

theorem immediate?_eq_some_iff :
    immediate? text = some value ↔ Prefixed Body value (Text.trim text) := by
  unfold immediate?
  generalize Text.trim text = text
  constructor
  · intro h
    split at h
    · obtain ⟨v, hv, rfl⟩ := Option.map_eq_some_iff.mp h
      exact prefixed_negate (unsignedImmediate?_eq_some_iff.mp hv)
    · exact .plus (unsignedImmediate?_eq_some_iff.mp h)
    · exact .plain (unsignedImmediate?_eq_some_iff.mp h)
  · intro h
    cases h with
    | plain h =>
      split
      · exact absurd h (Body.ne_cons (by decide))
      · exact absurd h (Body.ne_cons (by decide))
      · exact unsignedImmediate?_eq_some_iff.mpr h
    | plus h => exact unsignedImmediate?_eq_some_iff.mpr h
    | minus h hlow =>
      change (unsignedImmediate? _).map negate = _
      rw [unsignedImmediate?_eq_some_iff.mpr h, Option.map_some, negate_of_lt hlow h.bounds.2]
    | lowest h =>
      change (unsignedImmediate? _).map negate = _
      rw [unsignedImmediate?_eq_some_iff.mpr h, Option.map_some, negate_lowest]

theorem prefixed_or {first second : Int → List Char → Prop} :
    Prefixed (fun value text => first value text ∨ second value text) value text ↔
      Prefixed first value text ∨ Prefixed second value text := by
  constructor
  · rintro (h | h | ⟨h, hlow⟩ | h)
    · exact h.imp .plain .plain
    · exact h.imp .plus .plus
    · exact h.imp (.minus · hlow) (.minus · hlow)
    · exact h.imp .lowest .lowest
  · rintro ((h | h | ⟨h, hlow⟩ | h) | (h | h | ⟨h, hlow⟩ | h))
    · exact .plain (.inl h)
    · exact .plus (.inl h)
    · exact .minus (.inl h) hlow
    · exact .lowest (.inl h)
    · exact .plain (.inr h)
    · exact .plus (.inr h)
    · exact .minus (.inr h) hlow
    · exact .lowest (.inr h)

theorem prefixed_unsigned_iff :
    Prefixed (fun value text => ∃ n : Nat, value = n ∧ Unsigned n text ∧ n < 2 ^ 63) value text ↔
      Signed value text ∧ -2 ^ 63 < value ∧ value < 2 ^ 63 := by
  constructor
  · rintro (⟨n, rfl, h, hlimit⟩ | ⟨n, rfl, h, hlimit⟩ | ⟨⟨n, rfl, h, hlimit⟩, hlow⟩ | ⟨n, hn, -, -⟩)
    · exact ⟨.plain h, by omega⟩
    · exact ⟨.plus h, by omega⟩
    · exact ⟨.minus h, by omega⟩
    · omega
  · rintro ⟨h, hlow, hhigh⟩
    cases h with
    | plain h => exact .plain ⟨_, rfl, h, by omega⟩
    | plus h => exact .plus ⟨_, rfl, h, by omega⟩
    | minus h => exact .minus ⟨_, rfl, h, by omega⟩ (by omega)

/-- An immediate is read from the spellings of its value, and from those with another sign behind
the mark of base sixteen. The lowest number of 64 bits has spellings of the second kind only. -/
theorem immediate?_forms : immediate? text = some value ↔
    (Signed value (Text.trim text) ∧ -2 ^ 63 < value ∧ value < 2 ^ 63) ∨
      Prefixed Resigned value (Text.trim text) := by
  rw [← prefixed_unsigned_iff, ← prefixed_or]
  exact immediate?_eq_some_iff

theorem immediate?_forms_twoSigns :
    immediate? " +0x-01f\t".toList = some (-0x1F) ∧
      immediate? "-0x-8000000000000000".toList = some (-2 ^ 63) := by
  have hrow : Row 16 0x1F "01f".toList := ⟨3, by decide, by decide, by decide⟩
  have hlowest : Row 16 (2 ^ 63) "8000000000000000".toList := ⟨16, by decide, by decide, by decide⟩
  exact ⟨immediate?_forms.mpr (.inr (.plus (.minus (.inl rfl) hrow (by decide)))),
    immediate?_forms.mpr (.inr (.lowest (.minus (.inl rfl) hlowest le_rfl)))⟩

theorem not_signed_of_twoSigns :
    immediate? "0x-5".toList = some (-5) ∧ ¬∃ value, Signed value "0x-5".toList := by
  refine ⟨rfl, ?_⟩
  rintro ⟨value, h⟩
  have hbody : ∀ n, ¬Unsigned n "0x-5".toList := by
    intro n h
    exact absurd (isAlphanum_of_unsigned h '-' (by decide)) (by decide)
  generalize htext : "0x-5".toList = text at h
  cases h with
  | plain h => exact hbody _ (htext ▸ h)
  | plus | minus => cases htext

end RiscvBoard.Numeral
