import RiscvBoard.Proofs.Text.Digits
import RiscvBoard.Text.BitString

/-!
# Words and their thirty-two bits

A row of bits is the row of exactly one word, with the highest bit first. Reading
goes the other way round and refuses every other text. A pass that counts the
bytes of a text before it sets the bits one by one comes to the same result: a
text of thirty-two bytes has no more characters than a word has bits.
-/

namespace RiscvBoard

namespace Numeral

theorem getElem?_fixed {base count n i : Nat} (h : i < count) :
    (fixed base count n)[i]? = some (Nat.digitChar (n / base ^ (count - 1 - i) % base)) := by
  induction count generalizing n with
  | zero => exact absurd h (Nat.not_lt_zero i)
  | succ count ih =>
    rw [fixed]
    rcases Nat.lt_succ_iff_lt_or_eq.mp h with hlt | rfl
    · have hplace : count + 1 - 1 - i = (count - 1 - i) + 1 := by omega
      rw [List.getElem?_append_left (by rwa [length_fixed]), ih hlt, hplace, Nat.pow_succ',
        Nat.div_div_eq_div_mul]
    · have hlast : i + 1 - 1 - i = 0 := by omega
      rw [List.getElem?_append_right (Nat.le_of_eq (length_fixed ..)), length_fixed, Nat.sub_self,
        hlast, Nat.pow_zero, Nat.div_one]
      rfl

end Numeral

namespace BitString

open Numeral (fixed length_fixed exists_of_mem_fixed value_succ)

variable {text : List Char} {w : Word} {place : Nat}

-- ---------------------------------------------------------------------------
-- The row of a word
-- ---------------------------------------------------------------------------

def bitChar (bit : Bool) : Char := if bit then '1' else '0'

theorem length_ofWord (w : Word) : (ofWord w).length = 32 := length_fixed ..

theorem isAlphanum_ofWord (w : Word) : ∀ c ∈ ofWord w, c.isAlphanum = true := fun _ =>
  Numeral.isAlphanum_of_mem_fixed (by decide) (by decide)

theorem getElem?_ofWord (w : Word) (h : place < 32) :
    (ofWord w)[place]? = some (bitChar (w.getMsbD place)) := by
  have hdigit : ∀ d < 2, Nat.digitChar d = bitChar (decide (d = 1)) := by decide
  have hbit : w.getMsbD place = decide (w.toNat / 2 ^ (31 - place) % 2 = 1) := by
    rw [BitVec.getMsbD_eq_getLsbD, decide_eq_true h, Bool.true_and, BitVec.getLsbD,
      Nat.testBit_eq_decide_div_mod_eq]
  rw [ofWord, Numeral.getElem?_fixed h, hdigit _ (Nat.mod_lt _ (by decide)), hbit]

theorem eq_ofWord (hlength : text.length = 32)
    (h : ∀ place < 32, text[place]? = some (bitChar (w.getMsbD place))) : text = ofWord w := by
  refine List.ext_getElem? fun place => ?_
  by_cases hplace : place < 32
  · rw [h place hplace, getElem?_ofWord w hplace]
  · rw [List.getElem?_eq_none (by omega), List.getElem?_eq_none (by rw [length_ofWord]; omega)]

theorem bitChar_of_bit {c : Char} (h : c = '0' ∨ c = '1') : bitChar (c == '1') = c := by
  obtain rfl | rfl := h <;> rfl

theorem exists_ofWord (hlength : text.length = 32) (hbits : ∀ c ∈ text, c = '0' ∨ c = '1') :
    ∃ w, text = ofWord w := by
  have hwidth : (text.map (· == '1')).length = 32 := by rw [List.length_map, hlength]
  refine ⟨(BitVec.ofBoolListBE (text.map (· == '1'))).cast hwidth,
    eq_ofWord hlength fun place hplace => ?_⟩
  have hin : place < text.length := by rwa [hlength]
  rw [BitVec.getMsbD_cast, BitVec.getMsbD_ofBoolListBE, List.getD_eq_getElem?_getD,
    List.getElem?_map, List.getElem?_eq_getElem hin]
  exact congrArg some (bitChar_of_bit (hbits _ (List.getElem_mem hin))).symm

-- ---------------------------------------------------------------------------
-- Reading a row
-- ---------------------------------------------------------------------------

theorem foldl_fixed (read count n : Nat) :
    (fixed 2 count n).foldl (fun n c => 2 * n + if c = '1' then 1 else 0) read =
      2 ^ count * read + n % 2 ^ count := by
  have hdigit : ∀ d < 2, (if Nat.digitChar d = '1' then 1 else 0) = d := by decide
  induction count generalizing n with
  | zero => simp [fixed, Nat.mod_one]
  | succ count ih =>
    rw [fixed, List.foldl_append, ih, List.foldl_cons, List.foldl_nil,
      hdigit _ (Nat.mod_lt n (by decide)), value_succ]

theorem word?_ofWord (w : Word) : word? (ofWord w) = some w := by
  have hbits : (ofWord w).all isBit = true := by
    have hall : ∀ d < 2, isBit (Nat.digitChar d) = true := by decide
    refine List.all_eq_true.mpr fun c hc => ?_
    obtain ⟨d, hd, rfl⟩ := exists_of_mem_fixed (by decide) hc
    exact hall d hd
  rw [word?, if_pos ⟨length_fixed .., hbits⟩, ofWord, foldl_fixed, Nat.mul_zero, Nat.zero_add,
    Nat.mod_eq_of_lt w.isLt, BitVec.ofNat_toNat, BitVec.setWidth_eq]

theorem word?_isSome_iff : (word? text).isSome = true ↔
    text.length = 32 ∧ ∀ c ∈ text, c = '0' ∨ c = '1' := by
  simp only [word?, Option.isSome_ite, List.all_eq_true, isBit, Bool.or_eq_true, beq_iff_eq]

theorem word?_eq_none_iff : word? text = none ↔
    ¬(text.length = 32 ∧ ∀ c ∈ text, c = '0' ∨ c = '1') := by
  rw [← word?_isSome_iff, Option.not_isSome_iff_eq_none]

theorem word?_eq_some_iff : word? text = some w ↔ text = ofWord w := by
  constructor
  · intro h
    obtain ⟨hlength, hbits⟩ := word?_isSome_iff.mp (Option.isSome_of_eq_some h)
    obtain ⟨v, hv⟩ := exists_ofWord hlength hbits
    rw [hv, word?_ofWord] at h
    rw [hv, Option.some.inj h]
  · intro h
    rw [h, word?_ofWord]

theorem bits_ofWord (w : Word) : ∀ c ∈ ofWord w, c = '0' ∨ c = '1' :=
  (word?_isSome_iff.mp (Option.isSome_of_eq_some (word?_ofWord w))).2

-- ---------------------------------------------------------------------------
-- A pass over the characters
-- ---------------------------------------------------------------------------

inductive Scan
  | word (w : Word)
  | notBits
  /-- A bit was to be set at a place that the word does not have. -/
  | outside
  deriving DecidableEq, Repr

/-- Sets a bit for each `1`. The first character is that of `place`, counted from the highest
bit. -/
def scanFrom (w : Word) (place : Nat) : List Char → Scan
  | [] => .word w
  | c :: rest =>
    if c = '0' then scanFrom w (place + 1) rest
    else if c = '1' then
      if place < 32 then scanFrom (w ||| BitVec.twoPow 32 (31 - place)) (place + 1) rest
      else .outside
    else .notBits

def scan (text : String) : Scan :=
  if text.utf8ByteSize = 32 then scanFrom 0 0 text.toList else .notBits

theorem getMsbD_set (w : Word) (h : place < 32) (i : Nat) :
    (w ||| BitVec.twoPow 32 (31 - place)).getMsbD i = (w.getMsbD i || decide (i = place)) := by
  rw [BitVec.getMsbD_or, BitVec.getMsbD_twoPow]
  have hplace : 32 - (31 - place) - 1 = place := by omega
  rw [hplace, decide_eq_true (by omega : 31 - place < 32), Bool.true_and]

/-- The bits in front of `place` stay, and those from there on are set where the text has a `1`. -/
theorem scanFrom_of_bits (w : Word) (place : Nat) (hroom : place + text.length ≤ 32)
    (hbits : ∀ c ∈ text, c = '0' ∨ c = '1') :
    ∃ v, scanFrom w place text = .word v ∧ (∀ i < place, v.getMsbD i = w.getMsbD i) ∧
      ∀ i, v.getMsbD (place + i) = (w.getMsbD (place + i) || text[i]? == some '1') := by
  induction text generalizing w place with
  | nil => exact ⟨w, rfl, fun _ _ => rfl, fun i => by simp⟩
  | cons c rest ih =>
    rw [List.length_cons] at hroom
    obtain ⟨hc, hrest⟩ := List.forall_mem_cons.mp hbits
    have hplace : place < 32 := by omega
    -- the word with the bit of `c`
    obtain ⟨u, hscan, hset⟩ : ∃ u, scanFrom w place (c :: rest) = scanFrom u (place + 1) rest ∧
        ∀ i, u.getMsbD i = (w.getMsbD i || (decide (i = place) && c == '1')) := by
      obtain rfl | rfl := hc
      · exact ⟨w, rfl, fun i => by simp⟩
      · refine ⟨w ||| BitVec.twoPow 32 (31 - place), ?_, fun i => ?_⟩
        · rw [scanFrom, if_neg (by decide), if_pos rfl, if_pos hplace]
        · rw [getMsbD_set w hplace]
          simp
    obtain ⟨v, hv, hfront, hbehind⟩ := ih u (place + 1) (by omega) hrest
    refine ⟨v, hscan.trans hv, fun i hi => ?_, fun i => ?_⟩
    · rw [hfront i (by omega), hset i, decide_eq_false (Nat.ne_of_lt hi), Bool.false_and,
        Bool.or_false]
    · cases i with
      | zero =>
        rw [Nat.add_zero, hfront place (by omega), hset place]
        simp
      | succ i =>
        have hnext : place + (i + 1) = place + 1 + i := by omega
        have hother : place + 1 + i ≠ place := by omega
        rw [hnext, hbehind i, hset, decide_eq_false hother, Bool.false_and, Bool.or_false,
          List.getElem?_cons_succ]

theorem scanFrom_of_not_bits (hroom : place + text.length ≤ 32)
    (hbits : ¬∀ c ∈ text, c = '0' ∨ c = '1') : scanFrom w place text = .notBits := by
  induction text generalizing w place with
  | nil => exact absurd (List.forall_mem_nil _) hbits
  | cons c rest ih =>
    rw [List.length_cons] at hroom
    unfold scanFrom
    split
    · exact ih (by omega) fun h => hbits (List.forall_mem_cons.mpr ⟨.inl ‹_›, h⟩)
    · split
      · rw [if_pos (by omega)]
        exact ih (by omega) fun h => hbits (List.forall_mem_cons.mpr ⟨.inr ‹_›, h⟩)
      · rfl

theorem scanFrom_ofWord (w : Word) : scanFrom 0 0 (ofWord w) = .word w := by
  have hroom : 0 + (ofWord w).length ≤ 32 := Nat.le_of_eq ((Nat.zero_add _).trans (length_ofWord w))
  obtain ⟨v, hscan, -, hset⟩ := scanFrom_of_bits 0 0 hroom (bits_ofWord w)
  have hv : v = w := by
    refine BitVec.eq_of_getMsbD_eq fun place hplace => ?_
    have hbit := hset place
    rw [Nat.zero_add, BitVec.ofNat_eq_ofNat, BitVec.getMsbD_zero, Bool.false_or,
      getElem?_ofWord w hplace] at hbit
    rw [hbit]
    cases w.getMsbD place <;> rfl
  rw [hscan, hv]

theorem utf8ByteSize_cons (c : Char) (text : List Char) :
    (String.ofList (c :: text)).utf8ByteSize = c.utf8Size + (String.ofList text).utf8ByteSize := by
  rw [String.utf8ByteSize, String.utf8ByteSize, String.toByteArray_ofList,
    String.toByteArray_ofList, List.utf8Encode_cons, ByteArray.size_append,
    List.utf8Encode_singleton, List.size_toByteArray, String.length_utf8EncodeChar]

theorem length_le_utf8ByteSize (text : List Char) :
    text.length ≤ (String.ofList text).utf8ByteSize := by
  induction text with
  | nil => exact Nat.zero_le _
  | cons c text ih =>
    have hpos := c.utf8Size_pos
    rw [utf8ByteSize_cons, List.length_cons]
    omega

theorem utf8ByteSize_of_bits (h : ∀ c ∈ text, c = '0' ∨ c = '1') :
    (String.ofList text).utf8ByteSize = text.length := by
  induction text with
  | nil => rfl
  | cons c text ih =>
    obtain ⟨hc, htext⟩ := List.forall_mem_cons.mp h
    have hsize : c.utf8Size = 1 := by obtain rfl | rfl := hc <;> rfl
    rw [utf8ByteSize_cons, ih htext, hsize, List.length_cons, Nat.add_comm]

theorem scan_eq (text : String) : scan text = (word? text.toList).elim .notBits .word := by
  unfold scan
  cases hword : word? text.toList with
  | some w =>
    have hrow := word?_eq_some_iff.mp hword
    have hsize := utf8ByteSize_of_bits (bits_ofWord w)
    rw [← hrow, String.ofList_toList, hrow, length_ofWord] at hsize
    rw [if_pos hsize, hrow, scanFrom_ofWord]
    rfl
  | none =>
    have hle := length_le_utf8ByteSize text.toList
    rw [String.ofList_toList] at hle
    split
    · refine scanFrom_of_not_bits (by omega) fun hbits => ?_
      have hsize := utf8ByteSize_of_bits hbits
      rw [String.ofList_toList] at hsize
      exact word?_eq_none_iff.mp hword ⟨by omega, hbits⟩
    · rfl

end BitString

end RiscvBoard
