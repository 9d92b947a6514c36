import Mathlib.Algebra.Group.Int.Defs
import Mathlib.Algebra.Group.Nat.Defs
import RiscvBoard.Bytes

/-!
# Words byte by byte

A word is the little-endian number of its bytes. What an access sees of a
register is the number of the bytes in its lane, and a write to a lane changes
the bytes of the lane and no other.
-/

namespace RiscvBoard

theorem littleEndian_lt (f : Nat → Byte) (start n : Nat) : littleEndian f start n < 256 ^ n := by
  induction n generalizing start with
  | zero => simp [littleEndian]
  | succ n ih =>
    have hb : (f start).toNat < 256 := (f start).isLt
    have hs := ih (start + 1)
    simp only [littleEndian, Nat.pow_succ]
    omega

namespace Width

theorem bytes_pos (width : Width) : 0 < width.bytes := by
  cases width <;> decide

theorem bytes_le (width : Width) : width.bytes ≤ 4 := by
  cases width <;> decide

theorem bits_le (width : Width) : width.bits ≤ 32 := Nat.mul_le_mul_left 8 width.bytes_le

theorem two_pow_bits (width : Width) : 2 ^ width.bits = 256 ^ width.bytes :=
  Nat.pow_mul 2 8 width.bytes

end Width

namespace Word

variable {word value : Word} {width : Width} {i j lane start : Nat}

theorem toNat_byte (word : Word) (i : Nat) : (word.byte i).toNat = word.toNat / 256 ^ i % 256 := by
  rw [byte, BitVec.extractLsb'_toNat, Nat.shiftRight_eq_div_pow, Nat.pow_mul]

theorem littleEndian_byte (word : Word) (start n : Nat) :
    littleEndian word.byte start n = word.toNat / 256 ^ start % 256 ^ n := by
  induction n generalizing start with
  | zero => rw [littleEndian, Nat.pow_zero, Nat.mod_one]
  | succ n ih =>
    rw [littleEndian, toNat_byte, ih, Nat.pow_succ, Nat.pow_succ, ← Nat.div_div_eq_div_mul,
      Nat.mul_comm (256 ^ n), Nat.mod_mul]

theorem byte_littleEndian (f : Nat → Byte) {n : Nat} (hi : i < n) :
    littleEndian f start n / 256 ^ i % 256 = (f (start + i)).toNat := by
  induction n generalizing start i with
  | zero => omega
  | succ n ih =>
    have hlt := (f start).isLt
    cases i with
    | zero =>
      rw [littleEndian, Nat.pow_zero, Nat.div_one, Nat.add_mul_mod_self_left, Nat.mod_eq_of_lt hlt]
      rfl
    | succ i =>
      rw [littleEndian, Nat.pow_succ', ← Nat.div_div_eq_div_mul,
        Nat.add_mul_div_left _ _ (by decide), Nat.div_eq_of_lt hlt, Nat.zero_add, ih (by omega)]
      exact congrArg (fun k => (f k).toNat) (by omega)

theorem toNat_ofBytes (f : Nat → Byte) (start : Nat) (width : Width) :
    (ofBytes f start width).toNat = littleEndian f start width.bytes := by
  have hlt := littleEndian_lt f start width.bytes
  have hpow : 256 ^ width.bytes ≤ 256 ^ 4 := Nat.pow_le_pow_right (by decide) width.bytes_le
  rw [ofBytes, BitVec.toNat_ofNat]
  exact Nat.mod_eq_of_lt (by omega)

theorem byte_ofBytes {f : Nat → Byte} (hi : i < width.bytes) :
    (ofBytes f start width).byte i = f (start + i) := by
  refine BitVec.eq_of_toNat_eq ?_
  rw [toNat_byte, toNat_ofBytes, byte_littleEndian f hi]

theorem littleEndian_shift {f g : Nat → Byte} {s t n : Nat} (h : ∀ i < n, f (s + i) = g (t + i)) :
    littleEndian f s n = littleEndian g t n := by
  induction n generalizing s t with
  | zero => rfl
  | succ n ih =>
    have h0 : f s = g t := h 0 (by omega)
    have hs : littleEndian f (s + 1) n = littleEndian g (t + 1) n := ih fun i hi => by
      have := h (i + 1) (by omega)
      rwa [← Nat.add_assoc, Nat.add_right_comm, ← Nat.add_assoc, Nat.add_right_comm t] at this
    rw [littleEndian, littleEndian, h0, hs]

theorem ofBytes_shift {f g : Nat → Byte} {s t : Nat}
    (h : ∀ i < width.bytes, f (s + i) = g (t + i)) : ofBytes f s width = ofBytes g t width := by
  rw [ofBytes, ofBytes, littleEndian_shift h]

theorem setWidth_eq_byte (word : Word) : word.setWidth 8 = word.byte 0 :=
  BitVec.setWidth_eq_extractLsb' (by decide)

theorem setWidth_ofBytes (f : Nat → Byte) (start : Nat) :
    (ofBytes f start .byte).setWidth 8 = f start := by
  rw [setWidth_eq_byte]
  exact byte_ofBytes (by decide)

theorem setWidth_extend_byte (word : Word) :
    (word.extend .byte false).setWidth 8 = word.setWidth 8 := by
  rw [extend, if_neg Bool.false_ne_true]
  exact (BitVec.setWidth_setWidth_of_le _ (by decide)).trans (BitVec.setWidth_eq _)

theorem extend_ofBytes (f : Nat → Byte) (width : Width) (signed : Bool) :
    (ofBytes f 0 width).extend width signed =
      BitVec.ofInt 32 (if signed then (littleEndian f 0 width.bytes : Int).bmod (2 ^ width.bits)
        else littleEndian f 0 width.bytes) := by
  have hlt := littleEndian_lt f 0 width.bytes
  rw [← width.two_pow_bits] at hlt
  have hword : (ofBytes f 0 width).setWidth width.bits =
      BitVec.ofNat width.bits (littleEndian f 0 width.bytes) := by
    rw [ofBytes, BitVec.setWidth_ofNat_of_le width.bits_le]
  rw [extend, hword]
  cases signed with
  | true =>
    rw [if_pos rfl, if_pos rfl, BitVec.signExtend, BitVec.toInt_ofNat']
  | false =>
    rw [if_neg Bool.false_ne_true, if_neg Bool.false_ne_true, BitVec.ofInt_natCast]
    exact BitVec.setWidth_ofNat_of_le_of_lt width.bits_le hlt

-- ---------------------------------------------------------------------------
-- Lanes
-- ---------------------------------------------------------------------------

theorem lane_eq (word : Word) (lane : Nat) (width : Width) :
    word.lane lane width = ofBytes word.byte lane width := by
  refine BitVec.eq_of_toNat_eq ?_
  have hle : (2 : Nat) ^ width.bits ≤ 2 ^ 32 := Nat.pow_le_pow_right (by decide) width.bits_le
  have hlt : word.toNat / 256 ^ lane % 2 ^ width.bits < 2 ^ width.bits :=
    Nat.mod_lt _ (Nat.two_pow_pos _)
  rw [toNat_ofBytes, littleEndian_byte, Word.lane, extend, if_neg Bool.false_ne_true,
    BitVec.toNat_setWidth, BitVec.toNat_setWidth, BitVec.toNat_ushiftRight,
    Nat.shiftRight_eq_div_pow, Nat.pow_mul, ← width.two_pow_bits]
  exact Nat.mod_eq_of_lt (by omega)

theorem getLsbD_mask (width : Width) (k : Nat) :
    width.mask.getLsbD k = decide (k < width.bits) := by
  have hbits := width.bits_le
  have hmask : width.mask = BitVec.ofNat 32 (2 ^ width.bits - 1) := by cases width <;> decide
  rw [hmask, BitVec.getLsbD_ofNat, Nat.testBit_two_pow_sub_one]
  by_cases hk : k < width.bits
  · simp only [hk, decide_true, Bool.and_true, decide_eq_true_eq]
    omega
  · simp only [hk, decide_false, Bool.and_false]

theorem getLsbD_shiftedMask (width : Width) (lane : Nat) {k : Nat} (hk : k < 32) :
    (width.mask <<< (8 * lane)).getLsbD k =
      decide (8 * lane ≤ k ∧ k < 8 * (lane + width.bytes)) := by
  have hbits : width.bits = 8 * width.bytes := rfl
  rw [BitVec.getLsbD_shiftLeft, getLsbD_mask]
  by_cases hl : 8 * lane ≤ k
  · have hshift : k - 8 * lane < width.bits ↔ k < 8 * (lane + width.bytes) := by omega
    simp only [hk, Nat.not_lt.mpr hl, hl, hshift, decide_true, decide_false, Bool.not_false,
      Bool.true_and, true_and]
  · simp only [hk, Nat.not_le.mp hl, hl, decide_true, Bool.not_true, Bool.and_false, Bool.false_and,
      false_and, decide_false]

theorem byte_setLane (word value : Word) (lane : Nat) {j : Nat} (hj : j < 4) :
    (word.setLane lane value width).byte j =
      if lane ≤ j ∧ j < lane + width.bytes then value.byte (j - lane) else word.byte j := by
  refine BitVec.eq_of_getLsbD_eq fun k hk => ?_
  have hbit : 8 * j + k < 32 := by omega
  have hmask := getLsbD_shiftedMask width lane hbit
  simp only [byte, setLane, BitVec.getLsbD_extractLsb', BitVec.getLsbD_or, BitVec.getLsbD_and,
    BitVec.getLsbD_not, hmask, BitVec.getLsbD_shiftLeft, hk, hbit, decide_true, Bool.true_and]
  by_cases hin : lane ≤ j ∧ j < lane + width.bytes
  · have hcovered : 8 * lane ≤ 8 * j + k ∧ 8 * j + k < 8 * (lane + width.bytes) := by omega
    have hindex : 8 * j + k - 8 * lane = 8 * (j - lane) + k := by omega
    simp only [if_pos hin, BitVec.getLsbD_extractLsb', hk, hcovered, Nat.not_lt.mpr hcovered.1,
      hindex, and_self, decide_true, decide_false, Bool.not_true, Bool.not_false, Bool.and_false,
      Bool.false_or, Bool.true_and, Bool.and_true]
  · have hoff : ¬(8 * lane ≤ 8 * j + k ∧ 8 * j + k < 8 * (lane + width.bytes)) := by omega
    simp only [if_neg hin, BitVec.getLsbD_extractLsb', hk, hoff, decide_true, decide_false,
      Bool.not_false, Bool.and_true, Bool.and_false, Bool.or_false, Bool.true_and]

end Word

-- ---------------------------------------------------------------------------
-- Words in a row
-- ---------------------------------------------------------------------------

theorem Word.byte_zero (i : Nat) : (0 : Word).byte i = 0 := BitVec.extractLsb'_zero

theorem Word.getElem?_bytes (word : Word) {j : Nat} (hj : j < 4) :
    word.bytes[j]? = some (word.byte j) := by
  match j, hj with
  | 0, _ => rfl
  | 1, _ => rfl
  | 2, _ => rfl
  | 3, _ => rfl

theorem getElem?_bytesOfWords (words : List Word) (j : Nat) :
    (bytesOfWords words)[j]? = words[j / 4]?.map fun word => word.byte (j % 4) := by
  induction words generalizing j with
  | nil => rfl
  | cons word words ih =>
    have hcons : bytesOfWords (word :: words) = word.bytes ++ bytesOfWords words := rfl
    rw [hcons]
    by_cases hj : j < 4
    · rw [List.getElem?_append_left hj, word.getElem?_bytes hj, Nat.div_eq_of_lt hj,
        Nat.mod_eq_of_lt hj]
      rfl
    · obtain ⟨k, rfl⟩ := Nat.exists_eq_add_of_le (Nat.le_of_not_lt hj)
      rw [List.getElem?_append_right (Nat.le_add_right 4 k), Word.length_bytes,
        Nat.add_sub_cancel_left, ih, Nat.add_mod_left, Nat.add_div_left k (by decide),
        List.getElem?_cons_succ]

namespace Cells

theorem getElem?_eq_get {cells : Cells} {i : Nat} (h : i < cells.size) :
    cells[i]? = some (cells.get i) := by
  rw [get, Array.getD_eq_getD_getElem?, Array.getElem?_eq_getElem h, Option.getD_some]

theorem ext_get {a b : Cells} (hsize : a.size = b.size) (h : ∀ j, a.get j = b.get j) : a = b := by
  refine Array.ext hsize fun j ha hb => ?_
  have hj := h j
  rwa [get, get, Array.getD_eq_getD_getElem?, Array.getD_eq_getD_getElem?,
    Array.getElem?_eq_getElem ha, Array.getElem?_eq_getElem hb] at hj

theorem get_words (words : List Word) (rest j : Nat) :
    get ((bytesOfWords words).toArray ++ zeros rest) j = (words.getD (j / 4) 0).byte (j % 4) := by
  have hlength := length_bytesOfWords words
  by_cases hj : j < 4 * words.length
  · have hword : j / 4 < words.length := Nat.div_lt_of_lt_mul hj
    rw [get, Array.getD_eq_getD_getElem?,
      Array.getElem?_append_left (by rwa [List.size_toArray, hlength]), List.getElem?_toArray,
      getElem?_bytesOfWords, List.getElem?_eq_getElem hword, List.getD_eq_getElem?_getD,
      List.getElem?_eq_getElem hword]
    rfl
  · have hword : words.length ≤ j / 4 := by omega
    have hzero : ((zeros rest)[j - (bytesOfWords words).toArray.size]?).getD 0 = (0 : Byte) := by
      rw [← Array.getD_eq_getD_getElem?]
      exact get_zeros rest _
    rw [get, Array.getD_eq_getD_getElem?,
      Array.getElem?_append_right (by rw [List.size_toArray]; omega), hzero,
      List.getD_eq_getElem?_getD, List.getElem?_eq_none hword, Option.getD_none, Word.byte_zero]

end Cells

theorem Word.ofBytes_byte (word : Word) : ofBytes word.byte 0 .word = word := by
  refine BitVec.eq_of_toNat_eq ?_
  rw [toNat_ofBytes, littleEndian_byte, Nat.pow_zero, Nat.div_one]
  exact Nat.mod_eq_of_lt word.isLt

end RiscvBoard
