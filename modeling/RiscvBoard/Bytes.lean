import RiscvBoard.Word

/-!
# Rows of bytes

Words are laid out one after the other, the least significant byte of each
first. `Cells` is a store of bytes at offsets: a write changes the bytes that it
covers and no other, and the size stays. A read past the end gives zeros, a
write past the end is lost; whoever owns the cells checks the range first.
-/

namespace RiscvBoard

def Word.bytes (word : Word) : List Byte := [word.byte 0, word.byte 1, word.byte 2, word.byte 3]

theorem Word.length_bytes (word : Word) : word.bytes.length = 4 := rfl

def bytesOfWords (words : List Word) : List Byte := words.flatMap Word.bytes

theorem length_bytesOfWords (words : List Word) :
    (bytesOfWords words).length = 4 * words.length := by
  induction words with
  | nil => rfl
  | cons word words ih =>
    simp only [bytesOfWords, List.flatMap_cons, List.length_append, Word.length_bytes,
      List.length_cons]
      at ih ⊢
    omega

/-- The words of a row of bytes, where a rest of fewer than four bytes does not count. -/
def wordsOfBytes : List Byte → List Word
  | b0 :: b1 :: b2 :: b3 :: rest =>
    BitVec.ofNat 32 (b0.toNat + 256 * (b1.toNat + 256 * (b2.toNat + 256 * b3.toNat))) ::
      wordsOfBytes rest
  | _ => []

abbrev Cells := Array Byte

namespace Cells

def zeros (size : Nat) : Cells := Array.replicate size 0

def get (cells : Cells) (i : Nat) : Byte := cells.getD i 0

def set (cells : Cells) (i : Nat) (byte : Byte) : Cells := cells.setIfInBounds i byte

def load (cells : Cells) (off : Nat) (width : Width) : Word := Word.ofBytes cells.get off width

/-- Writes the lowest `n` bytes of a value from `off` on, the last one first. -/
def storeBytes (cells : Cells) (off : Nat) (value : Word) : Nat → Cells
  | 0 => cells
  | n + 1 => storeBytes (cells.set (off + n) (value.byte n)) off value n

def store (cells : Cells) (off : Nat) (value : Word) (width : Width) : Cells :=
  storeBytes cells off value width.bytes

@[simp] theorem size_zeros (size : Nat) : (zeros size).size = size := Array.size_replicate

theorem get_zeros (size i : Nat) : (zeros size).get i = 0 := by
  simp [get, zeros, Array.getElem?_replicate]
  split <;> rfl

@[simp] theorem size_set (cells : Cells) (i : Nat) (byte : Byte) :
    (cells.set i byte).size = cells.size :=
  Array.size_setIfInBounds

theorem get_set (cells : Cells) {i : Nat} (byte : Byte) (j : Nat) (h : i < cells.size) :
    (cells.set i byte).get j = if j = i then byte else cells.get j := by
  by_cases hj : i = j
  · subst hj; simp [get, set, h]
  · simp [get, set, hj, Ne.symm hj]

@[simp] theorem size_storeBytes (cells : Cells) (off : Nat) (value : Word) (n : Nat) :
    (storeBytes cells off value n).size = cells.size := by
  induction n generalizing cells with
  | zero => rfl
  | succ n ih => simp [storeBytes, ih]

@[simp] theorem size_store (cells : Cells) (off : Nat) (value : Word) (width : Width) :
    (cells.store off value width).size = cells.size := size_storeBytes ..

theorem get_storeBytes (cells : Cells) (off : Nat) (value : Word) (n j : Nat)
    (h : off + n ≤ cells.size) :
    (storeBytes cells off value n).get j =
      if off ≤ j ∧ j < off + n then value.byte (j - off) else cells.get j := by
  induction n generalizing cells with
  | zero => simp [storeBytes, show ¬ (off ≤ j ∧ j < off) by omega]
  | succ n ih =>
    rw [storeBytes, ih _ (by simp; omega), get_set _ _ _ (by omega)]
    by_cases hj : j = off + n
    · subst hj; simp
    · simp [hj, show (j < off + (n + 1)) = (j < off + n) by simp; omega]

end Cells

end RiscvBoard
