/-!
# Machine words

A word is 32 bits and a byte 8. Words lie in memory with the least significant
byte first: byte `i` of a word is its bits `8 * i` to `8 * i + 7`, and
`Word.ofBytes` puts the bytes of a range together again. An access moves one,
two or four bytes.
-/

namespace RiscvBoard

abbrev Byte := BitVec 8

abbrev Word := BitVec 32

/-- How much one access moves. -/
inductive Width
  | byte
  | half
  | word
  deriving DecidableEq, Repr

def Width.bytes : Width → Nat
  | .byte => 1
  | .half => 2
  | .word => 4

def Width.bits (width : Width) : Nat := 8 * width.bytes

def Width.mask : Width → Word
  | .byte => 0xFF#32
  | .half => 0xFFFF#32
  | .word => 0xFFFFFFFF#32

def Word.byte (word : Word) (i : Nat) : Byte := word.extractLsb' (8 * i) 8

/-- The number with the little-endian bytes `f start, …, f (start + n - 1)`. -/
def littleEndian (f : Nat → Byte) (start : Nat) : Nat → Nat
  | 0 => 0
  | n + 1 => (f start).toNat + 256 * littleEndian f (start + 1) n

def Word.ofBytes (f : Nat → Byte) (start : Nat) (width : Width) : Word :=
  BitVec.ofNat 32 (littleEndian f start width.bytes)

/-- The low `bits` bits as a two's-complement number. They are moved to the top of the word, where
the bits above them are lost, and back with copies of the sign in front. -/
def Word.signed (word : Word) (bits : Nat) : Int :=
  ((word <<< (32 - bits)).sshiftRight (32 - bits)).toInt

/-- The low bytes of a word, extended to 32 bits by copies of their top bit or by zeros. -/
def Word.extend (word : Word) (width : Width) (signed : Bool) : Word :=
  if signed then (word.setWidth width.bits).signExtend 32
  else (word.setWidth width.bits).setWidth 32

def Word.lane (register : Word) (lane : Nat) (width : Width) : Word :=
  Word.extend (register >>> (8 * lane)) width false

/-- The register after an access wrote `value` from byte `lane` on. Bytes that would lie
past the end of the register are lost. -/
def Word.setLane (register : Word) (lane : Nat) (value : Word) (width : Width) : Word :=
  let mask := width.mask <<< (8 * lane)
  (register &&& ~~~mask) ||| ((value <<< (8 * lane)) &&& mask)

end RiscvBoard
