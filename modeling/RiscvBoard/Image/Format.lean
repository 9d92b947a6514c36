import RiscvBoard.Assembly.Program
import RiscvBoard.Bytes
import RiscvBoard.Image.Rows

/-!
# Program images

A program comes as assembly or as its words, and words are written as rows of
bits, in hexadecimal or as raw bytes. `Image.detect` guesses which it is from
the file's extension and from what the bytes look like; `Image.load` reads the
bytes in a given format.
-/

namespace RiscvBoard

/-- The words of a program, with the source line of each if there is a source. -/
structure Image where
  words : List Word
  lineMap : List Nat := []
  deriving DecidableEq, Repr

namespace Image

inductive WordFormat
  | bits
  | hex
  | raw
  deriving DecidableEq, Repr

inductive Format
  | assembly
  | words (format : WordFormat)
  deriving DecidableEq, Repr

def chars? (bytes : ByteArray) : Option (List Char) := (String.fromUTF8? bytes).map String.toList

def charsOf (bytes : ByteArray) : Except LoadError (List Char) :=
  match chars? bytes with
  | some text => .ok text
  | none => .error .notText

def bytesOf (bytes : ByteArray) : List Byte := bytes.data.toList.map UInt8.toBitVec

def ofBytes (bytes : List Byte) : ByteArray := ⟨(bytes.map UInt8.ofBitVec).toArray⟩

def parseRaw (bytes : List Byte) : Except LoadError (List Word) :=
  if bytes.length % 4 = 0 then .ok (wordsOfBytes bytes) else .error (.brokenWord bytes.length)

def WordFormat.parse (format : WordFormat) (bytes : ByteArray) : Except LoadError (List Word) :=
  match format with
  | .bits => do parseBits (← charsOf bytes)
  | .hex => do parseHex (← charsOf bytes)
  | .raw => parseRaw (bytesOf bytes)

def WordFormat.render (format : WordFormat) (words : List Word) : ByteArray :=
  match format with
  | .bits => (String.ofList (renderBits words)).toUTF8
  | .hex => (String.ofList (renderHex words)).toUTF8
  | .raw => ofBytes (bytesOfWords words)

def formatOfExtension? (extension : String) : Option Format :=
  match String.ofList (Text.lower extension.toList) with
  | "s" | "asm" => some .assembly
  | "hex" => some (.words .hex)
  | _ => none

/-- The format that a text looks like. Rows of bits go before hexadecimal words, and a text without
content counts as assembly. -/
def looksLike (text : List Char) : Format :=
  let lines := contentLines text
  if text.isEmpty then .words .bits
  else if lines.isEmpty then .assembly
  else if lines.all fun (_, line) => (bitRow? line).isSome then .words .bits
  else if (hexItems text).all fun (_, item) => (hexWord? item).isSome then .words .hex
  else .assembly

/-- The format of a file without a stated one. What is not text is raw. -/
def detect (extension : Option String) (bytes : ByteArray) : Format :=
  match extension.bind formatOfExtension? with
  | some format => format
  | none =>
    match chars? bytes with
    | some text => looksLike text
    | none => .words .raw

def load (format : Format) (bytes : ByteArray) : Except LoadError Image :=
  match format with
  | .assembly => do
    match Assembly.assemble 0 (String.ofList (← charsOf bytes)) with
    | .ok program => return { words := program.words, lineMap := program.lineMap }
    | .error errors => throw (.assembly errors)
  | .words format => do return { words := ← format.parse bytes }

end Image

end RiscvBoard
