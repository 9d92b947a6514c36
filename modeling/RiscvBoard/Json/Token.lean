import RiscvBoard.Json.Value

/-!
# JSON tokens

A text is cut into brackets, separators and atoms: names, numbers and strings.
Only space, tab, line feed and carriage return may stand between them. Each token
takes at least one character off the text.
-/

namespace RiscvBoard.Json

inductive Token
  | openArray
  | closeArray
  | openObject
  | closeObject
  | comma
  | colon
  | atom (value : Json)

/-- What a string consists of: characters and the 16-bit units of `\u` escapes. -/
inductive Piece
  | char (c : Char)
  | unit (code : Nat)

def unit? (a b c d : Char) : Option Nat := Numeral.magnitude? 16 0x10000 [a, b, c, d]

def escape? : Char → Option Char
  | '"' => some '"'
  | '\\' => some '\\'
  | '/' => some '/'
  | 'b' => some '\x08'
  | 'f' => some '\x0C'
  | 'n' => some '\n'
  | 'r' => some '\r'
  | 't' => some '\t'
  | _ => none

/-- The rest of a string after its opening quote, up to the closing quote, and what follows. Control
characters must be escaped. -/
def pieces? : List Char → Option (List Piece × List Char)
  | [] => none
  | '"' :: rest => some ([], rest)
  | '\\' :: 'u' :: a :: b :: c :: d :: rest => do
    let code ← unit? a b c d
    let (pieces, rest) ← pieces? rest
    return (.unit code :: pieces, rest)
  | '\\' :: c :: rest => do
    let c ← escape? c
    let (pieces, rest) ← pieces? rest
    return (.char c :: pieces, rest)
  | c :: rest =>
    if c.toNat < 0x20 then none
    else do
      let (pieces, rest) ← pieces? rest
      return (.char c :: pieces, rest)

def isHighHalf (code : Nat) : Bool := 0xD800 ≤ code && code < 0xDC00

def isLowHalf (code : Nat) : Bool := 0xDC00 ≤ code && code < 0xE000

/-- The characters of a string. The two halves of a surrogate pair must follow each other. -/
def chars? : List Piece → Option (List Char)
  | [] => some []
  | .char c :: rest => do return c :: (← chars? rest)
  | .unit high :: .unit low :: rest =>
    if isHighHalf high then
      if isLowHalf low then do
        return Char.ofNat (0x10000 + (high - 0xD800) * 0x400 + (low - 0xDC00)) :: (← chars? rest)
      else none
    else if isLowHalf high then none
    else do return Char.ofNat high :: (← chars? (.unit low :: rest))
  | .unit code :: rest =>
    if isHighHalf code || isLowHalf code then none else do return Char.ofNat code :: (← chars? rest)

def isExponent : List Char → Bool
  | [] => true
  | e :: rest =>
    let digits := match rest with
      | '+' :: rest | '-' :: rest => rest
      | rest => rest
    (e == 'e' || e == 'E') && !digits.isEmpty && digits.all Char.isDigit

/-- What may follow the digits of a whole number. -/
def isFractionAndExponent : List Char → Bool
  | '.' :: rest =>
    (rest.headD ' ').isDigit && isExponent (rest.dropWhile Char.isDigit)
  | rest => isExponent rest

/-- The value of a numeral. Its whole part has no needless zero in front. -/
def number? (numeral : List Char) : Option Json :=
  let (negative, text) := match numeral with
    | '-' :: rest => (true, rest)
    | text => (false, text)
  let whole := text.takeWhile Char.isDigit
  let rest := text.dropWhile Char.isDigit
  if whole.isEmpty || (whole.length ≠ 1 && whole.head? == some '0') then none
  else if !isFractionAndExponent rest then none
  else if negative || !rest.isEmpty then some (.otherNumber (String.ofList numeral))
  else some (.natural (whole.foldl (fun n c => 10 * n + (c.toNat - '0'.toNat)) 0))

def inNumber (c : Char) : Bool :=
  c.isDigit || c == '-' || c == '+' || c == '.' || c == 'e' || c == 'E'

def isSpace (c : Char) : Bool := c == ' ' || c == '\t' || c == '\n' || c == '\r'

def token? : List Char → Option (Token × List Char)
  | [] => none
  | '[' :: rest => some (.openArray, rest)
  | ']' :: rest => some (.closeArray, rest)
  | '\x7b' :: rest => some (.openObject, rest)
  | '\x7d' :: rest => some (.closeObject, rest)
  | ',' :: rest => some (.comma, rest)
  | ':' :: rest => some (.colon, rest)
  | '"' :: rest => do
    let (pieces, rest) ← pieces? rest
    return (.atom (.string ((chars? pieces).map String.ofList)), rest)
  | 'n' :: 'u' :: 'l' :: 'l' :: rest => some (.atom .null, rest)
  | 't' :: 'r' :: 'u' :: 'e' :: rest => some (.atom (.bool true), rest)
  | 'f' :: 'a' :: 'l' :: 's' :: 'e' :: rest => some (.atom (.bool false), rest)
  | c :: rest =>
    if inNumber c then do
      return (.atom (← number? (c :: rest.takeWhile inNumber)), rest.dropWhile inNumber)
    else none

theorem length_dropWhile_le (p : Char → Bool) (text : List Char) :
    (text.dropWhile p).length ≤ text.length := (List.dropWhile_sublist p).length_le

theorem length_of_pieces? {text rest : List Char} {pieces : List Piece}
    (h : pieces? text = some (pieces, rest)) : rest.length < text.length := by
  fun_induction pieces? text generalizing pieces rest with
  | case1 => cases h
  | case2 => cases h; simp
  | case3 a b c d text ih =>
    simp only [bind, Option.bind_eq_some_iff, pure] at h
    obtain ⟨code, -, ⟨more, tail⟩, hp, h⟩ := h
    cases h
    have := ih hp
    simp only [List.length_cons]; omega
  | case4 c text _ ih =>
    simp only [bind, Option.bind_eq_some_iff, pure] at h
    obtain ⟨code, -, ⟨more, tail⟩, hp, h⟩ := h
    cases h
    have := ih hp
    simp only [List.length_cons]; omega
  | case5 => cases h
  | case6 c text _ _ _ _ ih =>
    simp only [bind, Option.bind_eq_some_iff, pure] at h
    obtain ⟨⟨more, tail⟩, hp, h⟩ := h
    cases h
    have := ih hp
    simp only [List.length_cons]; omega

theorem length_of_token? {text rest : List Char} {token : Token}
    (h : token? text = some (token, rest)) : rest.length < text.length := by
  unfold token? at h
  split at h
  all_goals try cases h
  all_goals try (simp only [List.length_cons]; omega)
  · simp only [bind, Option.bind_eq_some_iff, pure] at h
    obtain ⟨⟨pieces, tail⟩, hp, h⟩ := h
    cases h
    have := length_of_pieces? hp
    simp only [List.length_cons]; omega
  · split at h
    · simp only [bind, Option.bind_eq_some_iff, pure] at h
      obtain ⟨value, -, h⟩ := h
      cases h
      simp only [List.length_cons]
      exact Nat.lt_succ_of_le (length_dropWhile_le inNumber _)
    · cases h

def tokens? (text : List Char) : Option (List Token) :=
  if (text.dropWhile isSpace).isEmpty then some []
  else match _h : token? (text.dropWhile isSpace) with
    | none => none
    | some (token, rest) => do return token :: (← tokens? rest)
termination_by text.length
decreasing_by
  have := length_of_token? _h
  have := length_dropWhile_le isSpace text
  omega

end RiscvBoard.Json
