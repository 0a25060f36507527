import ScopedMacros.Error
import ScopedMacros.Numeral

/-!
# Lexemes

A lexeme is the stretch of bytes that makes one token.  It always holds the byte it was found at, so
it is described by its class and by the bytes that follow the first.  A text is cut differently in a
source at large, in the body of a definition, and in the rest of a directive line.
-/

namespace ScopedMacros

structure Lexeme where
  kind : Token.Kind
  /-- The bytes after the first one. -/
  more : Bytes
  deriving DecidableEq, Repr

namespace Lexeme

/-- Why no lexeme was found, and the bytes after the first one that were read to see it. -/
structure Failure where
  cause : Cause
  more : Bytes
  deriving DecidableEq, Repr

/-! ## Space -/

/-- Blanks up to and including a newline. -/
def blankLine (text : Bytes) : Bytes :=
  text.takeWhile Byte.isBlank ++
    ((text.dropWhile Byte.isBlank).take 1).takeWhile (· == Byte.newline)

/-- Blanks, and newlines that a backslash takes away. -/
def continuation : Bytes → Bytes
  | [] => []
  | [last] => if Byte.isBlank last then [last] else []
  | first :: second :: rest =>
      if Byte.isBlank first then
        first :: continuation (second :: rest)
      else if first = Byte.backslash ∧ second = Byte.newline then
        first :: second :: continuation rest
      else
        []

/-! ## Literals -/

/-- The byte that an escaped byte stands for. -/
def unescape (byte : Byte) : Byte :=
  if byte = 0x6e then Byte.newline
  else if byte = 0x74 then Byte.tab
  else if byte = 0x72 then Byte.carriageReturn
  else if byte = 0x62 then Byte.backspace
  else byte

/-- The byte with a decimal code of three digits, modulo 256. -/
def ofCode (first second third : Byte) : Byte :=
  (first - Byte.zero) * 100 + (second - Byte.zero) * 10 + (third - Byte.zero)

/-- A string literal after its opening quote: the bytes it covers, the bytes it denotes, and whether
the closing quote is there. -/
structure StringTail where
  raw : Bytes
  value : Bytes
  closed : Bool
  deriving DecidableEq, Repr

/-- Puts one more element in front of the rest of a string literal. -/
def StringTail.cons (raw value : Bytes) (tail : StringTail) : StringTail :=
  { tail with raw := raw ++ tail.raw, value := value ++ tail.value }

/-- Reads a string literal after its opening quote.  An escaped newline is dropped together with
the blanks after it, which `skipping` is there to do; a newline of its own is allowed if
`multiline`. -/
def stringTail (multiline : Bool) (skipping : Bool) : Bytes → StringTail
  | [] => ⟨[], [], false⟩
  | first :: rest =>
      if skipping && (first == Byte.space || first == Byte.tab) then
        (stringTail multiline true rest).cons [first] []
      else if first == Byte.newline && !multiline then
        ⟨[], [], false⟩
      else if first = Byte.doubleQuote then
        ⟨[first], [], true⟩
      else if first ≠ Byte.backslash then
        (stringTail multiline false rest).cons [first] [first]
      else
        match rest with
        | [] => ⟨[first], [], false⟩
        | second :: rest =>
            if second = Byte.newline then
              (stringTail multiline true rest).cons [first, second] []
            else
              match rest with
              | third :: fourth :: tail =>
                  if Byte.isDigit second && Byte.isDigit third && Byte.isDigit fourth then
                    (stringTail multiline false tail).cons [first, second, third, fourth]
                      [ofCode second third fourth]
                  else
                    (stringTail multiline false (third :: fourth :: tail)).cons [first, second]
                      [unescape second]
              | tail => (stringTail multiline false tail).cons [first, second] [unescape second]

/-- A string literal, whose opening quote has been read. -/
def string (multiline : Bool) (rest : Bytes) : Except Failure Lexeme :=
  let tail := stringTail multiline false rest
  if tail.closed then .ok ⟨.string tail.value, tail.raw⟩
  else .error ⟨.unterminatedString, tail.raw⟩

/-- The rest of a character literal after its opening apostrophe: a byte, or a backslash with one
to four bytes, and an apostrophe. -/
def characterTail? : Bytes → Option Bytes
  | first :: second :: rest =>
      if first = Byte.backslash ∧ second ≠ 0 ∧ second ≠ Byte.newline then
        let code := (rest.take 3).takeWhile fun byte =>
          byte != Byte.apostrophe && byte != Byte.newline
        if (rest.drop code.length).head? = some Byte.apostrophe then
          some (first :: second :: code ++ [Byte.apostrophe])
        else
          none
      else if first ≠ 0 ∧ first ≠ Byte.newline ∧ second = Byte.apostrophe then
        some [first, second]
      else
        none
  | _ => none

/-- A character literal, or else a lone apostrophe, which is text. -/
def character (rest : Bytes) : Lexeme :=
  match characterTail? rest with
  | some tail => ⟨.character, tail⟩
  | none => ⟨.text, []⟩

/-! ## Text -/

/-- A byte that continues a stretch of text which is neither a name nor a number. -/
def isPlain (byte : Byte) : Bool :=
  !(Byte.isBlank byte || byte == Byte.newline || byte == Byte.backslash ||
    Byte.isNameStart byte || Byte.isDigit byte || byte == Byte.doubleQuote ||
    byte == Byte.apostrophe || byte == Byte.leftParen || byte == Byte.rightParen ||
    byte == Byte.comma)

/-- A lexeme of text other than space. -/
def solid (multiline : Bool) (first : Byte) (rest : Bytes) : Except Failure Lexeme :=
  if Byte.isNameStart first then .ok ⟨.ident, rest.takeWhile Byte.isNamePart⟩
  else if Byte.isDigit first then .ok ⟨.text, rest.takeWhile Byte.isNumberPart⟩
  else if first = Byte.doubleQuote then string multiline rest
  else if first = Byte.apostrophe then .ok (character rest)
  else if first = Byte.leftParen then .ok ⟨.leftParen, []⟩
  else if first = Byte.rightParen then .ok ⟨.rightParen, []⟩
  else if first = Byte.comma then .ok ⟨.comma, []⟩
  else .ok ⟨.text, rest.takeWhile isPlain⟩

/-- The first lexeme of a source.  Space ends after a newline, since a directive may follow. -/
def inSource (first : Byte) (rest : Bytes) : Except Failure Lexeme :=
  if first = Byte.newline then .ok ⟨.space, []⟩
  else if Byte.isBlank first then .ok ⟨.space, blankLine rest⟩
  else solid true first rest

/-- The first lexeme of the body of a definition.  Space runs on over continued lines. -/
def inBody (first : Byte) (rest : Bytes) : Except Failure Lexeme :=
  match continuation (first :: rest) with
  | _ :: more => .ok ⟨.space, more⟩
  | [] => solid false first rest

/-- The first lexeme of the rest of a directive line. -/
def inLine (first : Byte) (rest : Bytes) : Except Failure Lexeme :=
  if Byte.isNameStart first then
    .ok ⟨.ident, rest.takeWhile Byte.isNamePart⟩
  else if first = Byte.doubleQuote then
    string false rest
  else if Byte.isDigit first then
    let more := rest.takeWhile Byte.isNumberPart
    match Numeral.read? (first :: more) with
    | some value => .ok ⟨.integer value, more⟩
    | none => .error ⟨.badInteger (first :: more), more⟩
  else
    match Token.Op.atHead? (first :: rest) with
    | some op => .ok ⟨.op op, op.spelling.tail⟩
    | none =>
        if first = Byte.leftParen then .ok ⟨.leftParen, []⟩
        else if first = Byte.rightParen then .ok ⟨.rightParen, []⟩
        else if first = Byte.comma then .ok ⟨.comma, []⟩
        else .error ⟨.badCharacter first, []⟩

/-- The text of a token made from the bytes of a lexeme: space loses the backslashes that continue
its lines. -/
def tokenText (kind : Token.Kind) (raw : Bytes) : Bytes :=
  if kind = .space then raw.filter (· != Byte.backslash) else raw

end Lexeme

end ScopedMacros
