/-!
# Byte strings

Sources, names, messages and output are strings of bytes.  The character classes below know only
the letters and digits below 128, so a byte of a longer encoding is never part of a name.
-/

namespace ScopedMacros

abbrev Byte := UInt8

abbrev Bytes := List UInt8

instance : LawfulBEq Bytes := inferInstance

/-- The bytes of a text whose characters all lie below 256. -/
def bytes (text : String) : Bytes :=
  text.toList.map Char.toUInt8

namespace Byte

def backspace : Byte := 0x08
def tab : Byte := 0x09
def newline : Byte := 0x0a
def carriageReturn : Byte := 0x0d
def space : Byte := 0x20
def doubleQuote : Byte := 0x22
def hash : Byte := 0x23
def apostrophe : Byte := 0x27
def leftParen : Byte := 0x28
def rightParen : Byte := 0x29
def plus : Byte := 0x2b
def comma : Byte := 0x2c
def minus : Byte := 0x2d
def zero : Byte := 0x30
def equals : Byte := 0x3d
def backslash : Byte := 0x5c
def underscore : Byte := 0x5f

/-- Space within a line. -/
def isBlank (byte : Byte) : Bool :=
  byte == space || byte == tab || byte == carriageReturn

/-- Space within or between lines. -/
def isSpace (byte : Byte) : Bool :=
  isBlank byte || byte == newline

def isUpper (byte : Byte) : Bool :=
  0x41 ≤ byte && byte ≤ 0x5a

def isLower (byte : Byte) : Bool :=
  0x61 ≤ byte && byte ≤ 0x7a

def isLetter (byte : Byte) : Bool :=
  isUpper byte || isLower byte

def isDigit (byte : Byte) : Bool :=
  0x30 ≤ byte && byte ≤ 0x39

/-- The first byte of an identifier. -/
def isNameStart (byte : Byte) : Bool :=
  isLetter byte || byte == underscore

/-- A byte that continues a number. -/
def isNumberPart (byte : Byte) : Bool :=
  isLetter byte || isDigit byte || byte == underscore

/-- A byte that continues an identifier; primes are part of names. -/
def isNamePart (byte : Byte) : Bool :=
  isNumberPart byte || byte == apostrophe

end Byte

namespace Bytes

/-- The text without the space at its two ends. -/
def strip (text : Bytes) : Bytes :=
  ((text.dropWhile Byte.isSpace).reverse.dropWhile Byte.isSpace).reverse

/-- The decimal digits of a number. -/
def ofNat (number : Nat) : Bytes :=
  if number < 10 then
    [Byte.zero + number.toUInt8]
  else
    ofNat (number / 10) ++ [Byte.zero + (number % 10).toUInt8]

/-- The decimal digits of a number, after a minus sign if it is negative. -/
def ofInt64 (number : Int64) : Bytes :=
  if number < 0 then
    Byte.minus :: ofNat number.toInt.natAbs
  else
    ofNat number.toInt.natAbs

/-- The text between two double quotes, with every byte that is not printable, every quote and
every backslash written as an escape. -/
def quote (text : Bytes) : Bytes :=
  Byte.doubleQuote :: text.flatMap escape ++ [Byte.doubleQuote]
where
  escape (byte : Byte) : Bytes :=
    if byte = Byte.doubleQuote then bytes "\\\""
    else if byte = Byte.backslash then bytes "\\\\"
    else if byte = Byte.newline then bytes "\\n"
    else if byte = Byte.tab then bytes "\\t"
    else if byte = Byte.carriageReturn then bytes "\\r"
    else if byte = Byte.backspace then bytes "\\b"
    else if 0x20 ≤ byte && byte < 0x7f then [byte]
    else
      [Byte.backslash, Byte.zero + byte / 100, Byte.zero + byte / 10 % 10, Byte.zero + byte % 10]

/-- The part of a text that is shown to a user: a zero byte ends it. -/
def shown (text : Bytes) : Bytes :=
  text.takeWhile (· != 0)

/-- The names of a list that have not been seen. -/
def unseen (names seen : List Bytes) : List Bytes :=
  names.filter (!seen.contains ·)

/-- Fewer names are left once one of them has been seen. -/
theorem length_unseen_lt {names seen : List Bytes} {name : Bytes} (member : name ∈ names)
    (fresh : name ∉ seen) :
    (unseen names (name :: seen)).length < (unseen names seen).length := by
  have smaller : unseen names (name :: seen) = (unseen names seen).filter (· != name) := by
    simp only [unseen, List.filter_filter]
    apply List.filter_congr
    intro other _
    by_cases same : other = name <;> simp [same]
  have left : name ∈ unseen names seen := by
    simp [unseen, member, fresh]
  rw [smaller]
  exact List.length_filter_lt_length_iff_exists.2 ⟨name, left, by simp⟩

end Bytes

end ScopedMacros
