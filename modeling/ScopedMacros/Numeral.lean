import ScopedMacros.Bytes

/-!
# Integer literals

A literal is an optional sign, an optional base mark, a digit, and then digits and underscores.
Only a plain decimal literal has to fit the signed range; one with a base mark may use all 64 bits.
-/

namespace ScopedMacros

/-- How the digits of a literal are read. -/
structure Numeral where
  base : Nat
  /-- Whether the digits may fill the whole word. -/
  wide : Bool
  deriving DecidableEq, Repr

namespace Numeral

def plain : Numeral :=
  ⟨10, false⟩

/-- The numeral system that stands for a letter after a leading zero. -/
def ofMark? (letter : Byte) : Option Numeral :=
  if letter = 0x78 ∨ letter = 0x58 then some ⟨16, true⟩
  else if letter = 0x6f ∨ letter = 0x4f then some ⟨8, true⟩
  else if letter = 0x62 ∨ letter = 0x42 then some ⟨2, true⟩
  else if letter = 0x75 ∨ letter = 0x55 then some ⟨10, true⟩
  else none

/-- Separates the base mark from the digits. -/
def split : Bytes → Numeral × Bytes
  | first :: letter :: rest =>
      if first = Byte.zero then
        match ofMark? letter with
        | some numeral => (numeral, rest)
        | none => (plain, first :: letter :: rest)
      else
        (plain, first :: letter :: rest)
  | text => (plain, text)

/-- The value of a digit or letter as a digit. -/
def digit? (byte : Byte) : Option Nat :=
  if Byte.isDigit byte then some (byte.toNat - 0x30)
  else if Byte.isLower byte then some (byte.toNat - 0x61 + 10)
  else if Byte.isUpper byte then some (byte.toNat - 0x41 + 10)
  else none

/-- The value of a byte as a digit below `base`. -/
def digitBelow? (base : Nat) (byte : Byte) : Option Nat :=
  (digit? byte).filter (· < base)

/-- The value after one more byte of the digits.  A digit that leads past the limit is refused before
it is added. -/
def next? (base : Nat) (limit value : UInt64) (byte : Byte) : Option UInt64 :=
  if byte = Byte.underscore then
    some value
  else
    match digitBelow? base byte with
    | some digit =>
        if (limit - digit.toUInt64) / base.toUInt64 < value then none
        else some (value * base.toUInt64 + digit.toUInt64)
    | none => none

/-- The value of a text that starts with a digit. -/
def digits? (base : Nat) (limit : UInt64) : Bytes → Option UInt64
  | [] => none
  | byte :: rest =>
      if (digitBelow? base byte).isSome then (byte :: rest).foldlM (next? base limit) 0 else none

/-- The largest value that the digits of a literal may have. -/
def limit (numeral : Numeral) (negative : Bool) : UInt64 :=
  if numeral.wide then 0xffffffffffffffff
  else if negative then 0x8000000000000000
  else 0x7fffffffffffffff

/-- Reads a literal without its sign. -/
def magnitude? (negative : Bool) (text : Bytes) : Option UInt64 :=
  let (numeral, digits) := split text
  digits? numeral.base (numeral.limit negative) digits

/-- The value of an integer literal. -/
def read? : Bytes → Option Int64
  | [] => none
  | first :: rest =>
      if first = Byte.minus then
        (magnitude? true rest).map fun value => (-value).toInt64
      else if first = Byte.plus then
        (magnitude? false rest).map UInt64.toInt64
      else
        (magnitude? false (first :: rest)).map UInt64.toInt64

end Numeral

end ScopedMacros
