import ScopedMacros.Bytes

/-!
# Positions and locations

A position says where a byte of a source stands.  Its numbers are 32-bit words and wrap.
-/

namespace ScopedMacros

structure Position where
  file : Bytes
  line : UInt32
  /-- Offset of the first byte of the line. -/
  lineStart : UInt32
  offset : UInt32
  deriving DecidableEq, Repr

namespace Position

/-- The first position of a file. -/
def first (file : Bytes) : Position :=
  ⟨file, 1, 0, 0⟩

def column (position : Position) : UInt32 :=
  position.offset - position.lineStart

/-- The position after one more byte. -/
def step (position : Position) (byte : Byte) : Position :=
  if byte = Byte.newline then
    { position with
      line := position.line + 1
      lineStart := position.offset + 1
      offset := position.offset + 1 }
  else
    { position with offset := position.offset + 1 }

/-- The position after the bytes of a text. -/
def advance (position : Position) (text : Bytes) : Position :=
  text.foldl step position

@[simp]
theorem advance_nil (position : Position) : position.advance [] = position := rfl

@[simp]
theorem advance_cons (position : Position) (byte : Byte) (rest : Bytes) :
    position.advance (byte :: rest) = (position.step byte).advance rest := rfl

theorem advance_append (position : Position) (left right : Bytes) :
    position.advance (left ++ right) = (position.advance left).advance right :=
  List.foldl_append

/-- A line marker for the text that follows it: the line, the file if it is named, and then
blanks up to the column of the text. -/
def marker (position : Position) (named : Bool) : Bytes :=
  bytes "# " ++ Bytes.ofNat position.line.toNat ++
    (if named then Byte.space :: position.file.quote else []) ++
    Byte.newline :: List.replicate position.column.toNat Byte.space

end Position

/-- The stretch of a source from a first position up to, not including, a second one. -/
structure Location where
  start : Position
  stop : Position
  deriving DecidableEq, Repr

namespace Location

/-- The location of what stands in no source. -/
def nowhere : Location :=
  ⟨.first [], .first []⟩

/-- From the start of one location to the stop of another. -/
def span (first last : Location) : Location :=
  ⟨first.start, last.stop⟩

/-- The location in words.  Both columns count from the start of the first line. -/
def describe (location : Location) : Bytes :=
  bytes "File " ++ location.start.file.quote ++
    bytes ", line " ++ Bytes.ofNat location.start.line.toNat ++
    bytes ", characters " ++ Bytes.ofNat location.start.column.toNat ++
    bytes "-" ++ Bytes.ofNat (location.stop.offset - location.start.lineStart).toNat

end Location

end ScopedMacros
