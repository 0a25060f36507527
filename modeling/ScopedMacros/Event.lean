import ScopedMacros.Position

/-!
# Events

What an expansion does, in order, as seen from outside: the text it gives out, the points from
which the reader needs to be told where the text comes from, warnings, and files read.
-/

namespace ScopedMacros

inductive Event where
  /-- Text other than space, which stands at a position of a source. -/
  | text (position : Position) (text : Bytes)
  | space (text : Bytes)
  /-- The value of a marker for the current line or file that stands at a position. -/
  | value (position : Position) (text : Bytes)
  /-- A line directive of a source. -/
  | line (number : Int64) (file : Option Bytes)
  /-- From here on the text no longer follows on what was given out before. -/
  | jump
  | warning (location : Location) (message : Bytes)
  /-- A file was read without error. -/
  | load (path : Bytes)
  deriving DecidableEq, Repr

end ScopedMacros
