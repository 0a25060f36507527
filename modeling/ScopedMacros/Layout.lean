import ScopedMacros.Event

/-!
# Layout

Turns events into output.  A line marker is owed after every jump, and it is paid when the next text
other than space is given out; it names the file if the marker before it was for another one.
-/

namespace ScopedMacros

/-- A piece of the output. -/
inductive Piece where
  | text (text : Bytes)
  | space (text : Bytes)
  | value (text : Bytes)
  | line (number : Int64) (file : Option Bytes)
  | marker (position : Position) (named : Bool)
  deriving DecidableEq, Repr

/-- The bytes of a piece, with or without line markers. -/
def Piece.render (markers : Bool) : Piece → Bytes
  | .text content | .space content => content
  | .value content => Byte.space :: content ++ [Byte.space]
  | .line number file =>
      Byte.newline :: bytes "# " ++ Bytes.ofInt64 number ++
        (match file with
        | none => []
        | some file => Byte.space :: file.quote) ++ [Byte.newline]
  | .marker position named =>
      if markers then Byte.newline :: position.marker named else []

/-- What the output so far asks of the next piece. -/
structure Layout where
  /-- Whether a line marker is owed. -/
  owed : Bool
  /-- The file of the last line marker. -/
  file : Option Bytes
  deriving DecidableEq, Repr

namespace Layout

/-- The layout of an output that is still empty. -/
def start : Layout :=
  ⟨true, none⟩

/-- The marker before a text at a position, if one is owed. -/
def marker (layout : Layout) (position : Position) : List Piece :=
  if layout.owed then [.marker position (layout.file != some position.file)] else []

/-- The file of the last marker before a text at a position. -/
def fileAt (layout : Layout) (position : Position) : Option Bytes :=
  if layout.owed then some position.file else layout.file

/-- The layout after an event. -/
def next (layout : Layout) : Event → Layout
  | .text position _ => ⟨false, layout.fileAt position⟩
  | .value position _ => ⟨true, layout.fileAt position⟩
  | .line _ _ | .jump => ⟨true, layout.file⟩
  | .space _ | .warning _ _ | .load _ => layout

/-- The pieces that an event adds to the output. -/
def piecesOf (layout : Layout) : Event → List Piece
  | .text position text => layout.marker position ++ [.text text]
  | .value position text => layout.marker position ++ [.value text]
  | .line number file => [.line number file]
  | .space text => [.space text]
  | .jump | .warning _ _ | .load _ => []

/-- The pieces of the output of a list of events. -/
def pieces (layout : Layout) : List Event → List Piece
  | [] => []
  | event :: rest => layout.piecesOf event ++ (layout.next event).pieces rest

/-- The output of a list of events, with or without line markers. -/
def output (markers : Bool) (events : List Event) : Bytes :=
  (start.pieces events).flatMap (Piece.render markers)

end Layout

end ScopedMacros
