import ScopedMacros.Proofs.Layout
import ScopedMacros.Proofs.Termination

/-!
# Markers without a file name

A marker leaves out the file name if the marker before it was for the same file.  Line directives of
a source are written into the output as well, and they may name a file of their own.  So a marker
without a name goes with the last named marker, and with the last file named at all exactly if no
line directive in between went elsewhere.
-/

namespace ScopedMacros

namespace Piece

/-- The file that a marker names. -/
def markedFile? : Piece → Option Bytes
  | .marker position true => some position.file
  | _ => none

/-- The file that a line directive names. -/
def directedFile? : Piece → Option Bytes
  | .line _ file => file
  | _ => none

/-- The file that a piece names, be it a marker or a line directive. -/
def namedFile? (piece : Piece) : Option Bytes :=
  piece.markedFile?.or piece.directedFile?

/-- The last file among those that a reading of single pieces gives. -/
def lastFile (read : Piece → Option Bytes) (pieces : List Piece) : Option Bytes :=
  (pieces.filterMap read).getLast?

@[simp]
theorem lastFile_nil (read : Piece → Option Bytes) : lastFile read [] = none := rfl

theorem lastFile_append (read : Piece → Option Bytes) (left right : List Piece) :
    lastFile read (left ++ right) = (lastFile read right).or (lastFile read left) := by
  rw [lastFile, List.filterMap_append, List.getLast?_append]
  rfl

@[simp]
theorem lastFile_cons (read : Piece → Option Bytes) (piece : Piece) (rest : List Piece) :
    lastFile read (piece :: rest) = (lastFile read rest).or (read piece) := by
  have single : lastFile read [piece] = read piece := by
    cases found : read piece <;> simp [lastFile, found]
  rw [← single]
  exact lastFile_append read [piece] rest

/-- The last file comes from a piece after which no other one gives a file. -/
theorem exists_of_lastFile {read : Piece → Option Bytes} {pieces : List Piece} {file : Bytes}
    (last : lastFile read pieces = some file) :
    ∃ before piece after, pieces = before ++ piece :: after ∧ read piece = some file ∧
      ∀ other ∈ after, read other = none := by
  obtain ⟨files, ends⟩ := List.getLast?_eq_some_iff.1 last
  obtain ⟨left, right, rfl, _, tail⟩ := List.filterMap_eq_append_iff.1 ends
  obtain ⟨skipped, piece, after, rfl, _, found, silent⟩ := List.filterMap_eq_cons_iff.1 tail
  refine ⟨left ++ skipped, piece, after, by simp, found, ?_⟩
  exact List.filterMap_eq_nil_iff.1 silent

/-- Where no marker names a file, the files named are those of line directives. -/
theorem lastFile_namedFile? {pieces : List Piece}
    (unmarked : ∀ piece ∈ pieces, piece.markedFile? = none) :
    lastFile namedFile? pieces = lastFile directedFile? pieces := by
  induction pieces with
  | nil => rfl
  | cons piece rest ih =>
      have first : piece.namedFile? = piece.directedFile? := by
        rw [namedFile?, unmarked piece (by simp), Option.none_or]
      have others := ih fun other member => unmarked other (by simp [member])
      rw [lastFile_cons, lastFile_cons, first, others]

end Piece

namespace Layout

open Piece

/-- One event keeps the file of a layout the one that was last named by a marker. -/
theorem file_next (layout : Layout) (event : Event) :
    (layout.next event).file = (lastFile markedFile? (layout.piecesOf event)).or layout.file := by
  obtain ⟨owed, file⟩ := layout
  cases event with
  | text position content | value position content =>
      cases owed with
      | false => simp [next, fileAt, piecesOf, marker, markedFile?]
      | true =>
          by_cases same : file = some position.file
          · simp [next, fileAt, piecesOf, marker, markedFile?, same]
          · have named : (file != some position.file) = true := by simp [same]
            simp [next, fileAt, piecesOf, marker, markedFile?, named]
  | space | line => simp [next, piecesOf, markedFile?]
  | jump | warning | load => simp [next, piecesOf]

/-- The file of a layout is the one that was last named by a marker. -/
theorem file_after (layout : Layout) (events : List Event) :
    (layout.after events).file =
      (lastFile markedFile? (layout.pieces events)).or layout.file := by
  induction events generalizing layout with
  | nil => simp
  | cons event rest ih =>
      rw [after_cons, ih, file_next, pieces_cons, lastFile_append, Option.or_assoc]

/-- A marker without a name is for the file that was last named by a marker. -/
theorem lastFile_of_unnamed {events : List Event} {before rest : List Piece} {position : Position}
    (split : start.pieces events = before ++ .marker position false :: rest) :
    lastFile markedFile? before = some position.file := by
  obtain ⟨earlier, event, later, _, rfl, _, names, _, _⟩ := exists_event_of_marker split
  have file : (start.after earlier).file = some position.file := by simpa using names.symm
  rw [file_after] at file
  simpa [start] using file

end Layout

namespace Expansion

open Piece

/-- In every run a marker without a file name is for the file `origin.file` of the last marker that
has one.  That is also the last file named in the output, by a marker or by a line directive,
exactly if the line directives since then name no file, or name this one last. -/
theorem unnamed_marker_for_last_named_iff (files : FileSet) (name : Bytes) (nodes : List Node)
    (env : Env) {before rest : List Piece} {position : Position}
    (written : Layout.start.pieces (expand files name nodes env).events =
      before ++ .marker position false :: rest) :
    ∃ earlier origin since, before = earlier ++ .marker origin true :: since ∧
      origin.file = position.file ∧ (∀ piece ∈ since, piece.markedFile? = none) ∧
      (lastFile namedFile? before = some position.file ↔
        ∀ file, lastFile directedFile? since = some file → file = position.file) := by
  obtain ⟨earlier, piece, since, rfl, marked, unmarked⟩ :=
    exists_of_lastFile (Layout.lastFile_of_unnamed written)
  -- Only a named marker gives a file to the reading of markers.
  obtain ⟨origin, rfl, file⟩ : ∃ origin, piece = .marker origin true ∧
      origin.file = position.file := by
    unfold markedFile? at marked
    split at marked
    · next origin => exact ⟨origin, rfl, Option.some.inj marked⟩
    · cases marked
  refine ⟨earlier, origin, since, rfl, file, unmarked, ?_⟩
  have here : namedFile? (.marker origin true) = some position.file := by
    simp [namedFile?, markedFile?, file]
  rw [lastFile_append, lastFile_cons, here, lastFile_namedFile? unmarked]
  cases lastFile directedFile? since with
  | none => simp
  | some last => simp

/-- Two line directives lead from the file `t` to the file `o` and back. -/
def roundTrip : List Node :=
  [.text ⟨⟨bytes "t", 1, 0, 0⟩, ⟨bytes "t", 1, 0, 1⟩⟩ (bytes "a"), .line .nowhere (some (bytes "o")) 5,
    .line .nowhere (some (bytes "t")) 7, .text ⟨⟨bytes "t", 7, 9, 9⟩, ⟨bytes "t", 7, 9, 10⟩⟩ (bytes "b")]

/-- After the way back a marker without a name is right again. -/
theorem unnamed_marker_after_roundTrip :
    Layout.start.pieces (expand .empty (bytes "t") roundTrip .empty).events =
        [.marker ⟨bytes "t", 1, 0, 0⟩ true, .text (bytes "a"), .line 5 (some (bytes "o")),
          .line 7 (some (bytes "t"))] ++ .marker ⟨bytes "t", 7, 9, 9⟩ false :: [.text (bytes "b")] ∧
      ∃ earlier origin since,
        [.marker ⟨bytes "t", 1, 0, 0⟩ true, .text (bytes "a"), .line 5 (some (bytes "o")),
          .line 7 (some (bytes "t"))] = earlier ++ .marker origin true :: since ∧
        origin.file = bytes "t" ∧ (∀ piece ∈ since, piece.markedFile? = none) ∧
        (lastFile namedFile? [.marker ⟨bytes "t", 1, 0, 0⟩ true, .text (bytes "a"),
            .line 5 (some (bytes "o")), .line 7 (some (bytes "t"))] = some (bytes "t") ↔
          ∀ file, lastFile directedFile? since = some file → file = bytes "t") := by
  have answered : (within .empty 1 ⟨[bytes "t"], none⟩ roundTrip .empty).map Outcome.events = some
      [.text ⟨bytes "t", 1, 0, 0⟩ (bytes "a"), .line 5 (some (bytes "o")),
        .line 7 (some (bytes "t")), .text ⟨bytes "t", 7, 9, 9⟩ (bytes "b")] := by
    decide +kernel
  have written : Layout.start.pieces (expand .empty (bytes "t") roundTrip .empty).events =
      [.marker ⟨bytes "t", 1, 0, 0⟩ true, .text (bytes "a"), .line 5 (some (bytes "o")),
        .line 7 (some (bytes "t"))] ++ .marker ⟨bytes "t", 7, 9, 9⟩ false :: [.text (bytes "b")] := by
    rw [view_expand_of_within Outcome.events answered]
    decide
  exact ⟨written, unnamed_marker_for_last_named_iff _ _ _ _ written⟩

/-- An included file that holds one line directive. -/
def strayFiles : FileSet :=
  ⟨[(bytes "i", bytes "# 5 \"o\"\n")]⟩

/-- A marker without a name can be wrong: after the inclusion the text is in the file `t` again and
its marker names no file, but the last file that was named is `o`. -/
theorem unnamed_marker_astray :
    ∃ before rest position,
      Layout.start.pieces
          (ofSource strayFiles (bytes "t") (bytes "a\n#include \"i\"\nb\n") .empty).events =
        before ++ .marker position false :: rest ∧
      position.file = bytes "t" ∧ lastFile namedFile? before = some (bytes "o") := by
  have answered : ((Node.ofSource (bytes "t") (bytes "a\n#include \"i\"\nb\n")).toOption.bind
      fun nodes => within strayFiles 3 ⟨[bytes "t"], none⟩ nodes .empty).map Outcome.events = some
        [.text ⟨bytes "t", 1, 0, 0⟩ (bytes "a"), .space (bytes "\n"), .jump, .load (bytes "i"),
          .line 5 (some (bytes "o")), .jump, .text ⟨bytes "t", 3, 15, 15⟩ (bytes "b"),
          .space (bytes "\n")] := by
    decide +kernel
  rw [view_ofSource_of_within Outcome.events answered]
  refine ⟨[.marker ⟨bytes "t", 1, 0, 0⟩ true, .text (bytes "a"), .space (bytes "\n"),
    .line 5 (some (bytes "o"))], [.text (bytes "b"), .space (bytes "\n")],
    ⟨bytes "t", 3, 15, 15⟩, ?_, rfl, ?_⟩
  · decide
  · decide

end Expansion

end ScopedMacros
