import ScopedMacros.Proofs.Expander

/-!
# Output with and without markers

A session writes line markers or leaves them out.  The choice is seen in the output alone, and there
only in the markers themselves: without them the output is what the events give out one by one,
wherever a marker would have been owed.  The same holds of two expanders, which see the choice at each
text that they write.
-/

namespace ScopedMacros

/-- The first text is the second one with line markers put in, each after a newline. -/
inductive WithMarkers : Bytes → Bytes → Prop where
  | none (text : Bytes) : WithMarkers text text
  | marker (text : Bytes) (position : Position) (named : Bool) {marked plain : Bytes}
      (rest : WithMarkers marked plain) :
      WithMarkers (text ++ Byte.newline :: position.marker named ++ marked) (text ++ plain)

theorem WithMarkers.append_left {marked plain : Bytes} (text : Bytes)
    (put : WithMarkers marked plain) : WithMarkers (text ++ marked) (text ++ plain) := by
  cases put with
  | none => exact .none _
  | marker first position named rest =>
      have longer := WithMarkers.marker (text ++ first) position named rest
      simpa only [List.append_assoc] using longer

namespace Piece

/-- Apart from markers, a piece is written in one way. -/
theorem render_eq_or_marker (piece : Piece) :
    piece.render true = piece.render false ∨ ∃ position named, piece = .marker position named := by
  cases piece with
  | marker position named => exact .inr ⟨position, named, rfl⟩
  | _ => exact .inl rfl

/-- Rendering pieces with markers puts the markers in. -/
theorem withMarkers_render (pieces : List Piece) :
    WithMarkers (pieces.flatMap (render true)) (pieces.flatMap (render false)) := by
  induction pieces with
  | nil => exact .none []
  | cons piece rest ih =>
      rw [List.flatMap_cons, List.flatMap_cons]
      rcases piece.render_eq_or_marker with same | ⟨position, named, rfl⟩
      · rw [same]
        exact ih.append_left _
      · exact .marker [] position named ih

end Piece

/-- The bytes that an event gives out, apart from a marker. -/
def Event.written (event : Event) : Bytes :=
  event.piece?.toList.flatMap (Piece.render false)

namespace Layout

/-- Without markers the output of events is what each of them gives out, whatever the layout. -/
theorem flatMap_render_false (layout : Layout) (events : List Event) :
    (layout.pieces events).flatMap (Piece.render false) = events.flatMap Event.written := by
  induction events generalizing layout with
  | nil => rfl
  | cons event rest ih =>
      have first : (layout.piecesOf event).flatMap (Piece.render false) = event.written := by
        have unseen : ∀ position, (layout.marker position).flatMap (Piece.render false) = [] := by
          intro position
          unfold marker
          split <;> rfl
        rw [piecesOf_eq, List.flatMap_append, Event.written]
        cases event.position? with
        | none => rfl
        | some position => simp [unseen]
      rw [pieces_cons, List.flatMap_append, first, ih, List.flatMap_cons]

theorem output_false (events : List Event) : output false events = events.flatMap Event.written :=
  start.flatMap_render_false events

theorem withMarkers_output (events : List Event) :
    WithMarkers (output true events) (output false events) :=
  Piece.withMarkers_render (start.pieces events)

end Layout

namespace Expander

/-- What two expanders have in common that have done the same events if only the first one writes
markers. -/
structure SameButMarkers (marked plain : Expander) : Prop where
  diagnostics : marked.diagnostics = plain.diagnostics
  loads : marked.loads = plain.loads
  output : WithMarkers marked.output plain.output

theorem foldl_perform_sameButMarkers (events : List Event) :
    (events.foldl (perform true) fresh).SameButMarkers (events.foldl (perform false) fresh) := by
  rw [foldl_perform, foldl_perform]
  exact ⟨rfl, rfl, Layout.withMarkers_output events⟩

/-- Whatever two expanders have done before, a walk over a source with markers and one without them
end with the same environment or error, and what they add differs by the markers that are put in. -/
theorem exists_sameButMarkers (marked plain : Expander) (files : FileSet) (name : Bytes)
    (nodes : List Node) (env : Env) :
    ∃ more other result,
      marked.expandSource true files name nodes env = (marked.followedBy more, result) ∧
      plain.expandSource false files name nodes env = (plain.followedBy other, result) ∧
      more.SameButMarkers other := by
  obtain ⟨outcome, found⟩ : ∃ outcome, Expansion.expand files name nodes env = outcome := ⟨_, rfl⟩
  rw [expandSource_of_expand found, expandSource_of_expand found, foldl_perform_start,
    foldl_perform_start]
  exact ⟨_, _, _, rfl, rfl, foldl_perform_sameButMarkers outcome.events⟩

end Expander

namespace Session

/-- What two reports on the same expansion have in common if only one of them is for a session with
markers. -/
def Report.SameButMarkers (marked plain : Report) : Prop :=
  marked.diagnostics = plain.diagnostics ∧
    match marked.result, plain.result with
    | .ok output, .ok other => WithMarkers output other
    | .error error, .error other => error = other
    | _, _ => False

theorem take_sameButMarkers (session : Session) (outcome : Outcome) (shown : Bool) :
    ({ session with markers := true }.take outcome shown).1 =
        { ({ session with markers := false }.take outcome shown).1 with markers := true } ∧
      ({ session with markers := true }.take outcome shown).2.SameButMarkers
        ({ session with markers := false }.take outcome shown).2 := by
  obtain ⟨events, result⟩ := outcome
  cases result with
  | error error => exact ⟨rfl, rfl, rfl⟩
  | ok env =>
      refine ⟨rfl, rfl, ?_⟩
      cases shown with
      | false => exact .none []
      | true => exact Layout.withMarkers_output events

/-- Whatever a session has gone through before, expanding nodes with markers and without them leads
to the same environment, log and loads, and to the same diagnostics and the same error, if there is
one.  What has been given out, up to an error as well, differs by the markers that are put in.  Two
expanders with any past, of which only one writes markers, differ in no other way either: they end the
same, and add the same diagnostics and loads. -/
theorem expandNodes_without_markers (session : Session) (name : Bytes) (nodes : List Node) :
    ({ session with markers := true }.expandNodes name nodes).1 =
        { ({ session with markers := false }.expandNodes name nodes).1 with markers := true } ∧
      ({ session with markers := true }.expandNodes name nodes).2.SameButMarkers
        ({ session with markers := false }.expandNodes name nodes).2 ∧
      WithMarkers
        (Layout.output true (Expansion.expand session.files name nodes session.env).events)
        (Layout.output false (Expansion.expand session.files name nodes session.env).events) ∧
      ∀ marked plain : Expander, ∃ more other result,
        marked.expandSource true session.files name nodes session.env =
            (marked.followedBy more, result) ∧
          plain.expandSource false session.files name nodes session.env =
            (plain.followedBy other, result) ∧
          more.SameButMarkers other := by
  obtain ⟨sameState, sameReport⟩ :=
    session.take_sameButMarkers (Expansion.expand session.files name nodes session.env) true
  exact ⟨sameState, sameReport, Layout.withMarkers_output _, fun marked plain =>
    marked.exists_sameButMarkers plain session.files name nodes session.env⟩

end Session

end ScopedMacros
