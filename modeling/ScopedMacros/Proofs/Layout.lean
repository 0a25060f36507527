import ScopedMacros.Layout

/-!
# Layout of event lists

A layout is carried through a list of events from left to right, so the pieces of two lists in a row
are those of the first and then, from the layout that the first leaves, those of the second.  Every
marker among the pieces goes back to one event that found it owed.
-/

namespace ScopedMacros

namespace Event

/-- Whether the event gives out text other than space. -/
def isText : Event → Bool
  | .text _ _ => true
  | _ => false

/-- Whether a marker is owed after the event, whatever came before it. -/
def owes : Event → Bool
  | .line _ _ | .jump | .value _ _ => true
  | _ => false

/-- The position that an event is given out for. -/
def position? : Event → Option Position
  | .text position _ | .value position _ => some position
  | _ => none

/-- The piece that an event puts into the output, apart from a marker. -/
def piece? : Event → Option Piece
  | .text _ content => some (.text content)
  | .value _ content => some (.value content)
  | .line number file => some (.line number file)
  | .space content => some (.space content)
  | .jump | .warning _ _ | .load _ => none

theorem piece?_ne_marker (event : Event) (position : Position) (named : Bool) :
    event.piece? ≠ some (.marker position named) := by
  cases event <;> simp [piece?]

end Event

namespace Layout

/-- The layout after a list of events. -/
def after (layout : Layout) (events : List Event) : Layout :=
  events.foldl next layout

@[simp]
theorem after_nil (layout : Layout) : layout.after [] = layout := rfl

@[simp]
theorem after_cons (layout : Layout) (event : Event) (rest : List Event) :
    layout.after (event :: rest) = (layout.next event).after rest := rfl

theorem after_append (layout : Layout) (left right : List Event) :
    layout.after (left ++ right) = (layout.after left).after right :=
  List.foldl_append

@[simp]
theorem pieces_nil (layout : Layout) : layout.pieces [] = [] := rfl

@[simp]
theorem pieces_cons (layout : Layout) (event : Event) (rest : List Event) :
    layout.pieces (event :: rest) = layout.piecesOf event ++ (layout.next event).pieces rest := rfl

theorem pieces_append (layout : Layout) (left right : List Event) :
    layout.pieces (left ++ right) = layout.pieces left ++ (layout.after left).pieces right := by
  induction left generalizing layout with
  | nil => rfl
  | cons event rest ih =>
      rw [List.cons_append, pieces_cons, ih, pieces_cons, after_cons, List.append_assoc]

/-! ## When a marker is owed -/

/-- An event that owes a marker leaves one owed, a text leaves none, and every other event leaves
the debt as it is. -/
theorem owed_next (layout : Layout) (event : Event) :
    (layout.next event).owed = (event.owes || (layout.owed && !event.isText)) := by
  cases event <;> simp [next, Event.owes, Event.isText]

/-- Without a text a debt stays, and it arises from the events that owe a marker. -/
theorem owed_after {layout : Layout} {events : List Event}
    (quiet : ∀ event ∈ events, event.isText = false) :
    (layout.after events).owed = (layout.owed || events.any Event.owes) := by
  induction events generalizing layout with
  | nil => simp
  | cons event rest ih =>
      have first : event.isText = false := quiet event (by simp)
      have others : ∀ other ∈ rest, other.isText = false :=
        fun other member => quiet other (by simp [member])
      rw [after_cons, ih others, owed_next, first, List.any_cons]
      cases layout.owed <;> cases event.owes <;> simp

/-! ## Where markers come from -/

/-- An event adds the marker that is owed for its position, and then the piece of its own. -/
theorem piecesOf_eq (layout : Layout) (event : Event) :
    layout.piecesOf event =
      (event.position?.map layout.marker).getD [] ++ event.piece?.toList := by
  cases event <;> rfl

/-- A marker of a single event was owed, and the piece of that event follows it. -/
theorem marker_of_piecesOf {layout : Layout} {event : Event} {before rest : List Piece}
    {position : Position} {named : Bool}
    (split : layout.piecesOf event = before ++ .marker position named :: rest) :
    before = [] ∧ layout.owed = true ∧ named = (layout.file != some position.file) ∧
      event.position? = some position ∧ rest = event.piece?.toList := by
  rw [piecesOf_eq] at split
  have notOwn : ∀ before, event.piece?.toList ≠ before ++ .marker position named :: rest := by
    intro before own
    have member : Piece.marker position named ∈ event.piece?.toList := by simp [own]
    exact event.piece?_ne_marker position named (Option.mem_toList.1 member)
  cases place : event.position? with
  | none =>
      rw [place] at split
      exact absurd split (notOwn before)
  | some given =>
      rw [place, Option.map_some, Option.getD_some, marker] at split
      cases owed : layout.owed with
      | false =>
          rw [owed, if_neg Bool.false_ne_true] at split
          exact absurd split (notOwn before)
      | true =>
          rw [owed, if_pos rfl] at split
          cases before with
          | nil =>
              injection split with first second
              injection first with samePosition sameNamed
              subst samePosition
              exact ⟨rfl, rfl, sameNamed.symm, rfl, second.symm⟩
          | cons first others =>
              injection split with _ second
              exact absurd second (notOwn others)

/-- Every marker among the pieces of a list of events goes back to one of them, which found it owed;
the marker names its file unless that was the file of the marker before it. -/
theorem exists_event_of_marker {layout : Layout} {events : List Event} {before rest : List Piece}
    {position : Position} {named : Bool}
    (split : layout.pieces events = before ++ .marker position named :: rest) :
    ∃ earlier event later, events = earlier ++ event :: later ∧
      before = layout.pieces earlier ∧ (layout.after earlier).owed = true ∧
      named = ((layout.after earlier).file != some position.file) ∧
      event.position? = some position ∧
      rest = event.piece?.toList ++ (layout.after (earlier ++ [event])).pieces later := by
  induction events generalizing layout before with
  | nil => simp at split
  | cons event later ih =>
      rw [pieces_cons] at split
      rcases List.append_eq_append_iff.1 split with ⟨middle, left, right⟩ | ⟨middle, left, right⟩
      · -- The marker comes after the pieces of the first event.
        obtain ⟨earlier, found, rest', rfl, rfl, owed, names, place, tail⟩ := ih right
        exact ⟨event :: earlier, found, rest', rfl, left, owed, names, place, tail⟩
      · cases middle with
        | nil =>
            have right : (layout.next event).pieces later =
                [] ++ .marker position named :: rest := right.symm
            obtain ⟨earlier, found, rest', rfl, same, owed, names, place, tail⟩ := ih right
            refine ⟨event :: earlier, found, rest', rfl, ?_, owed, names, place, tail⟩
            rw [pieces_cons, ← same, left]
            simp
        | cons first middle =>
            injection right with same tail
            subst same
            obtain ⟨rfl, owed, names, place, rfl⟩ := marker_of_piecesOf left
            exact ⟨[], event, later, rfl, rfl, owed, names, place, tail⟩

end Layout

end ScopedMacros
