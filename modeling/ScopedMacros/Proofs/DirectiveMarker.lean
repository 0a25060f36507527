import ScopedMacros.Proofs.Layout
import ScopedMacros.Proofs.Reach
import ScopedMacros.Proofs.Termination

/-!
# The marker after a directive

A directive takes its line out of the output, so the text after it needs a marker.  Each kind of
directive but one leaves a marker owed when it is done.  A warning leaves the debt as it found it: the
text after it has a marker only if one was owed before the warning, or something else in between owes
one.
-/

namespace ScopedMacros

namespace Node

/-- The directives that an expansion can go on after. -/
def isDirective : Node → Bool
  | .define _ _ _ _ | .undef _ _ | .inclusion _ _ | .cond _ _ _ _ | .warning _ _ | .line _ _ _ => true
  | _ => false

def isWarning : Node → Bool
  | .warning _ _ => true
  | _ => false

end Node

namespace Expansion

open Step

variable {files : FileSet} {context : Context} {env final : Env} {node : Node} {said : List Event}

/-- A directive that is done, other than a warning, ends with an event that owes a marker. -/
theorem exists_owing_event (directive : node.isDirective = true) (loud : node.isWarning = false)
    (done : run files context [node] env = ⟨said, .ok final⟩) :
    ∃ start last, said = start ++ [last] ∧ last.owes = true := by
  have answered := ofNode_eq_some files context node env
  rw [done] at answered
  cases node with
  | define location name parameters body =>
      simp only [ofNode] at answered
      split at answered
      · cases answered
      · cases answered
        exact ⟨[], .jump, rfl, rfl⟩
  | undef location name =>
      cases answered
      exact ⟨[], .jump, rfl, rfl⟩
  | inclusion location path =>
      obtain ⟨_, _, inner, _, _, _, rfl, _⟩ := exists_file_of_run done
      exact ⟨.jump :: .load path :: inner, .jump, rfl, rfl⟩
  | cond location test yes no =>
      obtain ⟨_, inner, _, rfl, _⟩ := exists_branch_of_run done
      exact ⟨.jump :: inner, .jump, rfl, rfl⟩
  | line location file number =>
      cases answered
      exact ⟨[], .line number file, rfl, rfl⟩
  | warning location message => cases loud
  | _ => cases directive

theorem events_warning {location : Location} {message : Bytes}
    (done : run files context [.warning location message] env = ⟨said, .ok final⟩) :
    said = [.warning location message] := by
  have answered := ofNode_eq_some files context (.warning location message) env
  rw [done] at answered
  cases answered
  rfl

/-- After a directive a marker is owed, unless it is a warning that found none owed. -/
theorem owed_after_directive (layout : Layout) (directive : node.isDirective = true)
    (done : run files context [node] env = ⟨said, .ok final⟩) :
    (layout.after said).owed = (!node.isWarning || layout.owed) := by
  cases quiet : node.isWarning with
  | false =>
      obtain ⟨start, last, rfl, owes⟩ := exists_owing_event directive quiet done
      rw [Layout.after_append, Layout.after_cons, Layout.after_nil, Layout.owed_next, owes]
      simp
  | true =>
      cases node with
      | warning location message =>
          rw [events_warning done]
          rfl
      | _ => cases quiet

end Expansion

namespace Layout

/-- In the output of events, a text and further events, the text stands right after a marker for its
position. -/
def Marked (events : List Event) (position : Position) (content : Bytes) (rest : List Event) :
    Prop :=
  ∃ named tail, start.pieces (events ++ .text position content :: rest) =
    start.pieces events ++ .marker position named :: .text content :: tail

/-- A text stands right after a marker exactly if one is owed when it is given out. -/
theorem marked_iff {events rest : List Event} {position : Position} {content : Bytes} :
    Marked events position content rest ↔ (start.after events).owed = true := by
  rw [Marked, pieces_append, pieces_cons]
  constructor
  · rintro ⟨named, tail, same⟩
    have same := List.append_cancel_left same
    cases owed : (start.after events).owed with
    | true => rfl
    | false => simp [piecesOf, marker, owed] at same
  · intro owed
    refine ⟨(start.after events).file != some position.file,
      ((start.after events).next (.text position content)).pieces rest, ?_⟩
    simp [piecesOf, marker, owed]

/-- A marker stands right before a text, or before a value of the current line or file. -/
theorem text_after_marker {events : List Event} {before rest : List Piece} {position : Position}
    {named : Bool} (split : start.pieces events = before ++ .marker position named :: rest) :
    ∃ content tail, rest = .text content :: tail ∨ rest = .value content :: tail := by
  obtain ⟨earlier, event, later, _, _, _, _, place, rfl⟩ := exists_event_of_marker split
  cases event with
  | text _ content => exact ⟨content, _, .inl rfl⟩
  | value _ content => exact ⟨content, _, .inr rfl⟩
  | _ => cases place

end Layout

namespace Expansion

/-- When a run is done with a directive, at whatever depth it came upon it, the first text
after the directive stands right after a marker, exactly if the directive is no warning, or a marker
was owed before it, or something in between owes one.  And no marker stands before space. -/
theorem marker_after_directive_iff (files : FileSet) (name : Bytes) (nodes : List Node) (env : Env)
    {before said : List Event} {context : Context} {node : Node} {here final : Env}
    (reached : Reaches files ⟨[name], none⟩ nodes env before context node here)
    (directive : node.isDirective = true)
    (done : run files context [node] here = ⟨said, .ok final⟩) :
    ∃ after, (expand files name nodes env).events = before ++ said ++ after ∧
      (∀ quiet position content rest, after = quiet ++ .text position content :: rest →
        (∀ event ∈ quiet, event.isText = false) →
        (Layout.Marked (before ++ said ++ quiet) position content rest ↔
          node.isWarning = false ∨ (Layout.start.after before).owed = true ∨
            quiet.any Event.owes = true)) ∧
      ∀ earlier position named rest, Layout.start.pieces (expand files name nodes env).events =
          earlier ++ .marker position named :: rest →
        ∃ content tail, rest = .text content :: tail ∨ rest = .value content :: tail := by
  obtain ⟨after, whole⟩ := exists_events_of_reaches reached
  rw [done] at whole
  refine ⟨after, whole, ?_, fun earlier position named rest => Layout.text_after_marker⟩
  intro quiet position content rest _ silent
  rw [Layout.marked_iff, Layout.after_append, Layout.after_append, Layout.owed_after silent,
    owed_after_directive _ directive done]
  simp [or_assoc]

/-- A definition is taken back inside a branch, between two texts. -/
def undefInBranch : List Node :=
  [.text ⟨⟨bytes "t", 1, 0, 0⟩, ⟨bytes "t", 1, 0, 1⟩⟩ (bytes "a"),
    .cond .nowhere (.literal .nowhere true) [.undef .nowhere (bytes "x")] [],
    .text ⟨⟨bytes "t", 4, 9, 9⟩, ⟨bytes "t", 4, 9, 10⟩⟩ (bytes "b")]

theorem marker_after_undefInBranch :
    Reaches .empty ⟨[bytes "t"], none⟩ undefInBranch .empty
        [.text ⟨bytes "t", 1, 0, 0⟩ (bytes "a"), .jump] ⟨[bytes "t"], none⟩
        (.undef .nowhere (bytes "x")) .empty ∧
      run .empty ⟨[bytes "t"], none⟩ [.undef .nowhere (bytes "x")] .empty = ⟨[.jump], .ok .empty⟩ ∧
      Layout.Marked [.text ⟨bytes "t", 1, 0, 0⟩ (bytes "a"), .jump, .jump, .jump]
        ⟨bytes "t", 4, 9, 9⟩ (bytes "b") [] := by
  have done : run .empty ⟨[bytes "t"], none⟩ [.undef .nowhere (bytes "x")] .empty =
      ⟨[.jump], .ok .empty⟩ := run_eq_of_within (show within _ 1 _ _ _ = _ from rfl)
  have first : run .empty ⟨[bytes "t"], none⟩ (undefInBranch.take 1) .empty =
      ⟨[.text ⟨bytes "t", 1, 0, 0⟩ (bytes "a")], .ok .empty⟩ :=
    run_eq_of_within (show within _ 1 _ _ _ = _ from rfl)
  have nothing : run .empty ⟨[bytes "t"], none⟩ [] .empty = ⟨[], .ok .empty⟩ :=
    run_eq_of_within (show within _ 1 _ _ _ = _ from rfl)
  have holds : (Test.literal .nowhere true).eval .empty = .ok true := rfl
  have reached : Reaches .empty ⟨[bytes "t"], none⟩ undefInBranch .empty
      [.text ⟨bytes "t", 1, 0, 0⟩ (bytes "a"), .jump] ⟨[bytes "t"], none⟩
      (.undef .nowhere (bytes "x")) .empty :=
    .inside (.here rfl first) (.branch holds) rfl nothing
  have events : (expand .empty (bytes "t") undefInBranch .empty).events =
      [.text ⟨bytes "t", 1, 0, 0⟩ (bytes "a"), .jump] ++ [.jump] ++
        ([.jump] ++ .text ⟨bytes "t", 4, 9, 9⟩ (bytes "b") :: []) :=
    view_expand_of_within Outcome.events (show (within _ 2 _ _ _).map _ = _ from rfl)
  obtain ⟨after, whole, marked, _⟩ := marker_after_directive_iff _ _ _ _ reached rfl done
  have tail := List.append_cancel_left (whole.symm.trans events)
  exact ⟨reached, done, (marked _ _ _ _ tail (by decide)).2 (.inl rfl)⟩

/-- A text after a warning can stand there without a marker: nothing in the output shows that the
line of the warning is missing. -/
theorem no_marker_after_warning :
    ∃ nodes before said after context location message here final position,
      Node.ofSource (bytes "t") (bytes "a\n#warning \"w\"\nb\n") = .ok nodes ∧
      Reaches .empty ⟨[bytes "t"], none⟩ nodes .empty before context (.warning location message)
        here ∧
      run .empty context [.warning location message] here = ⟨said, .ok final⟩ ∧
      (expand .empty (bytes "t") nodes .empty).events =
        before ++ said ++ .text position (bytes "b") :: after ∧
      ¬Layout.Marked (before ++ said) position (bytes "b") after := by
  have scanned : Token.scan (bytes "t") (bytes "a\n#warning \"w\"\nb\n") = .ok
      [⟨.ident, bytes "a", ⟨⟨bytes "t", 1, 0, 0⟩, ⟨bytes "t", 1, 0, 1⟩⟩⟩,
        ⟨.space, bytes "\n", ⟨⟨bytes "t", 1, 0, 1⟩, ⟨bytes "t", 2, 2, 2⟩⟩⟩,
        ⟨.directive, bytes "warning", ⟨⟨bytes "t", 2, 2, 2⟩, ⟨bytes "t", 2, 2, 10⟩⟩⟩,
        ⟨.string (bytes "w"), bytes "\"w\"", ⟨⟨bytes "t", 2, 2, 11⟩, ⟨bytes "t", 2, 2, 14⟩⟩⟩,
        ⟨.lineEnd, [], ⟨⟨bytes "t", 2, 2, 14⟩, ⟨bytes "t", 2, 2, 14⟩⟩⟩,
        ⟨.ident, bytes "b", ⟨⟨bytes "t", 3, 15, 15⟩, ⟨bytes "t", 3, 15, 16⟩⟩⟩,
        ⟨.space, bytes "\n", ⟨⟨bytes "t", 3, 15, 16⟩, ⟨bytes "t", 4, 17, 17⟩⟩⟩,
        ⟨.fileEnd, [], ⟨⟨bytes "t", 4, 17, 17⟩, ⟨bytes "t", 4, 17, 17⟩⟩⟩] := by
    decide +kernel
  let location : Location := ⟨⟨bytes "t", 2, 2, 2⟩, ⟨bytes "t", 2, 2, 14⟩⟩
  let nodes : List Node :=
    [.ident ⟨⟨bytes "t", 1, 0, 0⟩, ⟨bytes "t", 1, 0, 1⟩⟩ (bytes "a"),
      .space ⟨⟨bytes "t", 1, 0, 1⟩, ⟨bytes "t", 2, 2, 2⟩⟩ (bytes "\n"),
      .warning location (bytes "w"),
      .ident ⟨⟨bytes "t", 3, 15, 15⟩, ⟨bytes "t", 3, 15, 16⟩⟩ (bytes "b"),
      .space ⟨⟨bytes "t", 3, 15, 16⟩, ⟨bytes "t", 4, 17, 17⟩⟩ (bytes "\n")]
  refine ⟨nodes, [.text ⟨bytes "t", 1, 0, 0⟩ (bytes "a"), .space (bytes "\n")],
    [.warning location (bytes "w")], [.space (bytes "\n")], ⟨[bytes "t"], none⟩, location, bytes "w",
    .empty, .empty, ⟨bytes "t", 3, 15, 15⟩, ?_, ?_, ?_, ?_, ?_⟩
  · rw [Node.ofSource, scanned]
    rfl
  · have first : run .empty ⟨[bytes "t"], none⟩ (nodes.take 2) .empty =
        ⟨[.text ⟨bytes "t", 1, 0, 0⟩ (bytes "a"), .space (bytes "\n")], .ok .empty⟩ :=
      run_eq_of_within (show within _ 1 _ _ _ = _ from rfl)
    exact .here rfl first
  · exact run_eq_of_within (show within _ 1 _ _ _ = _ from rfl)
  · exact view_expand_of_within Outcome.events (show (within _ 1 _ _ _).map _ = _ from rfl)
  · rw [Layout.marked_iff]
    decide

end Expansion

end ScopedMacros
