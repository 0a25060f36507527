import ScopedMacros.Proofs.Layout
import ScopedMacros.Proofs.Text

/-!
# Events with the same output

Two lists of events are laid out alike if from every layout they give the same bytes and leave the
same layout.  Text and space in a row are laid out by their bytes, the space that they begin with,
and the place where their first text stands: how the text is cut into events does not matter.
-/

namespace ScopedMacros

namespace Event

/-- Text or space of a source. -/
def isInline : Event → Bool
  | .text _ _ | .space _ => true
  | _ => false

def content : Event → Bytes
  | .text _ content | .space content => content
  | _ => []

end Event

namespace Layout

/-- The bytes that events add to an output with line markers. -/
def render (layout : Layout) (events : List Event) : Bytes :=
  (layout.pieces events).flatMap (Piece.render true)

theorem render_cons (layout : Layout) (event : Event) (rest : List Event) :
    layout.render (event :: rest) =
      (layout.piecesOf event).flatMap (Piece.render true) ++ (layout.next event).render rest := by
  rw [render, pieces_cons, List.flatMap_append]
  rfl

theorem render_append (layout : Layout) (left right : List Event) :
    layout.render (left ++ right) = layout.render left ++ (layout.after left).render right := by
  rw [render, pieces_append, List.flatMap_append]
  rfl

/-- Two lists of events are laid out alike. -/
structure Same (left right : List Event) : Prop where
  render : ∀ layout : Layout, layout.render left = layout.render right
  after : ∀ layout : Layout, layout.after left = layout.after right

namespace Same

variable {left right : List Event}

theorem refl (events : List Event) : Same events events :=
  ⟨fun _ => rfl, fun _ => rfl⟩

theorem symm (same : Same left right) : Same right left :=
  ⟨fun layout => (same.render layout).symm, fun layout => (same.after layout).symm⟩

theorem trans {middle : List Event} (first : Same left middle) (second : Same middle right) :
    Same left right :=
  ⟨fun layout => (first.render layout).trans (second.render layout),
    fun layout => (first.after layout).trans (second.after layout)⟩

theorem append {more others : List Event} (first : Same left right) (second : Same more others) :
    Same (left ++ more) (right ++ others) where
  render layout := by
    rw [render_append, render_append, first.render, first.after, second.render]
  after layout := by
    rw [after_append, after_append, first.after, second.after]

theorem cons (event : Event) (same : Same left right) : Same (event :: left) (event :: right) :=
  append (refl [event]) same

end Same

/-- A second jump right after a first one asks for nothing more. -/
theorem same_jump_jump : Same [.jump, .jump] [.jump] :=
  ⟨fun _ => rfl, fun _ => rfl⟩

/-- That a file was read leaves no trace in the output. -/
theorem same_jump_load (path : Bytes) : Same [.jump, .load path] [.jump] :=
  ⟨fun _ => rfl, fun _ => rfl⟩

/-- Where no marker is owed, text and space are given out as they are. -/
theorem render_of_paid (layout : Layout) (paid : layout.owed = false) {events : List Event}
    (inline : ∀ event ∈ events, event.isInline = true) :
    layout.render events = events.flatMap Event.content ∧ layout.after events = layout := by
  obtain ⟨owed, file⟩ := layout
  dsimp only at paid
  subst paid
  induction events with
  | nil => exact ⟨rfl, rfl⟩
  | cons event rest ih =>
      obtain ⟨bytes, stays⟩ := ih fun other member => inline other (by simp [member])
      have first := inline event (by simp)
      rw [render_cons, after_cons, List.flatMap_cons]
      cases event with
      | text position content =>
          change _ ++ (Layout.mk false file).render rest = _ ∧ (Layout.mk false file).after rest = _
          rw [bytes, stays]
          simp [piecesOf, marker, Piece.render, Event.content]
      | space content =>
          change _ ++ (Layout.mk false file).render rest = _ ∧ (Layout.mk false file).after rest = _
          rw [bytes, stays]
          simp [piecesOf, Piece.render, Event.content]
      | _ => cases first

end Layout

namespace Word

def text : Word → Bytes
  | .name text | .space text | .other text => text

def isSpace : Word → Bool
  | .space _ => true
  | _ => false

end Word

/-- Events give out the bytes of words: first the space that these begin with, and then, from the
given place on, all the rest. -/
inductive Gives : List Event → List Word → Option Position → Prop where
  | nil : Gives [] [] none
  | space {events : List Event} {words : List Word} {start : Option Position} (content : Bytes)
      (rest : Gives events words start) :
      Gives (.space content :: events) (.space content :: words) start
  | text {events : List Event} {word : Word} {words : List Word} (position : Position)
      (content : Bytes) (solid : word.isSpace = false)
      (inline : ∀ event ∈ events, event.isInline = true)
      (same : content ++ events.flatMap Event.content = (word :: words).flatMap Word.text) :
      Gives (.text position content :: events) (word :: words) (some position)

namespace Gives

variable {events more : List Event} {words others : List Word} {start later : Option Position}

theorem inline (gives : Gives events words start) : ∀ event ∈ events, event.isInline = true := by
  induction gives with
  | nil => simp
  | space content rest ih =>
      intro event member
      rcases List.mem_cons.1 member with rfl | member
      · rfl
      · exact ih event member
  | text position content solid inline same =>
      intro event member
      rcases List.mem_cons.1 member with rfl | member
      · rfl
      · exact inline event member

theorem content (gives : Gives events words start) :
    events.flatMap Event.content = words.flatMap Word.text := by
  induction gives with
  | nil => rfl
  | space content rest ih =>
      rw [List.flatMap_cons, List.flatMap_cons, ih]
      rfl
  | text position content solid inline same => exact same

theorem append (first : Gives events words start) (second : Gives more others later) :
    Gives (events ++ more) (words ++ others) (start.or later) := by
  induction first with
  | nil => exact second
  | space content rest ih => exact .space content ih
  | @text events word words position content solid inline same =>
      rw [List.cons_append, List.cons_append]
      refine .text position content solid ?_ ?_
      · intro event member
        rcases List.mem_append.1 member with member | member
        · exact inline event member
        · exact second.inline event member
      · rw [List.flatMap_append, ← List.append_assoc, same, second.content, ← List.flatMap_append]
        rfl

/-- What two lists give out decides how they are laid out. -/
theorem same {left right : List Event} (first : Gives left words start)
    (second : Gives right words start) : Layout.Same left right := by
  induction first generalizing right with
  | nil =>
      cases second
      exact .refl []
  | space content rest ih =>
      cases second with
      | space _ others => exact (ih others).cons _
      | text _ _ solid => cases solid
  | @text events word words position content solid inline bytes =>
      cases second with
      | space => cases solid
      | @text others _ _ _ shown _ inline' bytes' =>
          have equal : content ++ events.flatMap Event.content =
              shown ++ others.flatMap Event.content := bytes.trans bytes'.symm
          constructor
          · intro layout
            have left := Layout.render_of_paid (layout.next (.text position content)) rfl inline
            have right := Layout.render_of_paid (layout.next (.text position shown)) rfl inline'
            rw [Layout.render_cons, Layout.render_cons, left.1, right.1]
            simp only [Layout.piecesOf, List.flatMap_append, List.flatMap_cons, List.flatMap_nil,
              Piece.render, List.append_nil, List.append_assoc, equal]
          · intro layout
            have left := Layout.render_of_paid (layout.next (.text position content)) rfl inline
            have right := Layout.render_of_paid (layout.next (.text position shown)) rfl inline'
            rw [Layout.after_cons, Layout.after_cons, left.2, right.2]
            rfl

end Gives

/-- What a token of text gives out. -/
def Token.event (token : Token) : Event :=
  if token.kind = .space then .space token.text else .text token.location.start token.text

/-- Tokens of text give out their words. -/
theorem Gives.tokens (tokens : List Token) :
    Gives (tokens.map Token.event) (tokens.map Token.word) (Token.start? tokens) := by
  induction tokens with
  | nil => exact .nil
  | cons token rest ih =>
      have one : Gives [token.event] [token.word] (Token.start? [token]) := by
        by_cases space : token.kind = .space
        · have event : token.event = .space token.text := by rw [Token.event, if_pos space]
          have word : token.word = .space token.text := by rw [Token.word, space]
          have start : Token.start? [token] = none := by simp [Token.start?, space]
          rw [event, word, start]
          exact .space _ .nil
        · have event : token.event = .text token.location.start token.text := by
            rw [Token.event, if_neg space]
          have start : Token.start? [token] = some token.location.start := by
            simp [Token.start?, space]
          rw [event, start]
          refine .text _ _ ?_ (by simp) ?_
          · unfold Token.word
            split <;> simp_all [Word.isSpace]
          · unfold Token.word
            split <;> simp [Word.text]
      have both := one.append ih
      rw [← Token.start?_append] at both
      exact both

end ScopedMacros
