import ScopedMacros.Proofs.Condition
import ScopedMacros.Proofs.Recognition
import ScopedMacros.Proofs.Relocation
import ScopedMacros.Proofs.Rereading

/-!
# Tokens in a row

The tokens of a directive line stand one after the other, with blanks and continued lines between
them.  So the line can be cut between any two of its tokens.  The bytes from the start of one token to
the end of another one are scanned as the same tokens wherever they stand, if space follows them.
-/

namespace ScopedMacros

namespace Lexeme

/-- After space there is no more of it. -/
theorem continuation_drop (text : Bytes) :
    continuation (text.drop (continuation text).length) = [] := by
  fun_induction continuation text with
  | case1 => rfl
  | case2 => rfl
  | case3 last notBlank => simp [continuation, notBlank]
  | case4 first second rest blank ih => exact ih
  | case5 first second rest _ _ ih => exact ih
  | case6 first second rest notBlank single => simp [continuation, notBlank, single]

/-- Space ends at the same byte, whatever follows that byte. -/
theorem continuation_before_solid {first : Byte} (solid : startsInLine first = true) {rest : Bytes}
    (other : Bytes) : ∀ gap : Bytes, continuation (gap ++ first :: rest) = gap →
      continuation (gap ++ first :: other) = gap
  | [], _ => by
      obtain ⟨notBlank, notBackslash, _⟩ := solid_of_startsInLine first solid
      exact Token.continuation_of_solid other notBlank notBackslash
  | [byte], passed => by
      obtain ⟨notBlank, notBackslash, _⟩ := solid_of_startsInLine first solid
      have ended := Token.continuation_of_solid other notBlank notBackslash
      rw [List.singleton_append, continuation] at passed ⊢
      split at passed
      · next blank => rw [if_pos blank, ended]
      · split at passed
        · simp at passed
        · simp at passed
  | byte :: second :: more, passed => by
      rw [List.cons_append, List.cons_append, continuation] at passed ⊢
      split at passed
      · next blank =>
          injection passed with _ passed
          rw [if_pos blank]
          exact congrArg (byte :: ·) (continuation_before_solid solid other (second :: more) passed)
      · next notBlank =>
          rw [if_neg notBlank]
          split at passed
          · next single =>
              injection passed with _ passed
              injection passed with _ passed
              rw [if_pos single, continuation_before_solid solid other more passed]
          · cases passed

end Lexeme

namespace Cursor

theorem skip_skip (cursor : Cursor) : cursor.skip.skip = cursor.skip := by
  rw [skip, show cursor.skip.rest = cursor.rest.drop (Lexeme.continuation cursor.rest).length from rfl,
    Lexeme.continuation_drop]
  rfl

theorem rest_skip (cursor : Cursor) :
    cursor.rest = Lexeme.continuation cursor.rest ++ cursor.skip.rest :=
  (List.prefix_iff_eq_append.1 (Lexeme.prefix_continuation cursor.rest)).symm

/-- A blank is skipped. -/
theorem skip_cons (position : Position) {byte : Byte} (blank : Byte.isBlank byte = true)
    (rest : Bytes) : (Cursor.mk position (byte :: rest)).skip =
      (Cursor.mk (position.step byte) rest).skip := by
  rw [skip, skip, Token.continuation_of_blank rest blank]
  rfl

end Cursor

namespace Token

open Cursor

/-- A line may be read on from its next byte that is not blank. -/
theorem ofLine_skip (cursor : Cursor) : ofLine cursor.skip = ofLine cursor := by
  rw [ofLine.eq_def, ofLine.eq_def cursor, skip_skip]

/-- The location goes from the start of the first token to the end of the last. -/
structure Spans (tokens : List Token) (location : Location) : Prop where
  start : tokens.head?.map (·.location.start) = some location.start
  stop : tokens.getLast?.map (·.location.stop) = some location.stop

variable {tokens : List Token}

/-- What stands in front of tokens does not change their end. -/
theorem Spans.stop_append {location : Location} (spans : Spans tokens location)
    (front : List Token) :
    (front ++ tokens).getLast?.map (·.location.stop) = some location.stop := by
  have stop := spans.stop
  cases last : tokens.getLast? with
  | none =>
      rw [last] at stop
      cases stop
  | some token =>
      rw [last] at stop
      rw [List.getLast?_append, last]
      exact stop

theorem Spans.start_append {location : Location} (spans : Spans tokens location)
    (after : List Token) :
    (tokens ++ after).head?.map (·.location.start) = some location.start := by
  have start := spans.start
  cases first : tokens.head? with
  | none =>
      rw [first] at start
      cases start
  | some token =>
      rw [first] at start
      rw [List.head?_append, first]
      exact start

theorem Spans.cons (sign : Token) {signs : List Token} {location : Location}
    (spans : Spans tokens location) :
    Spans (sign :: (signs ++ tokens)) (sign.location.span location) :=
  ⟨rfl, spans.stop_append (sign :: signs)⟩

theorem Spans.append (sign : Token) {left signs : List Token} {first second : Location}
    (spansLeft : Spans left first) (spansRight : Spans tokens second) :
    Spans (left ++ sign :: (signs ++ tokens)) (first.span second) := by
  refine ⟨spansLeft.start_append _, ?_⟩
  have stop := spansRight.stop_append (left ++ sign :: signs)
  rw [List.append_assoc] at stop
  exact stop

/-- The tokens are those between two cursors in a line, of which the second stands right after the
last token. -/
inductive Row : Cursor → List Token → Cursor → Prop where
  | nil (cursor : Cursor) : Row cursor [] cursor
  | cons {cursor stop : Cursor} {next : Byte × Bytes} {lexeme : Lexeme} {tokens : List Token}
      (found : cursor.skip.inLine? = some next) (lexed : Lexeme.inLine next.1 next.2 = .ok lexeme)
      (row : Row (cursor.skip.advance (next.1 :: lexeme.more)) tokens stop) :
      Row cursor (cursor.skip.token next.1 lexeme :: tokens) stop

theorem exists_row_of_ofLine {cursor stop : Cursor} {tokens : List Token}
    (read : ofLine cursor = .ok (tokens, stop)) :
    ∃ last, Row cursor tokens last ∧ last.skip.inLine? = none := by
  fun_induction ofLine cursor generalizing tokens stop with
  | case1 cursor ended =>
      cases read
      exact ⟨cursor, .nil cursor, ended⟩
  | case2 => cases read
  | case3 => cases read
  | case4 cursor next found lexeme lexed tail stop' rest ih =>
      cases read
      obtain ⟨last, row, ended⟩ := ih rest
      exact ⟨last, .cons found lexed row, ended⟩

namespace Row

variable {cursor middle stop : Cursor} {tokens others : List Token}

/-- A row up to the end of the line is what is read of the line. -/
theorem ofLine_eq (row : Row cursor tokens stop) (ended : stop.skip.inLine? = none) :
    ofLine cursor = .ok (tokens, stop.skip) := by
  induction row with
  | nil cursor => exact ofLine_of_ended ended
  | @cons cursor stop next lexeme tokens found lexed _ ih =>
      rw [ofLine_of_lexeme rfl found lexed, ih ended]
      rfl

theorem split (row : Row cursor (tokens ++ others) stop) :
    ∃ middle, Row cursor tokens middle ∧ Row middle others stop := by
  induction tokens generalizing cursor with
  | nil => exact ⟨cursor, .nil cursor, row⟩
  | cons token tokens ih =>
      cases row with
      | cons found lexed row =>
          obtain ⟨middle, first, second⟩ := ih row
          exact ⟨middle, .cons found lexed first, second⟩

theorem passes (row : Row cursor tokens stop) : Passes cursor stop := by
  induction row with
  | nil cursor => exact .refl cursor
  | cons found lexed _ ih =>
      exact (Passes.skip _).trans ((Passes.lexeme found (Lexeme.prefix_inLine lexed)).trans ih)

/-- Space in front of the first token makes no difference. -/
theorem of_skip (row : Row cursor tokens stop) (nonempty : tokens ≠ [])
    (same : middle.skip = cursor.skip) : Row middle tokens stop := by
  cases row with
  | nil => exact absurd rfl nonempty
  | cons found lexed row =>
      rw [← same] at found row ⊢
      exact .cons found lexed row

/-! ## Bytes of a row -/

/-- The bytes of a token and of the space before it are scanned as the same token in front of anything
that starts alike, wherever they stand. -/
theorem exists_lexeme {next : Byte × Bytes} {lexeme : Lexeme}
    (found : cursor.skip.inLine? = some next) (lexed : Lexeme.inLine next.1 next.2 = .ok lexeme) :
    ∃ raw left, cursor.rest = raw ++ left ∧
      cursor.skip.advance (next.1 :: lexeme.more) = cursor.advance raw ∧
      ∀ position after tokens stop, Bytes.StartsAlike left after →
        Row ⟨position.advance raw, after⟩ tokens stop →
        ∃ twin, (cursor.skip.token next.1 lexeme).Same twin ∧
          Row ⟨position, raw ++ after⟩ (twin :: tokens) stop := by
  obtain ⟨first, rest⟩ := next
  obtain ⟨here, notNewline⟩ := rest_of_inLine? found
  obtain ⟨left, whole⟩ := Lexeme.prefix_inLine lexed
  dsimp only at *
  let space := Lexeme.continuation cursor.rest
  have split : cursor.rest = space ++ first :: rest := (rest_skip cursor).trans (by rw [here])
  have ended : Lexeme.continuation (space ++ first :: rest) = space := congrArg _ split.symm
  refine ⟨space ++ first :: lexeme.more, left, ?_, (cursor.advance_append _ _).symm, ?_⟩
  · rw [split, ← whole, List.append_assoc, List.cons_append]
  intro position after tokens stop alike row
  let start : Cursor := ⟨position.advance space, first :: (lexeme.more ++ after)⟩
  have skipped : (Cursor.mk position (space ++ first :: lexeme.more ++ after)).skip = start := by
    rw [Cursor.skip, List.append_assoc, List.cons_append,
      Lexeme.continuation_before_solid (Lexeme.startsInLine_of_inLine lexed) _ space ended,
      Cursor.advance_mk_append]
  have foundHere : start.inLine? = some (first, lexeme.more ++ after) := by
    simp [start, Cursor.inLine?, notNewline]
  rw [← whole] at lexed
  have lexedHere := Lexeme.inLine_append alike lexed
  have further : start.advance (first :: lexeme.more) =
      ⟨position.advance (space ++ first :: lexeme.more), after⟩ := by
    rw [Position.advance_append]
    exact Cursor.advance_mk_append _ (first :: lexeme.more) after
  refine ⟨start.token first lexeme, ⟨rfl, rfl⟩, ?_⟩
  rw [← further, ← skipped] at row
  rw [← skipped] at foundHere ⊢
  exact .cons foundHere lexedHere row

/-- What is left at the two cursors differs by bytes that are scanned as the same tokens in front of
anything that starts alike, wherever they stand. -/
theorem exists_raw (row : Row cursor tokens stop) :
    ∃ raw, cursor.rest = raw ++ stop.rest ∧ stop = cursor.advance raw ∧
      ∀ position after, Bytes.StartsAlike stop.rest after →
        ∃ twins, Row ⟨position, raw ++ after⟩ twins ⟨position.advance raw, after⟩ ∧
          AllSame tokens twins := by
  induction row with
  | nil cursor => exact ⟨[], rfl, rfl, fun position after _ => ⟨[], .nil _, .nil⟩⟩
  | @cons cursor stop next lexeme tokens found lexed row ih =>
      obtain ⟨more, further, rfl, again⟩ := ih
      obtain ⟨raw, left, whole, moved, here⟩ := exists_lexeme found lexed
      rw [moved, Cursor.rest_advance whole, ← Cursor.advance_append] at further
      rw [moved, ← Cursor.advance_append] at again ⊢
      refine ⟨raw ++ more, ?_, rfl, fun position after alike => ?_⟩
      · rw [whole, List.append_assoc, ← further]
      obtain ⟨twins, row, same⟩ := again (position.advance raw) after alike
      have alikeHere : Bytes.StartsAlike left (more ++ after) := by
        rw [further]
        cases more with
        | nil => exact List.append_nil raw ▸ alike
        | cons byte more => exact .inl rfl
      obtain ⟨twin, sameHere, row⟩ := here position (more ++ after) twins _ alikeHere row
      rw [← List.append_assoc, ← Position.advance_append] at row
      exact ⟨twin :: twins, row, .cons sameHere same⟩

/-! ## Places -/

/-- A row lies between its cursors, apart from the space in front of its first token. -/
theorem spans (row : Row cursor tokens stop) (nonempty : tokens ≠ []) :
    Spans tokens ⟨cursor.skip.position, stop.position⟩ := by
  induction row with
  | nil => exact absurd rfl nonempty
  | @cons cursor stop next lexeme tokens found lexed row ih =>
      refine ⟨rfl, ?_⟩
      cases row with
      | nil => rfl
      | cons => exact (ih (List.cons_ne_nil _ _)).stop

theorem offset_lt {text : Bytes} (row : Row cursor tokens stop) (nonempty : tokens ≠ [])
    (stands : cursor.StandsIn text) : cursor.offset < stop.offset := by
  cases row with
  | nil => exact absurd rfl nonempty
  | @cons _ _ next lexeme _ found lexed row =>
      obtain ⟨standsSkip, skipped⟩ := stands.passes (.skip cursor)
      obtain ⟨left, whole⟩ := prefix_of_inLine? found (Lexeme.prefix_inLine lexed)
      have moved := Cursor.offset_advance standsSkip.small whole.symm
      have further := ((standsSkip.advance whole.symm).passes row.passes).2
      rw [List.length_cons] at moved
      omega

end Row

end Token

/-- The stretch of a text from the one offset of a location to the other. -/
def Bytes.slice (text : Bytes) (location : Location) : Bytes :=
  text.extract location.start.offset.toNat location.stop.offset.toNat

/-- The stretch of a text that tokens in a row lie on is scanned as the same tokens in front of a
newline, wherever it stands. -/
theorem Token.Row.exists_slice {text : Bytes} {cursor stop : Cursor} {tokens : List Token}
    {location : Location} (row : Row cursor tokens stop) (stands : cursor.StandsIn text)
    (spans : Spans tokens location) (position : Position) (after : Bytes) :
    ∃ twins, AllSame tokens twins ∧
      Row ⟨position, text.slice location ++ Byte.newline :: after⟩ twins
        ⟨position.advance (text.slice location), Byte.newline :: after⟩ := by
  have nonempty : tokens ≠ [] := by
    rintro rfl
    cases spans.start
  obtain ⟨raw, left, rfl, again⟩ := (row.of_skip nonempty cursor.skip_skip).exists_raw
  obtain ⟨standsSkip, _⟩ := stands.passes (.skip cursor)
  have moved := Cursor.offset_advance standsSkip.small left
  obtain rfl : location = ⟨cursor.skip.position, (cursor.skip.advance raw).position⟩ := by
    obtain ⟨start, stop⟩ := row.spans nonempty
    have sameStart := spans.start.symm.trans start
    have sameStop := spans.stop.symm.trans stop
    obtain ⟨first, last⟩ := location
    cases sameStart
    cases sameStop
    rfl
  have slice : text.slice ⟨cursor.skip.position, (cursor.skip.advance raw).position⟩ = raw := by
    change text.extract cursor.skip.offset (cursor.skip.advance raw).offset = raw
    rw [moved, List.extract_eq_take_drop, standsSkip.left, left, Nat.add_sub_cancel_left,
      List.take_left]
  rw [slice]
  obtain ⟨twins, row, same⟩ := again position (Byte.newline :: after) (.inr ⟨_, rfl, rfl⟩)
  exact ⟨twins, same, row⟩

end ScopedMacros
