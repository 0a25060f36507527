import ScopedMacros.Proofs.Rereading
import ScopedMacros.Proofs.Sight
import ScopedMacros.Proofs.WholeLines

/-!
# Scanning whole lines at another place

The tokens of whole lines are the same up to places wherever the lines stand, and whatever lines
follow them.
-/

namespace ScopedMacros

/-- The token at no place. -/
def Token.unplaced (token : Token) : Token :=
  { token with location := .nowhere }

namespace Cursor

/-- The second cursor stands at any place before the same text, and more lines after it. -/
structure Extends (more : Bytes) (cursor other : Cursor) : Prop where
  rest : other.rest = cursor.rest ++ more
  apart : Bytes.Apart cursor.rest more

variable {more : Bytes} {cursor other : Cursor}

theorem Extends.advance {raw : Bytes} (extended : Extends more cursor other)
    (inText : raw <+: cursor.rest) (unfinished : ¬ Bytes.EndsLine raw) :
    Extends more (cursor.advance raw) (other.advance raw) := by
  obtain ⟨position, rest⟩ := cursor
  obtain ⟨place, others⟩ := other
  obtain ⟨rfl, apart⟩ := extended
  obtain ⟨left, rfl⟩ := inText
  refine ⟨?_, ?_⟩
  · simp [Cursor.advance]
  · rw [Cursor.advance, List.drop_left]
    exact apart.of_append raw unfinished

theorem Extends.skip (extended : Extends more cursor other) :
    Extends more cursor.skip other.skip := by
  have same : Lexeme.continuation other.rest = Lexeme.continuation cursor.rest := by
    rw [extended.rest, Lexeme.continuation_append extended.apart]
  rw [Cursor.skip, Cursor.skip, same]
  exact extended.advance (Lexeme.prefix_continuation _) (Lexeme.not_endsLine_continuation _)

/-- The line ends for both cursors, or goes on with the same byte. -/
theorem Extends.inLine? (extended : Extends more cursor other) :
    other.inLine? = cursor.inLine?.map fun next => (next.1, next.2 ++ more) := by
  obtain ⟨rest, apart⟩ := extended
  unfold Cursor.inLine?
  rw [rest]
  cases left : cursor.rest with
  | nil =>
      rw [left] at apart
      rcases apart with rfl | ends
      · rfl
      · cases ends.newline_mem
  | cons first others =>
      simp only [List.cons_append]
      split <;> rfl

theorem rest_of_inLine? {next : Byte × Bytes} (found : cursor.inLine? = some next) :
    cursor.rest = next.1 :: next.2 ∧ next.1 ≠ Byte.newline := by
  unfold Cursor.inLine? at found
  split at found
  · cases found
  · split at found
    · cases found
    · next left other =>
        cases found
        exact ⟨left, other⟩

end Cursor

namespace Token

open Cursor

variable {more : Bytes} {cursor other : Cursor}

/-- The same tokens up to places, up to cursors of which the second stands before more lines. -/
structure ScansAlike (more : Bytes) (scan twin : List Token × Cursor) : Prop where
  tokens : scan.1.map Token.unplaced = twin.1.map Token.unplaced
  cursor : scan.2.Extends more twin.2

/-! ## Directive lines -/

/-- After a lexeme of a line that does not end the line, both cursors stand after it. -/
theorem extends_lexeme {next : Byte × Bytes} {raw : Bytes} (extended : Extends more cursor other)
    (found : cursor.inLine? = some next) (inText : raw <+: next.2)
    (unfinished : ¬ Bytes.EndsLine (next.1 :: raw)) :
    Extends more (cursor.advance (next.1 :: raw)) (other.advance (next.1 :: raw)) := by
  refine extended.advance ?_ unfinished
  rw [(rest_of_inLine? found).1]
  exact List.cons_prefix_cons.2 ⟨rfl, inText⟩

theorem apart_of_inLine? {next : Byte × Bytes} (extended : Extends more cursor other)
    (found : cursor.inLine? = some next) :
    Bytes.Apart (next.1 :: next.2) more ∧ next.1 ≠ Byte.newline ∧
      other.inLine? = some (next.1, next.2 ++ more) := by
  obtain ⟨left, notNewline⟩ := rest_of_inLine? found
  refine ⟨left ▸ extended.apart, notNewline, ?_⟩
  rw [extended.inLine?, found]
  rfl

theorem ofLine_of_ended (ended : cursor.skip.inLine? = none) :
    ofLine cursor = .ok ([], cursor.skip) := by
  rw [ofLine.eq_def]
  split
  · rfl
  · next found =>
      rw [ended] at found
      cases found

theorem ofLine_follows (extended : Extends more cursor other) :
    FollowsWith (ScansAlike more) (ofLine cursor) (ofLine other) := by
  fun_induction ofLine cursor generalizing other with
  | case1 cursor ended =>
      have endedOther : other.skip.inLine? = none := by
        rw [extended.skip.inLine?, ended]
        rfl
      rw [ofLine_of_ended endedOther]
      exact .ok ⟨rfl, extended.skip⟩
  | case2 => exact .error _ _
  | case3 => exact .error _ _
  | case4 cursor next found lexeme lexed tokens stop rest ih =>
      obtain ⟨apart, notNewline, foundOther⟩ := apart_of_inLine? extended.skip found
      have further := extends_lexeme extended.skip found (Lexeme.prefix_inLine lexed)
        (Lexeme.not_endsLine_inLine notNewline lexed)
      obtain ⟨⟨others, halt⟩, restOther, same⟩ := ih further _ rest
      rw [ofLine_of_lexeme rfl foundOther (Lexeme.inLine_of_apart apart notNewline lexed), restOther]
      exact .ok ⟨congrArg (_ :: ·) same.tokens, same.cursor⟩

theorem ofParameters_of_lexeme {start : Position} {next : Byte × Bytes} {lexeme : Lexeme}
    (found : cursor.skip.inLine? = some next) (lexed : Lexeme.inLine next.1 next.2 = .ok lexeme) :
    ofParameters start cursor =
      if lexeme.kind = .rightParen then
        .ok ([cursor.skip.token next.1 lexeme], cursor.skip.advance (next.1 :: lexeme.more))
      else
        (ofParameters start (cursor.skip.advance (next.1 :: lexeme.more))).map
          fun (tokens, stop) => (cursor.skip.token next.1 lexeme :: tokens, stop) := by
  rw [ofParameters.eq_def]
  split
  · next ended =>
      rw [found] at ended
      cases ended
  · next same =>
      cases found.symm.trans same
      rw [lexed]
      dsimp only
      split
      · rfl
      · cases ofParameters start (cursor.skip.advance (next.1 :: lexeme.more)) <;> rfl

theorem ofParameters_follows (start place : Position) (extended : Extends more cursor other) :
    FollowsWith (ScansAlike more) (ofParameters start cursor) (ofParameters place other) := by
  fun_induction ofParameters start cursor generalizing other with
  | case1 => exact .error _ _
  | case2 => exact .error _ _
  | case3 cursor next found lexeme lexed =>
      rename_i closes
      obtain ⟨apart, notNewline, foundOther⟩ := apart_of_inLine? extended.skip found
      have further := extends_lexeme extended.skip found (Lexeme.prefix_inLine lexed)
        (Lexeme.not_endsLine_inLine notNewline lexed)
      rw [ofParameters_of_lexeme foundOther (Lexeme.inLine_of_apart apart notNewline lexed),
        if_pos closes]
      exact .ok ⟨rfl, further⟩
  | case4 => exact .error _ _
  | case5 cursor next found lexeme lexed =>
      rename_i goesOn tokens last rest ih
      obtain ⟨apart, notNewline, foundOther⟩ := apart_of_inLine? extended.skip found
      have further := extends_lexeme extended.skip found (Lexeme.prefix_inLine lexed)
        (Lexeme.not_endsLine_inLine notNewline lexed)
      obtain ⟨⟨others, halt⟩, restOther, same⟩ := ih further _ rest
      rw [ofParameters_of_lexeme foundOther (Lexeme.inLine_of_apart apart notNewline lexed),
        if_neg goesOn, restOther]
      exact .ok ⟨congrArg (_ :: ·) same.tokens, same.cursor⟩

theorem ofBody_of_ended (ended : cursor.inLine? = none) : ofBody cursor = .ok ([], cursor) := by
  rw [ofBody.eq_def]
  split
  · rfl
  · next found =>
      rw [ended] at found
      cases found

theorem ofBody_of_lexeme {next : Byte × Bytes} {lexeme : Lexeme} (found : cursor.inLine? = some next)
    (lexed : Lexeme.inBody next.1 next.2 = .ok lexeme) :
    ofBody cursor = (ofBody (cursor.advance (next.1 :: lexeme.more))).map
      fun (tokens, stop) => (cursor.token next.1 lexeme :: tokens, stop) := by
  rw [ofBody.eq_def]
  split
  · next ended =>
      rw [found] at ended
      cases ended
  · next same =>
      cases found.symm.trans same
      rw [lexed]
      dsimp only
      cases ofBody (cursor.advance (next.1 :: lexeme.more)) <;> rfl

theorem ofBody_follows (extended : Extends more cursor other) :
    FollowsWith (ScansAlike more) (ofBody cursor) (ofBody other) := by
  fun_induction ofBody cursor generalizing other with
  | case1 cursor ended =>
      have endedOther : other.inLine? = none := by
        rw [extended.inLine?, ended]
        rfl
      rw [ofBody_of_ended endedOther]
      exact .ok ⟨rfl, extended⟩
  | case2 => exact .error _ _
  | case3 => exact .error _ _
  | case4 cursor next found lexeme lexed tokens stop rest ih =>
      obtain ⟨apart, notNewline, foundOther⟩ := apart_of_inLine? extended found
      have further := extends_lexeme extended found (Lexeme.prefix_inBody lexed)
        (Lexeme.not_endsLine_inBody notNewline lexed)
      obtain ⟨⟨others, halt⟩, restOther, same⟩ := ih further _ rest
      rw [ofBody_of_lexeme foundOther (Lexeme.inBody_of_apart apart notNewline lexed), restOther]
      exact .ok ⟨congrArg (_ :: ·) same.tokens, same.cursor⟩

theorem afterName_follows (extended : Extends more cursor other) :
    FollowsWith (ScansAlike more) (afterName cursor) (afterName other) := by
  unfold afterName
  rw [extended.rest, extended.apart.head?_append]
  split
  · next opens =>
      obtain ⟨rest, left⟩ := List.head?_eq_some_iff.1 opens
      have further : Extends more (cursor.advance [Byte.leftParen])
          (other.advance [Byte.leftParen]) :=
        extended.advance ⟨rest, left.symm⟩
          (Bytes.not_endsLine_of_getLast? Byte.leftParen rfl (by decide))
      refine (ofParameters_follows _ _ further).bind fun scan twin same => ?_
      exact .ok ⟨congrArg (_ :: ·) same.tokens, same.cursor⟩
  · exact .ok ⟨rfl, extended⟩

theorem ofDefinition_follows (extended : Extends more cursor other) :
    FollowsWith (ScansAlike more) (ofDefinition cursor) (ofDefinition other) := by
  unfold ofDefinition
  refine (afterName_follows extended).bind fun parameters twin same => ?_
  refine (ofBody_follows same.cursor).bind fun body twinBody sameBody => ?_
  refine .ok ⟨?_, sameBody.cursor⟩
  simp only [List.map_append, List.map_cons, same.tokens, sameBody.tokens]
  rfl

theorem ofDefine_follows (extended : Extends more cursor other) :
    FollowsWith (ScansAlike more) (ofDefine cursor) (ofDefine other) := by
  have line := ofLine_follows extended
  unfold ofDefine
  rw [extended.skip.inLine?]
  cases found : cursor.skip.inLine? with
  | none => exact line
  | some next =>
      obtain ⟨first, rest⟩ := next
      obtain ⟨apart, notNewline, _⟩ := apart_of_inLine? extended.skip found
      dsimp only [Option.map_some]
      split
      · have unfinished : ¬ Bytes.EndsLine (first :: rest.takeWhile Byte.isNamePart) :=
          Lexeme.not_endsLine_takeWhile notNewline rfl rest
        have tail : Bytes.Apart rest more :=
          apart.of_append [first] (Bytes.not_endsLine_of_getLast? first rfl notNewline)
        rw [tail.takeWhile_append Byte.isNamePart rfl]
        have further := extends_lexeme extended.skip found (List.takeWhile_prefix _) unfinished
        refine (ofDefinition_follows further).bind fun definition twin same => ?_
        exact .ok ⟨congrArg (_ :: ·) same.tokens, same.cursor⟩
      · exact line

theorem afterWord_follows (directive : Directive) (extended : Extends more cursor other) :
    FollowsWith (ScansAlike more) (afterWord directive cursor) (afterWord directive other) := by
  unfold afterWord
  split
  · exact ofDefine_follows extended
  · exact ofLine_follows extended

/-! ## Lines -/

/-- The second cursor stands at any place before the same lines, and more lines after them. -/
structure Continues (more : Bytes) (cursor other : Cursor) : Prop where
  rest : other.rest = cursor.rest ++ more
  whole : more = [] ∨ Bytes.WholeLines cursor.rest

theorem Continues.toExtends (continues : Continues more cursor other) (nonempty : cursor.rest ≠ []) :
    Extends more cursor other := by
  obtain ⟨rest, nothing | empty | ends⟩ := continues
  · exact ⟨rest, .inl nothing⟩
  · exact absurd empty nonempty
  · exact ⟨rest, .inr ends⟩

theorem Continues.advance {raw : Bytes} (continues : Continues more cursor other)
    (inText : raw <+: cursor.rest) :
    Continues more (cursor.advance raw) (other.advance raw) := by
  refine ⟨?_, continues.whole.imp_right fun whole => whole.of_suffix (List.drop_suffix _ _)⟩
  rw [Cursor.advance, Cursor.advance, continues.rest, List.drop_append_of_le_length inText.length_le]

theorem renumber_follows {tokens others : List Token}
    (same : tokens.map Token.unplaced = others.map Token.unplaced)
    (continues : Continues more cursor other) :
    FollowsWith (Continues more) (renumber tokens cursor) (renumber others other) := by
  cases tokens with
  | nil =>
      cases others with
      | nil => exact .ok continues
      | cons => cases same
  | cons token tokens =>
      cases others with
      | nil => cases same
      | cons twin others =>
          obtain ⟨kind, text, location⟩ := token
          obtain ⟨otherKind, otherText, place⟩ := twin
          obtain ⟨head, _⟩ := List.cons_eq_cons.1 same
          obtain rfl : kind = otherKind := congrArg Token.kind head
          cases kind with
          | integer number =>
              simp only [renumber]
              split
              · exact .error _ _
              · exact .ok ⟨continues.rest, continues.whole⟩
          | _ => exact .ok continues

theorem nextLine_follows (directive : Directive) {tokens others : List Token}
    (same : tokens.map Token.unplaced = others.map Token.unplaced)
    (extended : Extends more cursor other) :
    FollowsWith (Continues more) (nextLine directive tokens cursor)
      (nextLine directive others other) := by
  have head : other.rest.take 1 = cursor.rest.take 1 := by
    rw [List.take_one, List.take_one, extended.rest, extended.apart.head?_append]
  have continues : Continues more cursor other := ⟨extended.rest, extended.apart.imp id .inr⟩
  have next := continues.advance (List.take_prefix 1 cursor.rest)
  unfold nextLine
  rw [head]
  dsimp only
  split
  · exact renumber_follows same next
  · exact .ok next

theorem ofDirective_follows {head : Head} (found : head? cursor.rest = some head)
    (extended : Extends more cursor other) :
    FollowsWith (fun scan twin => scan.1.map Token.unplaced = twin.1.map Token.unplaced ∧
        Continues more scan.2 twin.2)
      (ofDirective head cursor) (ofDirective head other) := by
  have start : Extends more ((cursor.advance head.blanks).advance head.raw)
      ((other.advance head.blanks).advance head.raw) := by
    rw [← Cursor.advance_append, ← Cursor.advance_append]
    exact extended.advance (prefix_head? found)
      (Bytes.not_endsLine_of_newline_not_mem (newline_not_mem_head? found))
  unfold ofDirective
  dsimp only
  refine (afterWord_follows head.directive start).bind fun scan twin same => ?_
  refine (nextLine_follows head.directive same.tokens same.cursor).bind
    fun next twinNext continues => ?_
  refine .ok ⟨?_, continues⟩
  simp only [List.map_append, List.map_cons, same.tokens]
  rfl

/-! ## Sources -/

/-- The last lexeme of whole lines ends a line. -/
theorem endsLine_of_ended {first : Byte} {rest : Bytes} {lexeme : Lexeme}
    (whole : Bytes.WholeLines cursor.rest) (left : cursor.rest = first :: rest)
    (lexed : Lexeme.inSource first rest = .ok lexeme)
    (ended : (cursor.advance (first :: lexeme.more)).rest = []) :
    Bytes.EndsLine (first :: lexeme.more) := by
  have inText : first :: lexeme.more <+: cursor.rest := by
    rw [left, List.cons_prefix_cons]
    exact ⟨rfl, Lexeme.prefix_inSource lexed⟩
  have all : first :: lexeme.more = cursor.rest :=
    List.IsPrefix.eq_of_length_le inText (List.drop_eq_nil_iff.1 ended)
  rcases whole with empty | ends
  · rw [empty] at left
    cases left
  · rw [all]
    exact ends

theorem freshAfter_of_endsLine {fresh : Bool} {first : Byte} {rest : Bytes} {lexeme : Lexeme}
    (lexed : Lexeme.inSource first rest = .ok lexeme)
    (ends : Bytes.EndsLine (first :: lexeme.more)) : freshAfter fresh first lexeme = true := by
  have space := Lexeme.kind_of_endsLine lexed ends
  obtain ⟨front, whole, _⟩ := ends
  have last : (first :: lexeme.more).getLast? = some Byte.newline := by
    rw [whole, List.getLast?_concat]
  simp [freshAfter, space, last]

/-- A scan that starts with the tokens of another one up to places, all but the end of the file, and
goes on with more lines. -/
def ScansOn (more : Bytes) (tokens : List Token) (scan : Except Error (List Token)) : Prop :=
  ∃ front last others place, tokens = front ++ [last] ∧
    front.map Token.unplaced = others.map Token.unplaced ∧
    scan = (ofSource true ⟨place, more⟩).map (others ++ ·)

theorem ScansOn.append {tokens first second : List Token} {scan : Except Error (List Token)}
    (on : ScansOn more tokens scan) (same : first.map Token.unplaced = second.map Token.unplaced) :
    ScansOn more (first ++ tokens) (scan.map (second ++ ·)) := by
  obtain ⟨front, last, others, place, rfl, alike, rfl⟩ := on
  refine ⟨first ++ front, last, second ++ others, place, by simp, ?_, ?_⟩
  · rw [List.map_append, List.map_append, same, alike]
  · cases ofSource true ⟨place, more⟩ <;> simp [Except.map]

/-- Scanning lines, and more lines after them, wherever they stand. -/
theorem scansOn_ofSource {fresh : Bool} {tokens : List Token}
    (continues : Continues more cursor other)
    (starts : cursor.rest = [] → fresh = true ∨ more = [])
    (scanned : ofSource fresh cursor = .ok tokens) :
    ScansOn more tokens (ofSource fresh other) := by
  fun_induction ofSource fresh cursor generalizing tokens other with
  | case1 => cases scanned
  | case2 => cases scanned
  | case3 fresh cursor head found lineTokens next line rest source ih =>
      cases scanned
      cases fresh with
      | false => cases found
      | true =>
          have found : head? cursor.rest = some head := found
          have nonempty : cursor.rest ≠ [] := by
            intro empty
            rw [empty] at found
            cases found
          have extended := continues.toExtends nonempty
          obtain ⟨⟨twins, twinNext⟩, twinLine, same, onward⟩ :=
            ofDirective_follows found extended _ line
          have foundAgain : head? other.rest = some head := by
            rw [extended.rest, head?_append extended.apart, found]
          rw [ofSource_of_head foundAgain, twinLine]
          exact (ih onward (fun _ => .inl rfl) source).append same
  | case4 fresh cursor none ended =>
      cases scanned
      obtain ⟨place, others⟩ := other
      obtain rfl : others = more := continues.rest.trans (by rw [ended, List.nil_append])
      refine ⟨[], _, [], place, rfl, rfl, ?_⟩
      rcases starts ended with rfl | rfl
      · cases ofSource true ⟨place, others⟩ <;> rfl
      · rw [ofSource_of_rest_nil rfl, ofSource_of_rest_nil rfl]
        rfl
  | case5 => cases scanned
  | case6 => cases scanned
  | case7 fresh cursor none first rest left lexeme lexed tokens source ih =>
      cases scanned
      have extended := continues.toExtends (by rw [left]; exact List.cons_ne_nil _ _)
      have leftAgain : other.rest = first :: (rest ++ more) := by
        rw [extended.rest, left, List.cons_append]
      have apart : Bytes.Apart (first :: rest) more := left ▸ extended.apart
      have inText : first :: lexeme.more <+: cursor.rest := by
        rw [left, List.cons_prefix_cons]
        exact ⟨rfl, Lexeme.prefix_inSource lexed⟩
      have startsNext : (cursor.advance (first :: lexeme.more)).rest = [] →
          freshAfter fresh first lexeme = true ∨ more = [] := fun ended =>
        continues.whole.symm.imp_left fun whole =>
          freshAfter_of_endsLine lexed (endsLine_of_ended whole left lexed ended)
      have noHead : fresh = true → head? other.rest = Option.none := by
        intro isFresh
        rw [extended.rest, head?_append extended.apart]
        simpa [isFresh] using none
      rw [ofSource_of_lexeme noHead leftAgain (Lexeme.inSource_of_apart apart lexed)]
      have same : [cursor.token first lexeme].map unplaced =
          [other.token first lexeme].map unplaced := rfl
      exact (ih (continues.advance inText) startsNext source).append same

end Token

end ScopedMacros
