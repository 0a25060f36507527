import ScopedMacros.Directive
import ScopedMacros.Token.Lexeme

/-!
# Scanning

Cuts a source into tokens.  A line whose first byte other than a blank is `#`, followed by a
directive word or a number, is a directive; all else is text.
-/

namespace ScopedMacros

/-- What is left of a source, and the position of its first byte. -/
structure Cursor where
  position : Position
  rest : Bytes
  deriving DecidableEq, Repr

namespace Cursor

/-- The cursor after the bytes of a text at its head. -/
def advance (cursor : Cursor) (raw : Bytes) : Cursor :=
  ⟨cursor.position.advance raw, cursor.rest.drop raw.length⟩

/-- The location of a text at the head of what is left. -/
def location (cursor : Cursor) (raw : Bytes) : Location :=
  ⟨cursor.position, cursor.position.advance raw⟩

/-- The cursor at the next byte of a directive line that is not blank. -/
def skip (cursor : Cursor) : Cursor :=
  cursor.advance (Lexeme.continuation cursor.rest)

/-- The next byte of the line, and what follows it. -/
def inLine? (cursor : Cursor) : Option (Byte × Bytes) :=
  match cursor.rest with
  | [] => none
  | first :: rest => if first = Byte.newline then none else some (first, rest)

/-- The token for a lexeme that starts with the given byte. -/
def token (cursor : Cursor) (first : Byte) (lexeme : Lexeme) : Token :=
  ⟨lexeme.kind, Lexeme.tokenText lexeme.kind (first :: lexeme.more),
    cursor.location (first :: lexeme.more)⟩

def error (cursor : Cursor) (first : Byte) (failure : Lexeme.Failure) : Error :=
  ⟨failure.cause, cursor.location (first :: failure.more)⟩

/-- An empty token. -/
def point (cursor : Cursor) (kind : Token.Kind) : Token :=
  ⟨kind, [], cursor.location []⟩

@[simp]
theorem length_advance_le (cursor : Cursor) (raw : Bytes) :
    (cursor.advance raw).rest.length ≤ cursor.rest.length := by
  simp [advance]

@[simp]
theorem length_skip_le (cursor : Cursor) : cursor.skip.rest.length ≤ cursor.rest.length :=
  cursor.length_advance_le _

theorem length_advance_lt {cursor : Cursor} (first : Byte) (more : Bytes)
    (nonempty : cursor.rest ≠ []) :
    (cursor.advance (first :: more)).rest.length < cursor.rest.length := by
  have := List.length_pos_iff.2 nonempty
  simp [advance]
  omega

theorem rest_ne_nil_of_inLine? {cursor : Cursor} {next : Byte × Bytes}
    (found : cursor.inLine? = some next) : cursor.rest ≠ [] := by
  intro empty
  simp [inLine?, empty] at found

/-- Reading on after blanks and one lexeme leaves less to read. -/
theorem length_advance_skip_lt {cursor : Cursor} {next : Byte × Bytes} (more : Bytes)
    (found : cursor.skip.inLine? = some next) :
    (cursor.skip.advance (next.1 :: more)).rest.length < cursor.rest.length :=
  Nat.lt_of_lt_of_le (length_advance_lt next.1 more (rest_ne_nil_of_inLine? found))
    cursor.length_skip_le

end Cursor

namespace Token

/-! ## Directive lines -/

/-- The tokens of the rest of a directive line, and the cursor at its end. -/
def ofLine (cursor : Cursor) : Except Error (List Token × Cursor) :=
  match _found : cursor.skip.inLine? with
  | none => .ok ([], cursor.skip)
  | some next =>
      match Lexeme.inLine next.1 next.2 with
      | .error failure => .error (cursor.skip.error next.1 failure)
      | .ok lexeme =>
          match ofLine (cursor.skip.advance (next.1 :: lexeme.more)) with
          | .error error => .error error
          | .ok (tokens, stop) => .ok (cursor.skip.token next.1 lexeme :: tokens, stop)
termination_by cursor.rest.length
decreasing_by exact Cursor.length_advance_skip_lt _ _found

/-- The tokens of a parameter list from after its opening parenthesis, which stands at `start`, up
to its closing one. -/
def ofParameters (start : Position) (cursor : Cursor) : Except Error (List Token × Cursor) :=
  match _found : cursor.skip.inLine? with
  | none => .error ⟨.unterminatedParameters, start, cursor.skip.position⟩
  | some next =>
      match Lexeme.inLine next.1 next.2 with
      | .error failure => .error (cursor.skip.error next.1 failure)
      | .ok lexeme =>
          let stop := cursor.skip.advance (next.1 :: lexeme.more)
          let token := cursor.skip.token next.1 lexeme
          if lexeme.kind = .rightParen then
            .ok ([token], stop)
          else
            match ofParameters start stop with
            | .error error => .error error
            | .ok (tokens, stop) => .ok (token :: tokens, stop)
termination_by cursor.rest.length
decreasing_by exact Cursor.length_advance_skip_lt _ _found

/-- The tokens of the body of a definition, and the cursor at the end of its line. -/
def ofBody (cursor : Cursor) : Except Error (List Token × Cursor) :=
  match _found : cursor.inLine? with
  | none => .ok ([], cursor)
  | some next =>
      match Lexeme.inBody next.1 next.2 with
      | .error failure => .error (cursor.error next.1 failure)
      | .ok lexeme =>
          match ofBody (cursor.advance (next.1 :: lexeme.more)) with
          | .error error => .error error
          | .ok (tokens, stop) => .ok (cursor.token next.1 lexeme :: tokens, stop)
termination_by cursor.rest.length
decreasing_by exact Cursor.length_advance_lt _ _ (Cursor.rest_ne_nil_of_inLine? _found)

/-- The tokens of a parameter list, if a parenthesis touches the name before it. -/
def afterName (cursor : Cursor) : Except Error (List Token × Cursor) :=
  if cursor.rest.head? = some Byte.leftParen then do
    let (tokens, stop) ← ofParameters cursor.position (cursor.advance [Byte.leftParen])
    .ok (cursor.token Byte.leftParen ⟨.leftParen, []⟩ :: tokens, stop)
  else
    .ok ([], cursor)

/-- The tokens of a definition after its name. -/
def ofDefinition (cursor : Cursor) : Except Error (List Token × Cursor) := do
  let (parameters, start) ← afterName cursor
  let (body, stop) ← ofBody start
  .ok (parameters ++ start.point .body :: body, stop)

/-- The tokens after the word of a definition line. -/
def ofDefine (cursor : Cursor) : Except Error (List Token × Cursor) :=
  match cursor.skip.inLine? with
  | some (first, rest) =>
      if Byte.isNameStart first then do
        let name : Lexeme := ⟨.ident, rest.takeWhile Byte.isNamePart⟩
        let (tokens, stop) ← ofDefinition (cursor.skip.advance (first :: name.more))
        .ok (cursor.skip.token first name :: tokens, stop)
      else
        ofLine cursor
  | none => ofLine cursor

/-- The start of a directive line. -/
structure Head where
  /-- The blanks before the `#`. -/
  blanks : Bytes
  /-- The `#` and what follows it up to the end of the directive word. -/
  raw : Bytes
  directive : Directive
  deriving DecidableEq, Repr

/-- The start of a text as the start of a directive line.  A number in place of a word makes a line
directive. -/
def head? (text : Bytes) : Option Head :=
  let blanks := text.takeWhile Byte.isBlank
  match text.dropWhile Byte.isBlank with
  | [] => none
  | first :: rest =>
      if first = Byte.hash then
        let gap := rest.takeWhile Byte.isBlank
        let tail := rest.dropWhile Byte.isBlank
        if (tail.head?.map Byte.isDigit).getD false then
          some ⟨blanks, first :: gap, .line⟩
        else
          let word := tail.takeWhile Byte.isLetter
          (Directive.ofWord? word).map fun directive => ⟨blanks, first :: gap ++ word, directive⟩
      else
        none

/-- After a line directive the next line has the number, and the file, that the directive gives. -/
def renumber (tokens : List Token) (cursor : Cursor) : Except Error Cursor :=
  match tokens with
  | ⟨.integer number, _, location⟩ :: more =>
      if number < 0 ∨ 0x7fffffff < number then
        .error ⟨.lineOutOfRange, location.start, cursor.position⟩
      else
        let file := match more with
          | ⟨.string file, _, _⟩ :: _ => file
          | _ => cursor.position.file
        .ok { cursor with
          position := { cursor.position with file, line := number.toUInt64.toUInt32 } }
  | _ => .ok cursor

/-- The tokens after a directive word, and the cursor at the end of the line. -/
def afterWord (directive : Directive) (cursor : Cursor) : Except Error (List Token × Cursor) :=
  if directive = .define then ofDefine cursor else ofLine cursor

/-- The cursor at the line after a directive with the given tokens. -/
def nextLine (directive : Directive) (tokens : List Token) (stop : Cursor) : Except Error Cursor :=
  let next := stop.advance (stop.rest.take 1)
  if directive = .line then renumber tokens next else .ok next

/-- The tokens of a directive line with the given start, and the cursor at the next line. -/
def ofDirective (head : Head) (cursor : Cursor) : Except Error (List Token × Cursor) := do
  let start := cursor.advance head.blanks
  let word : Token := ⟨.directive, head.directive.word, start.location head.raw⟩
  let (tokens, stop) ← afterWord head.directive (start.advance head.raw)
  let next ← nextLine head.directive tokens stop
  .ok (word :: tokens ++ [stop.point .lineEnd], next)

/-- The word of a directive line. -/
def Head.word (head : Head) (cursor : Cursor) : Token :=
  ⟨.directive, head.directive.word, (cursor.advance head.blanks).location head.raw⟩

/-- A directive line from its start to the next line: what stands after its word, and where it
ends. -/
structure Line (head : Head) (cursor : Cursor) (inner : List Token) (stop next : Cursor) : Prop where
  read : afterWord head.directive ((cursor.advance head.blanks).advance head.raw) = .ok (inner, stop)
  following : nextLine head.directive inner stop = .ok next

theorem line_of_ofDirective {head : Head} {cursor next : Cursor} {tokens : List Token}
    (read : ofDirective head cursor = .ok (tokens, next)) :
    ∃ inner stop, Line head cursor inner stop next ∧
      tokens = head.word cursor :: inner ++ [stop.point .lineEnd] := by
  obtain ⟨⟨inner, stop⟩, line, read⟩ := bind_eq_ok_iff.1 read
  obtain ⟨after, following, read⟩ := bind_eq_ok_iff.1 read
  cases read
  exact ⟨inner, stop, ⟨line, following⟩, rfl⟩

/-! ## Trails -/

/-- The tokens from a cursor in a directive line to the end of the line, in the body of a definition
or before it. -/
inductive Trail : Bool → Cursor → List Token → Cursor → Prop where
  | stop (inBody : Bool) {cursor : Cursor} (ended : cursor.inLine? = none) :
      Trail inBody cursor [] cursor
  | skip {cursor stop : Cursor} {tokens : List Token} (trail : Trail false cursor.skip tokens stop) :
      Trail false cursor tokens stop
  | inLine {cursor stop : Cursor} {next : Byte × Bytes} {lexeme : Lexeme} {tokens : List Token}
      (found : cursor.inLine? = some next) (lexed : Lexeme.inLine next.1 next.2 = .ok lexeme)
      (trail : Trail false (cursor.advance (next.1 :: lexeme.more)) tokens stop) :
      Trail false cursor (cursor.token next.1 lexeme :: tokens) stop
  | opens {cursor stop : Cursor} {tokens : List Token} (trail : Trail true cursor tokens stop) :
      Trail false cursor (cursor.point .body :: tokens) stop
  | inBody {cursor stop : Cursor} {next : Byte × Bytes} {lexeme : Lexeme} {tokens : List Token}
      (found : cursor.inLine? = some next) (lexed : Lexeme.inBody next.1 next.2 = .ok lexeme)
      (trail : Trail true (cursor.advance (next.1 :: lexeme.more)) tokens stop) :
      Trail true cursor (cursor.token next.1 lexeme :: tokens) stop

section

variable {cursor middle stop : Cursor} {tokens others : List Token}

theorem trail_ofLine (read : ofLine cursor = .ok (tokens, stop)) :
    Trail false cursor tokens stop := by
  fun_induction ofLine cursor generalizing tokens stop with
  | case1 cursor ended =>
      cases read
      exact .skip (.stop false ended)
  | case2 => cases read
  | case3 => cases read
  | case4 cursor next found lexeme lexed tokens' stop' rest ih =>
      cases read
      exact .skip (.inLine found lexed (ih rest))

theorem trail_ofParameters {start : Position}
    (read : ofParameters start cursor = .ok (tokens, middle))
    (trail : Trail false middle others stop) : Trail false cursor (tokens ++ others) stop := by
  fun_induction ofParameters start cursor generalizing tokens middle with
  | case1 => cases read
  | case2 => cases read
  | case3 cursor next found lexeme lexed =>
      cases read
      exact .skip (.inLine found lexed trail)
  | case4 => cases read
  | case5 =>
      rename_i found _ lexed _ _ _ _ _ rest ih
      cases read
      exact .skip (.inLine found lexed (ih rest trail))

theorem trail_ofBody (read : ofBody cursor = .ok (tokens, stop)) : Trail true cursor tokens stop := by
  fun_induction ofBody cursor generalizing tokens stop with
  | case1 cursor ended =>
      cases read
      exact .stop true ended
  | case2 => cases read
  | case3 => cases read
  | case4 cursor next found lexeme lexed tokens' stop' rest ih =>
      cases read
      exact .inBody found lexed (ih rest)

theorem trail_afterName (read : afterName cursor = .ok (tokens, middle))
    (trail : Trail false middle others stop) : Trail false cursor (tokens ++ others) stop := by
  unfold afterName at read
  split at read
  · next opens =>
      obtain ⟨⟨inner, last⟩, list, read⟩ := bind_eq_ok_iff.1 read
      cases read
      obtain ⟨rest, left⟩ := List.head?_eq_some_iff.1 opens
      have found : cursor.inLine? = some (Byte.leftParen, rest) := by
        rw [Cursor.inLine?, left]
        rfl
      exact .inLine found rfl (trail_ofParameters list trail)
  · cases read
    exact trail

theorem trail_afterWord {directive : Directive}
    (read : afterWord directive cursor = .ok (tokens, stop)) : Trail false cursor tokens stop := by
  unfold afterWord at read
  split at read
  · unfold ofDefine at read
    split at read
    · next found =>
        split at read
        · next starts =>
            obtain ⟨⟨inner, last⟩, definition, read⟩ := bind_eq_ok_iff.1 read
            obtain ⟨⟨parameters, start⟩, head, definition⟩ := bind_eq_ok_iff.1 definition
            obtain ⟨⟨body, close⟩, tail, definition⟩ := bind_eq_ok_iff.1 definition
            cases definition
            cases read
            exact .skip (.inLine found (if_pos starts)
              (trail_afterName head (.opens (trail_ofBody tail))))
        · exact trail_ofLine read
    · exact trail_ofLine read
  · exact trail_ofLine read

end

theorem Line.trail {head : Head} {cursor stop next : Cursor} {inner : List Token}
    (line : Line head cursor inner stop next) :
    Trail false ((cursor.advance head.blanks).advance head.raw) inner stop :=
  trail_afterWord line.read

theorem Trail.ended {inBody : Bool} {cursor stop : Cursor} {tokens : List Token}
    (trail : Trail inBody cursor tokens stop) : stop.inLine? = none := by
  induction trail with
  | stop _ ended => exact ended
  | skip _ ih => exact ih
  | inLine _ _ _ ih => exact ih
  | opens _ ih => exact ih
  | inBody _ _ _ ih => exact ih

/-! ## Progress -/

theorem Trail.length_le {inBody : Bool} {cursor stop : Cursor} {tokens : List Token}
    (trail : Trail inBody cursor tokens stop) : stop.rest.length ≤ cursor.rest.length := by
  induction trail with
  | stop => exact Nat.le_refl _
  | @skip cursor _ _ _ ih => exact Nat.le_trans ih cursor.length_skip_le
  | @inLine cursor _ _ _ _ _ _ _ ih => exact Nat.le_trans ih (cursor.length_advance_le _)
  | opens _ ih => exact ih
  | @inBody cursor _ _ _ _ _ _ _ ih => exact Nat.le_trans ih (cursor.length_advance_le _)

theorem rest_renumber {tokens : List Token} {cursor next : Cursor}
    (read : renumber tokens cursor = .ok next) : next.rest = cursor.rest := by
  unfold renumber at read
  split at read
  · split at read
    · cases read
    · cases read
      rfl
  · cases read
    rfl

theorem rest_nextLine {directive : Directive} {tokens : List Token} {stop next : Cursor}
    (read : nextLine directive tokens stop = .ok next) : next.rest = stop.rest.drop 1 := by
  have rest : (stop.advance (stop.rest.take 1)).rest = stop.rest.drop 1 := by
    cases left : stop.rest <;> simp [Cursor.advance, left]
  unfold nextLine at read
  split at read
  · rw [rest_renumber read, rest]
  · cases read
    exact rest

theorem raw_ne_nil_of_head? {text : Bytes} {head : Head} (found : head? text = some head) :
    head.raw ≠ [] ∧ text.drop head.blanks.length ≠ [] := by
  unfold head? at found
  split at found
  · cases found
  · rename_i first rest tail
    have nonempty : text.drop (text.takeWhile Byte.isBlank).length ≠ [] := by
      have whole := List.takeWhile_append_dropWhile (p := Byte.isBlank) (l := text)
      rw [tail] at whole
      intro empty
      have := congrArg List.length whole
      rw [List.drop_eq_nil_iff] at empty
      simp at this
      omega
    split at found
    · dsimp only at found
      split at found
      · cases found
        exact ⟨by simp, nonempty⟩
      · obtain ⟨directive, _, rfl⟩ := Option.map_eq_some_iff.1 found
        exact ⟨by simp, nonempty⟩
    · cases found

theorem length_ofDirective_lt {head : Head} {cursor next : Cursor} {tokens : List Token}
    (found : head? cursor.rest = some head) (read : ofDirective head cursor = .ok (tokens, next)) :
    next.rest.length < cursor.rest.length := by
  obtain ⟨inner, stop, line, rfl⟩ := line_of_ofDirective read
  obtain ⟨raw, left⟩ := raw_ne_nil_of_head? found
  obtain ⟨first, more, rawEq⟩ := List.exists_cons_of_ne_nil raw
  have lineLe := line.trail.length_le
  rw [rawEq] at lineLe
  have wordLt : ((cursor.advance head.blanks).advance (first :: more)).rest.length <
      (cursor.advance head.blanks).rest.length := Cursor.length_advance_lt first more left
  have blanksLe := cursor.length_advance_le head.blanks
  rw [rest_nextLine line.following, List.length_drop]
  omega

/-! ## Sources -/

/-- Whether the line of a source has held nothing but blanks after one more lexeme. -/
def freshAfter (fresh : Bool) (first : Byte) (lexeme : Lexeme) : Bool :=
  lexeme.kind == .space && (fresh || (first :: lexeme.more).getLast? == some Byte.newline)

/-- The tokens of what is left of a source.  The line has held nothing but blanks so far if
`fresh`. -/
def ofSource (fresh : Bool) (cursor : Cursor) : Except Error (List Token) :=
  match _head : if fresh then head? cursor.rest else none with
  | some head =>
      match _line : ofDirective head cursor with
      | .error error => .error error
      | .ok (tokens, next) =>
          match ofSource true next with
          | .error error => .error error
          | .ok rest => .ok (tokens ++ rest)
  | none =>
      match _rest : cursor.rest with
      | [] => .ok [cursor.point .fileEnd]
      | first :: rest =>
          match Lexeme.inSource first rest with
          | .error failure => .error (cursor.error first failure)
          | .ok lexeme =>
              match ofSource (freshAfter fresh first lexeme)
                  (cursor.advance (first :: lexeme.more)) with
              | .error error => .error error
              | .ok tokens => .ok (cursor.token first lexeme :: tokens)
termination_by cursor.rest.length
decreasing_by
  · have found : head? cursor.rest = some head := by
      cases fresh
      · cases _head
      · exact _head
    exact length_ofDirective_lt found _line
  · exact Cursor.length_advance_lt _ _ (by simp [_rest])

/-- The tokens of a source with the given name, up to the end of the file. -/
def scan (file text : Bytes) : Except Error (List Token) :=
  ofSource true ⟨.first file, text⟩

end Token

end ScopedMacros
