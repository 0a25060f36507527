import ScopedMacros.Proofs.Recognition
import ScopedMacros.Proofs.Row
import ScopedMacros.Proofs.WalkedText

/-!
# Walks without a fault

A walk is compared with what scanning says of the bytes that are left.  Each loop of a walk ends, each
of its steps is over a byte that is there, and each turn of scanning goes over at least one byte.
-/

namespace ScopedMacros

theorem Bytes.drop_takeWhile (test : Byte → Bool) (text : Bytes) :
    text.drop (text.takeWhile test).length = text.dropWhile test := by
  induction text with
  | nil => rfl
  | cons byte text ih => cases passes : test byte <;> simp [passes, ih]

namespace Token

/-- The tokens that come next in a source with the given first byte, whether only blanks stand before
what follows them in its line, and the cursor there. -/
def nextTokens (fresh : Bool) (cursor : Cursor) (first : Byte) (text : Bytes) :
    Except Error (List Token × Bool × Cursor) :=
  match if fresh then head? cursor.rest else none with
  | some head => (ofDirective head cursor).map fun (tokens, next) => (tokens, true, next)
  | none =>
      match Lexeme.inSource first text with
      | .error failure => .error (cursor.error first failure)
      | .ok lexeme =>
          .ok ([cursor.token first lexeme], freshAfter fresh first lexeme,
            cursor.advance (first :: lexeme.more))

theorem ofSource_of_nextTokens {fresh : Bool} {cursor : Cursor} {first : Byte} {text : Bytes}
    (left : cursor.rest = first :: text) :
    ofSource fresh cursor = (do
      let (tokens, fresh, next) ← nextTokens fresh cursor first text
      let others ← ofSource fresh next
      .ok (tokens ++ others)) := by
  rw [ofSource.eq_def, nextTokens]
  split
  · next head found =>
      rw [found]
      simp only [bind, Except.bind]
      cases read : ofDirective head cursor with
      | error error => rfl
      | ok result =>
          simp only [Except.map]
          cases ofSource true result.2 <;> rfl
  · next none =>
      rw [none]
      split
      · next empty =>
          rw [left] at empty
          cases empty
      · next byte rest same =>
          cases left.symm.trans same
          simp only [bind, Except.bind]
          cases Lexeme.inSource first text with
          | error failure => rfl
          | ok lexeme =>
              simp only []
              cases ofSource (freshAfter fresh first lexeme) (cursor.advance (first :: lexeme.more)) <;>
                rfl

theorem form_of_nextTokens {fresh : Bool} {cursor : Cursor} {first : Byte} {text : Bytes}
    {error : Error} (failed : nextTokens fresh cursor first text = .error error) :
    error.kind = .form := by
  unfold nextTokens at failed
  split at failed
  · next head found =>
      have well := scansWell_ofDirective head cursor
      cases read : ofDirective head cursor with
      | error first =>
          rw [read] at failed well
          cases failed
          exact well
      | ok result =>
          rw [read] at failed
          cases failed
  · split at failed
    · next failure lexed =>
        cases failed
        exact Lexeme.kind_of_inSource_error lexed
    · cases failed

end Token

namespace Walker

variable {walker : Walker} {byte first : Byte} {raw more text : Bytes}

/-! ## Directive lines -/

theorem sees_eq (noZero : (0 : Byte) ∉ text) : walker.sees text = text.isPrefixOf walker.rest := by
  have general : ∀ distance,
      ((text.zipIdx distance).all fun spot => walker.peek spot.2 == spot.1) =
        text.isPrefixOf (walker.rest.drop distance) := by
    induction text with
    | nil => exact fun _ => rfl
    | cons byte text ih =>
        intro distance
        rw [List.mem_cons, not_or] at noZero
        rw [List.zipIdx_cons, List.all_cons, ih noZero.2]
        have here := peek_eq_iff walker distance (Ne.symm noZero.1)
        rw [Bool.eq_iff_iff]
        cases left : walker.rest.drop distance with
        | nil =>
            rw [left] at here
            simp [here]
        | cons found more =>
            have later : walker.rest.drop (distance + 1) = more := by
              rw [← List.drop_drop, left]
              rfl
            rw [left, List.head?_cons, Option.some.injEq] at here
            rw [later, List.isPrefixOf_cons_cons, Bool.and_eq_true, Bool.and_eq_true, here, beq_iff_eq,
              eq_comm]
  exact general 0

theorem find?_sees (walker : Walker) :
    Token.Op.all.find? (walker.sees ·.spelling) = Token.Op.atHead? walker.rest := by
  have noZero : ∀ op : Token.Op, (0 : Byte) ∉ op.spelling := by
    intro op
    cases op <;> decide
  simp only [Token.Op.atHead?, sees_eq (noZero _)]

theorem word_eq (left : walker.rest = first :: text) :
    walker.word = walker.outcome first (Lexeme.inLine first text) := by
  simp only [word, peek_zero_of_rest left, Lexeme.inLine, find?_sees, left]
  split
  · exact run_eq (by decide) left
  split
  · rename_i quote
    subst quote
    exact string_eq false left
  split
  · rename_i digit
    rw [number_eq digit left]
    have same : Lexeme.tokenText .text (first :: text.takeWhile Byte.isNumberPart) =
      first :: text.takeWhile Byte.isNumberPart := rfl
    simp only [outcome, bind, Except.bind, Cursor.token, same]
    cases Numeral.read? (first :: text.takeWhile Byte.isNumberPart) with
    | none =>
        simp only []
        rw [refusal_past]
    | some value => rfl
  rcases found : Token.Op.atHead? (first :: text) with _ | op
  · simp only []
    split
    · exact marks_one (by decide) left
    split
    · exact marks_one (by decide) left
    split
    · exact marks_one (by decide) left
    · rw [step_of_rest left]
      simp only [bind, Except.bind]
      rw [refusal_past]
      rfl
  · have inRest := List.isPrefixOf_iff_prefix.1 (Token.Op.isPrefixOf_of_atHead? found)
    obtain ⟨byte, more, spelled⟩ := List.exists_cons_of_ne_nil op.spelling_ne_nil
    simp only [spelled, List.length_cons, List.tail_cons]
    rw [spelled, List.cons_prefix_cons] at inRest
    refine marks_eq (by simp) ?_
    rw [left]
    exact List.cons_prefix_cons.2 ⟨rfl, inRest.2⟩

/-- A walk does what scanning says of its cursor: it is refused for the same error, or it has the same
result and has gone over the bytes up to the same place. -/
inductive Agrees {α : Type} (walker : Walker) :
    Except Error (α × Cursor) → Except Fault (α × Walker) → Prop where
  | refused (error : Error) : Agrees walker (.error error) (.error (.refused error))
  | done {raw : Bytes} (value : α) (inRest : raw <+: walker.rest) :
      Agrees walker (.ok (value, walker.cursor.advance raw)) (.ok (value, walker.past raw))

namespace Agrees

variable {α β : Type} {scanned : Except Error (α × Cursor)} {walked : Except Fault (α × Walker)}

/-- A walk that goes over nothing. -/
theorem stay (value : α) : Agrees walker (.ok (value, walker.cursor)) (.ok (value, walker)) :=
  .done value List.nil_prefix

/-- The walk may go on from a later place. -/
theorem after (inRest : raw <+: walker.rest) (agrees : Agrees (walker.past raw) scanned walked) :
    Agrees walker scanned walked := by
  cases agrees with
  | refused error => exact .refused error
  | @done more value later =>
      rw [cursor_past, ← past_append, ← Cursor.advance_append]
      exact .done value (prefix_append_of_past inRest later)

theorem bind {scan : α × Cursor → Except Error (β × Cursor)}
    {walk : α × Walker → Except Fault (β × Walker)} (agrees : Agrees walker scanned walked)
    (next : ∀ value raw, raw <+: walker.rest →
      Agrees (walker.past raw) (scan (value, (walker.past raw).cursor))
        (walk (value, walker.past raw))) :
    Agrees walker (scanned >>= scan) (walked >>= walk) := by
  cases agrees with
  | refused error => exact .refused error
  | @done raw value inRest =>
      have later := next value raw inRest
      rw [cursor_past] at later
      exact later.after inRest

end Agrees

theorem inLine_of_none (ended : walker.cursor.inLine? = none) : walker.inLine = false := by
  obtain ⟨newline, rest, left, _, ends⟩ := Cursor.ended_of_inLine? ended
  have left : walker.rest = newline ++ rest := left
  rw [inLine, atEnd_eq, peek_eq, left]
  rcases ends with rfl | ⟨rfl, rfl⟩ <;> rfl

theorem inLine_of_some {next : Byte × Bytes} (found : walker.cursor.inLine? = some next) :
    walker.inLine = true ∧ walker.rest = next.1 :: next.2 ∧ next.1 ≠ Byte.newline := by
  obtain ⟨left, notNewline⟩ := Cursor.rest_of_inLine? found
  have left : walker.rest = next.1 :: next.2 := left
  rw [inLine, atEnd_of_rest left, peek_zero_of_rest left]
  exact ⟨by simpa using notNewline, left, notNewline⟩

/-- After a lexeme there is less to read. -/
theorem length_rest_past_lt (more : Bytes) {turns : Nat} (left : walker.rest = first :: text)
    (enough : walker.rest.length < turns + 1) :
    (walker.past (first :: more)).rest.length < turns := by
  rw [left, List.length_cons] at enough
  rw [rest_past, left, List.length_drop, List.length_cons, List.length_cons]
  omega

theorem length_rest_past_le (raw : Bytes) {turns : Nat} (enough : walker.rest.length < turns) :
    (walker.past raw).rest.length < turns := by
  rw [rest_past, List.length_drop]
  omega

theorem words_agrees {turns : Nat} (enough : walker.rest.length < turns) :
    Agrees walker (Token.ofLine walker.cursor) (words turns walker) := by
  induction turns generalizing walker with
  | zero => cases enough
  | succ turns ih =>
      have inRest := Lexeme.prefix_continuation walker.rest
      have fewer := length_rest_past_le (Lexeme.continuation walker.rest) enough
      rw [Token.ofLine.eq_def, words, skip_eq, ← cursor_skip]
      generalize Lexeme.continuation walker.rest = blanks at inRest fewer ⊢
      apply Agrees.after inRest
      generalize walker.past blanks = start at fewer ⊢
      simp only [bind, Except.bind]
      split
      · next ended =>
          rw [inLine_of_none ended]
          exact .stay []
      · next next found =>
          obtain ⟨inLine, left, _⟩ := inLine_of_some found
          rw [inLine, if_pos rfl, word_eq left]
          cases lexed : Lexeme.inLine next.1 next.2 with
          | error failure => exact .refused _
          | ok lexeme =>
              have inStart := cons_prefix_of_eq left (Lexeme.prefix_inLine lexed)
              have agrees := ih (length_rest_past_lt lexeme.more left fewer)
              rw [cursor_past] at agrees
              simp only [outcome]
              apply Agrees.after inStart
              exact agrees.casesOn .refused fun _ later => .done _ later

theorem parameters_agrees (opening : Walker) {turns : Nat} (enough : walker.rest.length < turns) :
    Agrees walker (Token.ofParameters opening.here walker.cursor)
      (parameters opening turns walker) := by
  induction turns generalizing walker with
  | zero => cases enough
  | succ turns ih =>
      have inRest := Lexeme.prefix_continuation walker.rest
      have fewer := length_rest_past_le (Lexeme.continuation walker.rest) enough
      rw [Token.ofParameters.eq_def, parameters, skip_eq, ← cursor_skip]
      generalize Lexeme.continuation walker.rest = blanks at inRest fewer ⊢
      apply Agrees.after inRest
      generalize walker.past blanks = start at fewer ⊢
      simp only [bind, Except.bind]
      split
      · next ended =>
          rw [inLine_of_none ended]
          exact .refused _
      · next next found =>
          obtain ⟨inLine, left, _⟩ := inLine_of_some found
          rw [inLine, if_pos rfl, word_eq left]
          cases lexed : Lexeme.inLine next.1 next.2 with
          | error failure => exact .refused _
          | ok lexeme =>
              have inStart := cons_prefix_of_eq left (Lexeme.prefix_inLine lexed)
              have agrees := ih (length_rest_past_lt lexeme.more left fewer)
              rw [cursor_past] at agrees
              simp only [outcome]
              by_cases closes : lexeme.kind = .rightParen
              · rw [if_pos closes, if_pos (show (start.cursor.token next.1 lexeme).kind = _ from closes)]
                exact .done _ inStart
              · rw [if_neg closes, if_neg (show (start.cursor.token next.1 lexeme).kind ≠ _ from closes)]
                apply Agrees.after inStart
                exact agrees.casesOn .refused fun _ later => .done _ later

theorem body_agrees {turns : Nat} (enough : walker.rest.length < turns) :
    Agrees walker (Token.ofBody walker.cursor) (body turns walker) := by
  induction turns generalizing walker with
  | zero => cases enough
  | succ turns ih =>
      rw [Token.ofBody.eq_def, body]
      split
      · next ended =>
          rw [inLine_of_none ended]
          exact .stay []
      · next next found =>
          obtain ⟨inLine, left, notNewline⟩ := inLine_of_some found
          rw [inLine, if_pos rfl, text_body_eq notNewline left]
          cases lexed : Lexeme.inBody next.1 next.2 with
          | error failure => exact .refused _
          | ok lexeme =>
              have inRest := cons_prefix_of_eq left (Lexeme.prefix_inBody lexed)
              have agrees := ih (length_rest_past_lt lexeme.more left enough)
              rw [cursor_past] at agrees
              simp only [outcome, bind, Except.bind]
              apply Agrees.after inRest
              exact agrees.casesOn .refused fun _ later => .done _ later

theorem lineRest_agrees (walker : Walker) :
    Agrees walker (Token.ofLine walker.cursor) walker.lineRest :=
  words_agrees (by rw [turns_eq]; omega)

theorem list_agrees (walker : Walker) :
    Agrees walker (Token.afterName walker.cursor) walker.list := by
  have touches := peek_eq_iff walker 0 (by decide : Byte.leftParen ≠ 0)
  rw [List.drop_zero] at touches
  unfold Token.afterName list
  simp only [touches]
  rw [show walker.cursor.rest = walker.rest from rfl]
  split
  · rename_i opens
    obtain ⟨text, left⟩ := List.head?_eq_some_iff.1 opens
    have inRest : [Byte.leftParen] <+: walker.rest := by
      rw [left]
      exact List.prefix_append _ text
    have enough : (walker.past [Byte.leftParen]).rest.length <
        (walker.past [Byte.leftParen]).turns := by
      rw [turns_eq]
      omega
    have agrees := parameters_agrees walker enough
    rw [marks_one (by decide) left]
    rw [cursor_past] at agrees
    refine (agrees.bind ?_).after inRest
    exact fun tokens _ _ => .stay (_ :: tokens)
  · exact .stay []

theorem definitionRest_agrees (walker : Walker) :
    Agrees walker (Token.ofDefinition walker.cursor) walker.definitionRest := by
  refine (list_agrees walker).bind fun list raw _ => ?_
  have enough : (walker.past raw).rest.length < (walker.past raw).turns := by
    rw [turns_eq]
    omega
  refine (body_agrees enough).bind fun tokens _ _ => ?_
  exact .stay _

theorem definition_agrees (walker : Walker) :
    Agrees walker (Token.ofDefine walker.cursor) walker.definition := by
  have inRest := Lexeme.prefix_continuation walker.rest
  rw [Token.ofDefine, definition, skip_eq]
  cases found : walker.cursor.skip.inLine? with
  | none =>
      simp only [Token.ofLine_of_ended found]
      rw [← cursor_skip] at found
      simp only [bind, Except.bind, inLine_of_none found, Bool.not_false, if_true]
      exact .done [] inRest
  | some next =>
      obtain ⟨first, text⟩ := next
      simp only [← Token.ofLine_skip walker.cursor]
      rw [← cursor_skip] at found ⊢
      apply Agrees.after inRest
      generalize walker.past (Lexeme.continuation walker.rest) = start at found ⊢
      obtain ⟨inLine, left, _⟩ := inLine_of_some found
      simp only [bind, Except.bind, inLine, peek_zero_of_rest left]
      cases named : Byte.isNameStart first with
      | false => exact lineRest_agrees start
      | true =>
          have name : start.name = start.outcome first (.ok ⟨.ident, text.takeWhile Byte.isNamePart⟩) :=
            run_eq (by decide) left
          have inStart : first :: text.takeWhile Byte.isNamePart <+: start.rest := by
            rw [left]
            exact List.cons_prefix_cons.2 ⟨rfl, List.takeWhile_prefix _⟩
          have agrees :=
            definitionRest_agrees (start.past (first :: text.takeWhile Byte.isNamePart))
          rw [cursor_past] at agrees
          simp only [Bool.not_true, Bool.false_eq_true, if_false, if_true, name, outcome]
          apply Agrees.after inStart
          exact agrees.casesOn .refused fun _ later => .done _ later

/-- The newline at the end of a line, if there is one. -/
theorem endLine_eq (walker : Walker) :
    walker.endLine = .ok (walker.past (walker.rest.take 1)) := by
  unfold endLine
  cases left : walker.rest with
  | nil => simp [atEnd_eq, left]
  | cons byte more =>
      rw [atEnd_of_rest left, if_neg Bool.false_ne_true]
      have inRest : [byte] <+: walker.rest := by
        rw [left]
        exact List.prefix_append [byte] more
      exact steps_eq inRest

theorem rest_past_takeWhile (walker : Walker) (test : Byte → Bool) :
    (walker.past (walker.rest.takeWhile test)).rest = walker.rest.dropWhile test :=
  rest_past_of_append List.takeWhile_append_dropWhile.symm

theorem startsDirective_eq (walker : Walker) :
    walker.startsDirective = (Token.head? walker.rest).isSome := by
  have run : ∀ test distance, walker.distanceAfter test walker.turns distance =
      distance + ((walker.rest.drop distance).takeWhile test).length := by
    intro test distance
    rw [distanceAfter_eq, List.take_of_length_le]
    rw [turns_eq, List.length_drop]
    omega
  have blanks := Bytes.drop_takeWhile Byte.isBlank walker.rest
  simp only [startsDirective, run, finds_eq, Token.head?, List.drop_zero, Nat.zero_add, blanks]
  cases after : walker.rest.dropWhile Byte.isBlank with
  | nil => rfl
  | cons byte text =>
      by_cases hash : byte = Byte.hash
      · have later : walker.rest.drop ((walker.rest.takeWhile Byte.isBlank).length + 1) = text := by
          rw [← List.drop_drop, blanks, after]
          rfl
        have word : walker.rest.drop ((walker.rest.takeWhile Byte.isBlank).length + 1 +
            (text.takeWhile Byte.isBlank).length) = text.dropWhile Byte.isBlank := by
          rw [← List.drop_drop, later, Bytes.drop_takeWhile]
        have letters : (text.dropWhile Byte.isBlank).take
            ((text.dropWhile Byte.isBlank).takeWhile Byte.isLetter).length =
              (text.dropWhile Byte.isBlank).takeWhile Byte.isLetter :=
          (List.prefix_iff_eq_take.1 (List.takeWhile_prefix _)).symm
        have source : ∀ distance, walker.source.drop (walker.place + distance) =
            walker.rest.drop distance := fun _ => List.drop_drop.symm
        simp only [hash, later, source, word, letters, Nat.add_sub_cancel_left, List.head?_cons,
          Option.map_some, Option.getD_some, beq_self_eq_true, if_true]
        split <;> simp
      · simp [hash]

theorem directiveWord_eq {head : Token.Head} (found : Token.head? walker.rest = some head) :
    walker.directiveWord =
      .ok (⟨.directive, head.directive.word, (walker.past head.blanks).cursor.location head.raw⟩,
        (walker.past head.blanks).past head.raw) := by
  have blanks := guards_peek (by decide : Byte.isBlank 0 = false)
  have letters := guards_peek (by decide : Byte.isLetter 0 = false)
  have after := rest_past_takeWhile walker Byte.isBlank
  unfold Token.head? at found
  simp only [directiveWord, stepWhile_eq blanks, stepWhile_eq letters, bind, Except.bind]
  split at found
  · cases found
  next byte text split =>
  split at found
  case isFalse => cases found
  next hash =>
  subst hash
  rw [split] at after
  dsimp only at found
  generalize walker.rest.takeWhile Byte.isBlank = raw at found after ⊢
  have later : ((walker.past raw).past [Byte.hash]).rest = text := rest_past_of_append after
  have gap := rest_past_takeWhile ((walker.past raw).past [Byte.hash]) Byte.isBlank
  have inRest : [Byte.hash] <+: (walker.past raw).rest := by
    rw [after]
    exact List.prefix_append _ text
  have hash : (walker.past raw).steps 1 = .ok ((walker.past raw).past [Byte.hash]) :=
    steps_eq inRest
  rw [later] at gap
  have digit := guards_peek (by decide : Byte.isDigit 0 = false)
    (((walker.past raw).past [Byte.hash]).past (text.takeWhile Byte.isBlank))
  rw [gap] at digit
  have word := between_past (List.takeWhile_prefix (l := (((walker.past raw).past [Byte.hash]).past
    (text.takeWhile Byte.isBlank)).rest) Byte.isLetter)
  rw [gap] at word
  simp only [hash, later, gap, digit, word]
  split at found
  · next isDigit =>
      cases found
      rw [if_pos isDigit, ← past_append, location_token_past]
      rfl
  · next notDigit =>
      obtain ⟨directive, isWord, rfl⟩ := Option.map_eq_some_iff.1 found
      rw [if_neg notDigit, ← past_append, ← past_append, location_token_past,
        Directive.word_of_ofWord? isWord]
      rfl

theorem renumber_eq (walker : Walker) (tokens : List Token) :
    (∃ error, Token.renumber tokens walker.cursor = .error error ∧
      walker.renumber tokens = .error (.refused error)) ∨
    ∃ file line, Token.renumber tokens walker.cursor = .ok { walker with file, line }.cursor ∧
      walker.renumber tokens = .ok { walker with file, line } := by
  match tokens with
  | [] => exact .inr ⟨walker.file, walker.line, rfl, rfl⟩
  | ⟨kind, text, location⟩ :: more =>
      cases kind with
      | integer number =>
          by_cases outside : number < 0 ∨ 0x7fffffff < number
          · exact .inl ⟨_, if_pos outside, if_pos outside⟩
          · exact .inr ⟨_, _, if_neg outside, if_neg outside⟩
      | _ => exact .inr ⟨walker.file, walker.line, rfl, rfl⟩

theorem afterWord_agrees (directive : Directive) (walker : Walker) :
    Agrees walker (Token.afterWord directive walker.cursor) (walker.afterWord directive.word) := by
  unfold Token.afterWord afterWord
  by_cases define : directive = .define
  · rw [if_pos define, if_pos (congrArg Directive.word define)]
    exact definition_agrees walker
  · rw [if_neg define, if_neg fun same => define (Directive.word_injective same)]
    exact lineRest_agrees walker

theorem nextLine_eq (directive : Directive) (tokens : List Token) (walker : Walker) :
    (∃ error, Token.nextLine directive tokens walker.cursor = .error error ∧
      walker.nextLine directive.word tokens = .error (.refused error)) ∨
    ∃ file line, Token.nextLine directive tokens walker.cursor =
        .ok { walker.past (walker.rest.take 1) with file, line }.cursor ∧
      walker.nextLine directive.word tokens =
        .ok { walker.past (walker.rest.take 1) with file, line } := by
  have scanned : walker.cursor.advance (walker.cursor.rest.take 1) =
      (walker.past (walker.rest.take 1)).cursor := (cursor_past walker _).symm
  rw [Token.nextLine, nextLine, endLine_eq, scanned]
  by_cases isLine : directive = .line
  · rw [if_pos isLine]
    simp only [bind, Except.bind]
    rw [if_pos (congrArg Directive.word isLine)]
    exact renumber_eq _ tokens
  · rw [if_neg isLine]
    simp only [bind, Except.bind]
    rw [if_neg fun same => isLine (Directive.word_injective same)]
    exact .inr ⟨(walker.past (walker.rest.take 1)).file, (walker.past (walker.rest.take 1)).line,
      rfl, rfl⟩

/-! ## Sources -/

/-- One turn of scanning does what is said of the cursor: it is refused for the same error, or it has
the same tokens and has gone over at least one byte up to the same place.  A line directive gives its
next line another number.  Whether only blanks stand before the next byte of its line is known, too. -/
inductive Turns (walker : Walker) :
    Except Error (List Token × Bool × Cursor) → Except Fault (List Token × Walker) → Prop where
  | refused (error : Error) : Turns walker (.error error) (.error (.refused error))
  | done {raw : Bytes} {fresh : Bool} (tokens : List Token) (file : Bytes) (line : UInt32)
      (some : raw ≠ []) (inRest : raw <+: walker.rest)
      (isFresh : (walker.past raw).rest = [] ∨ fresh = Bytes.freshAfter walker.atLineStart raw) :
      Turns walker (.ok (tokens, fresh, { walker.past raw with file, line }.cursor))
        (.ok (tokens, { walker.past raw with file, line }))

theorem directive_turns {head : Token.Head} (found : Token.head? walker.rest = some head) :
    Turns walker ((Token.ofDirective head walker.cursor).map fun (tokens, next) => (tokens, true, next))
      walker.directive := by
  obtain ⟨nonempty, _⟩ := Token.raw_ne_nil_of_head? found
  have inRest := Token.prefix_head? found
  have some : ∀ more, head.blanks ++ head.raw ++ more ≠ [] := by simp [nonempty]
  have agrees := afterWord_agrees head.directive ((walker.past head.blanks).past head.raw)
  rw [Token.ofDirective, directive, directiveWord_eq found, ← cursor_past, ← cursor_past]
  simp only [bind, Except.bind]
  rw [← past_append] at agrees ⊢
  generalize read : Token.afterWord _ _ = scanned at agrees ⊢
  generalize afterWord _ _ = walked at agrees ⊢
  cases agrees with
  | refused error => exact .refused error
  | @done more tokens later =>
      have ended := (Token.trail_afterWord read).ended
      have passed := prefix_append_of_past inRest later
      have some := some more
      rw [← cursor_past, ← past_append] at ended
      simp only [← cursor_past]
      rw [← past_append]
      generalize head.blanks ++ head.raw ++ more = line at passed some ended ⊢
      have whole := prefix_append_of_past passed (List.take_prefix 1 (walker.past line).rest)
      rcases nextLine_eq head.directive tokens (walker.past line) with
        ⟨error, scanned, walked⟩ | ⟨file, number, scanned, walked⟩
      · rw [scanned, walked]
        exact .refused error
      · rw [scanned, walked, ← past_append]
        refine .done _ file number (by simp [some]) whole ?_
        obtain ⟨newline, rest, left, taken, ends⟩ := Cursor.ended_of_inLine? ended
        have left : (walker.past line).rest = newline ++ rest := left
        have taken : (walker.past line).rest.take 1 = newline := taken
        rw [taken]
        rcases ends with rfl | ⟨rfl, rfl⟩
        · exact .inr (by rw [Bytes.freshAfter_concat]; rfl)
        · exact .inl (by rw [List.append_nil]; exact left)

theorem turn_turns (left : walker.rest = first :: text) :
    Turns walker (Token.nextTokens walker.atLineStart walker.cursor first text) walker.turn := by
  unfold Token.nextTokens
  rw [show walker.cursor.rest = walker.rest from rfl]
  cases found : if walker.atLineStart then Token.head? walker.rest else none with
  | some head =>
      have starts : walker.atLineStart = true ∧ Token.head? walker.rest = some head := by
        simpa using found
      rw [turn, startsDirective_eq, starts.1, starts.2]
      exact directive_turns starts.2
  | none =>
      have notDirective : (walker.atLineStart && walker.startsDirective) = false := by
        rw [startsDirective_eq]
        cases fresh : walker.atLineStart with
        | false => rfl
        | true =>
            rw [fresh, if_pos rfl] at found
            rw [found]
            rfl
      rw [turn, notDirective, if_neg Bool.false_ne_true, text_source_eq left]
      cases lexed : Lexeme.inSource first text with
      | error failure => exact .refused _
      | ok lexeme =>
          have inRest := cons_prefix_of_eq left (Lexeme.prefix_inSource lexed)
          simp only [← cursor_past, Lexeme.freshAfter_inSource lexed]
          exact .done _ _ _ (List.cons_ne_nil _ _) inRest (.inr rfl)

/-- What stands before the next byte of a line. -/
theorem atLineStart_past (ordered : walker.lineStart ≤ walker.place) (inRest : raw <+: walker.rest) :
    (walker.past raw).atLineStart = Bytes.freshAfter walker.atLineStart raw ∧
      (walker.past raw).lineStart ≤ (walker.past raw).place := by
  induction raw generalizing walker with
  | nil => exact ⟨rfl, ordered⟩
  | cons byte raw ih =>
      obtain ⟨more, left⟩ := inRest
      have later : (walker.past [byte]).rest = raw ++ more := rest_past_of_append left.symm
      have here : walker.source[walker.place]? = some byte := by
        rw [← List.head?_drop]
        exact congrArg List.head? left.symm
      have taken : walker.source.take (walker.place + 1) =
          walker.source.take walker.place ++ [byte] := by
        rw [List.take_add_one, here]
        rfl
      have step : (walker.past [byte]).atLineStart =
            (byte == Byte.newline || Byte.isBlank byte && walker.atLineStart) ∧
          (walker.past [byte]).lineStart ≤ (walker.past [byte]).place := by
        by_cases newline : byte = Byte.newline
        · simp [past, pass, newline, atLineStart]
        · have within : walker.lineStart ≤ (walker.source.take walker.place).length := by
            have := (List.getElem?_eq_some_iff.1 here).1
            rw [List.length_take]
            omega
          simp only [past, pass, newline, atLineStart, List.foldl_cons, List.foldl_nil, if_false, taken,
            List.drop_append_of_le_length within, List.all_append]
          exact ⟨by simp [newline, Bool.and_comm], by omega⟩
      obtain ⟨fresh, ordered⟩ := ih step.2 (by rw [later]; exact List.prefix_append raw more)
      rw [Bytes.freshAfter_cons, ← step.1]
      exact ⟨fresh, ordered⟩

theorem tokens_eq {keep : Nat → Nat} {fresh : Bool} {turns : Nat}
    (keeps : ∀ lineStart ≤ walker.source.length, keep lineStart = lineStart)
    (ordered : walker.lineStart ≤ walker.place)
    (isFresh : walker.rest = [] ∨ fresh = walker.atLineStart) (enough : walker.rest.length < turns) :
    tokens keep turns walker = (Token.ofSource fresh walker.cursor).mapError .refused := by
  induction turns generalizing walker fresh with
  | zero => cases enough
  | succ turns ih =>
      rw [tokens]
      cases left : walker.rest with
      | nil =>
          rw [Token.ofSource_of_rest_nil (show walker.cursor.rest = [] from left), atEnd_eq, left]
          rfl
      | cons first text =>
          have isFresh := isFresh.resolve_left (by rw [left]; exact List.cons_ne_nil _ _)
          subst isFresh
          have inside : walker.place < walker.source.length := by
            have length := congrArg List.length left
            rw [rest, List.length_drop, List.length_cons] at length
            omega
          have same : { walker with lineStart := keep walker.lineStart } = walker := by
            rw [keeps walker.lineStart (by omega)]
          rw [atEnd_of_rest left, if_neg Bool.false_ne_true, same, Token.ofSource_of_nextTokens left]
          have turned := turn_turns left
          generalize Token.nextTokens _ _ _ _ = scanned at turned ⊢
          generalize walker.turn = walked at turned ⊢
          cases turned with
          | refused error => rfl
          | @done raw fresh found file line some inRest isFresh =>
              obtain ⟨same, ordered⟩ := atLineStart_past ordered inRest
              have fewer : (walker.past raw).rest.length < turns := by
                have nonempty := List.length_pos_iff.2 some
                have inside := inRest.length_le
                rw [rest_past, List.length_drop]
                omega
              have later : tokens keep turns { walker.past raw with file, line } =
                  (Token.ofSource fresh
                    (cursor { walker.past raw with file, line })).mapError .refused :=
                ih (source_past walker raw ▸ keeps) ordered (same ▸ isFresh) fewer
              simp only [bind, Except.bind]
              rw [later]
              cases Token.ofSource fresh { walker.past raw with file, line }.cursor <;> rfl

theorem scanKeeping_eq {keep : Nat → Nat} {file text : Bytes}
    (keeps : ∀ lineStart ≤ text.length, keep lineStart = lineStart) :
    scanKeeping keep file text = (Token.scan file text).mapError .refused :=
  tokens_eq keeps (show (start file text).lineStart ≤ (start file text).place from Nat.le_refl 0)
    (.inr rfl) (by rw [turns_eq]; omega)

/-- Starts of lines in 32 bits make no difference in a source that they can count. -/
theorem narrowScan_eq {file text : Bytes} (short : text.length < 2 ^ 32) :
    narrowScan file text = scan file text := by
  have whole : scan file text = _ := scanKeeping_eq fun _ _ => rfl
  refine (scanKeeping_eq fun lineStart inside => ?_).trans whole.symm
  exact Nat.mod_eq_of_lt (Nat.lt_of_le_of_lt inside short)

/-- A turn that starts before the end of the source goes over at least one byte of it, or is refused for
an error of form. -/
theorem turn_advances (inside : walker.atEnd = false) :
    (∃ tokens next, walker.turn = .ok (tokens, next) ∧ next.source = walker.source ∧
      walker.place < next.place ∧ next.place ≤ walker.source.length) ∨
    ∃ error, walker.turn = .error (.refused error) ∧ error.kind = .form := by
  cases left : walker.rest with
  | nil =>
      rw [atEnd_eq, left] at inside
      cases inside
  | cons first text =>
      have turned := turn_turns left
      generalize read : Token.nextTokens _ _ _ _ = scanned at turned
      generalize walker.turn = walked at turned ⊢
      cases turned with
      | refused error => exact .inr ⟨error, rfl, Token.form_of_nextTokens read⟩
      | @done raw fresh found file line some inRest isFresh =>
          have nonempty := List.length_pos_iff.2 some
          have length := inRest.length_le
          rw [rest, List.length_drop] at length
          refine .inl ⟨found, _, rfl, source_past walker raw, ?_, ?_⟩
          all_goals
            dsimp only
            rw [place_past]
            omega

/-- Whatever is kept of the starts of lines, scanning comes to the end of the source or is refused. -/
theorem tokens_end {keep : Nat → Nat} {turns : Nat}
    (enough : walker.source.length - walker.place < turns) :
    (∃ found, tokens keep turns walker = .ok found) ∨
      ∃ error, tokens keep turns walker = .error (.refused error) ∧ error.kind = .form := by
  induction turns generalizing walker with
  | zero => cases enough
  | succ turns ih =>
      rw [tokens]
      cases ended : walker.atEnd with
      | true => exact .inl ⟨_, rfl⟩
      | false =>
          -- A turn goes on wherever its line is said to start.
          let kept := { walker with lineStart := keep walker.lineStart }
          rcases turn_advances (show kept.atEnd = false from ended) with
            ⟨first, next, turned, same, further, inside⟩ | ⟨error, refused, form⟩
          · have fewer : next.source.length - next.place < turns := by
              have onward : walker.place < next.place := further
              have bounded : next.place ≤ walker.source.length := inside
              have length : next.source.length = walker.source.length := congrArg List.length same
              omega
            rw [turned]
            rcases ih fewer with ⟨others, found⟩ | ⟨error, refused, form⟩
            · exact .inl ⟨first ++ others, by simp [found, bind, Except.bind]⟩
            · exact .inr ⟨error, by simp [refused, bind, Except.bind], form⟩
          · exact .inr ⟨error, by rw [refused]; rfl, form⟩

/-- Scanning a source byte by byte never steps past its end, and every loop ends: the walk has the
tokens of the source, or is refused for the same error of form as scanning.  Each turn that starts
before the end of the source goes over at least one byte.  With starts of lines that are kept in 32
bits the walk ends so too, however long the source is. -/
theorem scan_without_fault (file source : Bytes) :
    scan file source = (Token.scan file source).mapError .refused ∧
      (∀ error, Token.scan file source = .error error → error.kind = .form) ∧
      (∀ walker : Walker, walker.atEnd = false →
        (∃ tokens next, walker.turn = .ok (tokens, next) ∧ next.source = walker.source ∧
          walker.place < next.place ∧ next.place ≤ walker.source.length) ∨
        ∃ error, walker.turn = .error (.refused error) ∧ error.kind = .form) ∧
      ((∃ found, narrowScan file source = .ok found) ∨
        ∃ error, narrowScan file source = .error (.refused error) ∧ error.kind = .form) := by
  refine ⟨scanKeeping_eq fun _ _ => rfl, fun error failed => ?_, fun walker => turn_advances,
    tokens_end (Nat.lt_succ_self _)⟩
  have well := Token.wellRead_scan file source
  rw [failed] at well
  exact well

/-- A source with a zero byte and a lone apostrophe, whose last line is continued inside a list of
parameters. -/
theorem scan_without_fault_continued :
    (Token.scan [] (bytes "x\x00'\\\n#define f(a, \\\n")).mapError Fault.refused =
        .error (.refused ⟨.unterminatedParameters, ⟨[], 2, 5, 14⟩, ⟨[], 3, 20, 20⟩⟩) ∧
      (start [] (bytes "x\x00")).atEnd = false ∧
      ((∃ tokens next, (start [] (bytes "x\x00")).turn = .ok (tokens, next) ∧
          next.source = bytes "x\x00" ∧ 0 < next.place ∧ next.place ≤ 2) ∨
        ∃ error, (start [] (bytes "x\x00")).turn = .error (.refused error) ∧ error.kind = .form) := by
  have walked : scan [] (bytes "x\x00'\\\n#define f(a, \\\n") =
      .error (.refused ⟨.unterminatedParameters, ⟨[], 2, 5, 14⟩, ⟨[], 3, 20, 20⟩⟩) := by
    decide +kernel
  have inside : (start [] (bytes "x\x00")).atEnd = false := by decide
  refine ⟨?_, inside, (scan_without_fault [] []).2.2.1 _ inside⟩
  rw [← (scan_without_fault [] _).1, walked]

end Walker

end ScopedMacros
