import ScopedMacros.Proofs.Lookahead
import ScopedMacros.Proofs.Sight
import ScopedMacros.Proofs.Spelling
import ScopedMacros.Proofs.TestReading

/-!
# Conditions are read back

A test that is written in a conditional, with blanks between its words, is read as that test.
-/

namespace ScopedMacros

/-! ## Words on a line -/

/-- Words with blanks in front of each of them, and maybe after the last one. -/
inductive Bytes.Spaced : List Bytes → Bytes → Prop where
  | stop {gap : Bytes} (blank : ∀ byte ∈ gap, Byte.isBlank byte = true) : Spaced [] gap
  | word {gap word text : Bytes} {words : List Bytes} (nonempty : gap ≠ [])
      (blank : ∀ byte ∈ gap, Byte.isBlank byte = true) (rest : Spaced words text) :
      Spaced (word :: words) (gap ++ (word ++ text))

/-- What follows a word is space. -/
theorem Bytes.Spaced.startsAlike {words : List Bytes} {text : Bytes} (spaced : Spaced words text)
    (after : Bytes) : Bytes.StartsAlike [] (text ++ Byte.newline :: after) := by
  refine .inr ?_
  have first : ∀ gap : Bytes, (∀ byte ∈ gap, Byte.isBlank byte = true) → ∀ rest : Bytes,
      gap ≠ [] ∨ rest.head? = some Byte.newline →
      ∃ byte ∈ (gap ++ rest).head?, Byte.isSpace byte = true := by
    intro gap blank rest starts
    cases gap with
    | nil =>
        rcases starts with absurd | newline
        · exact (absurd rfl).elim
        · exact ⟨_, newline, rfl⟩
    | cons byte more => exact ⟨byte, rfl, by simp [Byte.isSpace, blank byte (by simp)]⟩
  cases spaced with
  | stop blank => exact first _ blank _ (.inr rfl)
  | word nonempty blank rest =>
      rw [List.append_assoc]
      exact first _ blank _ (.inl nonempty)

namespace Lexeme

/-- A byte that a lexeme of a directive line can start with. -/
def startsInLine (byte : Byte) : Bool :=
  Byte.isNameStart byte || byte == Byte.doubleQuote || Byte.isDigit byte ||
    Token.Op.all.any (·.spelling.head? == some byte) || byte == Byte.leftParen ||
    byte == Byte.rightParen || byte == Byte.comma

theorem startsInLine_of_inLine {first : Byte} {rest : Bytes} {lexeme : Lexeme}
    (found : inLine first rest = .ok lexeme) : startsInLine first = true := by
  cases starts : startsInLine first with
  | true => rfl
  | false =>
      simp only [startsInLine, Bool.or_eq_false_iff, beq_eq_false_iff_ne, List.any_eq_false,
        beq_iff_eq] at starts
      obtain ⟨⟨⟨⟨⟨⟨notName, notQuote⟩, notDigit⟩, notOp⟩, notLeft⟩, notRight⟩, notComma⟩ := starts
      have noOp := Token.Op.atHead?_eq_none notOp rest
      simp [inLine, notName, notQuote, notDigit, noOp, notLeft, notRight, notComma] at found

theorem solid_of_startsInLine : ∀ byte, startsInLine byte = true →
    Byte.isBlank byte = false ∧ byte ≠ Byte.backslash ∧ byte ≠ Byte.newline := by
  decide +kernel

end Lexeme

namespace Token

/-- A text that is one token is the lexeme found in front of space. -/
theorem exists_lexeme_of_ofText? {word : Bytes} {kind : Kind} (found : Kind.ofText? word = some kind)
    {after : Bytes} (ends : Bytes.StartsAlike [] after) :
    ∃ first more, word = first :: more ∧ Lexeme.startsInLine first = true ∧
      Lexeme.inLine first (more ++ after) = .ok ⟨kind, more⟩ := by
  cases word with
  | nil => cases found
  | cons first more =>
      unfold Kind.ofText? at found
      dsimp only at found
      split at found
      · rename_i lexeme lexed
        split at found
        · rename_i whole
          cases found
          obtain ⟨kind, others⟩ := lexeme
          dsimp only at whole
          subst whole
          have alone : Lexeme.inLine first ((Lexeme.mk kind others).more ++ []) =
              .ok ⟨kind, others⟩ := by
            simpa using lexed
          have joined := Lexeme.inLine_append ends alone
          dsimp only at joined
          exact ⟨first, others, rfl, Lexeme.startsInLine_of_inLine lexed, joined⟩
        · cases found
      · cases found

/-- Words on a line are the tokens of the line. -/
theorem exists_tokens_of_spaced {words : List Bytes} {text : Bytes} (spaced : Bytes.Spaced words text)
    (each : ∀ word ∈ words, (Kind.ofText? word).isSome = true) (position : Position)
    (after : Bytes) :
    ∃ tokens, ofLine ⟨position, text ++ Byte.newline :: after⟩ =
        .ok (tokens, ⟨position.advance text, Byte.newline :: after⟩) ∧ Spell tokens words := by
  induction spaced generalizing position with
  | @stop gap blank =>
      have skip := skip_blanks blank Byte.newline rfl (by decide) position after
      refine ⟨[], ?_, .nil⟩
      rw [ofLine.eq_def]
      split
      · rw [skip]
      · rename_i next found
        rw [skip] at found
        cases found
  | @word gap word text words nonempty blank rest ih =>
      obtain ⟨kind, isToken⟩ := Option.isSome_iff_exists.1 (each word (by simp))
      obtain ⟨first, more, rfl, starts, lexed⟩ :=
        exists_lexeme_of_ofText? isToken (rest.startsAlike after)
      obtain ⟨notBlank, notBackslash, notNewline⟩ := Lexeme.solid_of_startsInLine first starts
      let start := position.advance gap
      obtain ⟨tokens, read, spell⟩ :=
        ih (fun other member => each other (by simp [member])) (start.advance (first :: more))
      let token := (Cursor.mk start (first :: (more ++ (text ++ Byte.newline :: after)))).token first
        ⟨kind, more⟩
      have whole : token.text = first :: more := if_neg (Lexeme.kind_ne_space_of_inLine lexed)
      refine ⟨token :: tokens, ?_, .cons ⟨whole, isToken⟩ spell⟩
      have skip := skip_blanks blank first notBlank notBackslash position
        (more ++ (text ++ Byte.newline :: after))
      have next : (Cursor.mk start (first :: (more ++ (text ++ Byte.newline :: after)))).inLine? =
          some (first, more ++ (text ++ Byte.newline :: after)) := by
        simp [Cursor.inLine?, notNewline]
      have further : (Cursor.mk start (first :: (more ++ (text ++ Byte.newline :: after)))).advance
          (first :: more) = ⟨start.advance (first :: more), text ++ Byte.newline :: after⟩ :=
        Cursor.advance_mk_append start (first :: more) (text ++ Byte.newline :: after)
      have line : gap ++ (first :: more ++ text) ++ Byte.newline :: after =
          gap ++ first :: (more ++ (text ++ Byte.newline :: after)) := by
        simp
      rw [line, ofLine_of_lexeme skip next lexed, further, read, Position.advance_append,
        Position.advance_append]
      rfl

end Token

/-! ## Words of the grammar -/

theorem Arith.isSome_of_written {level : Arith.Level} {tree : Arith} {words : List Bytes}
    (written : Arith.Written level tree words) :
    ∀ word ∈ words, (Token.Kind.ofText? word).isSome = true := by
  have sign : ∀ {operation : Operation} {sign : Bytes}, sign ∈ operation.spellings →
      (Token.Kind.ofText? sign).isSome = true := by
    intro operation
    cases operation <;> decide +revert
  induction written with
  | int location fits hex => simp [Token.Kind.ofText?_hex fits hex]
  | ident location isName free => simp [Token.Kind.ofText?_name isName]
  | neg location written ih =>
      rw [List.forall_mem_cons]
      exact ⟨by decide, ih⟩
  | complement location spelled written ih =>
      rw [List.forall_mem_cons]
      refine ⟨?_, ih⟩
      revert spelled
      decide +revert
  | parens written ih =>
      rw [List.cons_append, List.forall_mem_cons, List.forall_mem_append]
      exact ⟨by decide, ih, by decide⟩
  | shift location level spelled first second ihFirst ihSecond =>
      rw [List.forall_mem_append, List.forall_mem_cons]
      exact ⟨ihFirst, sign spelled, ihSecond⟩
  | chain location made chained spelled first second ihFirst ihSecond =>
      rw [List.forall_mem_append, List.forall_mem_cons]
      exact ⟨ihFirst, sign spelled, ihSecond⟩
  | loosen written ih => exact ih

theorem Test.isSome_of_written {level : Test.Level} {test : Test} {words : List Bytes}
    (written : Test.Written level test words) :
    ∀ word ∈ words, (Token.Kind.ofText? word).isSome = true := by
  have sign : ∀ {comparison : Comparison} {sign : Bytes}, sign ∈ comparison.spellings →
      (Token.Kind.ofText? sign).isSome = true := by
    intro comparison
    cases comparison <;> decide +revert
  induction written with
  | literal location value => cases value <;> decide
  | defined location isName =>
      rw [List.forall_mem_cons]
      exact ⟨by decide, by simp [Token.Kind.ofText?_name isName]⟩
  | definedParens location isName =>
      rw [List.forall_mem_cons, List.forall_mem_cons, List.forall_mem_cons]
      exact ⟨by decide, by decide, by simp [Token.Kind.ofText?_name isName], by decide⟩
  | not location spelled written ih =>
      rw [List.forall_mem_cons]
      refine ⟨?_, ih⟩
      revert spelled
      decide +revert
  | compare location spelled first second =>
      rw [List.forall_mem_append, List.forall_mem_cons]
      exact ⟨Arith.isSome_of_written first, sign spelled, Arith.isSome_of_written second⟩
  | parens written ih =>
      rw [List.cons_append, List.forall_mem_cons, List.forall_mem_append]
      exact ⟨by decide, ih, by decide⟩
  | both location first second ihFirst ihSecond =>
      rw [List.forall_mem_append, List.forall_mem_cons]
      exact ⟨ihFirst, by decide, ihSecond⟩
  | either location first second ihFirst ihSecond =>
      rw [List.forall_mem_append, List.forall_mem_cons]
      exact ⟨ihFirst, by decide, ihSecond⟩
  | loosen written ih => exact ih

/-! ## Conditionals -/

/-- A conditional with nothing in it, whose test is written with the given text. -/
def Bytes.condition (text : Bytes) : Bytes :=
  bytes "#if" ++ text ++ bytes "\n#endif\n"

theorem Token.ofSource_endIf (position : Position) :
    ∃ word stop ended, word.text = Directive.endIf.word ∧ (Item.line word [] stop).Proper ∧
      ended.kind = .fileEnd ∧ ofSource true ⟨position, bytes "#endif\n"⟩ =
        .ok ((Item.line word [] stop).tokens ++ [ended]) := by
  let start := position.advance (Byte.hash :: Directive.endIf.word)
  obtain ⟨word, isEnd, proper, line⟩ := ofSource_word .endIf (by decide) (by decide)
    (by decide) (ofLine_of_newline start [])
  have spelled : bytes "#endif\n" = Byte.hash :: (Directive.endIf.word ++ [Byte.newline]) := rfl
  refine ⟨word, _, (Cursor.mk (start.advance [Byte.newline]) []).point .fileEnd, isEnd, proper,
    rfl, ?_⟩
  rw [spelled, line, ofSource_of_rest_nil rfl]
  rfl

theorem Token.exists_scan_condition (file : Bytes) {words : List Bytes} {text : Bytes}
    (spaced : Bytes.Spaced words text)
    (each : ∀ word ∈ words, (Kind.ofText? word).isSome = true) :
    ∃ word tokens stop last lastStop ended,
      word.text = Directive.ifTrue.word ∧ last.text = Directive.endIf.word ∧
      (Item.line word tokens stop).Proper ∧ (Item.line last [] lastStop).Proper ∧
      ended.kind = .fileEnd ∧ Spell tokens words ∧
      scan file (Bytes.condition text) =
        .ok ([Item.line word tokens stop, .line last [] lastStop].flatMap Item.tokens ++
          [ended]) := by
  obtain ⟨tokens, line, spell⟩ := exists_tokens_of_spaced spaced each
    ((Position.first file).advance (Byte.hash :: Directive.ifTrue.word)) (bytes "#endif\n")
  have apart : (text ++ Byte.newline :: bytes "#endif\n").takeWhile Byte.isLetter = [] := by
    obtain absurd | ⟨byte, starts, space⟩ := spaced.startsAlike (bytes "#endif\n")
    · simp at absurd
    · obtain ⟨others, whole⟩ := List.head?_eq_some_iff.1 starts
      have notLetter : ∀ byte, Byte.isSpace byte = true → Byte.isLetter byte = false := by
        decide +kernel
      rw [whole, List.takeWhile_cons_of_neg (by simp [notLetter byte space])]
  obtain ⟨word, isIf, proper, first⟩ :=
    ofSource_word .ifTrue (by decide) (by decide) apart line
  have whole : Bytes.condition text =
      Byte.hash :: (Directive.ifTrue.word ++ (text ++ Byte.newline :: bytes "#endif\n")) :=
    List.append_assoc (bytes "#if") text (bytes "\n#endif\n")
  rw [← whole] at first
  generalize Position.advance _ [Byte.newline] = next at first
  obtain ⟨last, lastStop, ended, isEnd, properEnd, isFileEnd, second⟩ := ofSource_endIf next
  refine ⟨word, tokens, _, last, lastStop, ended, isIf, isEnd, proper, properEnd, isFileEnd,
    spell, ?_⟩
  rw [scan, first, second]
  simp [Except.map]

/-- The nodes of a conditional with nothing in it. -/
theorem Node.ofTokens_condition {word stop last lastStop ended : Token} {tokens : List Token}
    {test : Test} (isIf : word.text = Directive.ifTrue.word)
    (isEnd : last.text = Directive.endIf.word) (proper : (Item.line word tokens stop).Proper)
    (properEnd : (Item.line last [] lastStop).Proper) (isFileEnd : ended.kind = .fileEnd)
    (read : Test.ofTokens stop tokens = .ok (test, [])) :
    ∃ location, Node.ofTokens
        ([Item.line word tokens stop, .line last [] lastStop].flatMap Item.tokens ++ [ended]) =
      .ok [.cond location test [] []] := by
  have each : ∀ item ∈ [Item.line word tokens stop, .line last [] lastStop], item.Proper := by
    simp [proper, properEnd]
  have opened : Builder.empty.directive word =
      .ok (Builder.empty.enter (.line word (.ifTrue []) [])) := by
    simp [Builder.directive, isIf, Directive.ofWord?_word]
  let location := word.location.span stop.location
  have first : (Item.line word tokens stop).tokens.foldlM Builder.step .empty =
      .ok (Builder.empty.enter (.branch word.text location test [])) := by
    rw [Builder.takes_line opened trivial proper (Builder.endsLine_of_ne (by simp))]
    simp [Builder.finishLine, read, Builder.endLine, proper.2.2, Bind.bind, Except.bind, location]
  have closed : (Builder.empty.enter (.branch word.text location test [])).directive last =
      .ok ⟨[], [(.line last (.endIf ⟨location, test, []⟩ [] []) [], [])]⟩ := by
    simp [Builder.directive, Builder.enter, isEnd, Directive.ofWord?_word, Builder.empty]
  have second : (Item.line last [] lastStop).tokens.foldlM Builder.step
      (Builder.empty.enter (.branch word.text location test [])) =
      .ok (Builder.empty.push (.cond location test [] [])) := by
    rw [Builder.takes_line closed trivial properEnd (Builder.endsLine_of_ne (by simp))]
    simp [Builder.finishLine, Builder.endLine, properEnd.2.2, Bind.bind, Except.bind]
    rfl
  refine ⟨location, ?_⟩
  rw [Node.ofTokens_items each isFileEnd, Builder.takes_cons, first]
  change (Builder.enter _ _).takes [_] >>= _ = _
  rw [Builder.takes_cons, second]
  rfl

/-- Words with one space in front of each. -/
def Bytes.spaced (words : List Bytes) : Bytes :=
  words.flatMap (Byte.space :: ·)

theorem Bytes.spaced_spaced (words : List Bytes) : Bytes.Spaced words (Bytes.spaced words) := by
  induction words with
  | nil => exact .stop (List.forall_mem_nil _)
  | cons word words ih => exact .word (List.cons_ne_nil Byte.space []) (List.forall_mem_singleton.2 rfl) ih

/-- A test is read back from the tokens of a line it is written on. -/
theorem Test.ofTokens_of_written {test : Test} {words : List Bytes} {tokens : List Token}
    {stop : Token} (written : Written .either test words) (spell : Token.Spell tokens words)
    (ended : stop.kind = .lineEnd) :
    ∃ read, ofTokens stop tokens = .ok (read, []) ∧ read.unplaced = test.unplaced := by
  have stops : Stops stop .either [] := by
    constructor
    · simp [continues, Comparison.ofToken?, Operation.ofToken?, ended]
    · intro token absurd
      cases absurd
  have reads : ReadsTo stop .either (tokens ++ []) test [] :=
    (returns_of_written stop written tokens spell).reads [] stops
  rw [List.append_nil] at reads
  obtain ⟨reading, read, same, rest⟩ := reads
  have nonempty : tokens.isEmpty = false := by
    have shorter := reading.shorter
    cases tokens with
    | nil => cases shorter
    | cons token rest => rfl
  refine ⟨reading.value, ?_, same⟩
  simp [ofTokens, nonempty, read, rest, Bind.bind, Except.bind]

/-- A test whose names are identifiers can be written, and however it is written, a conditional with
that text is read as one with the same test up to places. -/
theorem Test.ofSource_condition (file : Bytes) (test : Test) :
    (test.isWritable = true → ∃ words text, Written .either test words ∧ Bytes.Spaced words text) ∧
      ∀ words text, Written .either test words → Bytes.Spaced words text →
        ∃ location read, Node.ofSource file (Bytes.condition text) =
          .ok [.cond location read [] []] ∧ read.unplaced = test.unplaced := by
  constructor
  · intro writable
    obtain ⟨words, written⟩ := test.exists_written writable
    exact ⟨words, _, written.ofSingle, Bytes.spaced_spaced words⟩
  · intro words text written spaced
    obtain ⟨word, tokens, stop, last, lastStop, ended, isIf, isEnd, proper, properEnd, isFileEnd,
      spell, scanned⟩ := Token.exists_scan_condition file spaced (isSome_of_written written)
    obtain ⟨read, line, same⟩ := ofTokens_of_written written spell proper.2.2
    obtain ⟨location, nodes⟩ :=
      Node.ofTokens_condition isIf isEnd proper properEnd isFileEnd line
    refine ⟨location, read, ?_, same⟩
    rw [Node.ofSource, scanned]
    exact nodes

/-- Parentheses around a test, and inside it parentheses around an operand. -/
theorem Test.ofSource_mixed_condition :
    ∃ location read, Node.ofSource (bytes "a.txt")
        (bytes "#if ( ( a lsl 0x2 ) << b > 0x1 || defined a ) && not true\n#endif\n") =
          .ok [.cond location read [] []] ∧
      read.unplaced = .both .nowhere
        (.either .nowhere
          (.compare .nowhere .greater
            (.binary .nowhere .shiftLeft
              (.binary .nowhere .shiftLeft (.ident .nowhere (bytes "a")) (.int .nowhere 2))
              (.ident .nowhere (bytes "b")))
            (.int .nowhere 1))
          (.defined .nowhere (bytes "a")))
        (.not .nowhere (.literal .nowhere true)) := by
  let nowhere := Location.nowhere
  have a : Arith.Written .operand (.ident nowhere (bytes "a")) [bytes "a"] :=
    .ident _ (by decide) (by decide)
  have b : Arith.Written .operand (.ident nowhere (bytes "b")) [bytes "b"] :=
    .ident _ (by decide) (by decide)
  have two : Arith.Written .operand (.int nowhere 2) [bytes "0x2"] :=
    .int _ (by decide) (.digit (.inl rfl))
  have one : Arith.Written .operand (.int nowhere 1) [bytes "0x1"] :=
    .int _ (by decide) (.digit (.inl rfl))
  have inner : Arith.Written .shift (.binary nowhere .shiftLeft _ _)
      ([bytes "a"] ++ bytes "lsl" :: [bytes "0x2"]) :=
    .shift _ rfl (by decide) a (two.ofOperand _)
  have shifted : Arith.Written .shift (.binary nowhere .shiftLeft _ _)
      (bytes "(" :: ([bytes "a"] ++ bytes "lsl" :: [bytes "0x2"]) ++ [bytes ")"] ++
        bytes "<<" :: [bytes "b"]) :=
    .shift _ rfl (by decide) (.parens (.loosen (.loosen inner))) (b.ofOperand _)
  have greater : Written .single (Comparison.greater.test nowhere _ _) _ :=
    .compare _ (List.mem_singleton.2 rfl) (.loosen (.loosen shifted)) (one.ofOperand _)
  have defined : Written .single (.defined nowhere (bytes "a")) [bytes "defined", bytes "a"] :=
    .defined _ (by decide)
  have outer : Written .single (.either nowhere _ _) _ :=
    .parens (.either _ greater.ofSingle (.loosen defined))
  have negated : Written .single (.not nowhere (.literal nowhere true)) [bytes "not", bytes "true"] :=
    .not _ (by decide) (.literal nowhere true)
  have whole : Written .either (.both nowhere _ _) _ := .loosen (.both _ (.loosen outer) negated)
  have spelled : bytes "#if ( ( a lsl 0x2 ) << b > 0x1 || defined a ) && not true\n#endif\n" =
      Bytes.condition (Bytes.spaced [bytes "(", bytes "(", bytes "a", bytes "lsl", bytes "0x2",
        bytes ")", bytes "<<", bytes "b", bytes ">", bytes "0x1", bytes "||", bytes "defined",
        bytes "a", bytes ")", bytes "&&", bytes "not", bytes "true"]) := by
    decide +kernel
  rw [spelled]
  exact (ofSource_condition (bytes "a.txt") _).2 _ _ whole (Bytes.spaced_spaced _)

end ScopedMacros
