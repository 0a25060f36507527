import ScopedMacros.Proofs.Sight
import ScopedMacros.Proofs.Tiling

/-!
# Quoting is undone by scanning

A quoted text is printable whatever bytes it holds, and it is one token wherever it stands: in the
text of a source and among the operands of a directive line.  The token denotes the text again and
lies on the quoted text exactly.
-/

namespace ScopedMacros

namespace Bytes

theorem printable_escape (plain : Byte) :
    ∀ byte ∈ quote.escape plain, 0x20 ≤ byte ∧ byte ≤ 0x7e := by
  have all : ∀ plain : Byte,
      (quote.escape plain).all (fun byte => decide (0x20 ≤ byte ∧ byte ≤ 0x7e)) = true := by
    decide +kernel
  simpa using all plain

theorem length_escape_le : ∀ byte : Byte, (quote.escape byte).length ≤ 4 := by
  decide +kernel

theorem printable_quote (text : Bytes) : ∀ byte ∈ text.quote, 0x20 ≤ byte ∧ byte ≤ 0x7e := by
  have mark : 0x20 ≤ Byte.doubleQuote ∧ Byte.doubleQuote ≤ 0x7e := by decide
  intro byte member
  rcases List.mem_append.1 member with member | member
  · rcases List.mem_cons.1 member with rfl | member
    · exact mark
    · obtain ⟨plain, _, member⟩ := List.mem_flatMap.1 member
      exact printable_escape plain byte member
  · rw [List.mem_singleton.1 member]
    exact mark

theorem length_quote_le (text : Bytes) : text.quote.length ≤ 4 * text.length + 2 := by
  have inside : (text.flatMap quote.escape).length ≤ 4 * text.length := by
    induction text with
    | nil => exact Nat.le_refl 0
    | cons byte rest ih =>
        have first := length_escape_le byte
        rw [List.flatMap_cons, List.length_append, List.length_cons]
        omega
  simp only [quote, List.length_append, List.length_cons, List.length_nil]
  omega

end Bytes

namespace Token

/-- A quoted text in a source is one token, whatever follows it. -/
theorem ofSource_quote (fresh : Bool) (position : Position) (text rest : Bytes) :
    ofSource fresh ⟨position, text.quote ++ rest⟩ =
      (ofSource false ⟨position.advance text.quote, rest⟩).map (quoted position text :: ·) := by
  let more := text.flatMap Bytes.quote.escape ++ [Byte.doubleQuote]
  have lexed : Lexeme.inSource Byte.doubleQuote (more ++ rest) = .ok ⟨.string text, more⟩ := by
    have read := Lexeme.string_quote true text rest
    rw [List.append_cons] at read
    exact read
  have further : (Cursor.mk position (text.quote ++ rest)).advance (Byte.doubleQuote :: more) =
      ⟨position.advance text.quote, rest⟩ :=
    Cursor.advance_mk_append position text.quote rest
  have noHead : fresh = true → head? (text.quote ++ rest) = none := fun _ => rfl
  rw [ofSource_of_lexeme noHead rfl lexed, further]
  rfl

/-- The word of a directive, with nothing between the `#` and it. -/
def directiveAt (position : Position) (directive : Directive) : Token :=
  ⟨.directive, directive.word, position, position.advance (Byte.hash :: directive.word)⟩

/-- A quoted text as the first operand of a directive, whatever follows it. -/
theorem ofSource_operand {directive : Directive} (notDefine : directive ≠ .define)
    {position start : Position} (text rest : Bytes)
    (reach : start = (position.advance (Byte.hash :: directive.word)).advance [Byte.space]) :
    ofSource true ⟨position, Byte.hash :: (directive.word ++ Byte.space :: (text.quote ++ rest))⟩ =
      (ofLine ⟨start.advance text.quote, rest⟩).bind fun (tokens, stop) =>
        (nextLine directive (quoted start text :: tokens) stop).bind fun next =>
          (ofSource true next).map (directiveAt position directive :: quoted start text :: tokens ++
            [stop.point .lineEnd] ++ ·) := by
  have apart : (Byte.space :: (text.quote ++ rest)).takeWhile Byte.isLetter = [] := rfl
  have blank : ∀ byte ∈ [Byte.space], Byte.isBlank byte = true := by decide +kernel
  have line : (Cursor.mk position
      (Byte.hash :: (directive.word ++ Byte.space :: (text.quote ++ rest)))).advance
        (Byte.hash :: directive.word) =
      ⟨position.advance (Byte.hash :: directive.word), [Byte.space] ++ (text.quote ++ rest)⟩ :=
    Cursor.advance_mk_append position (Byte.hash :: directive.word) _
  rw [ofSource_of_head (head?_word directive apart), ofDirective]
  dsimp only
  rw [Cursor.advance_nil, line, afterWord, if_neg notDefine, ofLine_quote blank, ← reach]
  rcases ofLine ⟨start.advance text.quote, rest⟩ with error | ⟨tokens, stop⟩
  · rfl
  · dsimp only [Except.map, Except.bind, bind]
    cases nextLine directive (quoted start text :: tokens) stop with
    | error error => rfl
    | ok next => rfl

theorem offset_quoted {position : Position} {text : Bytes} (short : text.length < 2 ^ 29)
    (near : position.offset.toNat ≤ 2 ^ 31) :
    (quoted position text).location.stop.offset.toNat =
      position.offset.toNat + text.quote.length := by
  have most := text.length_quote_le
  exact position.offset_advance (by simp only [UInt32.size]; omega)

/-- A quoted text is printable.  Its token denotes the text and lies on its bytes.  In the text of a
source, after blanks on a directive line, and as the first operand of a directive, scanning gives
this token, and then goes on with whatever follows. -/
theorem scan_quote (text rest : Bytes) (short : text.length < 2 ^ 29) :
    (∀ byte ∈ text.quote, 0x20 ≤ byte ∧ byte ≤ 0x7e) ∧
      (∀ position : Position, position.offset.toNat ≤ 2 ^ 31 →
        (quoted position text).kind = .string text ∧ (quoted position text).text = text.quote ∧
          (quoted position text).location.start = position ∧
          (quoted position text).location.stop.offset.toNat =
            position.offset.toNat + text.quote.length) ∧
      (∀ (fresh : Bool) (position : Position),
        ofSource fresh ⟨position, text.quote ++ rest⟩ =
          (ofSource false ⟨position.advance text.quote, rest⟩).map (quoted position text :: ·)) ∧
      (∀ (position : Position) (gap : Bytes), (∀ byte ∈ gap, Byte.isBlank byte = true) →
        ofLine ⟨position, gap ++ (text.quote ++ rest)⟩ =
          (ofLine ⟨(position.advance gap).advance text.quote, rest⟩).map
            fun (tokens, stop) => (quoted (position.advance gap) text :: tokens, stop)) ∧
      ∀ (file : Bytes) (directive : Directive) (start : Position), directive ≠ .define →
        start = (Position.first file).advance (Byte.hash :: (directive.word ++ [Byte.space])) →
        scan file (Byte.hash :: (directive.word ++ Byte.space :: (text.quote ++ rest))) =
          (ofLine ⟨start.advance text.quote, rest⟩).bind fun (tokens, stop) =>
            (nextLine directive (quoted start text :: tokens) stop).bind fun next =>
              (ofSource true next).map (directiveAt (.first file) directive :: quoted start text ::
                tokens ++ [stop.point .lineEnd] ++ ·) := by
  refine ⟨text.printable_quote, ?_, ?_, ?_, ?_⟩
  · intro position near
    exact ⟨rfl, rfl, rfl, offset_quoted short near⟩
  · intro fresh position
    exact ofSource_quote fresh position text rest
  · intro position gap blank
    exact ofLine_quote blank position text rest
  · intro file directive start notDefine reach
    rw [← List.cons_append, Position.advance_append] at reach
    exact ofSource_operand notDefine text rest reach

/-- A zero byte, a byte past the printable ones, a backslash before a quote, a newline, and a code
before digits. -/
def hardBytes : Bytes :=
  [0x00, 0xff, Byte.backslash, Byte.doubleQuote, Byte.newline, 0x07, 0x31, 0x32, 0x33]

theorem scan_quote_hardBytes :
    hardBytes.length < 2 ^ 29 ∧
      scan (bytes "main") hardBytes.quote =
        .ok [quoted (.first (bytes "main")) hardBytes,
          Cursor.point ⟨(Position.first (bytes "main")).advance hardBytes.quote, []⟩ .fileEnd] ∧
      (scan (bytes "main") (bytes "#include " ++ (hardBytes.quote ++ bytes "\n"))).map
          (List.map fun token =>
            (token.kind, token.location.start.offset, token.location.stop.offset)) =
        .ok [(.directive, 0, 8), (.string hardBytes, 9, 32), (.lineEnd, 32, 32),
          (.fileEnd, 33, 33)] := by
  have short : hardBytes.length < 2 ^ 29 := by decide
  obtain ⟨_, _, asText, _, _⟩ := scan_quote hardBytes [] short
  obtain ⟨_, _, _, _, asOperand⟩ := scan_quote hardBytes [Byte.newline] short
  refine ⟨short, ?_, ?_⟩
  · have read := asText true (.first (bytes "main"))
    have ended : ofSource false ⟨(Position.first (bytes "main")).advance hardBytes.quote, []⟩ = _ :=
      ofSource_of_rest_nil rfl
    rw [List.append_nil, ended] at read
    exact read
  · have read := asOperand (bytes "main") .inclusion _ (by decide) rfl
    rw [ofLine_of_newline] at read
    have source : bytes "#include " ++ (hardBytes.quote ++ bytes "\n") = Byte.hash ::
        (Directive.inclusion.word ++ Byte.space :: (hardBytes.quote ++ [Byte.newline])) := rfl
    have ended : ∀ position,
        ofSource true ⟨position, []⟩ = .ok [Cursor.point ⟨position, []⟩ .fileEnd] :=
      fun _ => ofSource_of_rest_nil rfl
    rw [source, read]
    dsimp only [Except.bind, nextLine]
    rw [if_neg (by decide)]
    dsimp only [Cursor.advance, List.take, List.length, List.drop]
    rw [ended]
    decide +kernel

end Token

end ScopedMacros
