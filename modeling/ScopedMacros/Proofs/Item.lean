import ScopedMacros.Token.Orderly

/-!
# The lines of a token list

A scanned source is a row of items: tokens of text, and whole directive lines.  Scanning lays the
items out one after the other, and a directive line only where the line has held nothing but blanks.
-/

namespace ScopedMacros

/-! ## Lexemes of text -/

/-- The text of a token that is always the same for its class. -/
def Token.Kind.mark? : Kind → Option Bytes
  | .leftParen => some [Byte.leftParen]
  | .rightParen => some [Byte.rightParen]
  | .comma => some [Byte.comma]
  | _ => none

namespace Lexeme

variable {multiline : Bool} {first : Byte} {rest : Bytes} {lexeme : Lexeme}

/-- A lexeme of text other than space is a stretch of bytes of one class, a string, a character or a
mark. -/
theorem solid_cases (found : solid multiline first rest = .ok lexeme) :
    (∃ kind test, (kind = .ident ∨ kind = .text) ∧ lexeme = ⟨kind, rest.takeWhile test⟩) ∨
      string multiline rest = .ok lexeme ∨ lexeme = character rest ∨
      ∃ kind, kind.mark? = some [first] ∧ lexeme = ⟨kind, []⟩ := by
  unfold solid at found
  split at found
  · cases found
    exact .inl ⟨_, _, .inl rfl, rfl⟩
  split at found
  · cases found
    exact .inl ⟨_, _, .inr rfl, rfl⟩
  split at found
  · exact .inr (.inl found)
  split at found
  · cases found
    exact .inr (.inr (.inl rfl))
  split at found
  · rename_i paren
    cases found
    exact .inr (.inr (.inr ⟨.leftParen, by rw [paren]; rfl, rfl⟩))
  split at found
  · rename_i paren
    cases found
    exact .inr (.inr (.inr ⟨.rightParen, by rw [paren]; rfl, rfl⟩))
  split at found
  · rename_i comma
    cases found
    exact .inr (.inr (.inr ⟨.comma, by rw [comma]; rfl, rfl⟩))
  · cases found
    exact .inl ⟨_, _, .inr rfl, rfl⟩

theorem closed_of_string (found : string multiline rest = .ok lexeme) :
    (stringTail multiline false rest).closed = true ∧
      lexeme = ⟨.string (stringTail multiline false rest).value,
        (stringTail multiline false rest).raw⟩ := by
  unfold string at found
  dsimp only at found
  split at found
  · rename_i closed
    cases found
    exact ⟨closed, rfl⟩
  · cases found

/-- The rest of a directive line holds no space. -/
theorem kind_ne_space_of_inLine (found : inLine first rest = .ok lexeme) :
    lexeme.kind ≠ .space := by
  unfold inLine at found
  split at found
  · cases found
    simp
  split at found
  · obtain ⟨_, rfl⟩ := closed_of_string found
    simp
  split at found
  · dsimp only at found
    split at found
    · cases found
      simp
    · cases found
  split at found
  · cases found
    simp
  split at found
  · cases found
    simp
  split at found
  · cases found
    simp
  split at found
  · cases found
    simp
  · cases found

end Lexeme

/-! ## Items -/

/-- A token of text, or a directive line: its word, the tokens after the word, and its end. -/
inductive Item where
  | text (token : Token)
  | line (word : Token) (arguments : List Token) (stop : Token)
  deriving DecidableEq, Repr

namespace Item

def tokens : Item → List Token
  | .text token => [token]
  | .line word arguments stop => word :: arguments ++ [stop]

/-- The items of a list of tokens, up to the first end of a file.  A directive line that has begun is
given with its tokens so far, the last first. -/
def collect : Option (Token × List Token) → List Token → List Item
  | _, [] => []
  | none, token :: rest =>
      match token.kind with
      | .directive => collect (some (token, [])) rest
      | .fileEnd => []
      | _ => .text token :: collect none rest
  | some (word, arguments), token :: rest =>
      if token.kind = .lineEnd then .line word arguments.reverse token :: collect none rest
      else collect (some (word, token :: arguments)) rest

def ofTokens (tokens : List Token) : List Item :=
  collect none tokens

/-- What scanning makes of a text or a line. -/
def Proper : Item → Prop
  | .text token => token.kind.isInline = true ∧ ∀ mark ∈ token.kind.mark?, token.text = mark
  | .line word arguments stop =>
      word.kind = .directive ∧
        (∀ token ∈ arguments, token.kind.isInline = true ∨ token.kind = .body) ∧
        stop.kind = .lineEnd

theorem collect_arguments {word stop : Token} {before arguments rest : List Token}
    (inside : ∀ token ∈ arguments, token.kind ≠ .lineEnd) (isEnd : stop.kind = .lineEnd) :
    collect (some (word, before)) (arguments ++ stop :: rest) =
      .line word (before.reverse ++ arguments) stop :: collect none rest := by
  induction arguments generalizing before with
  | nil => simp [collect, isEnd]
  | cons token more ih =>
      rw [List.cons_append, collect, if_neg (inside token (by simp)),
        ih fun other member => inside other (by simp [member])]
      simp

/-- The tokens of proper items are those items again. -/
theorem ofTokens_cons {item : Item} (proper : item.Proper) (rest : List Token) :
    ofTokens (item.tokens ++ rest) = item :: ofTokens rest := by
  cases item with
  | text token =>
      have inline : token.kind.isInline = true := proper.1
      simp only [tokens, ofTokens, List.singleton_append, collect]
      split
      · rename_i kind
        rw [kind] at inline
        cases inline
      · rename_i kind
        rw [kind] at inline
        cases inline
      · rfl
  | line word arguments stop =>
      obtain ⟨directive, inside, isEnd⟩ := proper
      have inside : ∀ token ∈ arguments, token.kind ≠ .lineEnd := by
        intro token member kind
        rcases inside token member with inline | body
        · rw [kind] at inline
          cases inline
        · rw [kind] at body
          cases body
      simp only [tokens, ofTokens, List.cons_append, List.append_assoc, List.nil_append, collect,
        directive]
      rw [collect_arguments inside isEnd]
      simp

theorem ofTokens_flatMap {items : List Item} (proper : ∀ item ∈ items, item.Proper) {stop : Token}
    (ended : stop.kind = .fileEnd) (rest : List Token) :
    ofTokens (items.flatMap tokens ++ stop :: rest) = items := by
  induction items with
  | nil => simp [ofTokens, collect, ended]
  | cons item more ih =>
      rw [List.flatMap_cons, List.append_assoc, ofTokens_cons (proper item (by simp)),
        ih fun other member => proper other (by simp [member])]

end Item

namespace Token

/-- Scanning puts the items one after the other, from a cursor to the end of the source. -/
inductive Laid : Bool → Cursor → List Item → Prop where
  | stop (fresh : Bool) {cursor : Cursor} (ended : cursor.rest = []) : Laid fresh cursor []
  | text {fresh : Bool} {cursor : Cursor} {first : Byte} {rest : Bytes} {lexeme : Lexeme}
      {items : List Item} (noHead : fresh = true → head? cursor.rest = none)
      (left : cursor.rest = first :: rest) (lexed : Lexeme.inSource first rest = .ok lexeme)
      (laid : Laid (freshAfter fresh first lexeme) (cursor.advance (first :: lexeme.more)) items) :
      Laid fresh cursor (.text (cursor.token first lexeme) :: items)
  | line {cursor stop next : Cursor} {head : Head} {inner : List Token} {items : List Item}
      (found : head? cursor.rest = some head) (line : Line head cursor inner stop next)
      (laid : Laid true next items) :
      Laid true cursor (.line (head.word cursor) inner (stop.point .lineEnd) :: items)

theorem text_of_mark {multiline : Bool} {first : Byte} {rest : Bytes} {lexeme : Lexeme}
    (found : Lexeme.solid multiline first rest = .ok lexeme) :
    ∀ mark ∈ lexeme.kind.mark?, first :: lexeme.more = mark := by
  rcases Lexeme.solid_cases found with ⟨kind, test, word, rfl⟩ | string | rfl | ⟨kind, same, rfl⟩
  · rcases word with rfl | rfl <;> simp [Kind.mark?]
  · obtain ⟨_, rfl⟩ := Lexeme.closed_of_string string
    simp [Kind.mark?]
  · unfold Lexeme.character
    split <;> simp [Kind.mark?]
  · simp [same]

/-- A token of text is a proper item. -/
theorem proper_token (cursor : Cursor) {first : Byte} {rest : Bytes} {lexeme : Lexeme}
    (lexed : Lexeme.inSource first rest = .ok lexeme) :
    (Item.text (cursor.token first lexeme)).Proper := by
  refine ⟨Lexeme.isInline_inSource lexed, ?_⟩
  unfold Lexeme.inSource at lexed
  split at lexed
  · cases lexed
    simp [Cursor.token, Kind.mark?]
  split at lexed
  · cases lexed
    simp [Cursor.token, Kind.mark?]
  · have text := text_of_mark lexed
    intro mark member
    have notSpace : lexeme.kind ≠ .space := by
      intro space
      simp [Cursor.token, space, Kind.mark?] at member
    rw [← text mark member]
    simp [Cursor.token, Lexeme.tokenText, notSpace]

theorem Line.proper {head : Head} {cursor stop next : Cursor} {inner : List Token}
    (line : Line head cursor inner stop next) :
    (Item.line (head.word cursor) inner (stop.point .lineEnd)).Proper :=
  ⟨rfl, line.trail.kind, rfl⟩

theorem exists_laid {fresh : Bool} {cursor : Cursor} {tokens : List Token}
    (read : ofSource fresh cursor = .ok tokens) :
    ∃ items stop, tokens = items.flatMap Item.tokens ++ [stop] ∧ stop.kind = .fileEnd ∧
      Laid fresh cursor items := by
  fun_induction ofSource fresh cursor generalizing tokens with
  | case1 => cases read
  | case2 => cases read
  | case3 fresh cursor head found lineTokens next line rest source ih =>
      cases read
      obtain ⟨items, stop, rfl, ended, laid⟩ := ih source
      obtain ⟨inner, _, whole, rfl⟩ := line_of_ofDirective line
      cases fresh with
      | false => cases found
      | true =>
          refine ⟨_, stop, ?_, ended, .line found whole laid⟩
          simp [Item.tokens]
  | case4 fresh cursor _ ended =>
      cases read
      exact ⟨[], _, rfl, rfl, .stop fresh ended⟩
  | case5 => cases read
  | case6 => cases read
  | case7 fresh cursor noHead first rest left lexeme lexed tail source ih =>
      cases read
      obtain ⟨items, stop, rfl, ended, laid⟩ := ih source
      refine ⟨.text (cursor.token first lexeme) :: items, stop, rfl, ended, ?_⟩
      refine .text (fun isFresh => ?_) left lexed laid
      simpa [isFresh] using noHead

theorem Laid.proper {fresh : Bool} {cursor : Cursor} {items : List Item}
    (laid : Laid fresh cursor items) : ∀ item ∈ items, item.Proper := by
  induction laid with
  | stop => simp
  | text _ _ lexed _ ih => exact List.forall_mem_cons.2 ⟨proper_token _ lexed, ih⟩
  | line _ line _ ih => exact List.forall_mem_cons.2 ⟨line.proper, ih⟩

/-- The tokens of a source are those of its items and the end of the file. -/
theorem exists_stop_of_scan {file text : Bytes} {tokens : List Token}
    (scanned : scan file text = .ok tokens) :
    ∃ stop, tokens = (Item.ofTokens tokens).flatMap Item.tokens ++ [stop] ∧ stop.kind = .fileEnd ∧
      Laid true ⟨.first file, text⟩ (Item.ofTokens tokens) := by
  obtain ⟨items, stop, rfl, ended, laid⟩ := exists_laid scanned
  have same : Item.ofTokens (items.flatMap Item.tokens ++ [stop]) = items :=
    Item.ofTokens_flatMap laid.proper ended []
  rw [same]
  exact ⟨stop, rfl, ended, laid⟩

end Token

end ScopedMacros
