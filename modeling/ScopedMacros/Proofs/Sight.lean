import ScopedMacros.Proofs.Item
import ScopedMacros.Proofs.Literal

/-!
# What is seen of a source

A reader of a source sees its tokens other than space outside directive lines, each with its file,
line and column.  Space moves on what is seen and a line marker sets it anew.
-/

namespace ScopedMacros

/-- A token as a reader sees it. -/
structure Sight where
  text : Bytes
  file : Bytes
  line : UInt32
  column : UInt32
  deriving DecidableEq, Repr

namespace Token

/-- A class of tokens of text other than space. -/
def Kind.isSolid : Kind → Bool
  | .ident | .text | .string _ | .character | .leftParen | .rightParen | .comma => true
  | _ => false

def sight (token : Token) : Sight :=
  ⟨token.text, token.location.start.file, token.location.start.line, token.location.start.column⟩

/-- The sight of a token, if it is text other than space. -/
def sight? (token : Token) : Option Sight :=
  if token.kind.isSolid then some token.sight else none

end Token

def Item.sight? : Item → Option Sight
  | .text token => token.sight?
  | .line _ _ _ => none

namespace Token

/-- What a reader sees of a list of tokens. -/
def sights (tokens : List Token) : List Sight :=
  (Item.ofTokens tokens).filterMap Item.sight?

end Token

namespace Position

@[simp]
theorem file_step (position : Position) (byte : Byte) :
    (position.step byte).file = position.file := by
  unfold step
  split <;> rfl

@[simp]
theorem file_advance (position : Position) (text : Bytes) :
    (position.advance text).file = position.file := by
  induction text generalizing position with
  | nil => rfl
  | cons byte rest ih => rw [advance_cons, ih, file_step]

theorem line_step (position : Position) (byte : Byte) :
    (position.step byte).line = if byte = Byte.newline then position.line + 1 else position.line := by
  unfold step
  split <;> rfl

theorem column_step (position : Position) (byte : Byte) :
    (position.step byte).column = if byte = Byte.newline then 0 else position.column + 1 := by
  unfold step
  split
  · exact UInt32.sub_self _
  · have moved : position.offset + 1 - position.lineStart =
        position.offset - position.lineStart + 1 := by
      rw [UInt32.sub_eq_add_neg, UInt32.sub_eq_add_neg, UInt32.add_assoc, UInt32.add_comm 1,
        UInt32.add_assoc]
    exact moved

/-- Blanks stay on the line. -/
theorem advance_blanks (position : Position) (count : Nat) :
    (position.advance (List.replicate count Byte.space)).line = position.line ∧
      (position.advance (List.replicate count Byte.space)).column =
        position.column + UInt32.ofNat count := by
  induction count generalizing position with
  | zero => simp
  | succ count ih =>
      obtain ⟨line, column⟩ := ih (position.step Byte.space)
      rw [List.replicate_succ, advance_cons, line, column, line_step, column_step,
        if_neg (by decide), if_neg (by decide), UInt32.ofNat_add, UInt32.add_assoc,
        UInt32.add_comm 1]
      exact ⟨rfl, rfl⟩

end Position

namespace Cursor

@[simp]
theorem advance_nil (cursor : Cursor) : cursor.advance [] = cursor := rfl

theorem advance_append (cursor : Cursor) (first second : Bytes) :
    cursor.advance (first ++ second) = (cursor.advance first).advance second := by
  simp [advance, Position.advance_append]

theorem advance_cons (cursor : Cursor) (byte : Byte) (more : Bytes) :
    cursor.advance (byte :: more) = (cursor.advance [byte]).advance more :=
  cursor.advance_append [byte] more

@[simp]
theorem advance_mk_append (position : Position) (raw rest : Bytes) :
    (Cursor.mk position (raw ++ rest)).advance raw = ⟨position.advance raw, rest⟩ := by
  simp [advance]

end Cursor

namespace Token

/-- Scanning from a cursor succeeds, and shows the given tokens. -/
def Sees (fresh : Bool) (cursor : Cursor) (sights : List Sight) : Prop :=
  ∃ tokens, ofSource fresh cursor = .ok tokens ∧ Token.sights tokens = sights

variable {fresh : Bool} {cursor next : Cursor} {seen : List Sight}

/-! ## Equations of scanning -/

theorem ofSource_of_head {head : Head} (found : head? cursor.rest = some head) :
    ofSource true cursor = (ofDirective head cursor).bind fun (line, next) =>
      (ofSource true next).map (line ++ ·) := by
  rw [ofSource.eq_def]
  split
  · rename_i other same
    obtain rfl : head = other := Option.some.inj (found.symm.trans same)
    cases read : ofDirective head cursor with
    | error error => rfl
    | ok result =>
        dsimp only [Except.bind]
        cases ofSource true result.2 <;> rfl
  · rename_i none
    rw [if_pos rfl, found] at none
    cases none

theorem ofSource_of_lexeme {first : Byte} {rest : Bytes} {lexeme : Lexeme}
    (noHead : fresh = true → head? cursor.rest = none) (left : cursor.rest = first :: rest)
    (lexed : Lexeme.inSource first rest = .ok lexeme) :
    ofSource fresh cursor =
      (ofSource (freshAfter fresh first lexeme) (cursor.advance (first :: lexeme.more))).map
        (cursor.token first lexeme :: ·) := by
  rw [ofSource.eq_def]
  split
  · rename_i head same
    cases fresh with
    | false => cases same
    | true =>
        rw [if_pos rfl, noHead rfl] at same
        cases same
  · split
    · rename_i ended
      rw [left] at ended
      cases ended
    · rename_i byte more same
      rw [left] at same
      injection same with sameByte sameRest
      subst sameByte sameRest
      rw [lexed]
      dsimp only
      cases ofSource (freshAfter fresh first lexeme) (cursor.advance (first :: lexeme.more)) <;> rfl

theorem ofSource_of_rest_nil (ended : cursor.rest = []) :
    ofSource fresh cursor = .ok [cursor.point .fileEnd] := by
  have none : (if fresh then head? cursor.rest else none) = none := by
    rw [ended]
    cases fresh <;> rfl
  rw [ofSource.eq_def]
  split
  · rename_i head same
    rw [none] at same
    cases same
  · split
    · rfl
    · rename_i byte more same
      rw [ended] at same
      cases same

/-! ## Steps of seeing -/

theorem sees_of_rest_nil (ended : cursor.rest = []) : Sees fresh cursor [] :=
  ⟨_, ofSource_of_rest_nil ended, rfl⟩

theorem sights_cons {token : Token} (proper : (Item.text token).Proper) (rest : List Token) :
    sights (token :: rest) = token.sight?.toList ++ sights rest := by
  have items : Item.ofTokens (token :: rest) = .text token :: Item.ofTokens rest :=
    Item.ofTokens_cons proper rest
  rw [sights, items, List.filterMap_cons]
  simp only [Item.sight?, sights]
  cases token.sight? <;> rfl

theorem sees_lexeme_iff {first : Byte} {rest : Bytes} {lexeme : Lexeme}
    (noHead : fresh = true → head? cursor.rest = none) (left : cursor.rest = first :: rest)
    (lexed : Lexeme.inSource first rest = .ok lexeme) :
    Sees fresh cursor ((cursor.token first lexeme).sight?.toList ++ seen) ↔
      Sees (freshAfter fresh first lexeme) (cursor.advance (first :: lexeme.more)) seen := by
  have proper := proper_token cursor lexed
  unfold Sees
  rw [ofSource_of_lexeme noHead left lexed]
  constructor
  · rintro ⟨tokens, read, same⟩
    cases tail : ofSource (freshAfter fresh first lexeme) (cursor.advance (first :: lexeme.more)) with
    | error error =>
        rw [tail] at read
        cases read
    | ok others =>
        rw [tail] at read
        cases read
        rw [sights_cons proper] at same
        exact ⟨others, rfl, List.append_cancel_left same⟩
  · rintro ⟨tokens, read, rfl⟩
    rw [read]
    exact ⟨_, rfl, sights_cons proper tokens⟩

/-- Nothing is seen of a directive line. -/
theorem sees_of_head {head : Head} (found : head? cursor.rest = some head) {line : List Token}
    (read : ofDirective head cursor = .ok (line, next)) (sees : Sees true next seen) :
    Sees true cursor seen := by
  obtain ⟨tokens, rest, rfl⟩ := sees
  obtain ⟨inner, stop, line, rfl⟩ := line_of_ofDirective read
  refine ⟨(Item.line (head.word cursor) inner (stop.point .lineEnd)).tokens ++ tokens, ?_, ?_⟩
  · rw [ofSource_of_head found, read]
    dsimp only [Except.bind]
    rw [rest]
    rfl
  · rw [sights, Item.ofTokens_cons line.proper, List.filterMap_cons]
    rfl

/-! ## Space -/

theorem head?_cons_blank {byte : Byte} (blank : Byte.isBlank byte = true) (rest : Bytes) :
    head? (byte :: rest) =
      (head? rest).map fun head => { head with blanks := byte :: head.blanks } := by
  unfold head?
  rw [List.takeWhile_cons, if_pos blank, List.dropWhile_cons, if_pos blank]
  dsimp only
  split
  · rfl
  · split
    · split
      · rfl
      · rw [Option.map_map]
        rfl
    · rfl

/-- Blanks before a directive line belong to it. -/
theorem ofDirective_cons_blank (head : Head) (byte : Byte) (cursor : Cursor) :
    ofDirective { head with blanks := byte :: head.blanks } cursor =
      ofDirective head (cursor.advance [byte]) := by
  simp only [ofDirective, Cursor.advance_cons cursor byte head.blanks]

/-- Nothing is seen of space. -/
theorem sees_space_iff {first : Byte} {rest more : Bytes}
    (noHead : fresh = true → head? cursor.rest = none) (left : cursor.rest = first :: rest)
    (lexed : Lexeme.inSource first rest = .ok ⟨.space, more⟩) :
    Sees fresh cursor seen ↔
      Sees (freshAfter fresh first ⟨.space, more⟩) (cursor.advance (first :: more)) seen :=
  sees_lexeme_iff noHead left lexed

theorem blankLine_cons (byte : Byte) (rest : Bytes) :
    Lexeme.blankLine (byte :: rest) =
      if Byte.isBlank byte then byte :: Lexeme.blankLine rest
      else if byte = Byte.newline then [byte] else [] := by
  cases blank : Byte.isBlank byte with
  | true => simp [Lexeme.blankLine, blank]
  | false =>
      by_cases newline : byte = Byte.newline
      · subst newline
        rfl
      · simp [Lexeme.blankLine, blank, newline]

/-- Blanks go on with the space after them. -/
theorem blankLine_cases (rest : Bytes) :
    Lexeme.blankLine rest = [] ∨ ∃ byte tail more, rest = byte :: tail ∧
      Lexeme.blankLine rest = byte :: more ∧ Lexeme.inSource byte tail = .ok ⟨.space, more⟩ := by
  cases rest with
  | nil => exact .inl rfl
  | cons byte tail =>
      rw [blankLine_cons]
      by_cases newline : byte = Byte.newline
      · subst newline
        exact .inr ⟨_, _, [], rfl, rfl, rfl⟩
      cases blank : Byte.isBlank byte with
      | true =>
          refine .inr ⟨_, _, Lexeme.blankLine tail, rfl, rfl, ?_⟩
          rw [Lexeme.inSource, if_neg newline, if_pos blank]
      | false => exact .inl (by simp [newline])

/-- One byte of space moves the cursor on, and leads to a new line if it is a newline. -/
theorem sees_of_space {byte : Byte} {rest : Bytes} (space : Byte.isSpace byte = true)
    (left : cursor.rest = byte :: rest)
    (sees : Sees (fresh || byte == Byte.newline) (cursor.advance [byte]) seen) :
    Sees fresh cursor seen := by
  have left' : (cursor.advance [byte]).rest = rest := by simp [Cursor.advance, left]
  by_cases newline : byte = Byte.newline
  · subst newline
    have noHead : fresh = true → head? cursor.rest = none := by
      intro _
      rw [left]
      rfl
    have lineStarts : freshAfter fresh Byte.newline ⟨.space, []⟩ = true := by
      cases fresh <;> rfl
    rw [sees_space_iff noHead left rfl, lineStarts]
    rw [beq_self_eq_true, Bool.or_true] at sees
    exact sees
  have blank : Byte.isBlank byte = true := by
    simpa [Byte.isSpace, newline] using space
  have sameLine : (fresh || byte == Byte.newline) = fresh := by simp [newline]
  rw [sameLine] at sees
  cases found : (if fresh then head? rest else none) with
  | some head =>
      -- The blank belongs to the directive line that is found after it as well.
      cases fresh with
      | false => cases found
      | true =>
          rw [if_pos rfl] at found
          have here : head? cursor.rest = some { head with blanks := byte :: head.blanks } := by
            rw [left, head?_cons_blank blank, found]
            rfl
          unfold Sees at sees ⊢
          rw [ofSource_of_head here, ofDirective_cons_blank]
          rw [← left'] at found
          rw [ofSource_of_head found] at sees
          exact sees
  | none =>
      have noHead' : fresh = true → head? rest = none := by
        intro isFresh
        rw [if_pos isFresh] at found
        exact found
      have noHead : fresh = true → head? cursor.rest = none := by
        intro isFresh
        rw [left, head?_cons_blank blank, noHead' isFresh]
        rfl
      have lexed : Lexeme.inSource byte rest = .ok ⟨.space, Lexeme.blankLine rest⟩ := by
        rw [Lexeme.inSource, if_neg newline, if_pos blank]
      rw [sees_space_iff noHead left lexed]
      rcases blankLine_cases rest with empty | ⟨second, tail, more, rfl, spaces, lexed'⟩
      · rw [empty]
        have still : freshAfter fresh byte ⟨.space, []⟩ = fresh := by simp [freshAfter, newline]
        rw [still]
        exact sees
      · rw [← left'] at noHead'
        rw [sees_space_iff noHead' left' lexed'] at sees
        rw [spaces, Cursor.advance_cons]
        have same : freshAfter fresh byte ⟨.space, second :: more⟩ =
            freshAfter fresh second ⟨.space, more⟩ := by
          simp [freshAfter, List.getLast?_cons_cons]
        rw [same]
        exact sees

/-- A text of space moves the cursor on, and leads to a new line if it holds a newline. -/
theorem sees_of_spaces {space : Bytes} (all : ∀ byte ∈ space, Byte.isSpace byte = true)
    {position : Position} {rest : Bytes}
    (sees : Sees (fresh || space.contains Byte.newline) ⟨position.advance space, rest⟩ seen) :
    Sees fresh ⟨position, space ++ rest⟩ seen := by
  induction space generalizing fresh position with
  | nil => simpa using sees
  | cons byte more ih =>
      refine sees_of_space (all byte (by simp)) rfl ?_
      have rest' : (Cursor.mk position (byte :: more ++ rest)).advance [byte] =
          ⟨position.step byte, more ++ rest⟩ := rfl
      rw [rest']
      apply ih fun other member => all other (by simp [member])
      rw [Bool.or_assoc]
      rw [List.contains_cons, Bool.beq_comm] at sees
      exact sees

/-! ## Line markers -/

theorem continuation_of_solid {first : Byte} (rest : Bytes) (notBlank : Byte.isBlank first = false)
    (notBackslash : first ≠ Byte.backslash) : Lexeme.continuation (first :: rest) = [] := by
  cases rest <;> simp [Lexeme.continuation, notBlank, notBackslash]

theorem continuation_of_blank {first : Byte} (rest : Bytes) (blank : Byte.isBlank first = true) :
    Lexeme.continuation (first :: rest) = first :: Lexeme.continuation rest := by
  cases rest <;> simp [Lexeme.continuation, blank]

/-- Blanks in front of something else are skipped. -/
theorem skip_blanks {gap : Bytes} (blank : ∀ byte ∈ gap, Byte.isBlank byte = true)
    (first : Byte) (notBlank : Byte.isBlank first = false) (notBackslash : first ≠ Byte.backslash)
    (position : Position) (rest : Bytes) :
    (Cursor.mk position (gap ++ first :: rest)).skip = ⟨position.advance gap, first :: rest⟩ := by
  have passed : Lexeme.continuation (gap ++ first :: rest) = gap := by
    clear position
    induction gap with
    | nil => exact continuation_of_solid rest notBlank notBackslash
    | cons byte more ih =>
        rw [List.cons_append, continuation_of_blank _ (blank byte (by simp)),
          ih fun other member => blank other (by simp [member])]
  rw [Cursor.skip, passed, Cursor.advance_mk_append]

theorem ofLine_of_newline (position : Position) (rest : Bytes) :
    ofLine ⟨position, Byte.newline :: rest⟩ = .ok ([], ⟨position, Byte.newline :: rest⟩) := by
  have skip : (Cursor.mk position (Byte.newline :: rest)).skip =
      ⟨position, Byte.newline :: rest⟩ := by
    rw [Cursor.skip, continuation_of_solid rest rfl (by decide)]
    rfl
  rw [ofLine.eq_def]
  split
  · rw [skip]
  · rename_i next found
    rw [skip] at found
    cases found

theorem ofLine_of_lexeme {cursor start : Cursor} {first : Byte} {rest : Bytes} {lexeme : Lexeme}
    (skip : cursor.skip = start) (next : start.inLine? = some (first, rest))
    (lexed : Lexeme.inLine first rest = .ok lexeme) :
    ofLine cursor = (ofLine (start.advance (first :: lexeme.more))).map
      fun (tokens, stop) => (start.token first lexeme :: tokens, stop) := by
  subst skip
  rw [ofLine.eq_def]
  split
  · rename_i none
    rw [next] at none
    cases none
  · rename_i found same
    rw [next] at same
    cases same
    rw [lexed]
    dsimp only
    cases ofLine (cursor.skip.advance (first :: lexeme.more)) <;> rfl

/-- A digit starts nothing but a number. -/
theorem digit_cases : ∀ byte, Byte.isDigit byte = true → Byte.isBlank byte = false ∧
    byte ≠ Byte.backslash ∧ byte ≠ Byte.newline ∧ Byte.isNameStart byte = false ∧
    byte ≠ Byte.doubleQuote ∧ Byte.isNumberPart byte = true := by
  decide +kernel

/-- The number of a marker is one token of its line. -/
theorem ofLine_number (number : Nat) (small : number < 2 ^ 63) (position : Position)
    {rest : Bytes} (ends : rest.takeWhile Byte.isNumberPart = []) :
    ∃ token, token.kind = .integer (Int64.ofNat number) ∧
      ofLine ⟨position, Bytes.ofNat number ++ rest⟩ =
        (ofLine ⟨position.advance (Bytes.ofNat number), rest⟩).map
          fun (tokens, stop) => (token :: tokens, stop) := by
  have value := Numeral.read?_ofNat small
  have digits : ∀ byte ∈ Bytes.ofNat number, Byte.isDigit byte = true := Bytes.isDigit_ofNat
  obtain ⟨first, more, spelled⟩ := List.exists_cons_of_ne_nil (Bytes.ofNat_ne_nil number)
  rw [spelled] at value digits ⊢
  obtain ⟨notBlank, notBackslash, inLine, notName, notQuote, _⟩ :=
    digit_cases first (digits first (by simp))
  have skip : (Cursor.mk position (first :: more ++ rest)).skip =
      ⟨position, first :: more ++ rest⟩ := by
    rw [Cursor.skip, List.cons_append, continuation_of_solid _ notBlank notBackslash]
    rfl
  have covered : (more ++ rest).takeWhile Byte.isNumberPart = more := by
    rw [List.takeWhile_append_of_pos, ends, List.append_nil]
    intro byte member
    exact (digit_cases byte (digits byte (by simp [member]))).2.2.2.2.2
  have lexed : Lexeme.inLine first (more ++ rest) = .ok ⟨.integer (Int64.ofNat number), more⟩ := by
    rw [Lexeme.inLine, if_neg (by simp [notName]), if_neg notQuote,
      if_pos (digits first (by simp)), covered]
    dsimp only
    rw [value]
  refine ⟨(Cursor.mk position (first :: more ++ rest)).token first
    ⟨.integer (Int64.ofNat number), more⟩, rfl, ?_⟩
  rw [ofLine_of_lexeme skip (by simp [Cursor.inLine?, inLine]) lexed, Cursor.advance_mk_append]

/-- The token of a quoted text. -/
def quoted (position : Position) (text : Bytes) : Token :=
  ⟨.string text, text.quote, position, position.advance text.quote⟩

/-- A quoted text after blanks is one token of its line, whatever follows it. -/
theorem ofLine_quote {gap : Bytes} (blank : ∀ byte ∈ gap, Byte.isBlank byte = true)
    (position : Position) (text rest : Bytes) :
    ofLine ⟨position, gap ++ (text.quote ++ rest)⟩ =
      (ofLine ⟨(position.advance gap).advance text.quote, rest⟩).map
        fun (tokens, stop) => (quoted (position.advance gap) text :: tokens, stop) := by
  let more := text.flatMap Bytes.quote.escape ++ [Byte.doubleQuote]
  have lexed : Lexeme.inLine Byte.doubleQuote (more ++ rest) = .ok ⟨.string text, more⟩ := by
    have read := Lexeme.string_quote false text rest
    rw [List.append_cons] at read
    exact read
  have skip := skip_blanks blank Byte.doubleQuote rfl (by decide) position (more ++ rest)
  have further : (Cursor.mk (position.advance gap) (Byte.doubleQuote :: (more ++ rest))).advance
      (Byte.doubleQuote :: more) = ⟨(position.advance gap).advance text.quote, rest⟩ :=
    Cursor.advance_mk_append (position.advance gap) (Byte.doubleQuote :: more) rest
  have line : gap ++ (text.quote ++ rest) = gap ++ Byte.doubleQuote :: (more ++ rest) := rfl
  rw [line, ofLine_of_lexeme skip rfl lexed, further]
  rfl

/-- The name of a marker is one token of its line. -/
theorem ofLine_name (position : Position) (file rest : Bytes) :
    ∃ token, token.kind = .string file ∧
      ofLine ⟨position, Byte.space :: file.quote ++ Byte.newline :: rest⟩ =
        .ok ([token], ⟨position.advance (Byte.space :: file.quote), Byte.newline :: rest⟩) := by
  have blank : ∀ byte ∈ [Byte.space], Byte.isBlank byte = true := by decide +kernel
  have read := ofLine_quote blank position file (Byte.newline :: rest)
  rw [ofLine_of_newline] at read
  exact ⟨_, rfl, read⟩

/-- The lines after a marker have its number, and its file if it has one. -/
theorem renumber_marker {number : UInt32} (small : number.toNat ≤ 0x7fffffff) {first : Token}
    (integer : first.kind = .integer (Int64.ofNat number.toNat)) (position : Position)
    (rest : Bytes) {more : List Token} {file : Bytes}
    (named : more = [] ∧ file = position.file ∨ ∃ name, more = [name] ∧ name.kind = .string file) :
    renumber (first :: more) ⟨position, rest⟩ =
      .ok ⟨{ position with file, line := number }, rest⟩ := by
  obtain ⟨kind, text, location⟩ := first
  dsimp only at integer
  subst integer
  have value : (Int64.ofNat number.toNat).toInt = number.toNat :=
    Int64.toInt_ofNat_of_lt (by omega)
  have inRange : ¬(Int64.ofNat number.toNat < 0 ∨ 0x7fffffff < Int64.ofNat number.toNat) := by
    have zero : (0 : Int64).toInt = 0 := rfl
    have largest : (0x7fffffff : Int64).toInt = 0x7fffffff := rfl
    rw [Int64.lt_iff_toInt_lt, Int64.lt_iff_toInt_lt, value, zero, largest]
    omega
  rcases named with ⟨rfl, rfl⟩ | ⟨⟨kind, _, _⟩, rfl, string⟩
  · simp [renumber, inRange]
  · dsimp only at string
    subst string
    simp [renumber, inRange]

theorem ofDirective_eq_ok {head : Head} {cursor stop next : Cursor} {tokens : List Token}
    (line : afterWord head.directive ((cursor.advance head.blanks).advance head.raw) =
      .ok (tokens, stop))
    (following : nextLine head.directive tokens stop = .ok next) :
    ofDirective head cursor =
      .ok (⟨.directive, head.directive.word, (cursor.advance head.blanks).location head.raw⟩ ::
        tokens ++ [stop.point .lineEnd], next) :=
  bind_eq_ok_iff.2 ⟨_, line, bind_eq_ok_iff.2 ⟨_, following, rfl⟩⟩

/-- A number after a hash makes a line directive. -/
theorem head?_number (number : Nat) (rest : Bytes) :
    head? (bytes "# " ++ (Bytes.ofNat number ++ rest)) = some ⟨[], bytes "# ", .line⟩ := by
  obtain ⟨first, more, spelled⟩ := List.exists_cons_of_ne_nil (Bytes.ofNat_ne_nil number)
  have digit : Byte.isDigit first = true :=
    Bytes.isDigit_ofNat first (spelled ▸ List.mem_cons_self)
  have notBlank := (digit_cases first digit).1
  have sign : bytes "# " = [Byte.hash, Byte.space] := by decide
  have hash : Byte.isBlank Byte.hash = false := rfl
  have space : Byte.isBlank Byte.space = true := rfl
  rw [spelled, sign]
  simp [head?, hash, space, notBlank, digit]

/-- The line of a marker leads to the line that it says. -/
theorem ofDirective_marker (position given : Position) (named : Bool) (rest : Bytes)
    (small : position.line.toNat ≤ 0x7fffffff)
    (sameFile : named = false → given.file = position.file) :
    ∃ line start, start.file = position.file ∧ start.line = position.line ∧ start.column = 0 ∧
      ofDirective ⟨[], bytes "# ", .line⟩
        ⟨given, bytes "# " ++ (Bytes.ofNat position.line.toNat ++
          ((if named then Byte.space :: position.file.quote else []) ++ Byte.newline :: rest))⟩ =
        .ok (line, ⟨start, rest⟩) := by
  let name := if named then Byte.space :: position.file.quote else []
  let start := (given.advance (bytes "# ")).advance (Bytes.ofNat position.line.toNat)
  have ends : (name ++ Byte.newline :: rest).takeWhile Byte.isNumberPart = [] := by
    cases named <;> rfl
  obtain ⟨first, integer, number⟩ := ofLine_number position.line.toNat (by omega)
    (given.advance (bytes "# ")) ends
  obtain ⟨more, file, afterNumber⟩ : ∃ more,
      (more = [] ∧ position.file = ((start.advance name).step Byte.newline).file ∨
        ∃ token, more = [token] ∧ token.kind = .string position.file) ∧
      ofLine ⟨start, name ++ Byte.newline :: rest⟩ =
        .ok (more, ⟨start.advance name, Byte.newline :: rest⟩) := by
    cases named with
    | false =>
        refine ⟨[], .inl ⟨rfl, ?_⟩, ofLine_of_newline start rest⟩
        simp [start, sameFile]
    | true =>
        obtain ⟨token, string, read⟩ := ofLine_name start position.file rest
        exact ⟨[token], .inr ⟨token, rfl, string⟩, read⟩
  have line : afterWord .line ⟨given.advance (bytes "# "), Bytes.ofNat position.line.toNat ++
      (name ++ Byte.newline :: rest)⟩ =
      .ok (first :: more, ⟨start.advance name, Byte.newline :: rest⟩) := by
    rw [afterWord, if_neg (by decide), number, afterNumber]
    rfl
  have next : nextLine .line (first :: more) ⟨start.advance name, Byte.newline :: rest⟩ =
      .ok ⟨{ (start.advance name).step Byte.newline with
        file := position.file, line := position.line }, rest⟩ :=
    renumber_marker small integer ((start.advance name).step Byte.newline) rest file
  have zero : ((start.advance name).step Byte.newline).column = 0 := by
    rw [Position.column_step, if_pos rfl]
  refine ⟨_, _, ?_, ?_, ?_, ofDirective_eq_ok ?_ next⟩
  · rfl
  · rfl
  · exact zero
  · rw [Cursor.advance_nil, Cursor.advance_mk_append]
    exact line

/-- After a marker the text is seen where the marker says. -/
theorem sees_of_marker {position given : Position} {named : Bool} {rest : Bytes}
    (small : position.line.toNat ≤ 0x7fffffff)
    (sameFile : named = false → given.file = position.file)
    (sees : ∀ start : Position, start.file = position.file → start.line = position.line →
      start.column = position.column → Sees true ⟨start, rest⟩ seen) :
    Sees fresh ⟨given, Byte.newline :: position.marker named ++ rest⟩ seen := by
  let blanks := List.replicate position.column.toNat Byte.space
  have marker : Byte.newline :: position.marker named ++ rest =
      Byte.newline :: (bytes "# " ++ (Bytes.ofNat position.line.toNat ++
        ((if named then Byte.space :: position.file.quote else []) ++
          Byte.newline :: (blanks ++ rest)))) := by
    simp [Position.marker, blanks]
  have all : ∀ byte ∈ blanks, Byte.isSpace byte = true := by
    intro byte member
    rw [List.eq_of_mem_replicate member]
    rfl
  obtain ⟨line, start, file, number, column, read⟩ :=
    ofDirective_marker position (given.step Byte.newline) named (blanks ++ rest) small sameFile
  rw [marker]
  apply sees_of_space rfl rfl
  rw [beq_self_eq_true, Bool.or_true]
  refine sees_of_head (head?_number _ _) read (sees_of_spaces all ?_)
  have advanced := start.advance_blanks position.column.toNat
  apply sees
  · rw [Position.file_advance, file]
  · rw [advanced.1, number]
  · rw [advanced.2, column, UInt32.ofNat_toNat, UInt32.zero_add]

/-! ## Lines of directives -/

theorem head?_word (directive : Directive) {rest : Bytes}
    (apart : rest.takeWhile Byte.isLetter = []) :
    head? (Byte.hash :: (directive.word ++ rest)) =
      some ⟨[], Byte.hash :: directive.word, directive⟩ := by
  have letters : ∀ byte ∈ directive.word, Byte.isLetter byte = true := by
    cases directive <;> decide +kernel
  have letter : ∀ byte, Byte.isLetter byte = true →
      Byte.isBlank byte = false ∧ Byte.isDigit byte = false := by
    decide +kernel
  obtain ⟨first, more, spelled⟩ : ∃ first more, directive.word = first :: more :=
    List.exists_cons_of_ne_nil (by cases directive <;> decide)
  obtain ⟨notBlank, notDigit⟩ := letter first (letters first (by simp [spelled]))
  have word : (directive.word ++ rest).takeWhile Byte.isLetter = directive.word := by
    rw [List.takeWhile_append_of_pos letters, apart, List.append_nil]
  have gap : (directive.word ++ rest).takeWhile Byte.isBlank = [] ∧
      (directive.word ++ rest).dropWhile Byte.isBlank = directive.word ++ rest := by
    simp [spelled, notBlank]
  have digit : ((directive.word ++ rest).head?.map Byte.isDigit).getD false = false := by
    simp [spelled, notDigit]
  have hash : Byte.isBlank Byte.hash = false := rfl
  simp only [head?, List.takeWhile_cons, List.dropWhile_cons, hash, Bool.false_eq_true, if_false,
    if_true, gap, word, digit, Directive.ofWord?_word, Option.map_some, List.singleton_append]

/-- A line of a directive other than a definition or a line directive. -/
theorem ofDirective_word {directive : Directive} (notDefine : directive ≠ .define)
    (notLine : directive ≠ .line) {position stop : Position} {rest after : Bytes}
    {tokens : List Token}
    (read : ofLine ⟨position.advance (Byte.hash :: directive.word), rest⟩ =
      .ok (tokens, ⟨stop, Byte.newline :: after⟩)) :
    let last := Cursor.point ⟨stop, Byte.newline :: after⟩ .lineEnd
    ∃ word, word.text = directive.word ∧ (Item.line word tokens last).Proper ∧
      ofDirective ⟨[], Byte.hash :: directive.word, directive⟩
          ⟨position, Byte.hash :: (directive.word ++ rest)⟩ =
        .ok ((Item.line word tokens last).tokens, ⟨stop.advance [Byte.newline], after⟩) := by
  let cursor : Cursor := ⟨position, Byte.hash :: (directive.word ++ rest)⟩
  let head : Head := ⟨[], Byte.hash :: directive.word, directive⟩
  have start : (cursor.advance head.blanks).advance head.raw =
      ⟨position.advance (Byte.hash :: directive.word), rest⟩ :=
    Cursor.advance_mk_append position (Byte.hash :: directive.word) rest
  have line : afterWord head.directive ((cursor.advance head.blanks).advance head.raw) =
      .ok (tokens, ⟨stop, Byte.newline :: after⟩) := by
    rw [start, afterWord, if_neg notDefine, read]
  have next : nextLine head.directive tokens ⟨stop, Byte.newline :: after⟩ =
      .ok ⟨stop.advance [Byte.newline], after⟩ := by
    rw [nextLine, if_neg notLine]
    rfl
  refine ⟨_, rfl, ⟨rfl, ?_, rfl⟩, ofDirective_eq_ok line next⟩
  exact fun token member => .inl (isInline_ofLine read token member)

/-- A source that starts with such a line: its tokens, and then those of the lines after it. -/
theorem ofSource_word (directive : Directive) (notDefine : directive ≠ .define)
    (notLine : directive ≠ .line) {position stop : Position} {rest after : Bytes}
    {tokens : List Token} (apart : rest.takeWhile Byte.isLetter = [])
    (read : ofLine ⟨position.advance (Byte.hash :: directive.word), rest⟩ =
      .ok (tokens, ⟨stop, Byte.newline :: after⟩)) :
    let last := Cursor.point ⟨stop, Byte.newline :: after⟩ .lineEnd
    ∃ word, word.text = directive.word ∧ (Item.line word tokens last).Proper ∧
      ofSource true ⟨position, Byte.hash :: (directive.word ++ rest)⟩ =
        (ofSource true ⟨stop.advance [Byte.newline], after⟩).map
          ((Item.line word tokens last).tokens ++ ·) := by
  obtain ⟨word, spelled, proper, line⟩ := ofDirective_word notDefine notLine read
  refine ⟨word, spelled, proper, ?_⟩
  rw [ofSource_of_head (head?_word directive apart), line]
  rfl

end Token

end ScopedMacros
