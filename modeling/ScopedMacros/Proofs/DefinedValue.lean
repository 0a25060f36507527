import ScopedMacros.Proofs.DefinitionLine
import ScopedMacros.Proofs.Inclusion
import ScopedMacros.Proofs.WellFormed
import ScopedMacros.Session

/-!
# Values given on a command line

A value given for a name becomes the body of a definition line, with a backslash before each newline.
Where the value holds no backslash and no double quote of its own, the scanner takes exactly those
backslashes out again, and the text of the body is the value without the space at its two ends.
-/

namespace ScopedMacros

namespace Bytes

/-! ## Continued lines -/

/-- The text with a backslash before each newline. -/
def continued (text : Bytes) : Bytes :=
  text.flatMap Predefine.directive.continued

@[simp]
theorem continued_nil : continued [] = [] := rfl

@[simp]
theorem continued_newline (text : Bytes) :
    continued (Byte.newline :: text) = Byte.backslash :: Byte.newline :: text.continued := rfl

theorem continued_cons {byte : Byte} (other : byte ≠ Byte.newline) (text : Bytes) :
    continued (byte :: text) = byte :: text.continued := by
  simp [continued, Predefine.directive.continued, other]

theorem continued_append (left right : Bytes) :
    (left ++ right).continued = left.continued ++ right.continued := by
  simp [continued]

theorem continued_of_not_mem {text : Bytes} (noNewline : Byte.newline ∉ text) :
    text.continued = text := by
  induction text with
  | nil => rfl
  | cons byte rest ih =>
      rw [List.mem_cons, not_or] at noNewline
      rw [continued_cons (Ne.symm noNewline.1), ih noNewline.2]

theorem exists_continued_eq_cons {text : Bytes} (nonempty : text ≠ []) :
    ∃ first tail, text.continued = first :: tail ∧ first ≠ Byte.newline := by
  obtain ⟨byte, rest, rfl⟩ := List.exists_cons_of_ne_nil nonempty
  by_cases newline : byte = Byte.newline
  · rw [newline, continued_newline]
    exact ⟨_, _, rfl, by decide⟩
  · rw [continued_cons newline]
    exact ⟨_, _, rfl, newline⟩

/-- The backslashes are all there is to take out again. -/
theorem filter_continued {text : Bytes} (noBackslash : Byte.backslash ∉ text) :
    text.continued.filter (· != Byte.backslash) = text := by
  induction text with
  | nil => rfl
  | cons byte rest ih =>
      rw [List.mem_cons, not_or] at noBackslash
      by_cases newline : byte = Byte.newline
      · subst newline
        rw [continued_newline, List.filter_cons_of_neg (by simp),
          List.filter_cons_of_pos (by decide), ih noBackslash.2]
      · rw [continued_cons newline, List.filter_cons_of_pos (by simp [Ne.symm noBackslash.1]),
          ih noBackslash.2]

theorem takeWhile_continued {test : Byte → Bool} (newline : test Byte.newline = false)
    (backslash : test Byte.backslash = false) (text rest : Bytes) :
    (text.continued ++ Byte.newline :: rest).takeWhile test = text.takeWhile test := by
  induction text with
  | nil => simp [newline]
  | cons byte more ih =>
      by_cases isNewline : byte = Byte.newline
      · subst isNewline
        simp [newline, backslash]
      · rw [continued_cons isNewline, List.cons_append, List.takeWhile_cons, List.takeWhile_cons, ih]

end Bytes

namespace Lexeme

open Bytes

/-- The space at the head of continued lines is the space at the head of the text. -/
theorem continuation_continued {text : Bytes} (noBackslash : Byte.backslash ∉ text) (rest : Bytes) :
    continuation (text.continued ++ Byte.newline :: rest) =
      continued (text.takeWhile Byte.isSpace) := by
  induction text with
  | nil => exact Token.continuation_of_solid rest rfl (by decide)
  | cons byte more ih =>
      rw [List.mem_cons, not_or] at noBackslash
      have further := ih noBackslash.2
      by_cases newline : byte = Byte.newline
      · subst newline
        rw [continued_newline, List.cons_append, List.cons_append, continuation,
          if_neg (by decide), if_pos ⟨rfl, rfl⟩, further]
        rfl
      rw [continued_cons newline, List.cons_append]
      cases blank : Byte.isBlank byte with
      | true =>
          have space : Byte.isSpace byte = true := by simp [Byte.isSpace, blank]
          rw [Token.continuation_of_blank _ blank, further, List.takeWhile_cons_of_pos space,
            continued_cons newline]
      | false =>
          have solid : Byte.isSpace byte = false := by simp [Byte.isSpace, blank, newline]
          rw [Token.continuation_of_solid _ blank (Ne.symm noBackslash.1),
            List.takeWhile_cons_of_neg (by simp [solid])]
          rfl

/-- A character literal in continued lines has no newline. -/
theorem exists_left_of_characterTail? {text tail rest : Bytes} (noBackslash : Byte.backslash ∉ text)
    (found : characterTail? (text.continued ++ Byte.newline :: rest) = some tail) :
    ∃ left, text = tail ++ left ∧ Byte.newline ∉ tail := by
  have unquoted : ∀ first rest, characterTail? (first :: Byte.newline :: rest) = none := by
    intro first rest
    have other : Byte.newline ≠ Byte.apostrophe := by decide
    simp [characterTail?_cons_cons, other]
  cases text with
  | nil =>
      cases rest with
      | nil => cases found
      | cons second rest =>
          have other : Byte.newline ≠ Byte.backslash := by decide
          simp [characterTail?_cons_cons, other] at found
  | cons first more =>
      rw [List.mem_cons, not_or] at noBackslash
      by_cases newline : first = Byte.newline
      · rw [newline, continued_newline, List.cons_append, List.cons_append, unquoted] at found
        cases found
      rw [continued_cons newline, List.cons_append] at found
      cases more with
      | nil =>
          rw [continued_nil, List.nil_append, unquoted] at found
          cases found
      | cons second left =>
          by_cases continues : second = Byte.newline
          · have other : Byte.backslash ≠ Byte.apostrophe := by decide
            rw [continues, continued_newline, List.cons_append, characterTail?_cons_cons,
              if_neg (by simp [Ne.symm noBackslash.1]), if_neg (by simp [other])] at found
            cases found
          · rw [continued_cons continues, List.cons_append, characterTail?_cons_cons,
              if_neg (by simp [Ne.symm noBackslash.1])] at found
            split at found
            · cases found
              exact ⟨left, rfl, by simp [Ne.symm newline, Ne.symm continues]⟩
            · cases found

/-- A lexeme of continued lines other than space holds no newline. -/
theorem exists_solid_continued {first : Byte} {text : Bytes} (notQuote : first ≠ Byte.doubleQuote)
    (noBackslash : Byte.backslash ∉ text) (rest : Bytes) :
    ∃ lexeme left, solid false first (text.continued ++ Byte.newline :: rest) = .ok lexeme ∧
      text = lexeme.more ++ left ∧ Byte.newline ∉ lexeme.more := by
  have run : ∀ kind (test : Byte → Bool), test Byte.newline = false →
      test Byte.backslash = false → ∃ lexeme left,
        Except.ok ⟨kind, (text.continued ++ Byte.newline :: rest).takeWhile test⟩ =
          (Except.ok lexeme : Except Failure Lexeme) ∧
        text = lexeme.more ++ left ∧ Byte.newline ∉ lexeme.more := by
    intro kind test newline backslash
    rw [takeWhile_continued newline backslash]
    exact ⟨_, text.dropWhile test, rfl, List.takeWhile_append_dropWhile.symm,
      newline_not_mem_takeWhile newline text⟩
  have single : ∀ kind, ∃ lexeme left, Except.ok ⟨kind, []⟩ =
      (Except.ok lexeme : Except Failure Lexeme) ∧
        text = lexeme.more ++ left ∧ Byte.newline ∉ lexeme.more :=
    fun kind => ⟨_, text, rfl, rfl, by simp⟩
  unfold solid
  split
  · exact run _ _ rfl rfl
  split
  · exact run _ _ rfl rfl
  split
  · cases found : characterTail? (text.continued ++ Byte.newline :: rest) with
    | none =>
        rw [character, found]
        exact single _
    | some tail =>
        obtain ⟨left, split, noNewline⟩ := exists_left_of_characterTail? noBackslash found
        rw [character, found]
        exact ⟨_, left, rfl, split, noNewline⟩
  iterate 3
    split
    · exact single _
  · exact run _ _ rfl rfl

/-- A lexeme of continued lines covers the continued form of the text that its token holds. -/
theorem exists_inBody_continued {text : Bytes} (nonempty : text ≠ [])
    (noBackslash : Byte.backslash ∉ text) (noQuote : Byte.doubleQuote ∉ text) (rest : Bytes) :
    ∃ first tail lexeme held left, text.continued ++ Byte.newline :: rest = first :: tail ∧
      first ≠ Byte.newline ∧ inBody first tail = .ok lexeme ∧ text = held ++ left ∧ held ≠ [] ∧
      first :: lexeme.more = continued held ∧
      tokenText lexeme.kind (first :: lexeme.more) = held := by
  have space := continuation_continued noBackslash rest
  obtain ⟨byte, more, rfl⟩ := List.exists_cons_of_ne_nil nonempty
  by_cases spaced : Byte.isSpace byte = true
  · -- Space covers all the space at the head of the text.
    have nonempty : (byte :: more).takeWhile Byte.isSpace ≠ [] := by
      simp [List.takeWhile_cons_of_pos spaced]
    have split := (List.takeWhile_append_dropWhile (p := Byte.isSpace) (l := byte :: more)).symm
    have among : Byte.backslash ∉ (byte :: more).takeWhile Byte.isSpace :=
      fun member => noBackslash ((List.takeWhile_sublist _).subset member)
    generalize (byte :: more).takeWhile Byte.isSpace = held at *
    generalize (byte :: more).dropWhile Byte.isSpace = left at *
    obtain ⟨first, tail, starts, notNewline⟩ := exists_continued_eq_cons nonempty
    have whole : continued (byte :: more) ++ Byte.newline :: rest =
        first :: (tail ++ (continued left ++ Byte.newline :: rest)) := by
      rw [split, continued_append, starts, List.cons_append, List.cons_append, List.append_assoc]
    rw [whole, starts] at space
    refine ⟨first, _, ⟨.space, tail⟩, held, left, whole, notNewline, ?_, split, nonempty, starts.symm,
      ?_⟩
    · rw [inBody, space]
    · rw [← starts]
      exact filter_continued among
  · -- Other text has no newline, so that it is its own continued form.
    rw [List.takeWhile_cons_of_neg spaced, continued_nil] at space
    have notNewline : byte ≠ Byte.newline := by
      rintro rfl
      exact spaced rfl
    rw [List.mem_cons, not_or] at noBackslash noQuote
    obtain ⟨lexeme, left, lexed, rfl, noNewline⟩ :=
      exists_solid_continued (Ne.symm noQuote.1) noBackslash.2 rest
    rw [continued_cons notNewline, List.cons_append] at space ⊢
    refine ⟨byte, _, lexeme, byte :: lexeme.more, left, rfl, notNewline, ?_, rfl, by simp, ?_, ?_⟩
    · rw [inBody, space]
      exact lexed
    · rw [continued_of_not_mem]
      simp [noNewline, Ne.symm notNewline]
    · have solid := isSolid_solid lexed
      rw [tokenText, if_neg]
      intro isSpace
      rw [isSpace] at solid
      cases solid

end Lexeme

namespace Token

open Bytes

/-- The body of continued lines ends with them, and its tokens hold the text. -/
theorem exists_ofBody_continued {text : Bytes} (noBackslash : Byte.backslash ∉ text)
    (noQuote : Byte.doubleQuote ∉ text) (position : Position) (rest : Bytes) :
    ∃ tokens place,
      ofBody ⟨position, text.continued ++ Byte.newline :: rest⟩ =
        .ok (tokens, ⟨place, Byte.newline :: rest⟩) ∧
      tokens.flatMap Token.text = text := by
  induction measured : text.length using Nat.strongRecOn generalizing text position with
  | ind size ih =>
      by_cases empty : text = []
      · subst empty
        exact ⟨[], position, ofBody_of_ended rfl, rfl⟩
      obtain ⟨first, tail, lexeme, held, left, whole, notNewline, lexed, rfl, nonempty, covers, holds⟩ :=
        Lexeme.exists_inBody_continued empty noBackslash noQuote rest
      rw [List.mem_append, not_or] at noBackslash noQuote
      have found : (Cursor.mk position (first :: tail)).inLine? = some (first, tail) :=
        if_neg notNewline
      have advanced : (Cursor.mk position (first :: tail)).advance (first :: lexeme.more) =
          ⟨position.advance held.continued, left.continued ++ Byte.newline :: rest⟩ := by
        rw [← whole, covers, continued_append, List.append_assoc]
        exact Cursor.advance_mk_append _ _ _
      obtain ⟨tokens, place, read, same⟩ := ih left.length (by
        have := List.length_pos_iff.2 nonempty
        rw [List.length_append] at measured
        omega) noBackslash.2 noQuote.2 (position.advance held.continued) rfl
      refine ⟨(Cursor.mk position (first :: tail)).token first lexeme :: tokens, place, ?_, ?_⟩
      · rw [whole, ofBody_of_lexeme found lexed, advanced, read]
        rfl
      · rw [List.flatMap_cons, same]
        exact congrArg (· ++ left) holds

end Token

/-! ## Space at the ends -/

namespace Lexeme

variable {multiline : Bool} {first : Byte} {rest : Bytes} {lexeme : Lexeme}

theorem exists_last_of_run {test : Byte → Bool} (solid : ∀ byte, test byte = true →
    Byte.isSpace byte = false) (starts : Byte.isSpace first = false) (rest : Bytes) :
    ∃ front last, first :: rest.takeWhile test = front ++ [last] ∧ Byte.isSpace last = false := by
  have each : ∀ byte ∈ first :: rest.takeWhile test, Byte.isSpace byte = false := by
    intro byte member
    rcases List.mem_cons.1 member with rfl | member
    · exact starts
    · exact solid byte (List.mem_takeWhile_imp member)
  have nonempty : first :: rest.takeWhile test ≠ [] := by simp
  exact ⟨_, _, (List.dropLast_concat_getLast nonempty).symm, each _ (List.getLast_mem nonempty)⟩

/-- Text other than space ends with something other than space. -/
theorem exists_last_of_solid (starts : Byte.isSpace first = false)
    (lexed : solid multiline first rest = .ok lexeme) :
    ∃ front last, first :: lexeme.more = front ++ [last] ∧ Byte.isSpace last = false := by
  unfold solid at lexed
  split at lexed
  · cases lexed
    exact exists_last_of_run (by decide +kernel) starts rest
  split at lexed
  · cases lexed
    exact exists_last_of_run (by decide +kernel) starts rest
  split at lexed
  · obtain ⟨closed, rfl⟩ := closed_of_string lexed
    obtain ⟨front, raw⟩ := exists_raw_of_closed closed
    exact ⟨first :: front, Byte.doubleQuote, congrArg (first :: ·) raw, rfl⟩
  split at lexed
  · cases lexed
    unfold character
    split
    · next tail literal =>
        obtain ⟨front, rfl⟩ := exists_characterTail? literal
        exact ⟨first :: front, Byte.apostrophe, rfl, rfl⟩
    · exact ⟨[], first, rfl, starts⟩
  iterate 3
    split at lexed
    · cases lexed
      exact ⟨[], first, rfl, starts⟩
  · cases lexed
    exact exists_last_of_run (by decide +kernel) starts rest

end Lexeme

namespace Token

/-- A token of space is all space, and one of other text has none at its ends. -/
structure Edged (token : Token) : Prop where
  space : token.kind = .space → ∀ byte ∈ token.text, Byte.isSpace byte = true
  first : token.kind ≠ .space → ∃ byte more, token.text = byte :: more ∧ Byte.isSpace byte = false
  last : token.kind ≠ .space → ∃ front byte, token.text = front ++ [byte] ∧ Byte.isSpace byte = false

theorem edged_inBody {cursor : Cursor} {first : Byte} {rest : Bytes} {lexeme : Lexeme}
    (notNewline : first ≠ Byte.newline) (lexed : Lexeme.inBody first rest = .ok lexeme) :
    (cursor.token first lexeme).Edged := by
  refine ⟨(genuine_inBody lexed).space, ?_, ?_⟩
  all_goals
    intro solid
    have holds : (cursor.token first lexeme).text = first :: lexeme.more := if_neg solid
    unfold Lexeme.inBody at lexed
    split at lexed
    · cases lexed
      exact absurd rfl solid
    · next space =>
        have starts : Byte.isSpace first = false := by
          cases blank : Byte.isBlank first with
          | true =>
              rw [continuation_of_blank _ blank] at space
              cases space
          | false => simp [Byte.isSpace, blank, notNewline]
        rw [holds]
        first
          | exact ⟨first, lexeme.more, rfl, starts⟩
          | exact Lexeme.exists_last_of_solid starts lexed

theorem edged_ofBody {cursor stop : Cursor} {tokens : List Token}
    (read : ofBody cursor = .ok (tokens, stop)) : ∀ token ∈ tokens, token.Edged := by
  fun_induction ofBody cursor generalizing tokens stop with
  | case1 =>
      cases read
      simp
  | case2 => cases read
  | case3 => cases read
  | case4 cursor next found lexeme lexed tail stop' rest ih =>
      cases read
      exact List.forall_mem_cons.2 ⟨edged_inBody (Cursor.rest_of_inLine? found).2 lexed, ih rest⟩

theorem inLine_ofBody {cursor stop : Cursor} {tokens : List Token}
    (read : ofBody cursor = .ok (tokens, stop)) : ∀ token ∈ tokens, token.InLine := by
  have genuine := scansWell_ofBody cursor
  rw [read] at genuine
  intro token member
  have text := isText_ofBody read token member
  refine ⟨?_, ?_, (genuine token member).mark⟩
  · intro kind
    simp [kind, Kind.isText, Kind.isSolid] at text
  · intro kind
    simp [kind, Kind.isText, Kind.isSolid] at text

/-- The space at the head of a text made of parts is that of its parts. -/
theorem dropWhile_flatMap {text : Token → Bytes} {tokens : List Token}
    (space : ∀ token ∈ tokens, token.kind = .space → ∀ byte ∈ text token, Byte.isSpace byte = true)
    (solid : ∀ token ∈ tokens, token.kind ≠ .space →
      ∃ byte more, text token = byte :: more ∧ Byte.isSpace byte = false) :
    (tokens.flatMap text).dropWhile Byte.isSpace =
      (tokens.dropWhile (·.kind == .space)).flatMap text := by
  induction tokens with
  | nil => rfl
  | cons token rest ih =>
      obtain ⟨here, spaces⟩ := List.forall_mem_cons.1 space
      obtain ⟨there, solids⟩ := List.forall_mem_cons.1 solid
      rw [List.flatMap_cons]
      by_cases kind : token.kind = .space
      · rw [List.dropWhile_append_of_pos (here kind), ih spaces solids,
          List.dropWhile_cons_of_pos (by simp [kind])]
      · obtain ⟨byte, more, holds, notSpace⟩ := there kind
        rw [List.dropWhile_cons_of_neg (by simp [kind]), List.flatMap_cons, holds, List.cons_append,
          List.dropWhile_cons_of_neg (by simp [notSpace])]

/-- The text of the trimmed tokens is the text without the space at its two ends. -/
theorem strip_flatMap {tokens : List Token} (each : ∀ token ∈ tokens, token.Edged) :
    Bytes.strip (tokens.flatMap Token.text) = (Token.trim tokens).flatMap Token.text := by
  have left := dropWhile_flatMap (fun token member => (each token member).space)
    fun token member => (each token member).first
  have kept : ∀ token ∈ (tokens.dropWhile (·.kind == .space)).reverse, token.Edged :=
    fun token member => each token ((List.dropWhile_sublist _).subset (List.mem_reverse.1 member))
  have right := @dropWhile_flatMap (List.reverse ∘ Token.text) _
    (fun token member kind byte among => (kept token member).space kind byte (List.mem_reverse.1 among))
    fun token member kind => by
      obtain ⟨front, byte, holds, notSpace⟩ := (kept token member).last kind
      exact ⟨byte, front.reverse, by simp [holds], notSpace⟩
  rw [Bytes.strip, left, List.reverse_flatMap, right, List.reverse_flatMap]
  simp [Token.trim, Function.comp_def]

end Token

/-! ## Bodies -/

namespace Builder

variable {base builder : Builder} {tokens more : List Token} {token stop : Token}

/-- Text can always be taken inside of text. -/
theorem Inside.exists_step (reads : ReadsText base.frames) (text : token.kind.isText = true)
    (inside : Inside base tokens builder) : ∃ next, builder.step token = .ok next := by
  have notEnd : token.kind ≠ .lineEnd := by
    intro kind
    simp [kind, Token.Kind.isText, Token.Kind.isSolid] at text
  have notDirective : token.kind ≠ .directive := by
    intro kind
    simp [kind, Token.Kind.isText, Token.Kind.isSolid] at text
  have ofLeaf : ∀ builder : Builder, ∃ next, builder.leaf token = .ok next := by
    intro builder
    obtain ⟨node, taken, _⟩ := exists_leaf text builder
    exact ⟨_, taken⟩
  cases inside with
  | flat =>
      rw [reads _ token notEnd]
      unfold plain
      split
      · contradiction
      · split
        · exact ⟨_, rfl⟩
        · exact ofLeaf _
      · exact ofLeaf _
  | @call _ _ _ nodes before frames location name depth arguments =>
      change ∃ next, argument nodes ⟨before, frames⟩ location name depth arguments token = .ok next
      unfold argument
      dsimp only
      split
      · contradiction
      · contradiction
      · exact ⟨_, rfl⟩
      · exact ⟨_, rfl⟩
      · exact ofLeaf _
      · split
        · exact ⟨_, rfl⟩
        · exact ofLeaf _
      · exact ofLeaf _

theorem Inside.exists_foldlM (reads : ReadsText base.frames)
    (noName : ∀ location name before, base.nodes ≠ .ident location name :: before)
    (text : ∀ token ∈ more, token.kind.isText = true) (inLine : ∀ token ∈ more, token.InLine)
    (inside : Inside base tokens builder) :
    ∃ next, more.foldlM Builder.step builder = .ok next ∧ Inside base (tokens ++ more) next := by
  induction more generalizing tokens builder with
  | nil => exact ⟨builder, rfl, by rwa [List.append_nil]⟩
  | cons token rest ih =>
      obtain ⟨first, texts⟩ := List.forall_mem_cons.1 text
      obtain ⟨firstIn, inLines⟩ := List.forall_mem_cons.1 inLine
      obtain ⟨middle, taken⟩ := inside.exists_step reads first
      obtain ⟨next, read, further⟩ := ih texts inLines (inside.step reads noName firstIn taken)
      refine ⟨next, (foldlM_cons_of_ok taken).trans read, ?_⟩
      rwa [List.append_cons]

/-- The body of a definition can always be read up to the end of its line, where the definition is
done or a call is still open. -/
theorem foldlM_body {word : Token} {name : Bytes} {parameters : Option (List Bytes)}
    (text : ∀ token ∈ tokens, token.kind.isText = true) (inLine : ∀ token ∈ tokens, token.InLine)
    (isEnd : stop.kind = .lineEnd) (outer : Builder) :
    (∃ location nodes, (tokens ++ [stop]).foldlM step (outer.enter (.define word name parameters)) =
        .ok (outer.push (.define location name parameters (Node.trim nodes))) ∧ Text tokens nodes) ∨
      ∃ called location, [Byte.leftParen] ∈ tokens.map Token.text ∧
        (tokens ++ [stop]).foldlM step (outer.enter (.define word name parameters)) =
          .error ⟨.unterminatedCall called, location⟩ := by
  let base := outer.enter (.define word name parameters)
  have start : Inside base [] ⟨[] ++ base.nodes, base.frames⟩ := .flat .nil
  obtain ⟨next, read, inside⟩ := start.exists_foldlM (readsText_define _ _ _ _ _)
    (by simp [base, Builder.enter]) text inLine
  change tokens.foldlM step base = .ok next at read
  have whole : (tokens ++ [stop]).foldlM step base = next.step stop >>= .ok :=
    foldlM_append_of_ok read
  rw [List.nil_append] at inside
  cases inside with
  | @flat _ nodes spelled =>
      refine .inl ⟨word.location.span stop.location, nodes.reverse, whole.trans ?_, spelled⟩
      simp [step, isEnd, base, enter, push, Bind.bind, Except.bind]
  | @call _ _ paren nodes before frames location called _ _ _ opens =>
      refine .inr ⟨called, location, ?_, whole.trans ?_⟩
      · have written : paren.text = [Byte.leftParen] := by
          rw [← paren.text_word, opens]
          rfl
        simp [written]
      · simp [step, argument, isEnd, Bind.bind, Except.bind]

end Builder

/-! ## Definitions -/

namespace Predefine

/-- What a value adds to the line that defines a macro, but for the continued lines. -/
def valueText (value : Bytes) : Bytes :=
  if value.isEmpty then [] else Byte.space :: value

theorem bne_equals_of_mem {head : Bytes} (noEquals : Byte.equals ∉ head) :
    ∀ byte ∈ head, (byte != Byte.equals) = true := by
  intro byte member
  rw [bne_iff_ne]
  rintro rfl
  exact noEquals member

theorem directive_of_value {head : Bytes} (noEquals : Byte.equals ∉ head) (value : Bytes) :
    directive (head ++ Byte.equals :: value) =
      bytes "#define " ++ head ++ ((valueText value).continued ++ [Byte.newline]) := by
  have other := bne_equals_of_mem noEquals
  have taken : (head ++ Byte.equals :: value).takeWhile (· != Byte.equals) = head := by
    rw [List.takeWhile_append_of_pos other, List.takeWhile_cons_of_neg (by simp), List.append_nil]
  have dropped : (head ++ Byte.equals :: value).dropWhile (· != Byte.equals) =
      Byte.equals :: value := by
    rw [List.dropWhile_append_of_pos other, List.dropWhile_cons_of_neg (by simp)]
  unfold directive
  rw [taken, dropped]
  cases value with
  | nil => simp [valueText]
  | cons byte rest =>
      have space : directive.continued Byte.space = [Byte.space] := rfl
      simp [valueText, Bytes.continued, space]

/-- The text after a signature is set apart from it. -/
theorem apart_valueText (value rest : Bytes) :
    ((valueText value).continued ++ Byte.newline :: rest).EndsName ∧
      ((valueText value).continued ++ Byte.newline :: rest).head? ≠ some Byte.leftParen := by
  have starts : ∃ byte, Byte.isNamePart byte = false ∧ byte ≠ Byte.leftParen ∧
      ((valueText value).continued ++ Byte.newline :: rest).head? = some byte := by
    cases value with
    | nil => exact ⟨Byte.newline, rfl, by decide, rfl⟩
    | cons byte more => exact ⟨Byte.space, rfl, by decide, rfl⟩
  obtain ⟨byte, notPart, notParen, starts⟩ := starts
  rw [Bytes.EndsName, starts]
  exact ⟨by simpa using notPart, by simpa using notParen⟩

theorem mem_valueText {byte : Byte} {value : Bytes} (solid : byte ≠ Byte.space) :
    byte ∈ valueText value ↔ byte ∈ value := by
  cases value <;> simp [valueText, solid]

theorem strip_valueText (value : Bytes) : (valueText value).strip = value.strip := by
  cases value with
  | nil => rfl
  | cons byte rest =>
      have space : Byte.isSpace Byte.space = true := rfl
      simp [valueText, Bytes.strip, space]

end Predefine

/-- The tokens of a line that defines a name by a value. -/
theorem Token.exists_scan_value (file : Bytes) {name value : Bytes} (isName : name.isName = true)
    (noBackslash : Byte.backslash ∉ value) (noQuote : Byte.doubleQuote ∉ value) :
    ∃ word head opener body stop last,
      word.kind = .directive ∧ word.text = Directive.define.word ∧
      head.map unplaced = Signature.tokens ⟨name, none⟩ ∧ opener.kind = .body ∧
      (∃ cursor, ofBody cursor = .ok (body, stop)) ∧
      body.flatMap Token.text = Predefine.valueText value ∧
      scan file (Predefine.directive (name ++ Byte.equals :: value)) =
        .ok (word :: (head ++ opener :: (body ++ [stop.point .lineEnd])) ++ [last]) := by
  have proper : Signature.Proper ⟨name, none⟩ := ⟨isName, by simp⟩
  have noEquals : Byte.equals ∉ name := Bytes.not_mem_of_isName rfl isName
  obtain ⟨ends, apart⟩ := Predefine.apart_valueText value []
  obtain ⟨word, head, opener, place, isDirective, spelled, same, isBody, source⟩ :=
    ofSource_definition proper (.first file) ends apart
  obtain ⟨body, ended, read, holds⟩ := exists_ofBody_continued
    ((Predefine.mem_valueText (by decide)).not.2 noBackslash)
    ((Predefine.mem_valueText (by decide)).not.2 noQuote) place []
  refine ⟨word, head, opener, body, ⟨ended, [Byte.newline]⟩,
    Cursor.point ⟨ended.advance [Byte.newline], []⟩ .fileEnd, isDirective, spelled, same, isBody,
    ⟨_, read⟩, holds, ?_⟩
  have whole : Signature.text ⟨name, none⟩ = name := List.append_nil name
  rw [Predefine.directive_of_value noEquals, ← whole, scan, source, read]
  change (ofSource true ⟨ended.advance [Byte.newline], []⟩).map _ = _
  rw [ofSource_of_rest_nil rfl]
  simp [Except.map]

/-- A value given for a name without a backslash or a double quote arrives unchanged, whatever else
it holds: the line that defines the name is read as one definition without parameters, whose body has
the text of the value without the space at its two ends.  It fails only if the value leaves a call
open. -/
theorem Node.ofSource_value (file : Bytes) {name value : Bytes} (isName : name.isName = true)
    (noBackslash : Byte.backslash ∉ value) (noQuote : Byte.doubleQuote ∉ value) :
    (∃ location body,
        Node.ofSource file (Predefine.directive (name ++ Byte.equals :: value)) =
          .ok [.define location name none body] ∧
        (Node.textsOf body).flatten = value.strip) ∨
      Byte.leftParen ∈ value ∧ ∃ called location,
        Node.ofSource file (Predefine.directive (name ++ Byte.equals :: value)) =
          .error ⟨.unterminatedCall called, location⟩ := by
  obtain ⟨word, head, opener, body, stop, last, isDirective, spelled, same, isBody,
    ⟨cursor, scannedBody⟩, holds, scanned⟩ := Token.exists_scan_value file isName noBackslash noQuote
  have block : Builder.AtBlock Builder.empty.frames := trivial
  have read : Node.ofSource file (Predefine.directive (name ++ Byte.equals :: value)) =
      (body ++ [stop.point .lineEnd]).foldlM Builder.step
        (Builder.empty.enter (.define word name none)) >>= fun builder => builder.finish last := by
    rw [Node.ofSource_eq scanned, Builder.foldlM_definition block isDirective spelled isBody same,
      Builder.takeHead_name isBody same]
    rfl
  rw [read]
  have isEnd : (stop.point .lineEnd).kind = .lineEnd := rfl
  rcases Builder.foldlM_body (Token.isText_ofBody scannedBody) (Token.inLine_ofBody scannedBody) isEnd
      Builder.empty with ⟨location, nodes, built, spells⟩ | ⟨called, location, opens, failed⟩
  · refine .inl ⟨location, Node.trim nodes, ?_, ?_⟩
    · rw [built]
      rfl
    · rw [spells.texts_trim, ← List.flatMap_def, ← Token.strip_flatMap (Token.edged_ofBody scannedBody),
        holds, Predefine.strip_valueText]
  · refine .inr ⟨?_, called, location, ?_⟩
    · obtain ⟨token, member, written⟩ := List.mem_map.1 opens
      have among : Byte.leftParen ∈ body.flatMap Token.text :=
        List.mem_flatMap.2 ⟨token, member, by simp [written]⟩
      rw [holds, Predefine.mem_valueText (by decide)] at among
      exact among
    · rw [failed]
      rfl

/-- A value over several lines, with a call that goes on in the second one. -/
def Predefine.spanningValue : Bytes :=
  bytes "\n f(a,\n'(') # __LINE__= \n"

theorem Node.ofSource_value_spanning :
    Bytes.isName (bytes "M") = true ∧ Byte.backslash ∉ Predefine.spanningValue ∧
      Byte.doubleQuote ∉ Predefine.spanningValue ∧ ∃ location body,
      Node.ofSource (bytes "s")
          (Predefine.directive (bytes "M" ++ Byte.equals :: Predefine.spanningValue)) =
        .ok [.define location (bytes "M") none body] ∧
      (Node.textsOf body).flatten = bytes "f(a,\n'(') # __LINE__=" := by
  have isName : Bytes.isName (bytes "M") = true := by decide
  have noBackslash : Byte.backslash ∉ Predefine.spanningValue := by decide
  have noQuote : Byte.doubleQuote ∉ Predefine.spanningValue := by decide
  refine ⟨isName, noBackslash, noQuote, ?_⟩
  rcases Node.ofSource_value (bytes "s") isName noBackslash noQuote with
    ⟨location, body, read, same⟩ | ⟨_, called, location, failed⟩
  · exact ⟨location, body, read, same.trans (by decide)⟩
  · have reads : (Node.ofSource (bytes "s") (Predefine.directive
        (bytes "M" ++ Byte.equals :: Predefine.spanningValue))).isOk = true := by
      decide +kernel
    rw [failed] at reads
    cases reads

end ScopedMacros
