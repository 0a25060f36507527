import ScopedMacros.Proofs.MarkerErasure
import ScopedMacros.Proofs.Relexing

/-!
# Text that passes through

A source that has no directive lines and uses no macro comes out as it went in.  With line markers,
one marker is put in front of its first byte that is not space.
-/

namespace ScopedMacros

/-! ## Names that are not bound -/

namespace Expansion

open Step

variable {files : FileSet} {context : Context} {node : Node} {nodes : List Node} {env : Env}

/-- Expanding the nodes changes no binding. -/
def KeepsEnv (files : FileSet) (context : Context) (nodes : List Node) (env : Env) : Prop :=
  ∃ said, run files context nodes env = ⟨said, .ok env⟩

theorem usesNoMacro_of_each (free : ∀ node ∈ nodes, UsesNoMacro files context [node] env)
    (keeps : ∀ node ∈ nodes, KeepsEnv files context [node] env) :
    UsesNoMacro files context nodes env := by
  induction nodes with
  | nil => exact usesNoMacro_nil
  | cons node rest ih =>
      obtain ⟨own, inside, _⟩ := usesNoMacro_cons_iff.1 (free node (by simp))
      rw [usesNoMacro_cons_iff]
      refine ⟨own, inside, ?_⟩
      intro said middle ran
      obtain ⟨events, kept⟩ := keeps node (by simp)
      rw [kept] at ran
      cases ran
      exact ih (fun other member => free other (by simp [member]))
        fun other member => keeps other (by simp [member])

theorem exists_passArguments_of_each (separator : List Event) {arguments : List (List Node)}
    (keeps : ∀ argument ∈ arguments, KeepsEnv files context argument env) :
    ∃ said, passArguments (step files) context (say separator) arguments env =
      some ⟨said, .ok env⟩ := by
  induction arguments using List.reverseRecOn with
  | nil => exact ⟨[], rfl⟩
  | append_singleton earlier argument ih =>
      obtain ⟨said, passed⟩ := ih fun other member => keeps other (by simp [member])
      obtain ⟨more, ran⟩ := keeps argument (by simp)
      have separated : andThen (passArguments (step files) context (say separator) earlier)
          (say (if earlier.isEmpty then [] else separator)) env =
          some ⟨said ++ (if earlier.isEmpty then [] else separator), .ok env⟩ := by
        rw [andThen_of_ok passed]
        rfl
      refine ⟨said ++ (if earlier.isEmpty then [] else separator) ++ more, ?_⟩
      rw [passArguments_append, andThen_of_ok separated, List.map_nil, all, andThen_say_nil]
      change (some (run files context argument env)).map _ = _
      rw [ran]
      rfl

/-- The names among words are not bound. -/
def Unbound (env : Env) (words : List Word) : Prop :=
  ∀ name, .name name ∈ words → env.lookup name = none

/-- Plain nodes use no macro if none of their names is bound. -/
theorem usesNoMacro_of_plain (plain : node.Plain) (unbound : Unbound env node.words)
    (fixed : ∀ word ∈ node.words, word.isFixed = true) :
    UsesNoMacro files context [node] env := by
  have nothing : ∀ said middle, run files context [node] env = ⟨said, .ok middle⟩ →
      UsesNoMacro files context [] middle := fun _ _ _ => usesNoMacro_nil
  rw [usesNoMacro_cons_iff]
  induction plain with
  | ident location name =>
      have free : env.lookup name = none := unbound name (by simp [Node.words])
      refine ⟨?_, ?_, nothing⟩
      · rintro _ ⟨⟩
        exact free
      · rintro said inner entered middle ⟨⟩
        rename_i bound
        rw [free] at bound
        cases bound
  | call location name arguments plain ih =>
      have free : env.lookup name = none := unbound name (by simp [Node.words])
      have words : ∀ argument ∈ arguments, ∀ node ∈ argument, ∀ word ∈ node.words,
          word ∈ (Node.call location name arguments).words := by
        intro argument member node inner word spelled
        have among := Node.mem_wordsOfArguments member inner spelled
        simp [Node.words, among]
      have each : ∀ argument ∈ arguments, ∀ node ∈ argument,
          UsesNoMacro files context [node] env := by
        intro argument member node inner
        rw [usesNoMacro_cons_iff]
        refine ih argument member node inner ?_ ?_ fun _ _ _ => usesNoMacro_nil
        · exact fun name spelled => unbound name (words argument member node inner _ spelled)
        · exact fun word spelled => fixed word (words argument member node inner _ spelled)
      have gives : ∀ argument ∈ arguments, ∀ node ∈ argument,
          GivesWords files context env node := by
        intro argument member node inner
        refine givesWords_of_plain (plain argument member node inner) ?_
        exact fun word spelled => fixed word (words argument member node inner _ spelled)
      have argumentFree : ∀ argument ∈ arguments, UsesNoMacro files context argument env := by
        intro argument member
        refine usesNoMacro_of_each (each argument member) fun node inner => ?_
        obtain ⟨said, ran, _⟩ := gives argument member node inner (each argument member node inner)
        exact ⟨said, ran⟩
      refine ⟨?_, ?_, nothing⟩
      · rintro _ ⟨⟩
        exact free
      · intro said inner entered middle enters
        cases enters with
        | call bound =>
            rw [free] at bound
            cases bound
        | @argument _ _ earlier later _ _ _ _ _ passed =>
            have keeps : ∀ other ∈ earlier, KeepsEnv files context other env := by
              intro other member
              have member : other ∈ earlier ++ entered :: later := by simp [member]
              obtain ⟨said, ran, _⟩ := exists_gives_of_each (gives other member)
                (argumentFree other member)
              exact ⟨said, ran⟩
            obtain ⟨before, reached⟩ :=
              exists_passArguments_of_each [.text location.start [Byte.comma]] keeps
            rw [andThen_of_ok reached] at passed
            cases passed
            exact argumentFree entered (by simp)
  | _ =>
      refine ⟨?_, ?_, nothing⟩
      · rintro _ ⟨⟩
      · rintro _ _ _ _ ⟨⟩

end Expansion

/-! ## Sources of text alone -/

theorem Text.append {left right : List Token} {nodes more : List Node} (first : Text left nodes)
    (second : Text right more) : Text (left ++ right) (nodes ++ more) where
  words := by
    rw [Node.wordsOf_append, first.words, second.words, List.map_append]
  start := by
    rw [Node.start?_append, Token.start?_append, first.start, second.start]
  plain node member := by
    rcases List.mem_append.1 member with member | member
    · exact first.plain node member
    · exact second.plain node member

/-- Items that are text alone are spelled as text. -/
theorem text_of_spelled {items : List Item} {nodes : List Node} {part : Part}
    (spelled : Spelled part items nodes) :
    ∀ tokens : List Token, items = tokens.map .text → part = .block → Text tokens nodes := by
  induction spelled with
  | nil =>
      intro tokens same _
      rw [List.map_eq_nil_iff.1 same.symm]
      exact .nil
  | @text front _ _ rest text _ ih =>
      intro tokens same _
      obtain ⟨first, second, rfl, firstSame, secondSame⟩ := List.append_eq_map_iff.1 same
      rw [List.map_inj_right (by simp)] at firstSame
      rw [firstSame]
      exact text.append (ih second secondSame.symm rfl)
  | line | cond =>
      intro tokens same _
      cases tokens <;> cases same
  | endIf | otherwise | elseIf =>
      intro _ _ block
      cases block

namespace Token

theorem kind_of_word {token : Token} {name : Bytes} (same : token.word = .name name) :
    token.kind = .ident ∧ token.text = name := by
  unfold word at same
  split at same
  · cases same
    exact ⟨‹_›, rfl⟩
  · cases same
  · cases same

theorem isFixed_word {token : Token} (noLine : token.isWord (bytes "__LINE__") = false)
    (noFile : token.isWord (bytes "__FILE__") = false) : token.word.isFixed = true := by
  cases same : token.word with
  | name name =>
      obtain ⟨isName, rfl⟩ := kind_of_word same
      simp only [isWord, isName, beq_self_eq_true, Bool.true_and] at noLine noFile
      simp [Word.isFixed, bne, noLine, noFile]
  | _ => rfl

/-- Without directive words, a list of proper items is text alone. -/
theorem exists_texts_of_items {items : List Item} (proper : ∀ item ∈ items, item.Proper)
    (none : ∀ token ∈ items.flatMap Item.tokens, token.kind ≠ .directive) :
    ∃ tokens : List Token, items = tokens.map .text ∧ items.flatMap Item.tokens = tokens := by
  obtain ⟨tokens, rest, rfl, ends⟩ := Builder.exists_texts items
  rcases ends with rfl | ⟨word, arguments, stop, more, rfl⟩
  · refine ⟨tokens, List.append_nil _, ?_⟩
    rw [List.append_nil, List.flatMap_map]
    exact List.flatMap_singleton' tokens
  · have line : (Item.line word arguments stop).Proper := proper _ (by simp)
    exact absurd line.1 (none word (by simp [Item.tokens]))

variable {fresh : Bool} {cursor : Cursor} {items : List Item}

/-- A token of a source gives out the bytes that it is cut from. -/
theorem content_of_lexeme {first : Byte} {rest : Bytes} {lexeme : Lexeme} (cursor : Cursor)
    (lexed : Lexeme.inSource first rest = .ok lexeme) :
    (cursor.token first lexeme).event.content = first :: lexeme.more := by
  rcases Lexeme.inSource_cases lexed with ⟨space, all, _⟩ | ⟨solid, _⟩
  · rw [event_of_space space all]
    rfl
  · rw [event_of_solid solid]
    rfl

theorem rest_eq_of_lexeme {first : Byte} {rest : Bytes} {lexeme : Lexeme}
    (left : cursor.rest = first :: rest) (lexed : Lexeme.inSource first rest = .ok lexeme) :
    cursor.rest = first :: lexeme.more ++ (cursor.advance (first :: lexeme.more)).rest := by
  obtain ⟨after, whole⟩ := Lexeme.prefix_inSource lexed
  rw [Cursor.advance, left, ← whole, ← List.cons_append, List.drop_left]

/-- The tokens of a text give out its bytes. -/
theorem content_of_laid (laid : Laid fresh cursor items) :
    ∀ tokens : List Token, items = tokens.map .text →
      (tokens.map event).flatMap Event.content = cursor.rest := by
  induction laid with
  | stop _ ended =>
      intro tokens same
      rw [List.map_eq_nil_iff.1 same.symm, ended]
      rfl
  | @text _ cursor first rest lexeme items _ left lexed _ ih =>
      intro tokens same
      obtain ⟨token, others, rfl, sameToken, rfl⟩ := List.map_eq_cons_iff.1 same.symm
      cases sameToken
      rw [List.map_cons, List.flatMap_cons, ih others rfl, content_of_lexeme cursor lexed,
        ← rest_eq_of_lexeme left lexed]
  | line =>
      intro tokens same
      cases tokens <;> cases same

/-- The first token other than space stands after the space that the text begins with, and there a
marker is put if one is owed. -/
theorem start_of_laid (laid : Laid fresh cursor items) (file : Option Bytes) :
    ∀ tokens : List Token, items = tokens.map .text →
      let place := cursor.position.advance (cursor.rest.takeWhile Byte.isSpace)
      let rest := cursor.rest.dropWhile Byte.isSpace
      (tokens.find? (·.kind.isSolid)).map (·.location.start) =
          (if rest = [] then none else some place) ∧
        (Layout.mk true file).render (tokens.map event) =
          cursor.rest.takeWhile Byte.isSpace ++
            (if rest = [] then []
              else Byte.newline :: place.marker (file != some place.file) ++ rest) := by
  induction laid with
  | stop _ ended =>
      intro tokens same
      rw [List.map_eq_nil_iff.1 same.symm, ended]
      exact ⟨rfl, rfl⟩
  | @text _ cursor first rest lexeme items _ left lexed laid ih =>
      intro tokens same
      obtain ⟨token, others, rfl, sameToken, rfl⟩ := List.map_eq_cons_iff.1 same.symm
      cases sameToken
      have whole := rest_eq_of_lexeme left lexed
      rcases Lexeme.inSource_cases lexed with ⟨space, all, _⟩ | ⟨solid, _, notNewline, notBlank⟩
      · obtain ⟨start, render⟩ := ih others rfl
        have notSolid : (cursor.token first lexeme).kind.isSolid = false := by
          simp [Cursor.token, space, Kind.isSolid]
        have taken : cursor.rest.takeWhile Byte.isSpace = first :: lexeme.more ++
            (cursor.advance (first :: lexeme.more)).rest.takeWhile Byte.isSpace := by
          rw [whole, List.takeWhile_append_of_pos all]
        have dropped : cursor.rest.dropWhile Byte.isSpace =
            (cursor.advance (first :: lexeme.more)).rest.dropWhile Byte.isSpace := by
          rw [whole, List.dropWhile_append_of_pos all]
        dsimp only
        rw [taken, dropped, Position.advance_append, List.find?_cons_of_neg (by simp [notSolid])]
        refine ⟨start, ?_⟩
        rw [List.map_cons, event_of_space space all, Layout.render_space, render, List.append_assoc]
        rfl
      · have notSpace : Byte.isSpace first = false := by
          simp [Byte.isSpace, notBlank, notNewline]
        have taken : cursor.rest.takeWhile Byte.isSpace = [] := by
          rw [left, List.takeWhile_cons_of_neg (by simp [notSpace])]
        have dropped : cursor.rest.dropWhile Byte.isSpace = cursor.rest := by
          rw [left, List.dropWhile_cons_of_neg (by simp [notSpace])]
        have nonempty : cursor.rest ≠ [] := by simp [left]
        have isSolid : (cursor.token first lexeme).kind.isSolid = true := solid
        have paid := Layout.render_of_paid (Layout.mk false (some cursor.position.file)) rfl
          (Gives.tokens others).inline
        dsimp only
        rw [taken, dropped, if_neg nonempty, if_neg nonempty]
        rw [List.find?_cons_of_pos (p := fun token : Token => token.kind.isSolid) isSolid]
        refine ⟨rfl, ?_⟩
        rw [List.map_cons, event_of_solid solid, Layout.render_text_owed, paid.1,
          content_of_laid laid others rfl, ← whole]
        rfl
  | line =>
      intro tokens same
      cases tokens <;> cases same

end Token

/-- Text whose names are not bound is expanded into its words. -/
theorem Expansion.exists_gives_of_text (files : FileSet) (context : Context) {env : Env}
    {tokens : List Token} {nodes : List Node} (text : Text tokens nodes)
    (fixed : ∀ token ∈ tokens, token.word.isFixed = true)
    (unbound : ∀ token ∈ tokens, token.kind = .ident → env.lookup token.text = none) :
    ∃ said, run files context nodes env = ⟨said, .ok env⟩ ∧
      Gives said (tokens.map Token.word) (Token.start? tokens) := by
  have token : ∀ node ∈ nodes, ∀ word ∈ node.words, ∃ token ∈ tokens, token.word = word := by
    intro node member word spelled
    have among : word ∈ Node.wordsOf nodes := Node.mem_wordsOf member spelled
    rw [text.words] at among
    exact List.mem_map.1 among
  have fixed : ∀ node ∈ nodes, ∀ word ∈ node.words, word.isFixed = true := by
    intro node member word spelled
    obtain ⟨token, inText, rfl⟩ := token node member word spelled
    exact fixed token inText
  have free : ∀ node ∈ nodes, UsesNoMacro files context [node] env := by
    intro node member
    refine usesNoMacro_of_plain (text.plain node member) ?_ (fixed node member)
    intro name spelled
    obtain ⟨token, inText, same⟩ := token node member _ spelled
    obtain ⟨isName, rfl⟩ := token.kind_of_word same
    exact unbound token inText isName
  have gives : ∀ node ∈ nodes, GivesWords files context env node :=
    fun node member => givesWords_of_plain (text.plain node member) (fixed node member)
  have keeps : ∀ node ∈ nodes, KeepsEnv files context [node] env := by
    intro node member
    obtain ⟨said, ran, _⟩ := gives node member (free node member)
    exact ⟨said, ran⟩
  obtain ⟨said, ran, given⟩ := exists_gives_of_each gives (usesNoMacro_of_each free keeps)
  rw [text.words, text.start] at given
  exact ⟨said, ran, given⟩

/-- A source with a marker in front of its first byte that is not space. -/
def Bytes.marked (file text : Bytes) : Bytes :=
  let space := text.takeWhile Byte.isSpace
  let rest := text.dropWhile Byte.isSpace
  if rest = [] then text
  else space ++ Byte.newline :: ((Position.first file).advance space).marker true ++ rest

namespace Layout

variable {name text : Bytes} {tokens : List Token} {said : List Event} {start : Option Position}
  (gives : Gives said (tokens.map Token.word) start)
  (laid : Token.Laid true ⟨.first name, text⟩ (tokens.map .text))

include gives laid

/-- Without markers the output of the words of a source is the source. -/
theorem output_false_of_laid : output false said = text := by
  have written : ∀ events : List Event, (∀ event ∈ events, event.isInline = true) →
      events.flatMap Event.written = events.flatMap Event.content := by
    intro events inline
    rw [List.flatMap_def, List.flatMap_def]
    refine congrArg List.flatten (List.map_congr_left fun event member => ?_)
    cases event with
    | text | space => simp [Event.written, Event.piece?, Piece.render, Event.content]
    | _ => cases inline _ member
  calc output false said = said.flatMap Event.content := by
        rw [output_false, written said gives.inline]
    _ = (tokens.map Token.event).flatMap Event.content := by
        rw [gives.content, (Gives.tokens tokens).content]
    _ = text := Token.content_of_laid laid tokens rfl

/-- With markers the output of the words of a source is the source with a marker in it. -/
theorem output_true_of_laid (placed : start = Token.start? tokens) :
    output true said = Bytes.marked name text := by
  subst placed
  obtain ⟨_, render⟩ := Token.start_of_laid laid none tokens rfl
  calc output true said = (mk true none).render (tokens.map Token.event) :=
        (gives.same (.tokens tokens)).render Layout.start
    _ = Bytes.marked name text := by
        rw [render, Bytes.marked]
        split
        · rename_i allSpace
          have whole := List.takeWhile_append_dropWhile (p := Byte.isSpace) (l := text)
          rw [allSpace, List.append_nil] at whole
          rw [List.append_nil, whole]
        · rw [List.append_assoc]
          rfl

end Layout

/-! ## Sessions -/

namespace Session

/-- Text and space leave nothing in a session but their output. -/
theorem take_of_inline (session : Session) {events : List Event}
    (inline : ∀ event ∈ events, event.isInline = true) :
    session.take ⟨events, .ok session.env⟩ true =
      (session, ⟨.ok (Layout.output session.markers events), []⟩) := by
  have quiet : Diagnostic.ofEvents events = [] := by
    rw [Diagnostic.ofEvents, List.filterMap_eq_nil_iff]
    intro event member
    cases event with
    | warning => cases inline _ member
    | _ => rfl
  have loads : loadsOf events = [] := by
    rw [loadsOf, List.filterMap_eq_nil_iff]
    intro event member
    cases event with
    | load => cases inline _ member
    | _ => rfl
  simp [take, quiet, loads, Log.append]

/-- A source that can be read, has no directive line, and neither asks for the current line or file
nor has a name that is bound leaves the session as it is and is given out byte for byte.  With
markers, there is one in front of the first token other than space, which stands right after the
space that the source begins with. -/
theorem expand_text_verbatim (session : Session) (name text : Bytes) (nodes : List Node)
    (tokens : List Token) (read : Node.ofSource name text = .ok nodes)
    (scanned : Token.scan name text = .ok tokens)
    (noDirective : ∀ token ∈ tokens, token.kind ≠ .directive)
    (noPlace : ∀ token ∈ tokens, token.isWord (bytes "__LINE__") = false ∧
      token.isWord (bytes "__FILE__") = false)
    (unbound : ∀ token ∈ tokens, token.kind = .ident → session.env.lookup token.text = none) :
    session.expand name text =
        (session, ⟨.ok (if session.markers then Bytes.marked name text else text), []⟩) ∧
      (tokens.find? (·.kind.isSolid)).map (·.location.start) =
        if text.dropWhile Byte.isSpace = [] then none
        else some ((Position.first name).advance (text.takeWhile Byte.isSpace)) := by
  obtain ⟨others, found, spelled⟩ := Expansion.exists_items_of_ofSource read
  rw [scanned] at found
  cases found
  obtain ⟨stop, same, ended, laid⟩ := Token.exists_stop_of_scan scanned
  obtain ⟨texts, items, inText⟩ := Token.exists_texts_of_items laid.proper fun token member =>
    noDirective token (by rw [same]; exact List.mem_append_left _ member)
  rw [inText] at same
  rw [items] at spelled laid
  have inTokens : ∀ token ∈ texts, token ∈ tokens := fun token member => by simp [same, member]
  obtain ⟨said, ran, gives⟩ := Expansion.exists_gives_of_text session.files ⟨[name], none⟩
    (text_of_spelled spelled texts rfl rfl)
    (fun token member => Token.isFixed_word (noPlace token (inTokens token member)).1
      (noPlace token (inTokens token member)).2)
    fun token member => unbound token (inTokens token member)
  have output : Layout.output session.markers said =
      if session.markers then Bytes.marked name text else text := by
    cases session.markers with
    | true => rw [if_pos rfl, Layout.output_true_of_laid gives laid rfl]
    | false => rw [if_neg Bool.false_ne_true, Layout.output_false_of_laid gives laid]
  constructor
  · simp only [expand, Expansion.ofSource, read, Expansion.expand, ran]
    rw [take_of_inline session gives.inline, output]
  · obtain ⟨start, _⟩ := Token.start_of_laid laid none texts rfl
    have noStop : stop.kind.isSolid = false := by rw [ended]; rfl
    rw [same, List.find?_append, List.find?_cons_of_neg (by simp [noStop]), List.find?_nil,
      Option.or_none]
    exact start

/-- A call of a name that is not bound, with an empty argument and a string that runs over what would
be a directive line. -/
def looseCall : Bytes :=
  bytes " \n f(x, ,(g(\"a\n#undef m\n\"))) 'c' '\n"

/-- A session with markers in which another name is bound. -/
def bindsOther : Session :=
  { start true with env := Env.empty.bind ⟨bytes "m", none, [], .empty, .nowhere⟩ }

theorem expand_looseCall_verbatim :
    bindsOther.expand (bytes "t") looseCall =
      (bindsOther, ⟨.ok (bytes " \n \n# 2 \"t\"\n f(x, ,(g(\"a\n#undef m\n\"))) 'c' '\n"), []⟩) := by
  have shown : Bytes.marked (bytes "t") looseCall =
      bytes " \n \n# 2 \"t\"\n f(x, ,(g(\"a\n#undef m\n\"))) 'c' '\n" := by
    decide +kernel
  have reads : (Node.ofSource (bytes "t") looseCall).toOption.isSome = true := by decide +kernel
  have plain : (Token.scan (bytes "t") looseCall).toOption.any (fun tokens => tokens.all fun token =>
      token.kind != .directive && !token.isWord (bytes "__LINE__") &&
        !token.isWord (bytes "__FILE__") &&
        (token.kind != .ident || (bindsOther.env.lookup token.text).isNone)) = true := by
    decide +kernel
  cases read : Node.ofSource (bytes "t") looseCall with
  | error => simp [read, Except.toOption] at reads
  | ok nodes =>
      cases scanned : Token.scan (bytes "t") looseCall with
      | error => simp [scanned, Except.toOption] at plain
      | ok tokens =>
          simp only [scanned, Except.toOption, Option.any_some, List.all_eq_true,
            Bool.and_eq_true, Bool.or_eq_true, bne_iff_ne, Bool.not_eq_true',
            Option.isNone_iff_eq_none] at plain
          rw [← shown]
          refine (expand_text_verbatim bindsOther (bytes "t") looseCall nodes tokens read scanned
            ?_ ?_ ?_).1
          · exact fun token member => (plain token member).1.1.1
          · exact fun token member =>
              ⟨(plain token member).1.1.2, (plain token member).1.2⟩
          · intro token member isName
            rcases (plain token member).2 with other | free
            · exact absurd isName other
            · exact free

end Session

end ScopedMacros
