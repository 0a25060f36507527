import ScopedMacros.Proofs.Relocation
import ScopedMacros.Proofs.Spelling
import ScopedMacros.Proofs.Standing
import ScopedMacros.Proofs.Termination

/-!
# Including a file is pasting it

A line that includes a file can be replaced by the lines of the file.  If a source with the line
expands, then so does the one with the file pasted, to the same text, with the same warnings, and to
an environment that is the same up to places.
-/

namespace ScopedMacros

/-- The text holds none of the names that stand for the place where they are. -/
def Bytes.NoPlaces (text : Bytes) : Prop :=
  ¬ bytes "__LINE__" <:+: text ∧ ¬ bytes "__FILE__" <:+: text

instance (text : Bytes) : Decidable text.NoPlaces :=
  inferInstanceAs (Decidable (_ ∧ _))

/-- The line that includes a file. -/
def Directive.inclusionLine (path : Bytes) : Bytes :=
  bytes "#include " ++ path.quote ++ [Byte.newline]

/-! ## Tokens -/

namespace Token

theorem isPlaceless_of_namesIn {text : Bytes} {tokens : List Token} (noPlaces : text.NoPlaces)
    (names : NamesIn text tokens) :
    ∀ token ∈ tokens, token.kind = .ident → token.text.isPlaceless = true := by
  intro token member isName
  have inText := names token member isName
  rw [Bytes.isPlaceless, Bool.and_eq_true, bne_iff_ne, bne_iff_ne]
  constructor
  · intro same
    exact noPlaces.1 (same ▸ inText)
  · intro same
    exact noPlaces.2 (same ▸ inText)

/-- The tokens that a text is read as up to places, wherever it stands. -/
structure Stretch (text : Bytes) (front : List Token) : Prop where
  names : NamesIn text front
  apart : Bytes.WholeLines text → Standing.apart.afterAll front = .apart
  read : ∀ position more, more = [] ∨ Bytes.WholeLines text → ∃ others place,
    front.map unplaced = others.map unplaced ∧
      ofSource true ⟨position, text ++ more⟩ = (ofSource true ⟨place, more⟩).map (others ++ ·)

theorem exists_stretch {position : Position} {text : Bytes} {tokens : List Token}
    (scanned : ofSource true ⟨position, text⟩ = .ok tokens) :
    ∃ front last, tokens = front ++ [last] ∧ Stretch text front := by
  obtain ⟨items, last, rfl, _, laid⟩ := exists_laid scanned
  have names := namesIn_ofSource scanned
  refine ⟨_, last, rfl, ?_, ?_, ?_⟩
  · exact fun token member => names token (by simp [member])
  · exact fun whole => afterAll_of_laid laid whole (by decide) fun _ => rfl
  · intro place more whole
    have continues : Continues more ⟨position, text⟩ ⟨place, text ++ more⟩ := ⟨rfl, whole⟩
    obtain ⟨front, _, others, next, split, alike, joined⟩ :=
      scansOn_ofSource continues (fun _ => .inl rfl) scanned
    obtain ⟨rfl, _⟩ := List.append_inj' split rfl
    exact ⟨others, next, alike, joined⟩

variable {text : Bytes} {front tokens others : List Token}

theorem unplaced_eq_iff {token other : Token} :
    token.unplaced = other.unplaced ↔ token.kind = other.kind ∧ token.text = other.text := by
  simp [unplaced]

/-- A text without places is read as tokens alike, wherever it stands. -/
theorem Stretch.alike (stretch : Stretch text front) (noPlaces : text.NoPlaces)
    (first : front.map unplaced = tokens.map unplaced)
    (second : front.map unplaced = others.map unplaced) : AllAlike tokens others := by
  have placeless := isPlaceless_of_namesIn noPlaces stretch.names
  clear stretch
  induction front generalizing tokens others with
  | nil =>
      obtain rfl := List.map_eq_nil_iff.1 first.symm
      obtain rfl := List.map_eq_nil_iff.1 second.symm
      exact .nil
  | cons token rest ih =>
      obtain ⟨one, ones, rfl, same, first⟩ := List.map_eq_cons_iff.1 first.symm
      obtain ⟨two, twos, rfl, twin, second⟩ := List.map_eq_cons_iff.1 second.symm
      obtain ⟨kind, spelled⟩ := unplaced_eq_iff.1 same
      obtain ⟨kinds, texts⟩ := unplaced_eq_iff.1 (twin.trans same.symm)
      refine .cons ⟨kinds, texts, fun isName => ?_⟩
        (ih first.symm second.symm fun other member => placeless other (by simp [member]))
      rw [spelled]
      exact placeless token (by simp) (kind.symm.trans isName)

theorem afterAll_of_unplaced (same : front.map unplaced = tokens.map unplaced)
    (standing : Standing) : standing.afterAll tokens = standing.afterAll front := by
  have kinds : ∀ list : List Token, list.map kind = (list.map unplaced).map kind := by
    intro list
    rw [List.map_map]
    rfl
  rw [Standing.afterAll, kinds tokens, ← same, ← kinds front, Standing.afterAll]

end Token

/-! ## Nodes of a file -/

/-- The nodes of a source are read from its tokens up to the last one. -/
theorem Node.ofSource_eq {file text : Bytes} {tokens : List Token} {last : Token}
    (scanned : Token.scan file text = .ok (tokens ++ [last])) :
    Node.ofSource file text =
      tokens.foldlM Builder.step .empty >>= fun builder => builder.finish last := by
  obtain ⟨items, stop, split, ended, laid⟩ := Token.exists_laid scanned
  obtain ⟨rfl, same⟩ := List.append_inj' split rfl
  cases same
  rw [Node.ofSource, scanned]
  exact Node.ofTokens_items laid.proper ended

namespace Builder

theorem follows_empty (files : FileSet) : Follows files empty empty where
  nodes := .nil
  frames := .nil
  calls := id

theorem Follows.closed {files : FileSet} {builder other : Builder}
    (follows : Follows files builder other) (closed : builder.call? = none) :
    other.call? = none := by
  have calls := follows.calls
  rw [closed] at calls
  cases opened : other.call? with
  | none => rfl
  | some inner =>
      rw [opened] at calls
      cases calls rfl

/-- Tokens alike to those of a file build nodes alike. -/
theorem exists_builder_of_alike {tokens others : List Token} {builder : Builder}
    (taken : tokens.foldlM step empty = .ok builder) (closed : builder.frames = [])
    (alike : Token.AllAlike tokens others) :
    ∃ other, others.foldlM step empty = .ok other ∧ other.frames = [] ∧
      Node.AllAlike builder.nodes.reverse other.nodes.reverse ∧
      (builder.call? = none → other.call? = none) := by
  obtain ⟨other, takenOther, follows⟩ := foldlM_follows (follows_empty .empty) alike builder taken
  have frames := follows.frames
  rw [closed] at frames
  refine ⟨other, takenOther, ?_, follows.nodes.alike fun _ _ => rfl, follows.closed⟩
  generalize other.frames = more at frames
  cases frames
  rfl

end Builder

/-- What a source without errors is read from. -/
theorem Node.exists_builder_of_ofSource {file text : Bytes} {nodes : List Node}
    (read : Node.ofSource file text = .ok nodes) :
    ∃ front last builder, Token.scan file text = .ok (front ++ [last]) ∧
      Token.Stretch text front ∧ front.foldlM Builder.step .empty = .ok builder ∧
      builder.frames = [] ∧ nodes = builder.nodes.reverse := by
  obtain ⟨tokens, scanned, _⟩ := bind_eq_ok_iff.1 read
  obtain ⟨front, last, rfl, stretch⟩ := Token.exists_stretch scanned
  rw [Node.ofSource_eq scanned] at read
  obtain ⟨builder, taken, finished⟩ := bind_eq_ok_iff.1 read
  obtain ⟨closed, rfl⟩ := Builder.eq_of_finish finished
  exact ⟨front, last, builder, scanned, stretch, taken, closed, rfl⟩

/-- A file without places is the same wherever it stands. -/
theorem FileSet.placeless_of_noPlaces {files : FileSet}
    (noPlaces : ∀ path text, files.contents? path = some text → text.NoPlaces) :
    files.Placeless := by
  intro path text nodes found read
  obtain ⟨front, last, builder, _, stretch, taken, closed, rfl⟩ :=
    Node.exists_builder_of_ofSource read
  have alike := stretch.alike (noPlaces path text found) rfl rfl
  obtain ⟨other, takenOther, _, same, _⟩ := Builder.exists_builder_of_alike taken closed alike
  rw [taken] at takenOther
  cases takenOther
  exact same

/-! ## The line -/

namespace Token

/-- The line that includes a file, with what is read after it. -/
theorem exists_line_of_inclusion (position : Position) (path rest : Bytes) :
    ∃ word token last next, word.text = Directive.inclusion.word ∧ token.kind = .string path ∧
      (Item.line word [token] last).Proper ∧
      ofSource true ⟨position, Directive.inclusionLine path ++ rest⟩ =
        (ofSource true ⟨next, rest⟩).map ((Item.line word [token] last).tokens ++ ·) := by
  obtain ⟨token, isString, line⟩ :=
    ofLine_name (position.advance (Byte.hash :: Directive.inclusion.word)) path rest
  obtain ⟨word, spelled, proper, source⟩ :=
    ofSource_word .inclusion nofun nofun rfl line
  have start : bytes "#include " = Byte.hash :: (Directive.inclusion.word ++ [Byte.space]) := by
    decide
  have whole : Directive.inclusionLine path ++ rest = Byte.hash ::
      (Directive.inclusion.word ++ (Byte.space :: path.quote ++ Byte.newline :: rest)) := by
    rw [Directive.inclusionLine, start]
    simp
  rw [whole]
  exact ⟨word, token, _, _, spelled, isString, proper, source⟩

variable {position : Position} {path before contents after : Bytes} {front held rest : List Token}

theorem exists_tokens_of_inclusion (stretch : Stretch before front) (whole : before.WholeLines)
    (scanned : ofSource true ⟨position, before ++ Directive.inclusionLine path ++ after⟩ =
      .ok tokens) :
    ∃ head word token last rest stop,
      tokens = head ++ ((Item.line word [token] last).tokens ++ (rest ++ [stop])) ∧
      front.map unplaced = head.map unplaced ∧ word.text = Directive.inclusion.word ∧
      token.kind = .string path ∧ (Item.line word [token] last).Proper ∧ Stretch after rest := by
  rw [List.append_assoc] at scanned
  obtain ⟨head, place, same, headRead⟩ :=
    stretch.read position (Directive.inclusionLine path ++ after) (.inr whole)
  obtain ⟨word, token, last, next, spelled, isString, proper, lineRead⟩ :=
    exists_line_of_inclusion place path after
  rw [headRead, lineRead] at scanned
  cases restRead : ofSource true ⟨next, after⟩ with
  | error error =>
      rw [restRead] at scanned
      cases scanned
  | ok tail =>
      rw [restRead] at scanned
      cases scanned
      obtain ⟨rest, stop, rfl, restStretch⟩ := exists_stretch restRead
      exact ⟨head, word, token, last, rest, stop, rfl, same, spelled, isString, proper, restStretch⟩

theorem exists_tokens_of_pasted (stretch : Stretch before front) (beforeWhole : before.WholeLines)
    (heldStretch : Stretch contents held) (contentsWhole : contents.WholeLines)
    (restStretch : Stretch after rest) (position : Position) :
    ∃ head pasted others stop,
      ofSource true ⟨position, before ++ contents ++ after⟩ =
        .ok (head ++ (pasted ++ (others ++ [stop]))) ∧
      front.map unplaced = head.map unplaced ∧ held.map unplaced = pasted.map unplaced ∧
      rest.map unplaced = others.map unplaced := by
  obtain ⟨head, place, same, headRead⟩ :=
    stretch.read position (contents ++ after) (.inr beforeWhole)
  obtain ⟨pasted, next, pastedSame, pastedRead⟩ :=
    heldStretch.read place after (.inr contentsWhole)
  obtain ⟨others, ended, othersSame, othersRead⟩ := restStretch.read next [] (.inl rfl)
  refine ⟨head, pasted, others, Cursor.point ⟨ended, []⟩ .fileEnd, ?_, same, pastedSame, othersSame⟩
  have nothing : ofSource true ⟨ended, []⟩ = .ok [Cursor.point ⟨ended, []⟩ .fileEnd] :=
    ofSource_of_rest_nil rfl
  rw [List.append_nil, nothing] at othersRead
  rw [List.append_assoc, headRead, pastedRead, othersRead]
  rfl

end Token

namespace Builder

variable {files : FileSet} {builder other : Builder} {inBody : Bool}

/-- Files can be pasted in a block. -/
theorem pasting_of_formed {frames : List (Frame × List Node)} (formed : FramesFormed inBody frames)
    (block : AtBlock frames) : pasting frames = true := by
  induction frames generalizing inBody with
  | nil => rfl
  | cons entry rest ih =>
      obtain ⟨frame, before⟩ := entry
      cases frame with
      | branch => exact ih formed.2.2.2.2 formed.2.2.2.1
      | otherwise => exact ih formed.2.2.2.2.2 formed.2.2.2.2.1
      | _ => cases block

theorem atBlock_of_follows {frames more : List (Frame × List Node)}
    (follows : FramesFollow files frames more) (block : AtBlock frames) : AtBlock more := by
  cases follows with
  | nil => trivial
  | cons same _ _ =>
      cases same with
      | branch => trivial
      | otherwise => trivial
      | _ => cases block

theorem takes_inclusion {word token last : Token} {path : Bytes}
    (spelled : word.text = Directive.inclusion.word) (isString : token.kind = .string path)
    (proper : (Item.line word [token] last).Proper) (block : AtBlock builder.frames) :
    ∃ location, (Item.line word [token] last).tokens.foldlM step builder =
      .ok (builder.push (.inclusion location path)) := by
  have found : Directive.ofWord? word.text = some .inclusion := by
    rw [spelled, Directive.ofWord?_word]
  have started := directive_of_purpose? found rfl builder
  rw [takes_line started block proper (endsLine_of_ne nofun)]
  obtain ⟨_, _, isEnd⟩ := proper
  have taken : takeString last .pathAfterInclusion [token] = .ok (path, []) := by
    simp [takeString, isString]
  have ended : endLine word last [] = .ok (word.location.span last.location) := by
    simp [endLine, isEnd]
  exact ⟨_, bind_eq_ok_iff.2 ⟨_, taken, bind_eq_ok_iff.2 ⟨_, ended, rfl⟩⟩⟩

/-- A file in place of its inclusion. -/
theorem Follows.paste (follows : Follows files builder other) (formed : builder.Formed inBody)
    (block : AtBlock builder.frames) (closed : other.call? = none) {path text : Bytes}
    {nodes : List Node} (found : files.contents? path = some text)
    (read : Node.ofSource path text = .ok nodes) {pasted : Builder} (ended : pasted.frames = [])
    (alike : Node.AllAlike nodes pasted.nodes.reverse) (pastedClosed : pasted.call? = none)
    (location : Location) :
    Follows files (builder.push (.inclusion location path)) (other.stack pasted) := by
  obtain ⟨front, frames⟩ := pasted
  obtain rfl : frames = [] := ended
  refine ⟨⟨?_, follows.frames⟩, fun opens => ?_⟩
  · have allowed := pasting_of_formed formed.frames block
    have pastes := follows.nodes.append (.paste allowed location found read alike .nil)
    simpa [push, stack, onto] using pastes
  · rw [call?_stack_of_closed closed, pastedClosed] at opens
    cases opens

end Builder

/-! ## Sources -/

/-- What holds of a builder after whole lines of a source. -/
theorem Builder.stands_of_scan {file text : Bytes} {tokens rest : List Token} {builder : Builder}
    (scanned : Token.scan file text = .ok (tokens ++ rest))
    (apart : Standing.apart.afterAll tokens = .apart)
    (taken : tokens.foldlM step empty = .ok builder) :
    Stands .apart builder ∧ ∃ inBody, builder.Formed inBody := by
  have orderly := (Token.orderly_scan scanned).of_append
  have start : empty.Formed false := ⟨rfl, by simp [empty]⟩
  have stands := stands_foldlM start orderly stands_empty taken
  rw [apart] at stands
  exact ⟨stands, formed_foldlM start orderly taken⟩

section

variable {files : FileSet} {name path contents before after : Bytes}

/-- What a source with the line is built from: the lines before it leave a block that no call is open
at the end of, and the line adds the inclusion. -/
theorem Node.exists_block_of_ofSource {head rest : List Token} {word token last stop : Token}
    {nodes : List Node} {text : Bytes}
    (scanned : Token.scan name text =
      .ok (head ++ ((Item.line word [token] last).tokens ++ (rest ++ [stop]))))
    (apart : Standing.apart.afterAll head = .apart)
    (spelled : word.text = Directive.inclusion.word) (isString : token.kind = .string path)
    (proper : (Item.line word [token] last).Proper) (read : Node.ofSource name text = .ok nodes) :
    ∃ builder location final, head.foldlM Builder.step .empty = .ok builder ∧
      Builder.AtBlock builder.frames ∧ builder.call? = none ∧
      (∃ inBody, builder.Formed inBody) ∧
      rest.foldlM Builder.step (builder.push (.inclusion location path)) = .ok final ∧
      final.finish stop = .ok nodes := by
  have split : head ++ ((Item.line word [token] last).tokens ++ (rest ++ [stop])) =
      head ++ (Item.line word [token] last).tokens ++ rest ++ [stop] := by
    simp only [List.append_assoc]
  rw [Node.ofSource_eq (split ▸ scanned), List.foldlM_append, List.foldlM_append] at read
  obtain ⟨final, taken, finished⟩ := bind_eq_ok_iff.1 read
  obtain ⟨middle, taken, restTaken⟩ := bind_eq_ok_iff.1 taken
  obtain ⟨builder, headTaken, lineTaken⟩ := bind_eq_ok_iff.1 taken
  obtain ⟨stands, formed⟩ := Builder.stands_of_scan scanned apart headTaken
  have block : Builder.AtBlock builder.frames := by
    rw [Item.tokens, List.cons_append, List.foldlM_cons] at lineTaken
    obtain ⟨_, stepped, _⟩ := bind_eq_ok_iff.1 lineTaken
    exact Builder.atBlock_of_directive (stands.text (by decide)) proper.1 stepped
  obtain ⟨location, pushed⟩ := Builder.takes_inclusion spelled isString proper block
  rw [pushed] at lineTaken
  cases lineTaken
  exact ⟨builder, location, final, headTaken, block, stands.closed rfl block, formed, restTaken,
    finished⟩

/-- A source is read with the file pasted if it is read with the line that includes it. -/
theorem Node.pastes_of_ofSource (found : files.contents? path = some contents)
    (beforeWhole : before.WholeLines) (contentsWhole : contents.WholeLines)
    (beforePlaces : before.NoPlaces) (contentsPlaces : contents.NoPlaces)
    (afterPlaces : after.NoPlaces) {tokens : List Token}
    (scanned : Token.scan name before = .ok tokens) {held nodes : List Node}
    (parsed : Node.ofSource path contents = .ok held)
    (read : Node.ofSource name (before ++ Directive.inclusionLine path ++ after) = .ok nodes) :
    ∃ others, Node.ofSource name (before ++ contents ++ after) = .ok others ∧
      Node.Pastes files true nodes others := by
  obtain ⟨front, _, _, stretch⟩ := Token.exists_stretch scanned
  obtain ⟨heldTokens, heldLast, heldBuilder, heldScanned, heldStretch, heldTaken, heldEnded, rfl⟩ :=
    Node.exists_builder_of_ofSource parsed
  obtain ⟨_, scannedLine, _⟩ := bind_eq_ok_iff.1 read
  obtain ⟨head, word, token, last, rest, stop, rfl, headSame, spelled, isString, proper,
    restStretch⟩ := Token.exists_tokens_of_inclusion stretch beforeWhole scannedLine
  obtain ⟨twins, pasted, others, halt, scannedPasted, twinsSame, pastedSame, othersSame⟩ :=
    Token.exists_tokens_of_pasted stretch beforeWhole heldStretch contentsWhole restStretch
      (.first name)
  have headApart : Standing.apart.afterAll head = .apart := by
    rw [Token.afterAll_of_unplaced headSame, stretch.apart beforeWhole]
  obtain ⟨builder, location, final, headTaken, block, closed, ⟨inBody, formed⟩, restTaken,
    finished⟩ := exists_block_of_ofSource scannedLine headApart spelled isString proper read
  -- The builder of the pasted source follows, with the nodes of the file on top of the block.
  obtain ⟨twin, twinTaken, follows⟩ := Builder.foldlM_follows (Builder.follows_empty files)
    (stretch.alike beforePlaces headSame twinsSame) builder headTaken
  obtain ⟨copy, copyTaken, copyEnded, copyAlike, copyClosed⟩ :=
    Builder.exists_builder_of_alike heldTaken heldEnded
      (heldStretch.alike contentsPlaces rfl pastedSame)
  have heldClosed : heldBuilder.call? = none := by
    obtain ⟨stands, _⟩ :=
      Builder.stands_of_scan heldScanned (heldStretch.apart contentsWhole) heldTaken
    exact stands.closed rfl (by rw [heldEnded]; trivial)
  have twinClosed := follows.closed closed
  have pastedTaken : pasted.foldlM Builder.step twin = .ok (twin.stack copy) :=
    Builder.foldlM_stack_of_ok (Builder.atBlock_of_follows follows.frames block) twinClosed copyTaken
  have followsPasted := follows.paste formed block twinClosed found parsed copyEnded copyAlike
    (copyClosed heldClosed) location
  obtain ⟨ending, othersTaken, followsEnding⟩ := Builder.foldlM_follows followsPasted
    (restStretch.alike afterPlaces rfl othersSame) final restTaken
  obtain ⟨result, finishedPasted, pastes⟩ :=
    Builder.finish_follows followsEnding stop halt nodes finished
  refine ⟨result, ?_, pastes⟩
  have split : twins ++ (pasted ++ (others ++ [halt])) = twins ++ pasted ++ others ++ [halt] := by
    simp only [List.append_assoc]
  have taken : (twins ++ pasted ++ others).foldlM Builder.step .empty = .ok ending := by
    rw [List.foldlM_append, List.foldlM_append, twinTaken]
    exact bind_eq_ok_iff.2 ⟨_, pastedTaken, othersTaken⟩
  rw [Node.ofSource_eq (split ▸ scannedPasted), taken]
  exact finishedPasted

theorem Expansion.exists_ofSource_pasted (found : files.contents? path = some contents)
    (beforeWhole : before.WholeLines) (contentsWhole : contents.WholeLines)
    (beforePlaces : before.NoPlaces) (afterPlaces : after.NoPlaces)
    (filesPlaces : ∀ file text, files.contents? file = some text → text.NoPlaces)
    {tokens : List Token} (scanned : Token.scan name before = .ok tokens) {held : List Node}
    (parsed : Node.ofSource path contents = .ok held) {events : List Event} {final : Env}
    (ran : Expansion.ofSource files name (before ++ Directive.inclusionLine path ++ after) .empty =
      ⟨events, .ok final⟩) :
    ∃ said last, Expansion.ofSource files name (before ++ contents ++ after) .empty =
      ⟨said, .ok last⟩ ∧ Event.Agree events said ∧ Env.Alike final last := by
  cases read : Node.ofSource name (before ++ Directive.inclusionLine path ++ after) with
  | error error =>
      rw [Expansion.ofSource, read] at ran
      cases ran
  | ok nodes =>
      rw [Expansion.ofSource, read] at ran
      obtain ⟨others, readPasted, pastes⟩ := Node.pastes_of_ofSource found beforeWhole contentsWhole
        beforePlaces (filesPlaces path contents found) afterPlaces scanned parsed read
      rw [Expansion.ofSource, readPasted]
      have placeless := FileSet.placeless_of_noPlaces filesPlaces
      exact Expansion.run_follows placeless (List.Subset.refl _) pastes .empty ran

end

/-! ## Sessions -/

theorem Diagnostic.messages_ofEvents (events : List Event) :
    (ofEvents events).map message = events.filterMap Event.message? := by
  rw [ofEvents, List.map_filterMap]
  congr 1
  funext event
  cases event <;> rfl

/-- Including a file is pasting it.  The file and the lines before the one that includes it are whole
lines that can be read by themselves, and nothing depends on the place where it stands.  If the source
expands from no macros and without markers, then so does the source with the file in place of the
line: to the same output, with the same warnings in the same order, and to the same macros up to
places.  The lines before may leave conditionals open that end after the line. -/
theorem Session.expand_pasted {session : Session} (unmarked : session.markers = false)
    (fresh : session.env = .empty) {name path contents before after : Bytes}
    (found : session.files.contents? path = some contents)
    (beforeWhole : before.WholeLines) (contentsWhole : contents.WholeLines)
    (scanned : ∃ tokens, Token.scan name before = .ok tokens)
    (parsed : ∃ nodes, Node.ofSource path contents = .ok nodes)
    (beforePlaces : before.NoPlaces) (afterPlaces : after.NoPlaces)
    (filesPlaces : ∀ file text, session.files.contents? file = some text → text.NoPlaces)
    {included : Session} {output : Bytes} {warnings : List Diagnostic}
    (expanded : session.expand name (before ++ Directive.inclusionLine path ++ after) =
      (included, ⟨.ok output, warnings⟩)) :
    ∃ pasted others,
      session.expand name (before ++ contents ++ after) = (pasted, ⟨.ok output, others⟩) ∧
      others.map Diagnostic.message = warnings.map Diagnostic.message ∧
      Env.Alike included.env pasted.env := by
  obtain ⟨tokens, scanned⟩ := scanned
  obtain ⟨held, parsed⟩ := parsed
  rw [Session.expand, fresh] at expanded
  cases ran : Expansion.ofSource session.files name
      (before ++ Directive.inclusionLine path ++ after) .empty with
  | mk events result =>
      rw [ran] at expanded
      cases result with
      | error error => cases expanded
      | ok final =>
          cases expanded
          obtain ⟨said, last, ranPasted, agree, alike⟩ :=
            Expansion.exists_ofSource_pasted found beforeWhole contentsWhole beforePlaces afterPlaces
              filesPlaces scanned parsed ran
          have sameOutput : Layout.output session.markers said =
              Layout.output session.markers events := by
            rw [unmarked, Layout.output_false, Layout.output_false, agree.written]
          refine ⟨(session.take ⟨said, .ok last⟩ true).1, Diagnostic.ofEvents said, ?_, ?_, alike⟩
          · rw [Session.expand, fresh, ranPasted]
            simp only [Session.take, if_true, sameOutput]
          · rw [Diagnostic.messages_ofEvents, Diagnostic.messages_ofEvents, agree.messages]

/-- A file that defines a macro, includes another file and warns. -/
def Session.macroFile : Bytes :=
  bytes "#define M(x) <x>\n#include \"j\"\n#warning \"w\"\n"

def Session.holdsMacroFile : Session :=
  { start false with files := ⟨[(bytes "i", macroFile), (bytes "j", bytes "b\n")]⟩ }

/-- Lines that leave a conditional open. -/
def Session.guardOpen : Bytes :=
  bytes "#ifndef M\na\n"

def Session.guardRest : Bytes :=
  bytes "M(1)\n#else\nc\n#endif\n"

theorem Session.expand_pasted_macroFile :
    ∃ included pasted warnings others,
      holdsMacroFile.expand (bytes "t")
          (guardOpen ++ Directive.inclusionLine (bytes "i") ++ guardRest) =
        (included, ⟨.ok (bytes "a\nb\n<1>\n"), warnings⟩) ∧
      holdsMacroFile.expand (bytes "t") (guardOpen ++ macroFile ++ guardRest) =
        (pasted, ⟨.ok (bytes "a\nb\n<1>\n"), others⟩) ∧
      warnings.map Diagnostic.message = [bytes "w"] ∧
      others.map Diagnostic.message = warnings.map Diagnostic.message ∧
      Env.Alike included.env pasted.env := by
  have evaluated : ((holdsMacroFile.expand (bytes "t")
        (guardOpen ++ Directive.inclusionLine (bytes "i") ++ guardRest)).2.result.toOption,
      (holdsMacroFile.expand (bytes "t")
        (guardOpen ++ Directive.inclusionLine (bytes "i") ++ guardRest)).2.diagnostics.map
          Diagnostic.message) = (some (bytes "a\nb\n<1>\n"), [bytes "w"]) :=
    Expansion.view_ofSource_of_within
      (fun outcome => ((holdsMacroFile.take outcome true).2.result.toOption,
        (holdsMacroFile.take outcome true).2.diagnostics.map Diagnostic.message))
      (show ((Node.ofSource (bytes "t")
          (guardOpen ++ Directive.inclusionLine (bytes "i") ++ guardRest)).toOption.bind fun nodes =>
        Expansion.within holdsMacroFile.files 5 ⟨[bytes "t"], none⟩ nodes .empty).map _ = some _ by
        decide +kernel)
  have found : holdsMacroFile.files.contents? (bytes "i") = some macroFile := by decide
  have openWhole : guardOpen.WholeLines := .inr ⟨bytes "#ifndef M\na", by decide, by decide⟩
  have fileWhole : macroFile.WholeLines :=
    .inr ⟨bytes "#define M(x) <x>\n#include \"j\"\n#warning \"w\"", by decide, by decide⟩
  have openPlaces : guardOpen.NoPlaces := by decide +kernel
  have restPlaces : guardRest.NoPlaces := by decide +kernel
  have filesPlaces : ∀ file text, holdsMacroFile.files.contents? file = some text →
      text.NoPlaces := by
    intro file text found
    simp only [holdsMacroFile, FileSet.contents?, List.lookup_cons, List.lookup_nil] at found
    split at found
    · cases found
      decide +kernel
    split at found
    · cases found
      decide +kernel
    · cases found
  have scans : ∃ tokens, Token.scan (bytes "t") guardOpen = .ok tokens :=
    exists_eq_ok_of_isOk (by decide +kernel)
  have parses : ∃ nodes, Node.ofSource (bytes "i") macroFile = .ok nodes :=
    exists_eq_ok_of_isOk (by decide +kernel)
  generalize expanded : holdsMacroFile.expand (bytes "t")
    (guardOpen ++ Directive.inclusionLine (bytes "i") ++ guardRest) = answer at evaluated
  obtain ⟨included, result, warnings⟩ := answer
  obtain ⟨shown, messages⟩ := Prod.mk.inj evaluated
  cases result with
  | error error => cases shown
  | ok output =>
      obtain rfl : output = bytes "a\nb\n<1>\n" := Option.some.inj shown
      obtain ⟨pasted, others, expandedPasted, same, alike⟩ := expand_pasted rfl rfl found openWhole
        fileWhole scans parses openPlaces restPlaces filesPlaces expanded
      exact ⟨included, pasted, warnings, others, rfl, expandedPasted, messages, same, alike⟩

end ScopedMacros
