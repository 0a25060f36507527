import ScopedMacros.Proofs.Flattening
import ScopedMacros.Proofs.Standing
import ScopedMacros.Proofs.TestReading

/-!
# Text and lines that can be read

Text can be read if every call in it is closed before the text ends, and a directive line can be read
by itself if its tokens are those of its kind.  Both are said of the tokens alone.
-/

namespace ScopedMacros

/-! ## Stretches of text -/

namespace Token

/-- A class of tokens that text is made of. -/
def Kind.isText (kind : Kind) : Bool :=
  kind == .space || kind.isSolid

/-- A name that makes a call if a parenthesis follows it. -/
def isCallable (token : Token) : Bool :=
  token.kind == .ident && token.text != bytes "__LINE__" && token.text != bytes "__FILE__"

/-- Every call in a stretch of text is closed in it. -/
def callsClosed : List Token → Bool
  | name :: paren :: rest =>
      (!(name.isCallable && paren.kind == .leftParen) || (Test.afterClosing? 0 rest).isSome) &&
        callsClosed (paren :: rest)
  | _ => true

theorem callsClosed_cons {token : Token} {rest : List Token}
    (closed : callsClosed (token :: rest) = true) :
    callsClosed rest = true ∧ (token.isCallable = true → ∀ paren more, rest = paren :: more →
      paren.kind = .leftParen → (Test.afterClosing? 0 more).isSome = true) := by
  cases rest with
  | nil => exact ⟨rfl, fun _ _ _ same => by cases same⟩
  | cons paren more =>
      rw [callsClosed, Bool.and_eq_true] at closed
      refine ⟨closed.2, ?_⟩
      intro callable _ _ same opens
      cases same
      simpa [callable, opens] using closed.1

end Token

namespace Builder

/-- Calls that are open on top of other constructs, and how many parentheses are open in them. -/
inductive Calls (frames : List (Frame × List Node)) : Nat → List (Frame × List Node) → Prop where
  | none : Calls frames 0 frames
  | call {count depth : Nat} {location : Location} {name : Bytes} {arguments : List (List Node)}
      {before : List Node} {rest : List (Frame × List Node)} (outer : Calls frames count rest) :
      Calls frames (count + depth + 1) ((.call location name depth arguments, before) :: rest)

/-- The tokens to come close all calls, those that are open and those that they open. -/
structure ClosedBy (frames : List (Frame × List Node)) (count : Nat) (builder : Builder)
    (tokens : List Token) : Prop where
  calls : Calls frames count builder.frames
  further : Token.callsClosed tokens = true
  opened : ∀ outer, count = outer + 1 → (Test.afterClosing? outer tokens).isSome = true
  name : builder.call?.isSome = true → ∀ paren more, tokens = paren :: more →
    paren.kind = .leftParen → (Test.afterClosing? count more).isSome = true

variable {frames : List (Frame × List Node)} {builder : Builder} {token : Token}
  {rest : List Token} {count : Nat}

/-- A token of text is a node by itself, and a name only if it can make a call. -/
theorem exists_leaf (text : token.kind.isText = true) (builder : Builder) :
    ∃ node, builder.leaf token = .ok (builder.push node) ∧
      ((builder.push node).call?.isSome = true → token.isCallable = true) := by
  have noName : ∀ node, (∀ location name, node ≠ .ident location name) →
      (builder.push node).call?.isSome = true → token.isCallable = true := by
    intro node other named
    rw [call?_push other] at named
    cases named
  unfold leaf
  cases kind : token.kind with
  | ident =>
      refine ⟨ofName token, rfl, ?_⟩
      unfold ofName
      split
      · exact noName _ (by simp)
      split
      · exact noName _ (by simp)
      · rename_i notLine notFile
        intro _
        simp [Token.isCallable, kind, notLine, notFile]
  | space => exact ⟨_, rfl, noName _ (by simp)⟩
  | text => exact ⟨_, rfl, noName _ (by simp)⟩
  | string value => exact ⟨_, rfl, noName _ (by simp)⟩
  | character => exact ⟨_, rfl, noName _ (by simp)⟩
  | leftParen => exact ⟨_, rfl, noName _ (by simp)⟩
  | rightParen => exact ⟨_, rfl, noName _ (by simp)⟩
  | comma => exact ⟨_, rfl, noName _ (by simp)⟩
  | _ => simp [kind, Token.Kind.isText, Token.Kind.isSolid] at text

/-- A token that is a node by itself leaves the calls to be closed by the tokens after it. -/
theorem exists_closedBy_leaf (builder : Builder) (text : token.kind.isText = true)
    (calls : Calls frames count builder.frames)
    (closed : Token.callsClosed (token :: rest) = true)
    (opened : ∀ outer, count = outer + 1 → (Test.afterClosing? outer rest).isSome = true) :
    ∃ next, builder.leaf token = .ok next ∧ ClosedBy frames count next rest := by
  obtain ⟨node, taken, callable⟩ := exists_leaf text builder
  obtain ⟨further, named⟩ := Token.callsClosed_cons closed
  refine ⟨_, taken, calls, further, opened, ?_⟩
  rintro isName paren more rfl opens
  cases count with
  | zero => exact named (callable isName) paren more rfl opens
  | succ outer =>
      have open' := opened outer rfl
      rwa [Test.afterClosing?_of_open opens] at open'

/-- A parenthesis after a name opens one more call. -/
theorem closedBy_of_call? {next : Builder} (called : builder.call? = some next)
    (opens : token.kind = .leftParen) (closed : ClosedBy frames count builder (token :: rest)) :
    ClosedBy frames (count + 1) next rest := by
  obtain ⟨location, name, before, frames_eq⟩ := frames_call? called
  have noName : next.call? = none := by
    unfold call? at called
    split at called
    · cases called
      rfl
    · cases called
  refine ⟨?_, (Token.callsClosed_cons closed.further).1, ?_, ?_⟩
  · rw [frames_eq]
    exact @Calls.call _ count 0 _ _ _ _ _ closed.calls
  · intro outer same
    obtain rfl : count = outer := Nat.succ.inj same
    exact closed.name (by rw [called]; rfl) token rest rfl opens
  · intro named
    rw [noName] at named
    cases named

theorem exists_closedBy_plain (text : token.kind.isText = true)
    (closed : ClosedBy frames 0 builder (token :: rest)) :
    ∃ next count, builder.plain token = .ok next ∧ ClosedBy frames count next rest := by
  have ofLeaf : ∃ next count, builder.leaf token = .ok next ∧ ClosedBy frames count next rest := by
    obtain ⟨next, taken, closed⟩ :=
      exists_closedBy_leaf builder text closed.calls closed.further (fun _ same => by cases same)
    exact ⟨next, 0, taken, closed⟩
  unfold plain
  cases kind : token.kind with
  | directive => simp [kind, Token.Kind.isText, Token.Kind.isSolid] at text
  | leftParen =>
      cases called : builder.call? with
      | none => exact ofLeaf
      | some inner => exact ⟨inner, 0 + 1, rfl, closedBy_of_call? called kind closed⟩
  | _ => exact ofLeaf

/-- A token of an argument, in the innermost of the open calls. -/
theorem exists_closedBy_argument {nodes before : List Node} {location : Location} {name : Bytes}
    {depth : Nat} {arguments : List (List Node)} {inner : List (Frame × List Node)}
    (text : token.kind.isText = true) (calls : Calls frames count inner)
    (closed : ClosedBy frames (count + depth + 1)
      ⟨nodes, (.call location name depth arguments, before) :: inner⟩ (token :: rest)) :
    ∃ next count, argument nodes ⟨before, inner⟩ location name depth arguments token = .ok next ∧
      ClosedBy frames count next rest := by
  obtain ⟨further, _⟩ := Token.callsClosed_cons closed.further
  have opened := closed.opened (count + depth) rfl
  -- A token that opens or closes no call is a node of the argument.
  have ofLeaf : ∀ depth', (Test.afterClosing? (count + depth') rest).isSome = true →
      ∃ next count, (Builder.mk nodes
        ((.call location name depth' arguments, before) :: inner)).leaf token = .ok next ∧
        ClosedBy frames count next rest := by
    intro depth' still
    have onto : Calls frames (count + depth' + 1)
        ((.call location name depth' arguments, before) :: inner) := .call calls
    obtain ⟨next, taken, closed⟩ := exists_closedBy_leaf ⟨nodes, _⟩ text onto closed.further
      (fun outer same => Nat.succ.inj same ▸ still)
    exact ⟨next, _, taken, closed⟩
  by_cases opens : token.kind = .leftParen
  · rw [Test.afterClosing?_of_open opens] at opened
    cases called : (Builder.mk nodes
        ((.call location name depth arguments, before) :: inner)).call? with
    | none =>
        simp only [argument, opens, called]
        exact ofLeaf (depth + 1) opened
    | some next =>
        simp only [argument, opens, called]
        exact ⟨next, _, rfl, closedBy_of_call? called opens closed⟩
  by_cases closes : token.kind = .rightParen
  · cases depth with
    | zero =>
        simp only [argument, closes]
        refine ⟨_, count, rfl, calls, further, ?_, ?_⟩
        · rintro outer rfl
          rwa [Nat.add_zero, Test.afterClosing?_of_close closes] at opened
        · intro named
          rw [call?_push (by simp)] at named
          cases named
    | succ depth =>
        simp only [argument, closes]
        rw [← Nat.add_assoc, Test.afterClosing?_of_close closes] at opened
        exact ofLeaf depth opened
  rw [Test.afterClosing?_of_other opens closes] at opened
  by_cases separates : token.kind = .comma ∧ depth = 0
  · obtain ⟨comma, rfl⟩ := separates
    simp only [argument, comma]
    refine ⟨_, count + 0 + 1, rfl, .call calls, further, ?_, ?_⟩
    · intro outer same
      rwa [← Nat.succ.inj same]
    · intro named
      cases named
  · have leafed : argument nodes ⟨before, inner⟩ location name depth arguments token =
        (Builder.mk nodes ((.call location name depth arguments, before) :: inner)).leaf token := by
      unfold argument
      dsimp only
      split
      · simp_all [Token.Kind.isText, Token.Kind.isSolid]
      · simp_all [Token.Kind.isText, Token.Kind.isSolid]
      · simp_all
      · contradiction
      · contradiction
      · contradiction
      · rfl
    rw [leafed]
    exact ofLeaf depth opened

theorem foldlM_cons_of_ok {next : Builder} (taken : builder.step token = .ok next) :
    (token :: rest).foldlM step builder = rest.foldlM step next := by
  rw [List.foldlM_cons, taken]
  rfl

theorem foldlM_append_of_ok {next : Builder} {left : List Token}
    (taken : left.foldlM step builder = .ok next) :
    (left ++ rest).foldlM step builder = rest.foldlM step next := by
  rw [List.foldlM_append, taken]
  rfl

/-- One token of a text whose calls are closed is read, and leaves such a text. -/
theorem exists_closedBy_step (reads : ReadsText frames) (text : token.kind.isText = true)
    (closed : ClosedBy frames count builder (token :: rest)) :
    ∃ next count, builder.step token = .ok next ∧ ClosedBy frames count next rest := by
  have noEnd : token.kind ≠ .lineEnd := by
    intro kind
    simp [kind, Token.Kind.isText, Token.Kind.isSolid] at text
  obtain ⟨nodes, open'⟩ := builder
  have calls : Calls frames count open' := closed.calls
  cases calls with
  | none =>
      rw [reads nodes token noEnd]
      exact exists_closedBy_plain text closed
  | call outer => exact exists_closedBy_argument text outer closed

theorem exists_closedBy_foldlM {tokens : List Token} (reads : ReadsText frames)
    (text : ∀ token ∈ tokens, token.kind.isText = true)
    (closed : ClosedBy frames count builder tokens) :
    ∃ next count, tokens.foldlM step builder = .ok next ∧ ClosedBy frames count next [] := by
  induction tokens generalizing builder count with
  | nil => exact ⟨builder, count, rfl, closed⟩
  | cons token rest ih =>
      obtain ⟨first, others⟩ := List.forall_mem_cons.1 text
      obtain ⟨middle, _, taken, closed⟩ := exists_closedBy_step reads first closed
      obtain ⟨next, count, read, closed⟩ := ih others closed
      exact ⟨next, count, (foldlM_cons_of_ok taken).trans read, closed⟩

/-- A stretch of text whose calls are closed is read, and no call is left open. -/
theorem exists_of_callsClosed {tokens : List Token} (reads : ReadsText builder.frames)
    (noName : builder.call? = none) (text : ∀ token ∈ tokens, token.kind.isText = true)
    (closed : Token.callsClosed tokens = true) :
    ∃ nodes, tokens.foldlM step builder = .ok ⟨nodes, builder.frames⟩ := by
  have start : ClosedBy builder.frames 0 builder tokens :=
    ⟨.none, closed, (fun _ same => by cases same), by simp [noName]⟩
  obtain ⟨⟨nodes, open'⟩, count, read, closed⟩ := exists_closedBy_foldlM reads text start
  have calls : Calls builder.frames count open' := closed.calls
  cases calls with
  | none => exact ⟨nodes, read⟩
  | @call count depth =>
      -- Nothing is left to close it.
      cases closed.opened (count + depth) rfl

end Builder

/-! ## Directive lines -/

namespace Token

/-- Names that have not been seen, set apart by commas, and a closing parenthesis. -/
def areParameters (seen : List Bytes) : List Token → Bool
  | name :: mark :: rest =>
      name.kind == .ident && !seen.contains name.text &&
        (mark.kind == .rightParen && rest.isEmpty ||
          mark.kind == .comma && areParameters (seen ++ [name.text]) rest)
  | _ => false

/-- A name, with a list of parameters or without one. -/
def isHead : List Token → Bool
  | [] => false
  | [name] => name.kind == .ident
  | name :: paren :: list =>
      name.kind == .ident && paren.kind == .leftParen &&
        (list.map kind == [.rightParen] || areParameters [] list)

end Token

/-- Whether the tokens after the word of a directive line are those of its kind. -/
def Directive.accepts (directive : Directive) (arguments : List Token) (stop : Token) : Bool :=
  match directive with
  | .define =>
      Token.isHead (arguments.takeWhile (·.kind != .body)) && arguments.any (·.kind == .body)
  | .undef | .ifDefined | .ifUndefined => arguments.map Token.kind == [.ident]
  | .inclusion | .error | .warning =>
      match arguments.map Token.kind with
      | [.string _] => true
      | _ => false
  | .line =>
      match arguments.map Token.kind with
      | [.integer _] => true
      | [.integer _, .string _] => true
      | _ => false
  | .ifTrue | .elseIf =>
      match Test.ofTokens stop arguments with
      | .ok (_, []) => true
      | _ => false
  | .otherwise | .endIf => arguments.isEmpty

namespace Builder

variable {word stop : Token} {arguments : List Token} {directive : Directive}

theorem exists_takeParameters (stop : Token) (name : Bytes) {seen : List Bytes} {tokens : List Token}
    (list : Token.areParameters seen tokens = true) :
    ∃ names close, takeParameters stop name seen tokens = .ok (names, [close]) ∧
      close.kind = .rightParen := by
  fun_induction Token.areParameters seen tokens with
  | case1 seen token mark rest ih =>
      simp only [Bool.and_eq_true, Bool.or_eq_true, beq_iff_eq, Bool.not_eq_true',
        List.contains_eq_mem, decide_eq_false_iff_not, List.isEmpty_iff] at list
      obtain ⟨⟨isName, new⟩, ⟨closes, rfl⟩ | ⟨separates, more⟩⟩ := list
      · refine ⟨seen ++ [token.text], mark, ?_, closes⟩
        simp [takeParameters, isName, new, closes]
      · obtain ⟨names, close, taken, closes⟩ := ih more
        refine ⟨names, close, ?_, closes⟩
        simp [takeParameters, isName, new, separates, taken]
  | case2 => cases list

theorem exists_takeParameterList (stop : Token) (name : Bytes) {paren : Token} {list : List Token}
    (opens : paren.kind = .leftParen)
    (isList : list.map Token.kind = [.rightParen] ∨ Token.areParameters [] list = true) :
    ∃ parameters, takeParameterList stop name (paren :: list) = .ok (parameters, []) := by
  obtain ⟨kind, text, location⟩ := paren
  cases opens
  rcases isList with empty | names
  · obtain ⟨⟨kind, text, location⟩, rest, rfl, closes, last⟩ := List.map_eq_cons_iff.1 empty
    obtain rfl := List.map_eq_nil_iff.1 last
    cases closes
    exact ⟨some [], rfl⟩
  · obtain ⟨names, ⟨kind, text, location⟩, taken, closes⟩ := exists_takeParameters stop name names
    cases closes
    refine ⟨some names, ?_⟩
    unfold takeParameterList
    split
    · rename_i same
      cases same
      unfold takeParameters at taken
      simp at taken
    · rename_i same
      cases same
      rw [taken]
      rfl
    · rename_i other
      exact absurd rfl (other _ _ _)

theorem exists_takeHead {head : List Token} (isHead : Token.isHead head = true)
    (isBody : stop.kind = .body) :
    ∃ name parameters, takeHead stop head = .ok (name, parameters) := by
  unfold Token.isHead at isHead
  split at isHead
  · cases isHead
  · rename_i name
    rw [beq_iff_eq] at isHead
    exact ⟨name.text, none, by
      simp [takeHead, takeName, isHead, takeParameterList, isBody, bind, Except.bind]⟩
  · rename_i name paren list
    simp only [Bool.and_eq_true, Bool.or_eq_true, beq_iff_eq] at isHead
    obtain ⟨⟨isName, opens⟩, isList⟩ := isHead
    obtain ⟨parameters, taken⟩ := exists_takeParameterList stop name.text opens isList
    exact ⟨name.text, parameters, by
      simp [takeHead, takeName, isName, taken, isBody, bind, Except.bind]⟩

theorem endLine_nil (word : Token) (isEnd : stop.kind = .lineEnd) :
    endLine word stop [] = .ok (word.location.span stop.location) := by
  simp [endLine, isEnd]

theorem exists_takeName (stop : Token) (what : Expectation)
    (isName : (arguments.map Token.kind == [.ident]) = true) :
    ∃ name, takeName stop what arguments = .ok (name, []) := by
  obtain ⟨name, rest, rfl, kind, last⟩ := List.map_eq_cons_iff.1 (beq_iff_eq.1 isName)
  obtain rfl := List.map_eq_nil_iff.1 last
  exact ⟨name, if_pos kind⟩

theorem exists_takeString (stop : Token) (what : Expectation)
    (accepted : Directive.inclusion.accepts arguments stop = true) :
    ∃ text, takeString stop what arguments = .ok (text, []) := by
  unfold Directive.accepts at accepted
  dsimp only at accepted
  split at accepted
  · rename_i text kinds
    obtain ⟨token, rest, rfl, kind, last⟩ := List.map_eq_cons_iff.1 kinds
    obtain rfl := List.map_eq_nil_iff.1 last
    exact ⟨text, by simp [takeString, kind]⟩
  · cases accepted

theorem exists_takeLine (accepted : Directive.line.accepts arguments stop = true) :
    ∃ number file, takeLine stop arguments = .ok (number, file, []) := by
  unfold Directive.accepts at accepted
  dsimp only at accepted
  split at accepted
  · rename_i number kinds
    obtain ⟨token, rest, rfl, kind, last⟩ := List.map_eq_cons_iff.1 kinds
    obtain rfl := List.map_eq_nil_iff.1 last
    exact ⟨number, none, by simp [takeLine, kind]⟩
  · rename_i number file kinds
    obtain ⟨token, rest, rfl, kind, last⟩ := List.map_eq_cons_iff.1 kinds
    obtain ⟨⟨other, text, location⟩, rest, rfl, isString, last⟩ := List.map_eq_cons_iff.1 last
    obtain rfl := List.map_eq_nil_iff.1 last
    cases isString
    exact ⟨number, some file, by simp [takeLine, kind]⟩
  · cases accepted

theorem exists_test (accepted : Directive.ifTrue.accepts arguments stop = true) :
    ∃ test, Test.ofTokens stop arguments = .ok (test, []) := by
  unfold Directive.accepts at accepted
  dsimp only at accepted
  split at accepted
  · rename_i test read
    exact ⟨test, read⟩
  · cases accepted

/-- An accepted line that is no definition and no part of a conditional adds a node. -/
theorem exists_finishLine {purpose : Purpose} (outer : Builder) (word : Token)
    (isEnd : stop.kind = .lineEnd) (simple : purpose? directive = some purpose)
    (noDefinition : directive ≠ .define) (accepted : directive.accepts arguments stop = true) :
    ∃ node, finishLine outer word purpose arguments stop = .ok (outer.push node) ∧
      ∀ location name, node ≠ .ident location name := by
  let place := word.location.span stop.location
  have ended := endLine_nil word isEnd
  cases directive with
  | define => contradiction
  | undef =>
      cases simple
      obtain ⟨name, taken⟩ := exists_takeName stop (.nameAfter word.text) accepted
      refine ⟨.undef place name.text, ?_, by simp⟩
      exact bind_eq_ok_iff.2 ⟨_, taken, bind_eq_ok_iff.2 ⟨_, ended, rfl⟩⟩
  | inclusion =>
      cases simple
      obtain ⟨path, taken⟩ := exists_takeString stop .pathAfterInclusion accepted
      refine ⟨.inclusion place path, ?_, by simp⟩
      exact bind_eq_ok_iff.2 ⟨_, taken, bind_eq_ok_iff.2 ⟨_, ended, rfl⟩⟩
  | error =>
      cases simple
      obtain ⟨message, taken⟩ := exists_takeString stop (.messageAfter word.text) accepted
      refine ⟨.error place message, ?_, by simp⟩
      exact bind_eq_ok_iff.2 ⟨_, taken, bind_eq_ok_iff.2 ⟨_, ended, rfl⟩⟩
  | warning =>
      cases simple
      obtain ⟨message, taken⟩ := exists_takeString stop (.messageAfter word.text) accepted
      refine ⟨.warning place message, ?_, by simp⟩
      exact bind_eq_ok_iff.2 ⟨_, taken, bind_eq_ok_iff.2 ⟨_, ended, rfl⟩⟩
  | line =>
      cases simple
      obtain ⟨number, file, taken⟩ := exists_takeLine accepted
      refine ⟨.line place file number, ?_, by simp⟩
      exact bind_eq_ok_iff.2 ⟨_, taken, bind_eq_ok_iff.2 ⟨_, ended, rfl⟩⟩
  | _ => cases simple

/-- The head of a definition is read up to the body, which it opens. -/
theorem foldlM_definition_head {opener : Token} {head : List Token} {name : Bytes}
    {parameters : Option (List Bytes)} (block : AtBlock builder.frames)
    (isDirective : word.kind = .directive) (found : Directive.ofWord? word.text = some .define)
    (inside : ∀ token ∈ head, token.kind ≠ .lineEnd ∧ token.kind ≠ .body)
    (opens : opener.kind = .body) (taken : takeHead opener head = .ok (name, parameters)) :
    (word :: (head ++ [opener])).foldlM step builder =
      .ok (builder.enter (.define word name parameters)) := by
  have first : builder.step word = .ok (builder.enter (.line word .define [])) :=
    (step_directive block isDirective).trans (directive_of_purpose? found rfl builder)
  have collected : head.foldlM step (builder.enter (.line word .define [])) =
      .ok (builder.enter (.line word .define (head.reverse ++ []))) := foldlM_head inside
  have last : (builder.enter (.line word .define (head.reverse ++ []))).step opener =
      .ok (builder.enter (.define word name parameters)) := by
    simp only [enter, step, opens, endsLine, if_true, List.append_nil, List.reverse_reverse]
    exact bind_eq_ok_iff.2 ⟨_, taken, rfl⟩
  rw [foldlM_cons_of_ok first, foldlM_append_of_ok collected, foldlM_cons_of_ok last]
  rfl

/-- The body of a definition is read up to the end of its line if the calls in it are closed. -/
theorem exists_of_definition_body {body : List Token} (outer : Builder) (word : Token) (name : Bytes)
    (parameters : Option (List Bytes)) (isEnd : stop.kind = .lineEnd)
    (text : ∀ token ∈ body, token.kind.isText = true) (closed : Token.callsClosed body = true) :
    ∃ nodes, (body ++ [stop]).foldlM step (outer.enter (.define word name parameters)) =
      .ok (outer.push (.define (word.location.span stop.location) name parameters nodes)) := by
  let inner : Builder := outer.enter (.define word name parameters)
  have reads : ReadsText inner.frames := readsText_define _ _ _ _ _
  obtain ⟨nodes, read⟩ := exists_of_callsClosed reads rfl text closed
  have last : (Builder.mk nodes inner.frames).step stop = .ok (outer.push
      (.define (word.location.span stop.location) name parameters (Node.trim nodes.reverse))) := by
    simp [inner, enter, step, isEnd, push]
  refine ⟨Node.trim nodes.reverse, ?_⟩
  rw [foldlM_append_of_ok read, foldlM_cons_of_ok last]
  rfl

/-- An accepted definition adds a node if the calls in its body are closed. -/
theorem exists_of_define (block : AtBlock builder.frames)
    (proper : (Item.line word arguments stop).Proper)
    (found : Directive.ofWord? word.text = some .define)
    (accepted : Directive.define.accepts arguments stop = true)
    (text : ∀ token ∈ Token.bodyOf arguments, token.kind.isText = true)
    (closed : Token.callsClosed (Token.bodyOf arguments) = true) :
    ∃ node, (Item.line word arguments stop).tokens.foldlM step builder = .ok (builder.push node) ∧
      ∀ location name, node ≠ .ident location name := by
  obtain ⟨isDirective, inside, isEnd⟩ := proper
  rw [Directive.accepts, Bool.and_eq_true, List.any_eq_true] at accepted
  obtain ⟨isHead, _, member, isBody⟩ := accepted
  cases rest : arguments.dropWhile (·.kind != .body) with
  | nil =>
      have all := List.dropWhile_eq_nil_iff.1 rest _ member
      simp_all
  | cons opener body =>
      have isRest : Token.bodyOf arguments = body := by rw [Token.bodyOf, rest]; rfl
      rw [isRest] at text closed
      have opens := kind_of_opener rest
      obtain ⟨name, parameters, taken⟩ := exists_takeHead isHead opens
      have head := foldlM_definition_head block isDirective found (kind_ne_of_mem_head inside) opens
        taken
      obtain ⟨nodes, read⟩ := exists_of_definition_body builder word name parameters isEnd text closed
      have split : (Item.line word arguments stop).tokens =
          (word :: (arguments.takeWhile (·.kind != .body) ++ [opener])) ++ (body ++ [stop]) := by
        have whole : arguments.takeWhile (·.kind != .body) ++ opener :: body = arguments := by
          rw [← rest, List.takeWhile_append_dropWhile]
        calc word :: arguments ++ [stop]
          _ = word :: (arguments.takeWhile (·.kind != .body) ++ opener :: body) ++ [stop] := by
            rw [whole]
          _ = _ := by simp
      rw [split, foldlM_append_of_ok head, read]
      exact ⟨_, rfl, by simp⟩

/-- An accepted line outside conditionals adds a node to a block. -/
theorem exists_of_line {purpose : Purpose} (block : AtBlock builder.frames)
    (proper : (Item.line word arguments stop).Proper)
    (found : Directive.ofWord? word.text = some directive)
    (simple : purpose? directive = some purpose)
    (accepted : directive.accepts arguments stop = true)
    (text : ∀ token ∈ Token.bodyOf arguments, token.kind.isText = true)
    (closed : Token.callsClosed (Token.bodyOf arguments) = true) :
    ∃ node, (Item.line word arguments stop).tokens.foldlM step builder = .ok (builder.push node) ∧
      ∀ location name, node ≠ .ident location name := by
  by_cases definition : directive = .define
  · subst definition
    exact exists_of_define block proper found accepted text closed
  · have noDefinition : purpose ≠ .define := by
      rintro rfl
      cases directive <;> cases simple
      exact definition rfl
    rw [takes_line (directive_of_purpose? found simple builder) block proper
      (endsLine_of_ne noDefinition)]
    exact exists_finishLine builder word proper.2.2 simple definition accepted

/-! ## Lines of conditionals -/

theorem exists_finishLine_ifTrue (outer : Builder) (word : Token) (earlier : List Branch)
    (isEnd : stop.kind = .lineEnd) (accepted : Directive.ifTrue.accepts arguments stop = true) :
    ∃ location test, finishLine outer word (.ifTrue earlier) arguments stop =
      .ok (outer.enter (.branch word.text location test earlier)) := by
  obtain ⟨test, read⟩ := exists_test accepted
  exact ⟨_, test, bind_eq_ok_iff.2 ⟨_, read, bind_eq_ok_iff.2 ⟨_, endLine_nil word isEnd, rfl⟩⟩⟩

theorem exists_finishLine_ifDefined (outer : Builder) (word : Token) (positive : Bool)
    (isEnd : stop.kind = .lineEnd) (accepted : Directive.ifDefined.accepts arguments stop = true) :
    ∃ location test, finishLine outer word (.ifDefined positive) arguments stop =
      .ok (outer.enter (.branch word.text location test [])) := by
  obtain ⟨name, taken⟩ := exists_takeName stop (.nameAfter word.text) accepted
  exact ⟨_, _, bind_eq_ok_iff.2 ⟨_, taken, bind_eq_ok_iff.2 ⟨_, endLine_nil word isEnd, rfl⟩⟩⟩

/-- An accepted first line of a conditional opens a branch. -/
theorem exists_enter_of_opens (block : AtBlock builder.frames)
    (proper : (Item.line word arguments stop).Proper)
    (found : Directive.ofWord? word.text = some directive) (opens : directive.opens = true)
    (accepted : directive.accepts arguments stop = true) :
    ∃ location test, (Item.line word arguments stop).tokens.foldlM step builder =
      .ok (builder.enter (.branch word.text location test [])) := by
  cases directive <;> cases opens
  · rw [foldlM_opener block proper found rfl]
    exact exists_finishLine_ifTrue builder word [] proper.2.2 accepted
  · rw [foldlM_opener block proper found rfl]
    exact exists_finishLine_ifDefined builder word true proper.2.2 accepted
  · rw [foldlM_opener block proper found rfl]
    exact exists_finishLine_ifDefined builder word false proper.2.2 accepted

section

variable {nodes before : List Node} {outer : List (Frame × List Node)} {opener : Bytes}
  {location : Location} {test : Test} {last : Branch} {earlier : List Branch}

/-- An accepted line for another branch ends a branch and opens the next one. -/
theorem exists_enter_of_elseIf (proper : (Item.line word arguments stop).Proper)
    (found : Directive.ofWord? word.text = some .elseIf)
    (accepted : Directive.elseIf.accepts arguments stop = true) :
    ∃ place other, (Item.line word arguments stop).tokens.foldlM step
        ⟨nodes, (.branch opener location test earlier, before) :: outer⟩ =
      .ok ((Builder.mk before outer).enter
        (.branch word.text place other (⟨location, test, nodes.reverse⟩ :: earlier))) := by
  rw [foldlM_after_branch proper found rfl]
  exact exists_finishLine_ifTrue ⟨before, outer⟩ word _ proper.2.2 accepted

theorem endLine_of_accepts (proper : (Item.line word arguments stop).Proper)
    (accepted : Directive.endIf.accepts arguments stop = true) :
    endLine word stop arguments = .ok (word.location.span stop.location) := by
  obtain rfl : arguments = [] := List.isEmpty_iff.1 accepted
  exact endLine_nil word proper.2.2

theorem foldlM_otherwise (proper : (Item.line word arguments stop).Proper)
    (found : Directive.ofWord? word.text = some .otherwise)
    (accepted : Directive.otherwise.accepts arguments stop = true) :
    (Item.line word arguments stop).tokens.foldlM step
        ⟨nodes, (.branch opener location test earlier, before) :: outer⟩ =
      .ok ((Builder.mk before outer).enter
        (.otherwise word.location ⟨location, test, nodes.reverse⟩ earlier)) := by
  rw [foldlM_after_branch proper found rfl]
  exact bind_eq_ok_iff.2 ⟨_, endLine_of_accepts proper accepted, rfl⟩

theorem foldlM_endIf_of_branch (proper : (Item.line word arguments stop).Proper)
    (found : Directive.ofWord? word.text = some .endIf)
    (accepted : Directive.endIf.accepts arguments stop = true) :
    (Item.line word arguments stop).tokens.foldlM step
        ⟨nodes, (.branch opener location test earlier, before) :: outer⟩ =
      .ok ((Builder.mk before outer).push
        (Branch.chain ⟨location, test, nodes.reverse⟩ earlier [])) := by
  rw [foldlM_after_branch proper found rfl]
  exact bind_eq_ok_iff.2 ⟨_, endLine_of_accepts proper accepted, rfl⟩

theorem foldlM_endIf_of_otherwise (proper : (Item.line word arguments stop).Proper)
    (found : Directive.ofWord? word.text = some .endIf)
    (accepted : Directive.endIf.accepts arguments stop = true) :
    (Item.line word arguments stop).tokens.foldlM step
        ⟨nodes, (.otherwise location last earlier, before) :: outer⟩ =
      .ok ((Builder.mk before outer).push (last.chain earlier nodes.reverse)) := by
  rw [foldlM_after_otherwise proper found]
  exact bind_eq_ok_iff.2 ⟨_, endLine_of_accepts proper accepted, rfl⟩

end

end Builder

/-! ## Stretches of a source -/

namespace Item

/-- Whether a directive line is well formed for its kind. -/
def isWellFormed : Item → Bool
  | .text _ => true
  | .line word arguments stop =>
      match Directive.ofWord? word.text with
      | some directive => directive.accepts arguments stop
      | none => false

/-- The stretches of text of a source: between directive lines, and in the bodies of definitions. -/
def stretches : List Item → List (List Token)
  | [] => [[]]
  | .text token :: rest => (stretches rest).modifyHead (token :: ·)
  | .line _ arguments _ :: rest => [] :: Token.bodyOf arguments :: stretches rest

theorem stretches_texts (tokens : List Token) (rest : List Item) :
    stretches (tokens.map .text ++ rest) = (stretches rest).modifyHead (tokens ++ ·) := by
  induction tokens with
  | nil => exact (congrFun List.modifyHead_id (stretches rest)).symm
  | cons token more ih =>
      rw [List.map_cons, List.cons_append, stretches, ih, List.modifyHead_modifyHead]
      rfl

theorem stretches_ne_nil (items : List Item) : stretches items ≠ [] := by
  induction items with
  | nil => simp [stretches]
  | cons item rest ih =>
      cases item with
      | line => simp [stretches]
      | text token => simpa [stretches] using ih

theorem stretches_line (left : List Item) (word : Token) (arguments : List Token) (stop : Token)
    (right : List Item) :
    stretches (left ++ .line word arguments stop :: right) =
      stretches left ++ Token.bodyOf arguments :: stretches right := by
  induction left with
  | nil => rfl
  | cons item rest ih =>
      cases item with
      | line =>
          rw [List.cons_append, stretches, ih, stretches]
          rfl
      | text token =>
          obtain ⟨first, others, some⟩ := List.exists_cons_of_ne_nil (stretches_ne_nil rest)
          rw [List.cons_append, stretches, ih, stretches, some]
          rfl

end Item

namespace Token

theorem isText_inBody {first : Byte} {rest : Bytes} {lexeme : Lexeme}
    (lexed : Lexeme.inBody first rest = .ok lexeme) : lexeme.kind.isText = true := by
  unfold Lexeme.inBody at lexed
  split at lexed
  · cases lexed
    rfl
  · simp [Kind.isText, Lexeme.isSolid_solid lexed]

/-- The body of a directive line holds text only. -/
theorem Trail.isText {inBody : Bool} {cursor stop : Cursor} {tokens : List Token}
    (trail : Trail inBody cursor tokens stop) :
    ∀ token ∈ bif inBody then tokens else bodyOf tokens, token.kind.isText = true := by
  induction trail with
  | stop inBody => cases inBody <;> simp [bodyOf]
  | skip _ ih => exact ih
  | @inLine cursor _ next lexeme tokens _ lexed _ ih =>
      have inline : ((cursor.token next.1 lexeme).kind != .body) = true := by
        have inside := Lexeme.isInline_inLine lexed
        change (lexeme.kind != .body) = true
        cases kind : lexeme.kind <;> simp_all [Kind.isInline]
      rw [cond_false, bodyOf, List.dropWhile_cons, if_pos inline]
      exact ih
  | opens _ ih => exact ih
  | inBody _ lexed _ ih => exact List.forall_mem_cons.2 ⟨isText_inBody lexed, ih⟩

theorem isText_ofBody {cursor stop : Cursor} {tokens : List Token}
    (read : ofBody cursor = .ok (tokens, stop)) : ∀ token ∈ tokens, token.kind.isText = true :=
  (trail_ofBody read).isText

/-- The stretches of a scanned source hold text only. -/
theorem isText_of_laid {fresh : Bool} {cursor : Cursor} {items : List Item}
    (laid : Laid fresh cursor items) :
    ∀ stretch ∈ Item.stretches items, ∀ token ∈ stretch, token.kind.isText = true := by
  induction laid with
  | stop => simp [Item.stretches]
  | @text fresh cursor first rest lexeme items _ _ lexed _ ih =>
      obtain ⟨leading, others, some⟩ := List.exists_cons_of_ne_nil (Item.stretches_ne_nil items)
      have isText : (cursor.token first lexeme).kind.isText = true := by
        rcases Lexeme.inSource_cases lexed with ⟨space, _⟩ | ⟨solid, _⟩
        · simp [Cursor.token, Kind.isText, space]
        · simp [Cursor.token, Kind.isText, solid]
      rw [Item.stretches, some, List.modifyHead_cons]
      rw [some] at ih
      obtain ⟨here, later⟩ := List.forall_mem_cons.1 ih
      exact List.forall_mem_cons.2 ⟨List.forall_mem_cons.2 ⟨isText, here⟩, later⟩
  | line _ line _ ih =>
      exact List.forall_mem_cons.2 ⟨by simp, List.forall_mem_cons.2 ⟨line.trail.isText, ih⟩⟩

end Token

/-- Items that can be read one by one. -/
structure Item.Sound (items : List Item) : Prop where
  proper : ∀ item ∈ items, item.Proper
  lines : ∀ item ∈ items, item.isWellFormed = true
  text : ∀ stretch ∈ Item.stretches items, ∀ token ∈ stretch, token.kind.isText = true
  calls : ∀ stretch ∈ Item.stretches items, Token.callsClosed stretch = true

namespace Item.Sound

variable {left right : List Item} {word stop : Token} {arguments : List Token}

theorem before_line (sound : Sound (left ++ .line word arguments stop :: right)) : Sound left where
  proper := fun item member => sound.proper item (by simp [member])
  lines := fun item member => sound.lines item (by simp [member])
  text := fun stretch member => sound.text stretch (by simp [stretches_line, member])
  calls := fun stretch member => sound.calls stretch (by simp [stretches_line, member])

theorem after_line (sound : Sound (left ++ .line word arguments stop :: right)) : Sound right where
  proper := fun item member => sound.proper item (by simp [member])
  lines := fun item member => sound.lines item (by simp [member])
  text := fun stretch member => sound.text stretch (by simp [stretches_line, member])
  calls := fun stretch member => sound.calls stretch (by simp [stretches_line, member])

theorem exists_directive (sound : Sound (left ++ .line word arguments stop :: right)) :
    (Item.line word arguments stop).Proper ∧ ∃ directive,
      Directive.ofWord? word.text = some directive ∧ directive.accepts arguments stop = true := by
  refine ⟨sound.proper _ (by simp), ?_⟩
  have formed := sound.lines (.line word arguments stop) (by simp)
  rw [isWellFormed] at formed
  cases found : Directive.ofWord? word.text with
  | none =>
      rw [found] at formed
      cases formed
  | some directive =>
      rw [found] at formed
      exact ⟨directive, rfl, formed⟩

end Item.Sound

end ScopedMacros
