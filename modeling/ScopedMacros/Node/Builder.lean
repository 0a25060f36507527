import ScopedMacros.Directive
import ScopedMacros.Expr.Reader
import ScopedMacros.Node.Basic
import ScopedMacros.Token.Scan

/-!
# Building nodes from tokens

A builder takes one token after the other.  It holds the nodes of the innermost construct that is
still open and, below it, the constructs around it.  A source is therefore read by a fold over its
tokens, and reading it in two parts is reading the second part with the builder that the first part
leaves.
-/

namespace ScopedMacros

/-- A branch of a conditional whose nodes are all read. -/
structure Branch where
  location : Location
  test : Test
  nodes : List Node

namespace Branch

def node (branch : Branch) (no : List Node) : Node :=
  .cond branch.location branch.test branch.nodes no

/-- The conditional made of a last branch, the earlier ones from the nearest to the first, and the
nodes for the case that all tests fail. -/
def chain (last : Branch) (earlier : List Branch) (no : List Node) : Node :=
  earlier.foldl (fun inner branch => branch.node [inner]) (last.node no)

end Branch

namespace Builder

/-- What a directive line will do once it is read. -/
inductive Purpose where
  | define
  | undef
  | inclusion
  | error
  | warning
  | line
  | ifDefined (positive : Bool)
  /-- Opens a branch after the earlier ones of its conditional. -/
  | ifTrue (earlier : List Branch)
  | otherwise (last : Branch) (earlier : List Branch)
  | endIf (last : Branch) (earlier : List Branch) (no : List Node)

/-- A construct whose end is not read yet. -/
inductive Frame where
  /-- A call, with the parentheses open in its current argument and the arguments before that one,
  the last first. -/
  | call (location : Location) (name : Bytes) (depth : Nat) (arguments : List (List Node))
  /-- The body of a definition. -/
  | define (word : Token) (name : Bytes) (parameters : Option (List Bytes))
  /-- A directive line, with its tokens so far, the last first. -/
  | line (word : Token) (purpose : Purpose) (tokens : List Token)
  /-- A branch of a conditional, opened by the given word. -/
  | branch (word : Bytes) (location : Location) (test : Test) (earlier : List Branch)
  /-- The case that all tests of a conditional fail. -/
  | otherwise (location : Location) (last : Branch) (earlier : List Branch)

end Builder

structure Builder where
  /-- The nodes of the innermost open construct, the last first. -/
  nodes : List Node
  /-- The open constructs from the innermost on, each with the nodes before it. -/
  frames : List (Builder.Frame × List Node)

namespace Builder

def empty : Builder :=
  ⟨[], []⟩

def push (builder : Builder) (node : Node) : Builder :=
  { builder with nodes := node :: builder.nodes }

/-- Opens a construct after the nodes read so far. -/
def enter (builder : Builder) (frame : Frame) : Builder :=
  ⟨[], (frame, builder.nodes) :: builder.frames⟩

/-! ## Directive lines -/

/-- Reads a name. -/
def takeName (stop : Token) (what : Expectation) :
    List Token → Except Error (Token × List Token)
  | token :: rest =>
      if token.kind = .ident then .ok (token, rest)
      else .error (what.failed stop (token :: rest))
  | [] => .error (what.failed stop [])

/-- Reads a string literal. -/
def takeString (stop : Token) (what : Expectation) :
    List Token → Except Error (Bytes × List Token)
  | token :: rest =>
      match token.kind with
      | .string value => .ok (value, rest)
      | _ => .error (what.failed stop (token :: rest))
  | [] => .error (what.failed stop [])

/-- Reads the number and the file of a line directive. -/
def takeLine (stop : Token) : List Token → Except Error (Int64 × Option Bytes × List Token)
  | token :: rest =>
      match token.kind, rest with
      | .integer number, ⟨.string file, _, _⟩ :: rest => .ok (number, some file, rest)
      | .integer number, rest => .ok (number, none, rest)
      | _, _ => .error (Expectation.lineNumber.failed stop (token :: rest))
  | [] => .error (Expectation.lineNumber.failed stop [])

/-- Reads the names of parameters, all different. -/
def takeParameters (stop : Token) (name : Bytes) (seen : List Bytes) :
    List Token → Except Error (List Bytes × List Token)
  | [] => .error (Expectation.parameter.failed stop [])
  | token :: rest =>
      if token.kind ≠ .ident then
        .error (Expectation.parameter.failed stop (token :: rest))
      else if token.text ∈ seen then
        .error ⟨.duplicateParameter token.text name, token.location⟩
      else
        match rest with
        | [] => .ok (seen ++ [token.text], [])
        | next :: rest =>
            if next.kind = .comma then
              takeParameters stop name (seen ++ [token.text]) rest
            else
              .ok (seen ++ [token.text], next :: rest)

/-- Reads the parameter list of a definition, if there is one. -/
def takeParameterList (stop : Token) (name : Bytes) (tokens : List Token) :
    Except Error (Option (List Bytes) × List Token) :=
  match tokens with
  | ⟨.leftParen, _, _⟩ :: ⟨.rightParen, _, _⟩ :: rest => .ok (some [], rest)
  | ⟨.leftParen, _, _⟩ :: rest => do
      let (parameters, rest) ← takeParameters stop name [] rest
      match rest with
      | ⟨.rightParen, _, _⟩ :: rest => .ok (some parameters, rest)
      | rest => .error (Expectation.endOfParameters.failed stop rest)
  | tokens => .ok (none, tokens)

/-- Reads the head of a definition, which ends where its body starts. -/
def takeHead (stop : Token) (tokens : List Token) :
    Except Error (Bytes × Option (List Bytes)) := do
  let (name, rest) ← takeName stop (.nameAfter Directive.define.word) tokens
  let (parameters, rest) ← takeParameterList stop name.text rest
  if rest.isEmpty && stop.kind == .body then
    .ok (name.text, parameters)
  else
    .error (Expectation.body.failed stop rest)

/-- The location of a directive line, all of whose tokens have been read. -/
def endLine (word stop : Token) (rest : List Token) : Except Error Location :=
  let got := rest.headD stop
  if got.kind = .lineEnd then
    .ok (word.location.span got.location)
  else
    .error ⟨.trailing got.kind word.text, got.location⟩

/-- Does what a directive line says, once its tokens have been read up to `stop`. -/
def finishLine (outer : Builder) (word : Token) (purpose : Purpose) (tokens : List Token)
    (stop : Token) : Except Error Builder :=
  match purpose with
  | .define => do
      let (name, parameters) ← takeHead stop tokens
      .ok (outer.enter (.define word name parameters))
  | .undef => do
      let (name, rest) ← takeName stop (.nameAfter word.text) tokens
      let location ← endLine word stop rest
      .ok (outer.push (.undef location name.text))
  | .inclusion => do
      let (path, rest) ← takeString stop .pathAfterInclusion tokens
      let location ← endLine word stop rest
      .ok (outer.push (.inclusion location path))
  | .error => do
      let (message, rest) ← takeString stop (.messageAfter word.text) tokens
      let location ← endLine word stop rest
      .ok (outer.push (.error location message))
  | .warning => do
      let (message, rest) ← takeString stop (.messageAfter word.text) tokens
      let location ← endLine word stop rest
      .ok (outer.push (.warning location message))
  | .line => do
      let (number, file, rest) ← takeLine stop tokens
      let location ← endLine word stop rest
      .ok (outer.push (.line location file number))
  | .ifDefined positive => do
      let (name, rest) ← takeName stop (.nameAfter word.text) tokens
      let location ← endLine word stop rest
      let test := Test.defined name.location name.text
      let test := if positive then test else .not name.location test
      .ok (outer.enter (.branch word.text location test []))
  | .ifTrue earlier => do
      let (test, rest) ← Test.ofTokens stop tokens
      let location ← endLine word stop rest
      .ok (outer.enter (.branch word.text location test earlier))
  | .otherwise last earlier => do
      let _ ← endLine word stop tokens
      .ok (outer.enter (.otherwise word.location last earlier))
  | .endIf last earlier no => do
      let _ ← endLine word stop tokens
      .ok (outer.push (last.chain earlier no))

/-- Whether a token ends a directive line: the head of a definition ends at the body. -/
def endsLine (purpose : Purpose) (kind : Token.Kind) : Bool :=
  match purpose, kind with
  | _, .lineEnd => true
  | .define, .body => true
  | _, _ => false

/-! ## Tokens outside directive lines -/

/-- Starts a directive line. -/
def directive (builder : Builder) (word : Token) : Except Error Builder :=
  let start (purpose : Purpose) : Except Error Builder :=
    .ok (builder.enter (.line word purpose []))
  let stray : Except Error Builder := .error ⟨.strayDirective word.text, word.location⟩
  match Directive.ofWord? word.text with
  | none => stray
  | some .define => start .define
  | some .undef => start .undef
  | some .inclusion => start .inclusion
  | some .error => start .error
  | some .warning => start .warning
  | some .line => start .line
  | some .ifTrue => start (.ifTrue [])
  | some .ifDefined => start (.ifDefined true)
  | some .ifUndefined => start (.ifDefined false)
  | some .elseIf =>
      match builder.frames with
      | (.branch _ location test earlier, before) :: frames =>
          let last : Branch := ⟨location, test, builder.nodes.reverse⟩
          .ok ⟨[], (.line word (.ifTrue (last :: earlier)) [], before) :: frames⟩
      | (.otherwise _ _ _, _) :: _ => .error ⟨.afterOtherwise word.text, word.location⟩
      | _ => stray
  | some .otherwise =>
      match builder.frames with
      | (.branch _ location test earlier, before) :: frames =>
          let last : Branch := ⟨location, test, builder.nodes.reverse⟩
          .ok ⟨[], (.line word (.otherwise last earlier) [], before) :: frames⟩
      | (.otherwise _ _ _, _) :: _ => .error ⟨.afterOtherwise word.text, word.location⟩
      | _ => stray
  | some .endIf =>
      match builder.frames with
      | (.branch _ location test earlier, before) :: frames =>
          let last : Branch := ⟨location, test, builder.nodes.reverse⟩
          .ok ⟨[], (.line word (.endIf last earlier []) [], before) :: frames⟩
      | (.otherwise _ last earlier, before) :: frames =>
          .ok ⟨[], (.line word (.endIf last earlier builder.nodes.reverse) [], before) :: frames⟩
      | _ => stray

/-- The node for an identifier. -/
def ofName (token : Token) : Node :=
  if token.text = bytes "__LINE__" then .currentLine token.location
  else if token.text = bytes "__FILE__" then .currentFile token.location
  else .ident token.location token.text

/-- Adds the node of a token that is one by itself. -/
def leaf (builder : Builder) (token : Token) : Except Error Builder :=
  match token.kind with
  | .ident => .ok (builder.push (ofName token))
  | .space => .ok (builder.push (.space token.location token.text))
  | .text | .string _ | .character | .leftParen | .rightParen | .comma =>
      .ok (builder.push (.text token.location token.text))
  | _ => .error ⟨.unexpected token.kind, token.location⟩

/-- The call that a parenthesis starts when the last node is an identifier. -/
def call? (builder : Builder) : Option Builder :=
  match builder.nodes with
  | .ident location name :: before =>
      some ⟨[], (.call location name 0 [], before) :: builder.frames⟩
  | _ => none

/-- Takes a token of a source at large, of a branch, or of the body of a definition. -/
def plain (builder : Builder) (token : Token) : Except Error Builder :=
  match token.kind with
  | .directive => builder.directive token
  | .leftParen =>
      match builder.call? with
      | some inner => .ok inner
      | none => builder.leaf token
  | _ => builder.leaf token

/-- Takes a token of an argument of a call.  `nodes` are those of the argument so far, and `outer`
is the builder without the call. -/
def argument (nodes : List Node) (outer : Builder) (location : Location) (name : Bytes)
    (depth : Nat) (arguments : List (List Node)) (token : Token) : Except Error Builder :=
  let inside (depth : Nat) : Builder :=
    ⟨nodes, (.call location name depth arguments, outer.nodes) :: outer.frames⟩
  match token.kind, depth with
  | .lineEnd, _ => .error ⟨.unterminatedCall name, location⟩
  | .directive, _ => .error ⟨.directiveInCall name, token.location⟩
  | .comma, 0 =>
      .ok ⟨[], (.call location name 0 (nodes.reverse :: arguments), outer.nodes) :: outer.frames⟩
  | .rightParen, 0 =>
      let all := if arguments.isEmpty && nodes.isEmpty then [] else nodes.reverse :: arguments
      .ok (outer.push (.call (location.span token.location) name all.reverse))
  | .rightParen, depth + 1 => (inside depth).leaf token
  | .leftParen, depth =>
      match (inside depth).call? with
      | some inner => .ok inner
      | none => (inside (depth + 1)).leaf token
  | _, depth => (inside depth).leaf token

/-- Takes one more token. -/
def step (builder : Builder) (token : Token) : Except Error Builder :=
  match builder.frames with
  | (.line word purpose tokens, before) :: frames =>
      if endsLine purpose token.kind then
        finishLine ⟨before, frames⟩ word purpose tokens.reverse token
      else
        .ok ⟨builder.nodes, (.line word purpose (token :: tokens), before) :: frames⟩
  | (.call location name depth arguments, before) :: frames =>
      argument builder.nodes ⟨before, frames⟩ location name depth arguments token
  | (.define word name parameters, before) :: frames =>
      if token.kind = .lineEnd then
        let body := Node.trim builder.nodes.reverse
        .ok ⟨.define (word.location.span token.location) name parameters body :: before, frames⟩
      else
        builder.plain token
  | _ => builder.plain token

/-- The nodes of a source that ends here. -/
def finish (builder : Builder) (stop : Token) : Except Error (List Node) :=
  match builder.frames with
  | [] => .ok builder.nodes.reverse
  | (.line word purpose tokens, before) :: frames => do
      let _ ← finishLine ⟨before, frames⟩ word purpose tokens.reverse stop
      .error ⟨.trailing stop.kind word.text, stop.location⟩
  | (.call location name _ _, _) :: _ => .error ⟨.unterminatedCall name, location⟩
  | (.define word _ _, _) :: _ => .error ⟨.trailing stop.kind word.text, stop.location⟩
  | (.branch word location _ _, _) :: _ => .error ⟨.unterminatedConditional word, location⟩
  | (.otherwise location _ _, _) :: _ =>
      .error ⟨.unterminatedConditional Directive.otherwise.word, location⟩

end Builder

namespace Node

/-- The nodes of a list of tokens up to the first end of a file. -/
def ofTokens (tokens : List Token) : Except Error (List Node) := do
  let stop := (tokens.find? (·.kind == .fileEnd)).getD ⟨.fileEnd, [], .nowhere⟩
  let builder ← (tokens.takeWhile (·.kind != .fileEnd)).foldlM Builder.step .empty
  builder.finish stop

/-- The nodes of a source with the given name. -/
def ofSource (file text : Bytes) : Except Error (List Node) := do
  ofTokens (← Token.scan file text)

end Node

end ScopedMacros
