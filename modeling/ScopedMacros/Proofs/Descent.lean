import ScopedMacros.Node.Builder
import ScopedMacros.Proofs.Walker

/-!
# Reading tokens by their places

A descent reads nodes from tokens that it knows by their places, with one function for each
construct.  A look at a place where there is no token is a fault, and so is a step over the end of a
file, and so is a loop or a recursion that goes on for longer than the tokens can last.
-/

namespace ScopedMacros

/-- The tokens with the end of the file after them, unless they end with one. -/
def Token.closed (tokens : List Token) : List Token :=
  if tokens.getLast?.any (·.kind == .fileEnd) then tokens
  else tokens ++ [⟨.fileEnd, [], .nowhere⟩]

/-- Whether the token is the given directive. -/
def Token.isDirective (token : Token) (directive : Directive) : Bool :=
  token.kind == .directive && token.text == directive.word

/-- Whether the token ends a branch of a conditional. -/
def Token.endsBranch (token : Token) : Bool :=
  token.isDirective .elseIf || token.isDirective .otherwise || token.isDirective .endIf

/-- Whether a token of this kind is text by itself. -/
def Token.Kind.isPlainText : Token.Kind → Bool
  | .text | .string _ | .character | .leftParen | .rightParen | .comma => true
  | _ => false

namespace Descent

variable (tokens : List Token)

/-! ## Single tokens -/

/-- The token at a place, where there has to be one. -/
def look (place : Nat) : Except Fault Token :=
  match tokens[place]? with
  | some token => .ok token
  | none => .error .overrun

/-- The token before a place. -/
def lookBack (place : Nat) : Except Fault Token :=
  if place = 0 then .error .overrun else look tokens (place - 1)

/-- Steps over the token at a place.  There is no step from the last token, and none over the end of
a file. -/
def consume (place : Nat) : Except Fault (Token × Nat) := do
  let token ← look tokens place
  if place + 1 < tokens.length then
    if token.kind = .fileEnd then .error .overrun else .ok (token, place + 1)
  else
    .ok (token, place)

/-- The number of turns that a loop or a recursion may take. -/
def turns : Nat :=
  4 * (tokens.length + 1)

def refuse {α : Type} (cause : Cause) (location : Location) : Except Fault α :=
  .error (.refused ⟨cause, location⟩)

/-- Steps over a token that has to be of a certain kind, and gives what it is taken for. -/
def expect {α : Type} (take? : Token → Option α) (what : Expectation) (place : Nat) :
    Except Fault (α × Nat) := do
  let token ← look tokens place
  match take? token with
  | some value => do
      let (_, place) ← consume tokens place
      .ok (value, place)
  | none => refuse (.expected what token.kind) token.location

/-- The token itself, if it is of the given kind. -/
def ofKind? (kind : Token.Kind) (token : Token) : Option Token :=
  if token.kind = kind then some token else none

def string? (token : Token) : Option Bytes :=
  match token.kind with
  | .string value => some value
  | _ => none

def integer? (token : Token) : Option Int64 :=
  match token.kind with
  | .integer value => some value
  | _ => none

/-- Steps over the end of a directive line, and gives the location of the line. -/
def endLine (word : Token) (place : Nat) : Except Fault (Location × Nat) := do
  let token ← look tokens place
  if token.kind = .lineEnd then do
    let (stop, place) ← consume tokens place
    .ok (word.location.span stop.location, place)
  else
    refuse (.trailing token.kind word.text) token.location

/-! ## Expressions -/

mutual

/-- An arithmetic expression of a level. -/
def arith : Nat → Arith.Level → Nat → Except Fault (Arith × Nat)
  | 0, _, _ => .error .endless
  | turns + 1, .sum, place => do
      let (left, place) ← arith turns .product place
      arithChain turns .sum left place
  | turns + 1, .product, place => do
      let (left, place) ← arith turns .shift place
      arithChain turns .product left place
  | turns + 1, .shift, place => do
      let (left, place) ← arith turns .operand place
      let token ← look tokens place
      match Operation.atLevel? .shift token with
      | none => .ok (left, place)
      | some operation => do
          let (_, place) ← consume tokens place
          let (right, place) ← arith turns .shift place
          .ok (Arith.join operation left right, place)
  | turns + 1, .operand, place => do
      let token ← look tokens place
      if token.kind = .op .minus then do
        let (sign, place) ← consume tokens place
        let (value, place) ← arith turns .operand place
        .ok (.neg (sign.location.span value.location) value, place)
      else if token.kind = .op .tilde || token.isWord (bytes "lnot") then do
        let (sign, place) ← consume tokens place
        let (value, place) ← arith turns .operand place
        .ok (.complement (sign.location.span value.location) value, place)
      else if token.kind = .op .plus then do
        let (_, place) ← consume tokens place
        arith turns .operand place
      else if token.kind = .leftParen then do
        let (left, place) ← consume tokens place
        let (value, place) ← arith turns .sum place
        let (right, place) ← expect tokens (ofKind? .rightParen) .rightParen place
        .ok (value.relocate (left.location.span right.location), place)
      else
        expect tokens Arith.ofToken? .operand place

/-- What follows the first operand of a chain. -/
def arithChain : Nat → Arith.Level → Arith → Nat → Except Fault (Arith × Nat)
  | 0, _, _, _ => .error .endless
  | turns + 1, level, left, place => do
      let token ← look tokens place
      match Operation.atLevel? level token with
      | none => .ok (left, place)
      | some operation => do
          let (_, place) ← consume tokens place
          let (right, place) ← arith turns level.tighter place
          arithChain turns level (Arith.join operation left right) place

end

/-- A comparison, or a number by itself. -/
def comparison (place : Nat) : Except Fault (Test × Nat) := do
  let (left, place) ← arith tokens (turns tokens) .sum place
  let token ← look tokens place
  match Comparison.ofToken? token with
  | none => .ok (Test.nonzero left, place)
  | some comparison => do
      let (_, place) ← consume tokens place
      let (right, place) ← arith tokens (turns tokens) .sum place
      .ok (comparison.test (left.location.span right.location) left right, place)

/-- The name after `defined`, in parentheses or not. -/
def definedName (word : Token) (place : Nat) : Except Fault (Test × Nat) := do
  let token ← look tokens place
  if token.kind = .leftParen then do
    let (_, place) ← consume tokens place
    let (name, place) ← expect tokens (ofKind? .ident) .nameAfterDefined place
    let (close, place) ← expect tokens (ofKind? .rightParen) .endOfDefined place
    .ok (.defined (word.location.span close.location) name.text, place)
  else do
    let (name, place) ← expect tokens (ofKind? .ident) .nameAfterDefined place
    .ok (.defined (word.location.span name.location) name.text, place)

/-- The place of the parenthesis that brings the number of open ones back to zero, if it stands in
the same line. -/
def closing : Nat → Int → Nat → Except Fault (Option Nat)
  | 0, _, _ => .error .endless
  | turns + 1, depth, place =>
      if tokens.length ≤ place then .ok none
      else do
        let token ← look tokens place
        if token.kind = .lineEnd || token.kind = .fileEnd then .ok none
        else if token.kind = .leftParen then closing turns (depth + 1) (place + 1)
        else if token.kind = .rightParen then
          if depth - 1 = 0 then .ok (some place) else closing turns (depth - 1) (place + 1)
        else closing turns depth (place + 1)

mutual

/-- A test of a level. -/
def test : Nat → Test.Level → Nat → Except Fault (Test × Nat)
  | 0, _, _ => .error .endless
  | turns + 1, .either, place => do
      let (left, place) ← test turns .both place
      testChain turns .either left place
  | turns + 1, .both, place => do
      let (left, place) ← test turns .single place
      testChain turns .both left place
  | turns + 1, .single, place => do
      let token ← look tokens place
      if token.kind = .op .not || token.isWord (bytes "not") then do
        let (sign, place) ← consume tokens place
        let (operand, place) ← test turns .single place
        .ok (.not (sign.location.span operand.location) operand, place)
      else if token.isWord (bytes "true") then do
        let (token, place) ← consume tokens place
        .ok (.literal token.location true, place)
      else if token.isWord (bytes "false") then do
        let (token, place) ← consume tokens place
        .ok (.literal token.location false, place)
      else if token.isWord (bytes "defined") then do
        let (word, place) ← consume tokens place
        definedName tokens word place
      else if token.kind = .leftParen then do
        match ← closing tokens (Descent.turns tokens) 0 place with
        | none => refuse .unbalancedParens token.location
        | some close => do
            let after ← look tokens (if close + 1 < tokens.length then close + 1 else close)
            if Test.continues after then comparison tokens place
            else do
              let (left, place) ← consume tokens place
              let (inner, place) ← test turns .either place
              let (right, place) ← expect tokens (ofKind? .rightParen) .rightParen place
              .ok (inner.relocate (left.location.span right.location), place)
      else
        comparison tokens place

/-- What follows the first operand of a chain of tests. -/
def testChain : Nat → Test.Level → Test → Nat → Except Fault (Test × Nat)
  | 0, _, _, _ => .error .endless
  | turns + 1, level, left, place => do
      let token ← look tokens place
      if level.op?.map .op = some token.kind then do
        let (_, place) ← consume tokens place
        let (right, place) ← test turns level.tighter place
        testChain turns level (Test.join level left right) place
      else
        .ok (left, place)

end

/-- The expression of a conditional. -/
def expression (place : Nat) : Except Fault (Test × Nat) := do
  let token ← look tokens place
  if token.kind = .lineEnd then refuse .missingExpression token.location
  else test tokens (turns tokens) .either place

/-- The name that a conditional asks for. -/
def nameTest (word : Token) (positive : Bool) (place : Nat) : Except Fault (Test × Nat) := do
  let (name, place) ← expect tokens (ofKind? .ident) (.nameAfter word.text) place
  let test := Test.defined name.location name.text
  .ok (if positive then test else .not name.location test, place)

/-! ## Lines that are a node -/

def undefLine (word : Token) (place : Nat) : Except Fault (Node × Nat) := do
  let (name, place) ← expect tokens (ofKind? .ident) (.nameAfter word.text) place
  let (location, place) ← endLine tokens word place
  .ok (.undef location name.text, place)

/-- A line with a string literal, of which `node` makes a node. -/
def stringLine (what : Expectation) (node : Location → Bytes → Node) (word : Token) (place : Nat) :
    Except Fault (Node × Nat) := do
  let (value, place) ← expect tokens string? what place
  let (location, place) ← endLine tokens word place
  .ok (node location value, place)

/-- The file of a line directive, if there is one. -/
def lineFile (place : Nat) : Except Fault (Option Bytes × Nat) := do
  let token ← look tokens place
  match string? token with
  | some file => do
      let (_, place) ← consume tokens place
      .ok (some file, place)
  | none => .ok (none, place)

def numberLine (word : Token) (place : Nat) : Except Fault (Node × Nat) := do
  let (number, place) ← expect tokens integer? .lineNumber place
  let (file, place) ← lineFile tokens place
  let (location, place) ← endLine tokens word place
  .ok (.line location file number, place)

/-! ## Definitions -/

/-- Names of parameters, all different. -/
def parameters (name : Bytes) : Nat → List Bytes → Nat → Except Fault (List Bytes × Nat)
  | 0, _, _ => .error .endless
  | turns + 1, seen, place => do
      let (parameter, place) ← expect tokens (ofKind? .ident) .parameter place
      if parameter.text ∈ seen then
        refuse (.duplicateParameter parameter.text name) parameter.location
      else do
        let token ← look tokens place
        if token.kind = .comma then do
          let (_, place) ← consume tokens place
          parameters name turns (seen ++ [parameter.text]) place
        else
          .ok (seen ++ [parameter.text], place)

/-- The names up to the parenthesis that closes the list, which may follow at once. -/
def parametersToClose (name : Bytes) (place : Nat) : Except Fault (List Bytes × Nat) := do
  let token ← look tokens place
  if token.kind = .rightParen then .ok ([], place)
  else parameters tokens name (turns tokens) [] place

/-- The parameter list of a definition, if there is one. -/
def parameterList (name : Bytes) (place : Nat) : Except Fault (Option (List Bytes) × Nat) := do
  let token ← look tokens place
  if token.kind = .leftParen then do
    let (_, place) ← consume tokens place
    let (parameters, place) ← parametersToClose tokens name place
    let (_, place) ← expect tokens (ofKind? .rightParen) .endOfParameters place
    .ok (some parameters, place)
  else
    .ok (none, place)

/-- The head of a definition, to the start of its body. -/
def head (place : Nat) : Except Fault ((Bytes × Option (List Bytes)) × Nat) := do
  let (name, place) ←
    expect tokens (ofKind? .ident) (.nameAfter Directive.define.word) place
  let (parameters, place) ← parameterList tokens name.text place
  let (_, place) ← expect tokens (ofKind? .body) .body place
  .ok ((name.text, parameters), place)

/-! ## Nodes -/

/-- A token that is text by itself. -/
def text (place : Nat) : Except Fault (Node × Nat) := do
  let token ← look tokens place
  if token.kind = .space then do
    let (token, place) ← consume tokens place
    .ok (.space token.location token.text, place)
  else if token.kind.isPlainText then do
    let (token, place) ← consume tokens place
    .ok (.text token.location token.text, place)
  else
    refuse (.unexpected token.kind) token.location

/-- The number of parentheses open in an argument after one more token. -/
def depthAfter (kind : Token.Kind) (depth : Nat) : Nat :=
  if kind = .leftParen then depth + 1
  else if kind = .rightParen then depth - 1
  else depth

mutual

/-- A name, with its arguments if a parenthesis follows it. -/
def name : Nat → Nat → Except Fault (Node × Nat)
  | 0, _ => .error .endless
  | turns + 1, place => do
      let (name, place) ← consume tokens place
      if name.text = bytes "__LINE__" then .ok (.currentLine name.location, place)
      else if name.text = bytes "__FILE__" then .ok (.currentFile name.location, place)
      else do
        let token ← look tokens place
        if token.kind = .leftParen then do
          let (_, place) ← consume tokens place
          let (given, place) ← arguments turns name [] [] 0 place
          let last ← lookBack tokens place
          .ok (.call (name.location.span last.location) name.text given, place)
        else
          .ok (.ident name.location name.text, place)

/-- The rest of the arguments of a call, after those given and the nodes and the open parentheses of
the current one. -/
def arguments : Nat → Token → List (List Node) → List Node → Nat → Nat →
    Except Fault (List (List Node) × Nat)
  | 0, _, _, _, _, _ => .error .endless
  | turns + 1, called, given, current, depth, place => do
      let token ← look tokens place
      if token.kind = .fileEnd || token.kind = .lineEnd then
        refuse (.unterminatedCall called.text) called.location
      else if token.kind = .directive then
        refuse (.directiveInCall called.text) token.location
      else if token.kind = .comma && depth == 0 then do
        let (_, place) ← consume tokens place
        arguments turns called (given ++ [current]) [] 0 place
      else if token.kind = .rightParen && depth == 0 then do
        let (_, place) ← consume tokens place
        .ok (if given.isEmpty && current.isEmpty then given else given ++ [current], place)
      else if token.kind = .ident then do
        let (node, place) ← name turns place
        arguments turns called given (current ++ [node]) depth place
      else do
        let (node, place) ← text tokens place
        arguments turns called given (current ++ [node]) (depthAfter token.kind depth) place

end

mutual

/-- The nodes up to the end of the file or of a branch. -/
def block : Nat → Nat → Except Fault (List Node × Nat)
  | 0, _ => .error .endless
  | turns + 1, place => do
      let token ← look tokens place
      if token.kind = .fileEnd || token.endsBranch then .ok ([], place)
      else do
        let (first, place) ← node turns place
        let (nodes, place) ← block turns place
        .ok (first :: nodes, place)

def node : Nat → Nat → Except Fault (Node × Nat)
  | 0, _ => .error .endless
  | turns + 1, place => do
      let token ← look tokens place
      if token.kind = .directive then directive turns place
      else if token.kind = .ident then name tokens (Descent.turns tokens) place
      else text tokens place

def directive : Nat → Nat → Except Fault (Node × Nat)
  | 0, _ => .error .endless
  | turns + 1, place => do
      let (word, place) ← consume tokens place
      match Directive.ofWord? word.text with
      | some .define => definition turns word place
      | some .undef => undefLine tokens word place
      | some .inclusion => stringLine tokens .pathAfterInclusion .inclusion word place
      | some .error => stringLine tokens (.messageAfter word.text) .error word place
      | some .warning => stringLine tokens (.messageAfter word.text) .warning word place
      | some .line => numberLine tokens word place
      | some .ifTrue => do
          let (test, place) ← expression tokens place
          conditional turns word test place
      | some .ifDefined => do
          let (test, place) ← nameTest tokens word true place
          conditional turns word test place
      | some .ifUndefined => do
          let (test, place) ← nameTest tokens word false place
          conditional turns word test place
      | _ => refuse (.strayDirective word.text) word.location

def definition : Nat → Token → Nat → Except Fault (Node × Nat)
  | 0, _, _ => .error .endless
  | turns + 1, word, place => do
      let ((name, parameters), place) ← head tokens place
      let (body, place) ← definitionBody turns place
      let (location, place) ← endLine tokens word place
      .ok (.define location name parameters (Node.trim body), place)

/-- The nodes up to the end of the line. -/
def definitionBody : Nat → Nat → Except Fault (List Node × Nat)
  | 0, _ => .error .endless
  | turns + 1, place => do
      let token ← look tokens place
      if token.kind = .lineEnd || token.kind = .fileEnd then .ok ([], place)
      else do
        let (first, place) ← node turns place
        let (nodes, place) ← definitionBody turns place
        .ok (first :: nodes, place)

/-- A conditional whose test has been read, from the end of its line on. -/
def conditional : Nat → Token → Test → Nat → Except Fault (Node × Nat)
  | 0, _, _, _ => .error .endless
  | turns + 1, word, test, place => do
      let (location, place) ← endLine tokens word place
      let (yes, place) ← block turns place
      let token ← look tokens place
      if token.kind = .fileEnd then refuse (.unterminatedConditional word.text) location
      else do
        let (next, place) ← consume tokens place
        if next.text = Directive.elseIf.word then do
          let (other, place) ← expression tokens place
          let (no, place) ← conditional turns next other place
          .ok (.cond location test yes [no], place)
        else if next.text = Directive.otherwise.word then do
          let (_, place) ← endLine tokens next place
          let (no, place) ← block turns place
          let token ← look tokens place
          if token.kind = .fileEnd then
            refuse (.unterminatedConditional Directive.otherwise.word) next.location
          else if token.isDirective .endIf then do
            let (last, place) ← consume tokens place
            let (_, place) ← endLine tokens last place
            .ok (.cond location test yes no, place)
          else
            refuse (.afterOtherwise token.text) token.location
        else do
          let (_, place) ← endLine tokens next place
          .ok (.cond location test yes [], place)

end

end Descent

/-- The nodes of a list of tokens, read by their places. -/
def Descent.file (tokens : List Token) : Except Fault (List Node) := do
  let tokens := Token.closed tokens
  let (nodes, place) ← block tokens (turns tokens) 0
  let token ← look tokens place
  if token.kind = .fileEnd then .ok nodes
  else refuse (.strayDirective token.text) token.location

end ScopedMacros
