import ScopedMacros.Token.Basic

/-!
# Errors

An error is a cause and, as a rule, a location.  Causes are data; their wording stands in
`Cause.message` alone.
-/

namespace ScopedMacros

/-- The families of errors. -/
inductive ErrorKind where
  | form
  | name
  | arity
  | value
  | cycle
  | user
  | file
  deriving DecidableEq, Repr

namespace ErrorKind

def all : List ErrorKind :=
  [.form, .name, .arity, .value, .cycle, .user, .file]

def label : ErrorKind → Bytes
  | .form => bytes "SyntaxError"
  | .name => bytes "NameError"
  | .arity => bytes "ArityError"
  | .value => bytes "EvalError"
  | .cycle => bytes "CycleError"
  | .user => bytes "UserError"
  | .file => bytes "IoError"

end ErrorKind

/-- What a reader of tokens looked for and did not find. -/
inductive Expectation where
  | nameAfter (directive : Bytes)
  | pathAfterInclusion
  | messageAfter (directive : Bytes)
  | lineNumber
  | parameter
  | endOfParameters
  | body
  | nameAfterDefined
  | endOfDefined
  | rightParen
  | operand
  deriving DecidableEq, Repr

def Expectation.describe : Expectation → Bytes
  | .nameAfter directive => bytes "macro name after #" ++ directive
  | .pathAfterInclusion => bytes "quoted file name after #include"
  | .messageAfter directive => bytes "quoted message after #" ++ directive
  | .lineNumber => bytes "line number"
  | .parameter => bytes "parameter name"
  | .endOfParameters => bytes "')' after parameter list"
  | .body => bytes "macro body"
  | .nameAfterDefined => bytes "macro name after defined"
  | .endOfDefined => bytes "')' after defined(NAME"
  | .rightParen => bytes "')'"
  | .operand => bytes "an arithmetic expression"

inductive Cause where
  | unterminatedString
  | unterminatedParameters
  | badInteger (text : Bytes)
  | badCharacter (byte : Byte)
  | lineOutOfRange
  | expected (what : Expectation) (got : Token.Kind)
  | unexpected (got : Token.Kind)
  | trailing (got : Token.Kind) (directive : Bytes)
  | strayDirective (directive : Bytes)
  | afterOtherwise (directive : Bytes)
  | unterminatedConditional (directive : Bytes)
  | unterminatedCall (name : Bytes)
  | directiveInCall (name : Bytes)
  | duplicateParameter (parameter name : Bytes)
  | missingExpression
  | unbalancedParens
  | undefined (name : Bytes)
  | takesNoArguments (name : Bytes)
  | alreadyDefined (name : Bytes)
  | notApplied (name : Bytes) (parameters : Nat)
  | wrongArity (name : Bytes) (parameters arguments : Nat)
  | divisionByZero
  | takesArguments (name : Bytes)
  | cyclicAlias (name : Bytes)
  | notConstant (name : Bytes)
  | notInteger (name : Bytes)
  /-- A name without an integer value, for a reason found elsewhere. -/
  | noValue (name : Bytes) (reason : Cause) (location : Location)
  | cyclicInclusion (path : Bytes)
  | user (message : Bytes)
  | missingFile (path : Bytes)
  deriving DecidableEq, Repr

/-- A message with the location it is about, as far as it is shown. -/
def errorText (message : Bytes) : Option Location → Bytes
  | none => Bytes.shown (bytes "Error: " ++ message)
  | some location =>
      Bytes.shown (location.describe ++ Byte.newline :: bytes "Error: " ++ message)

namespace Cause

def kind : Cause → ErrorKind
  | .unterminatedString | .unterminatedParameters | .badInteger _ | .badCharacter _
  | .lineOutOfRange | .expected _ _ | .unexpected _ | .trailing _ _ | .strayDirective _
  | .afterOtherwise _ | .unterminatedConditional _ | .unterminatedCall _ | .directiveInCall _
  | .duplicateParameter _ _ | .missingExpression | .unbalancedParens => .form
  | .undefined _ | .takesNoArguments _ | .alreadyDefined _ => .name
  | .notApplied _ _ | .wrongArity _ _ _ => .arity
  | .divisionByZero | .takesArguments _ | .cyclicAlias _ | .notConstant _ | .notInteger _
  | .noValue _ _ _ => .value
  | .cyclicInclusion _ => .cycle
  | .user _ => .user
  | .missingFile _ => .file

/-- A number of arguments in words. -/
def arguments (count : Nat) : Bytes :=
  Bytes.ofNat count ++ bytes (if count ≤ 1 then " argument" else " arguments")

def message : Cause → Bytes
  | .unterminatedString => bytes "unterminated string literal"
  | .unterminatedParameters => bytes "unterminated parameter list"
  | .badInteger text => bytes "invalid integer literal " ++ text
  | .badCharacter byte => bytes "unexpected character '" ++ byte :: bytes "' in directive"
  | .lineOutOfRange => bytes "line number out of range"
  | .expected what got => bytes "expected " ++ what.describe ++ bytes ", got " ++ got.describe
  | .unexpected got => bytes "unexpected " ++ got.describe
  | .trailing got directive =>
      bytes "unexpected " ++ got.describe ++ bytes " after #" ++ directive
  | .strayDirective directive => bytes "#" ++ directive ++ bytes " without #if"
  | .afterOtherwise directive => bytes "#" ++ directive ++ bytes " after #else"
  | .unterminatedConditional directive => bytes "unterminated #" ++ directive
  | .unterminatedCall name => bytes "unterminated macro call " ++ name.quote
  | .directiveInCall name => bytes "directive inside the arguments of " ++ name.quote
  | .duplicateParameter parameter name =>
      bytes "duplicate parameter " ++ parameter.quote ++ bytes " in definition of " ++ name.quote
  | .missingExpression => bytes "missing expression"
  | .unbalancedParens => bytes "unbalanced parentheses"
  | .undefined name => bytes "Undefined identifier " ++ name.quote
  | .takesNoArguments name => name.quote ++ bytes " expects no arguments"
  | .alreadyDefined name => name.quote ++ bytes " is already defined"
  | .notApplied name parameters =>
      name.quote ++ bytes " expects " ++ Bytes.ofNat parameters ++
        bytes " arguments but is applied to none."
  | .wrongArity name parameters applied =>
      name.quote ++ bytes " expects " ++ arguments parameters ++
        bytes " but is applied to " ++ arguments applied ++ bytes "."
  | .divisionByZero => bytes "Division by zero"
  | .takesArguments name => name.quote ++ bytes " expects arguments"
  | .cyclicAlias name =>
      bytes "Identifier " ++ name.quote ++ bytes " is bound to a cyclic alias chain"
  | .notConstant name => bytes "Identifier " ++ name.quote ++ bytes " is not bound to a constant"
  | .notInteger name =>
      bytes "Identifier " ++ name.quote ++ bytes " is not bound to an int literal"
  | .noValue name reason location =>
      bytes "Identifier " ++ name.quote ++ bytes " does not expand to an int:" ++
        Byte.newline :: errorText reason.message (some location)
  | .cyclicInclusion path => bytes "Cyclic inclusion of file " ++ path.quote
  | .user message => message
  | .missingFile path =>
      bytes "Cannot open included file " ++ path.quote ++ bytes ": No such file or directory"

end Cause

structure Error where
  cause : Cause
  location : Location
  deriving DecidableEq, Repr

namespace Error

def kind (error : Error) : ErrorKind :=
  error.cause.kind

def message (error : Error) : Bytes :=
  error.cause.message

/-- The error as it is shown to a user. -/
def describe (error : Error) : Bytes :=
  errorText error.message (some error.location)

end Error

theorem exists_eq_ok_of_isOk {α : Type} {answer : Except Error α} (isOk : answer.isOk = true) :
    ∃ value, answer = .ok value := by
  cases answer with
  | error error => cases isOk
  | ok value => exact ⟨value, rfl⟩

/-- A sequence of two steps succeeds when both do. -/
theorem bind_eq_ok_iff {ε α β : Type} {first : Except ε α} {next : α → Except ε β} {result : β} :
    (first >>= next) = .ok result ↔ ∃ value, first = .ok value ∧ next value = .ok result := by
  cases first <;> simp [bind, Except.bind]

/-- A sequence of two steps fails when the first one does, or the second one after it. -/
theorem bind_eq_error_iff {ε α β : Type} {first : Except ε α} {next : α → Except ε β} {error : ε} :
    (first >>= next) = .error error ↔
      first = .error error ∨ ∃ value, first = .ok value ∧ next value = .error error := by
  cases first <;> simp [bind, Except.bind]

end ScopedMacros
