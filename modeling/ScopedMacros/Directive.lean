import ScopedMacros.Bytes

/-!
# Directive words

The words that make a line starting with `#` a directive.
-/

namespace ScopedMacros

inductive Directive where
  | define
  | undef
  | inclusion
  | ifTrue
  | ifDefined
  | ifUndefined
  | elseIf
  | otherwise
  | endIf
  | error
  | warning
  | line
  deriving DecidableEq, Repr

namespace Directive

def all : List Directive :=
  [.define, .undef, .inclusion, .ifTrue, .ifDefined, .ifUndefined, .elseIf, .otherwise, .endIf,
    .error, .warning, .line]

/-- The word after the `#`. -/
def word : Directive → Bytes
  | .define => bytes "define"
  | .undef => bytes "undef"
  | .inclusion => bytes "include"
  | .ifTrue => bytes "if"
  | .ifDefined => bytes "ifdef"
  | .ifUndefined => bytes "ifndef"
  | .elseIf => bytes "elif"
  | .otherwise => bytes "else"
  | .endIf => bytes "endif"
  | .error => bytes "error"
  | .warning => bytes "warning"
  | .line => bytes "line"

def ofWord? (text : Bytes) : Option Directive :=
  all.find? (·.word == text)

theorem word_injective {left right : Directive} (same : left.word = right.word) : left = right := by
  revert same
  cases left <;> cases right <;> decide

@[simp]
theorem ofWord?_word (directive : Directive) : ofWord? directive.word = some directive := by
  cases directive <;> decide

theorem word_of_ofWord? {text : Bytes} {directive : Directive}
    (found : ofWord? text = some directive) : directive.word = text := by
  simpa using List.find?_some found

end Directive

end ScopedMacros
