import ScopedMacros.Position

/-!
# Tokens

A token is a stretch of a source with its class.  The tokens of a literal also carry what the
literal denotes.
-/

namespace ScopedMacros

namespace Token

/-- Operators of expressions. -/
inductive Op where
  | andAnd
  | orOr
  | equalEqual
  | notEqual
  | lessGreater
  | lessEqual
  | greaterEqual
  | shiftLeft
  | shiftRight
  | plus
  | minus
  | times
  | divide
  | percent
  | and
  | or
  | xor
  | tilde
  | not
  | equal
  | less
  | greater
  deriving DecidableEq, Repr

namespace Op

/-- All operators; one that begins with another comes before it. -/
def all : List Op :=
  [.andAnd, .orOr, .equalEqual, .notEqual, .lessGreater, .lessEqual, .greaterEqual, .shiftLeft,
    .shiftRight, .plus, .minus, .times, .divide, .percent, .and, .or, .xor, .tilde, .not, .equal,
    .less, .greater]

def spelling : Op → Bytes
  | .andAnd => bytes "&&"
  | .orOr => bytes "||"
  | .equalEqual => bytes "=="
  | .notEqual => bytes "!="
  | .lessGreater => bytes "<>"
  | .lessEqual => bytes "<="
  | .greaterEqual => bytes ">="
  | .shiftLeft => bytes "<<"
  | .shiftRight => bytes ">>"
  | .plus => bytes "+"
  | .minus => bytes "-"
  | .times => bytes "*"
  | .divide => bytes "/"
  | .percent => bytes "%"
  | .and => bytes "&"
  | .or => bytes "|"
  | .xor => bytes "^"
  | .tilde => bytes "~"
  | .not => bytes "!"
  | .equal => bytes "="
  | .less => bytes "<"
  | .greater => bytes ">"

/-- The operator at the head of a text, the longest one if there are two. -/
def atHead? (text : Bytes) : Option Op :=
  all.find? (·.spelling.isPrefixOf text)

theorem spelling_ne_nil (op : Op) : op.spelling ≠ [] := by
  cases op <;> decide

theorem isPrefixOf_of_atHead? {text : Bytes} {op : Op} (found : atHead? text = some op) :
    op.spelling.isPrefixOf text = true := by
  simpa using List.find?_some found

end Op

inductive Kind where
  | ident
  | space
  | text
  /-- A string literal and the bytes it denotes. -/
  | string (value : Bytes)
  | character
  | leftParen
  | rightParen
  | comma
  | directive
  /-- The empty stretch between the head of a definition and its body. -/
  | body
  | lineEnd
  | integer (value : Int64)
  | op (symbol : Op)
  | fileEnd
  /-- A stretch of no class.  Scanning never makes one. -/
  | invalid
  deriving DecidableEq, Repr

/-- The class of a token in words. -/
def Kind.describe : Kind → Bytes
  | .ident => bytes "identifier"
  | .space => bytes "whitespace"
  | .text => bytes "text"
  | .string _ => bytes "string literal"
  | .character => bytes "character literal"
  | .leftParen => bytes "'('"
  | .rightParen => bytes "')'"
  | .comma => bytes "','"
  | .directive => bytes "directive"
  | .body => bytes "macro body"
  | .lineEnd => bytes "end of line"
  | .integer _ => bytes "integer literal"
  | .op symbol => Byte.apostrophe :: symbol.spelling ++ [Byte.apostrophe]
  | .fileEnd => bytes "end of file"
  | .invalid => bytes "invalid token"

end Token

structure Token where
  kind : Token.Kind
  text : Bytes
  location : Location
  deriving DecidableEq, Repr

namespace Token

/-- Whether the token is the given word. -/
def isWord (token : Token) (word : Bytes) : Bool :=
  token.kind == .ident && token.text == word

end Token

end ScopedMacros
