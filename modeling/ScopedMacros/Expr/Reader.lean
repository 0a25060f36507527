import ScopedMacros.Error
import ScopedMacros.Expr.Basic

/-!
# Reading expressions

Reads expressions from the tokens of a directive line.  Sums bind weaker than products, products
weaker than shifts, and shifts associate to the right.  The token that ends the line is passed along
as `stop`, for errors at the end.
-/

namespace ScopedMacros

/-- A value read from the head of a list of tokens, with the tokens left, fewer than `bound`. -/
structure Reading (α : Type) (bound : Nat) where
  value : α
  rest : List Token
  shorter : rest.length < bound

namespace Reading

variable {α β : Type} {bound : Nat}

def map (change : α → β) (reading : Reading α bound) : Reading β bound :=
  ⟨change reading.value, reading.rest, reading.shorter⟩

/-- The same reading seen from further up the list. -/
def widen {larger : Nat} (le : bound ≤ larger) (reading : Reading α bound) : Reading α larger :=
  ⟨reading.value, reading.rest, Nat.lt_of_lt_of_le reading.shorter le⟩

@[simp]
theorem rest_map (change : α → β) (reading : Reading α bound) :
    (reading.map change).rest = reading.rest := rfl

@[simp]
theorem rest_widen {larger : Nat} (le : bound ≤ larger) (reading : Reading α bound) :
    (reading.widen le).rest = reading.rest := rfl

theorem lt_of_rest (reading : Reading α bound) {token : Token} {rest : List Token}
    (found : reading.rest = token :: rest) : rest.length < bound := by
  have := reading.shorter
  rw [found, List.length_cons] at this
  omega

theorem length_tail_lt (reading : Reading α bound) {token : Token} {rest : List Token}
    (found : reading.rest = token :: rest) : rest.length < reading.rest.length := by
  rw [found]
  exact Nat.lt_succ_self _

theorem length_rest_lt (reading : Reading α bound) {token : Token} {rest : List Token}
    (found : reading.rest = token :: rest) (inner : Reading β rest.length) :
    inner.rest.length < reading.rest.length :=
  Nat.lt_trans inner.shorter (reading.length_tail_lt found)

end Reading

/-- The error at the first of a list of tokens. -/
def Expectation.failed (stop : Token) (what : Expectation) (tokens : List Token) : Error :=
  let got := tokens.headD stop
  ⟨.expected what got.kind, got.location⟩

/-- Reads a closing parenthesis after a value. -/
def Reading.close {α : Type} {bound : Nat} (stop : Token) (what : Expectation)
    (reading : Reading α bound) : Except Error (Token × Reading α bound) :=
  match found : reading.rest with
  | [] => .error (what.failed stop [])
  | token :: rest =>
      if token.kind = .rightParen then
        .ok (token, ⟨reading.value, rest, by
          have := reading.shorter
          rw [found] at this
          exact Nat.lt_of_succ_lt this⟩)
      else
        .error (what.failed stop (token :: rest))

/-- How tightly an expression binds: a sum, a product, a shift, or a single operand. -/
inductive Arith.Level where
  | sum
  | product
  | shift
  | operand
  deriving DecidableEq, Repr

def Arith.Level.rank : Level → Nat
  | .sum => 3
  | .product => 2
  | .shift => 1
  | .operand => 0

/-- The level of the operands of a chain. -/
def Arith.Level.tighter : Level → Level
  | .sum => .product
  | .product => .shift
  | .shift => .operand
  | .operand => .operand

namespace Operation

/-- The level of the expressions that an operation makes. -/
def level : Operation → Arith.Level
  | .add | .sub => .sum
  | .mul | .div | .mod | .and | .or | .xor => .product
  | .shiftLeft | .shiftRight | .shiftSigned => .shift

/-- The operations that are written as words. -/
def ofWord? (word : Bytes) : Option Operation :=
  if word = bytes "mod" then some .mod
  else if word = bytes "land" then some .and
  else if word = bytes "lor" then some .or
  else if word = bytes "lxor" then some .xor
  else if word = bytes "lsl" then some .shiftLeft
  else if word = bytes "lsr" then some .shiftRight
  else if word = bytes "asr" then some .shiftSigned
  else none

def ofToken? (token : Token) : Option Operation :=
  match token.kind with
  | .op .plus => some .add
  | .op .minus => some .sub
  | .op .times => some .mul
  | .op .divide => some .div
  | .op .percent => some .mod
  | .op .and => some .and
  | .op .or => some .or
  | .op .xor => some .xor
  | .op .shiftLeft => some .shiftLeft
  | .op .shiftRight => some .shiftSigned
  | .ident => ofWord? token.text
  | _ => none

/-- The operation of a token that makes expressions of the given level. -/
def atLevel? (level : Arith.Level) (token : Token) : Option Operation :=
  (ofToken? token).filter (·.level = level)

end Operation

namespace Arith

/-- The operation between two operands, located from the one to the other. -/
def join (operation : Operation) (left right : Arith) : Arith :=
  .binary (left.location.span right.location) operation left right

/-- The expression that is one token. -/
def ofToken? (token : Token) : Option Arith :=
  match token.kind with
  | .integer value => some (.int token.location value)
  | .ident => some (.ident token.location token.text)
  | _ => none

mutual

/-- Reads an expression of a level. -/
def read (stop : Token) (level : Level) (tokens : List Token) :
    Except Error (Reading Arith tokens.length) :=
  match level, tokens with
  | .sum, tokens => do
      let left ← read stop .product tokens
      readChain stop .sum left
  | .product, tokens => do
      let left ← read stop .shift tokens
      readChain stop .product left
  | .shift, tokens => do
      let left ← read stop .operand tokens
      match found : left.rest with
      | [] => .ok left
      | token :: rest =>
          match Operation.atLevel? .shift token with
          | none => .ok left
          | some operation => do
              let right ← read stop .shift rest
              .ok ((right.map (join operation left.value)).widen
                (Nat.le_of_lt (left.lt_of_rest found)))
  | .operand, [] => .error (Expectation.operand.failed stop [])
  | .operand, token :: rest =>
      if token.kind = .op .minus then do
        let operand ← read stop .operand rest
        .ok ((operand.map fun value => .neg (token.location.span value.location) value).widen
          (Nat.le_succ _))
      else if token.kind = .op .tilde || token.isWord (bytes "lnot") then do
        let operand ← read stop .operand rest
        .ok ((operand.map fun value =>
          .complement (token.location.span value.location) value).widen (Nat.le_succ _))
      else if token.kind = .op .plus then do
        let operand ← read stop .operand rest
        .ok (operand.widen (Nat.le_succ _))
      else if token.kind = .leftParen then do
        let inner ← read stop .sum rest
        let (close, inner) ← inner.close stop .rightParen
        .ok ((inner.map (relocate (token.location.span close.location))).widen (Nat.le_succ _))
      else
        match ofToken? token with
        | some value => .ok ⟨value, rest, Nat.lt_succ_self _⟩
        | none => .error (Expectation.operand.failed stop (token :: rest))
termination_by (tokens.length, level.rank)
decreasing_by
  · exact .right _ (by decide)
  · exact .left _ _ left.shorter
  · exact .right _ (by decide)
  · exact .left _ _ left.shorter
  · exact .right _ (by decide)
  · exact .left _ _ (left.lt_of_rest found)
  all_goals exact .left _ _ (Nat.lt_succ_self _)

/-- Reads what follows the first operand of a chain of operations of one level. -/
def readChain (stop : Token) (level : Level) {bound : Nat} (left : Reading Arith bound) :
    Except Error (Reading Arith bound) :=
  match found : left.rest with
  | [] => .ok left
  | token :: rest =>
      match Operation.atLevel? level token with
      | none => .ok left
      | some operation => do
          let right ← read stop level.tighter rest
          readChain stop level
            ((right.map (join operation left.value)).widen
              (Nat.le_of_lt (left.lt_of_rest found)))
termination_by (left.rest.length, 0)
decreasing_by
  · exact .left _ _ (left.length_tail_lt found)
  · exact .left _ _ (left.length_rest_lt found right)

end

end Arith

/-- The ways to write a comparison. -/
inductive Comparison where
  | equal
  | notEqual
  | less
  | lessEqual
  | greater
  | greaterEqual
  deriving DecidableEq, Repr

namespace Comparison

def ofToken? (token : Token) : Option Comparison :=
  match token.kind with
  | .op .equal | .op .equalEqual => some .equal
  | .op .notEqual | .op .lessGreater => some .notEqual
  | .op .less => some .less
  | .op .lessEqual => some .lessEqual
  | .op .greater => some .greater
  | .op .greaterEqual => some .greaterEqual
  | _ => none

/-- The test that a comparison makes, in terms of the three basic relations. -/
def test (location : Location) (left right : Arith) : Comparison → Test
  | .equal => .compare location .equal left right
  | .notEqual => .not location (.compare location .equal left right)
  | .less => .compare location .less left right
  | .lessEqual => .not location (.compare location .greater left right)
  | .greater => .compare location .greater left right
  | .greaterEqual => .not location (.compare location .less left right)

end Comparison

namespace Test

/-- The tokens after the parenthesis that closes the given number of open ones and one more. -/
def afterClosing? (depth : Nat) : List Token → Option (List Token)
  | [] => none
  | token :: rest =>
      if token.kind = .leftParen then
        afterClosing? (depth + 1) rest
      else if token.kind = .rightParen then
        match depth with
        | 0 => some rest
        | depth + 1 => afterClosing? depth rest
      else
        afterClosing? depth rest

/-- Whether a token continues an arithmetic operand. -/
def continues (token : Token) : Bool :=
  (Comparison.ofToken? token).isSome || (Operation.ofToken? token).isSome

/-- The test of a bare number: it is not zero. -/
def nonzero (value : Arith) : Test :=
  .not value.location (.compare value.location .equal value (.int value.location 0))

/-- Reads a comparison, or a number that stands for its difference from zero. -/
def readComparison (stop : Token) (tokens : List Token) :
    Except Error (Reading Test tokens.length) := do
  let left ← Arith.read stop .sum tokens
  match found : left.rest with
  | [] => .ok (left.map nonzero)
  | token :: rest =>
      match Comparison.ofToken? token with
      | none => .ok (left.map nonzero)
      | some comparison => do
          let right ← Arith.read stop .sum rest
          let location := left.value.location.span right.value.location
          .ok ((right.map fun value => comparison.test location left.value value).widen
            (Nat.le_of_lt (left.lt_of_rest found)))

/-- Reads the name after the word `defined`, in parentheses or not. -/
def readDefined (stop word : Token) (tokens : List Token) :
    Except Error (Reading Test (tokens.length + 1)) :=
  match tokens with
  | ⟨.leftParen, _, _⟩ :: name :: rest =>
      if name.kind = .ident then do
        let reading : Reading Bytes (rest.length + 1 + 1 + 1) := ⟨name.text, rest, by omega⟩
        let (close, reading) ← reading.close stop .endOfDefined
        .ok (reading.map (.defined (word.location.span close.location)))
      else
        .error (Expectation.nameAfterDefined.failed stop (name :: rest))
  | ⟨.leftParen, _, _⟩ :: [] => .error (Expectation.nameAfterDefined.failed stop [])
  | name :: rest =>
      if name.kind = .ident then
        .ok ⟨.defined (word.location.span name.location) name.text, rest,
          Nat.lt_succ_of_lt (Nat.lt_succ_self _)⟩
      else
        .error (Expectation.nameAfterDefined.failed stop (name :: rest))
  | [] => .error (Expectation.nameAfterDefined.failed stop [])

/-- How tightly a test binds. -/
inductive Level where
  | either
  | both
  | single
  deriving DecidableEq, Repr

def Level.rank : Level → Nat
  | .either => 2
  | .both => 1
  | .single => 0

/-- The level of the operands of a chain. -/
def Level.tighter : Level → Level
  | .either => .both
  | .both => .single
  | .single => .single

/-- The operator of the chains of a level. -/
def Level.op? : Level → Option Token.Op
  | .either => some .orOr
  | .both => some .andAnd
  | .single => none

/-- Two tests joined at a level. -/
def join (level : Level) (left right : Test) : Test :=
  let location := left.location.span right.location
  match level with
  | .either => .either location left right
  | _ => .both location left right

mutual

/-- Reads a test of a level. -/
def read (stop : Token) (level : Level) (tokens : List Token) :
    Except Error (Reading Test tokens.length) :=
  match level, tokens with
  | .either, tokens => do
      let left ← read stop .both tokens
      readChain stop .either left
  | .both, tokens => do
      let left ← read stop .single tokens
      readChain stop .both left
  | .single, [] => readComparison stop []
  | .single, token :: rest =>
      if token.kind = .op .not || token.isWord (bytes "not") then do
        let operand ← read stop .single rest
        .ok ((operand.map fun test => .not (token.location.span test.location) test).widen
          (Nat.le_succ _))
      else if token.isWord (bytes "true") then
        .ok ⟨.literal token.location true, rest, Nat.lt_succ_self _⟩
      else if token.isWord (bytes "false") then
        .ok ⟨.literal token.location false, rest, Nat.lt_succ_self _⟩
      else if token.isWord (bytes "defined") then
        readDefined stop token rest
      else if token.kind = .leftParen then
        match afterClosing? 0 rest with
        | none => .error ⟨.unbalancedParens, token.location⟩
        | some after =>
            if continues (after.headD stop) then
              readComparison stop (token :: rest)
            else do
              let inner ← read stop .either rest
              let (close, inner) ← inner.close stop .rightParen
              .ok ((inner.map (relocate (token.location.span close.location))).widen
                (Nat.le_succ _))
      else
        readComparison stop (token :: rest)
termination_by (tokens.length, level.rank)
decreasing_by
  · exact .right _ (by decide)
  · exact .left _ _ left.shorter
  · exact .right _ (by decide)
  · exact .left _ _ left.shorter
  all_goals exact .left _ _ (Nat.lt_succ_self _)

/-- Reads what follows the first operand of a chain of tests of one level. -/
def readChain (stop : Token) (level : Level) {bound : Nat} (left : Reading Test bound) :
    Except Error (Reading Test bound) :=
  match found : left.rest with
  | [] => .ok left
  | token :: rest =>
      if level.op?.map .op = some token.kind then do
        let right ← read stop level.tighter rest
        readChain stop level
          ((right.map (join level left.value)).widen (Nat.le_of_lt (left.lt_of_rest found)))
      else
        .ok left
termination_by (left.rest.length, 0)
decreasing_by
  · exact .left _ _ (left.length_tail_lt found)
  · exact .left _ _ (left.length_rest_lt found right)

end

/-- Reads the test of a conditional from the tokens after its directive word. -/
def ofTokens (stop : Token) (tokens : List Token) : Except Error (Test × List Token) :=
  if tokens.isEmpty && stop.kind == .lineEnd then
    .error ⟨.missingExpression, stop.location⟩
  else do
    let reading ← read stop .either tokens
    .ok (reading.value, reading.rest)

end Test

end ScopedMacros
