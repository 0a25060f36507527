import ScopedMacros.Expr.Reader

/-!
# The grammar of expressions

How expressions and tests are written as words.  Operations of one level are chained from the left,
apart from shifts, which are chained from the right; an operand of a tighter level needs no
parentheses, and any complete expression may be put in parentheses.
-/

namespace ScopedMacros

/-! ## Words -/

/-- A text that is one identifier. -/
def Bytes.isName : Bytes → Bool
  | [] => false
  | first :: more => Byte.isNameStart first && more.all Byte.isNamePart

namespace Numeral

/-- A byte is the hexadecimal digit for a value, in either case. -/
def IsHexDigit (value : Nat) (byte : Byte) : Prop :=
  (bytes "0123456789abcdef")[value]? = some byte ∨ (bytes "0123456789ABCDEF")[value]? = some byte

/-- The hexadecimal digits of a number, after any number of zeros. -/
inductive Hex : Nat → Bytes → Prop where
  | digit {value : Nat} {byte : Byte} (last : IsHexDigit value byte) : Hex value [byte]
  | snoc {number value : Nat} {digits : Bytes} {byte : Byte} (front : Hex number digits)
      (last : IsHexDigit value byte) : Hex (number * 16 + value) (digits ++ [byte])

theorem exists_hexDigit : ∀ value : Fin 16, ∃ byte, IsHexDigit value.val byte := by
  intro value
  refine ⟨(bytes "0123456789abcdef").get (value.cast rfl), .inl ?_⟩
  exact List.getElem?_eq_getElem _

theorem exists_hex (number : Nat) : ∃ digits, Hex number digits := by
  induction number using Nat.strongRecOn with
  | ind number ih =>
      by_cases small : number < 16
      · obtain ⟨byte, last⟩ := exists_hexDigit ⟨number, small⟩
        exact ⟨[byte], .digit last⟩
      · obtain ⟨digits, front⟩ := ih (number / 16) (by omega)
        obtain ⟨byte, last⟩ := exists_hexDigit ⟨number % 16, by omega⟩
        have whole := Hex.snoc front last
        rw [Nat.div_add_mod'] at whole
        exact ⟨_, whole⟩

end Numeral

/-- The ways to write an operation. -/
def Operation.spellings (operation : Operation) : List Bytes :=
  (match operation with
  | .add => ["+"]
  | .sub => ["-"]
  | .mul => ["*"]
  | .div => ["/"]
  | .mod => ["%", "mod"]
  | .and => ["&", "land"]
  | .or => ["|", "lor"]
  | .xor => ["^", "lxor"]
  | .shiftLeft => ["<<", "lsl"]
  | .shiftRight => ["lsr"]
  | .shiftSigned => [">>", "asr"]).map bytes

/-- The ways to write a comparison. -/
def Comparison.spellings (comparison : Comparison) : List Bytes :=
  (match comparison with
  | .equal => ["=", "=="]
  | .notEqual => ["!=", "<>"]
  | .less => ["<"]
  | .lessEqual => ["<="]
  | .greater => [">"]
  | .greaterEqual => [">="]).map bytes

/-! ## Arithmetic -/

namespace Arith

/-- The identifiers that are no operands. -/
def reserved : List Bytes :=
  ["true", "false", "defined", "not", "lnot", "mod", "land", "lor", "lxor", "lsl", "lsr",
    "asr"].map bytes

/-- A level whose operations are chained from the left. -/
def Level.isChain : Level → Bool
  | .sum | .product => true
  | .shift | .operand => false

/-- Words that an expression of a level can be written with. -/
inductive Written : Level → Arith → List Bytes → Prop where
  | int (location : Location) {number : Nat} {digits : Bytes} (fits : number < UInt64.size)
      (hex : Numeral.Hex number digits) :
      Written .operand (.int location (Int64.ofNat number)) [bytes "0x" ++ digits]
  | ident (location : Location) {name : Bytes} (isName : name.isName = true)
      (free : name ∉ reserved) : Written .operand (.ident location name) [name]
  | neg (location : Location) {operand : Arith} {words : List Bytes}
      (written : Written .operand operand words) :
      Written .operand (.neg location operand) (bytes "-" :: words)
  | complement (location : Location) {sign : Bytes} {operand : Arith} {words : List Bytes}
      (spelled : sign ∈ [bytes "~", bytes "lnot"]) (written : Written .operand operand words) :
      Written .operand (.complement location operand) (sign :: words)
  | parens {inner : Arith} {words : List Bytes} (written : Written .sum inner words) :
      Written .operand inner (bytes "(" :: words ++ [bytes ")"])
  | shift (location : Location) {operation : Operation} {sign : Bytes} {left right : Arith}
      {words more : List Bytes} (level : operation.level = .shift)
      (spelled : sign ∈ operation.spellings) (first : Written .operand left words)
      (second : Written .shift right more) :
      Written .shift (.binary location operation left right) (words ++ sign :: more)
  | chain (location : Location) {level : Level} {operation : Operation} {sign : Bytes}
      {left right : Arith} {words more : List Bytes} (made : operation.level = level)
      (chained : level.isChain = true) (spelled : sign ∈ operation.spellings)
      (first : Written level left words) (second : Written level.tighter right more) :
      Written level (.binary location operation left right) (words ++ sign :: more)
  | loosen {level : Level} {tree : Arith} {words : List Bytes}
      (written : Written level.tighter tree words) : Written level tree words

/-- All identifiers of an expression are operands. -/
def isWritable : Arith → Bool
  | .int _ _ => true
  | .ident _ name => name.isName && !reserved.contains name
  | .neg _ operand | .complement _ operand => operand.isWritable
  | .binary _ _ left right => left.isWritable && right.isWritable

theorem Written.ofOperand {tree : Arith} {words : List Bytes} (written : Written .operand tree words)
    (level : Level) : Written level tree words := by
  have shift : Written .shift tree words := .loosen written
  have product : Written .product tree words := .loosen shift
  cases level with
  | sum => exact .loosen product
  | product => exact product
  | shift => exact shift
  | operand => exact written

/-- With enough parentheses every expression can be written. -/
theorem exists_written (tree : Arith) (writable : tree.isWritable = true) :
    ∃ words, Written .operand tree words := by
  induction tree with
  | int location value =>
      obtain ⟨digits, hex⟩ := Numeral.exists_hex value.toUInt64.toNat
      have written := Written.int location value.toUInt64.toNat_lt_size hex
      have same : Int64.ofNat value.toUInt64.toNat = value := by
        rw [← UInt64.toInt64_ofNat', UInt64.ofNat_toNat]
        rfl
      rw [same] at written
      exact ⟨_, written⟩
  | ident location name =>
      simp only [isWritable, Bool.and_eq_true, Bool.not_eq_true', List.contains_eq_mem,
        decide_eq_false_iff_not] at writable
      exact ⟨_, .ident location writable.1 writable.2⟩
  | neg location operand ih =>
      obtain ⟨words, written⟩ := ih writable
      exact ⟨_, .neg location written⟩
  | complement location operand ih =>
      obtain ⟨words, written⟩ := ih writable
      exact ⟨_, .complement location (List.mem_cons_self) written⟩
  | binary location operation left right ihLeft ihRight =>
      simp only [isWritable, Bool.and_eq_true] at writable
      obtain ⟨words, first⟩ := ihLeft writable.1
      obtain ⟨more, second⟩ := ihRight writable.2
      obtain ⟨sign, spelled⟩ : ∃ sign, sign ∈ operation.spellings := by
        cases operation <;> exact ⟨_, List.mem_cons_self⟩
      have whole : Written .sum (.binary location operation left right) (words ++ sign :: more) := by
        cases level : operation.level with
        | sum => exact .chain location level rfl spelled (first.ofOperand _) (second.ofOperand _)
        | product =>
            exact .loosen
              (.chain location level rfl spelled (first.ofOperand _) (second.ofOperand _))
        | shift =>
            exact .loosen (.loosen (.shift location level spelled first (second.ofOperand _)))
        | operand => cases operation <;> cases level
      exact ⟨_, .parens whole⟩

end Arith

/-! ## Tests -/

namespace Test

/-- Words that a test of a level can be written with. -/
inductive Written : Level → Test → List Bytes → Prop where
  | literal (location : Location) (value : Bool) :
      Written .single (.literal location value) [if value then bytes "true" else bytes "false"]
  | defined (location : Location) {name : Bytes} (isName : name.isName = true) :
      Written .single (.defined location name) [bytes "defined", name]
  | definedParens (location : Location) {name : Bytes} (isName : name.isName = true) :
      Written .single (.defined location name) [bytes "defined", bytes "(", name, bytes ")"]
  | not (location : Location) {sign : Bytes} {operand : Test} {words : List Bytes}
      (spelled : sign ∈ [bytes "!", bytes "not"]) (written : Written .single operand words) :
      Written .single (.not location operand) (sign :: words)
  | compare (location : Location) {comparison : Comparison} {sign : Bytes} {left right : Arith}
      {words more : List Bytes} (spelled : sign ∈ comparison.spellings)
      (first : Arith.Written .sum left words) (second : Arith.Written .sum right more) :
      Written .single (comparison.test location left right) (words ++ sign :: more)
  | parens {inner : Test} {words : List Bytes} (written : Written .either inner words) :
      Written .single inner (bytes "(" :: words ++ [bytes ")"])
  | both (location : Location) {left right : Test} {words more : List Bytes}
      (first : Written .both left words) (second : Written .single right more) :
      Written .both (.both location left right) (words ++ bytes "&&" :: more)
  | either (location : Location) {left right : Test} {words more : List Bytes}
      (first : Written .either left words) (second : Written .both right more) :
      Written .either (.either location left right) (words ++ bytes "||" :: more)
  | loosen {level : Level} {test : Test} {words : List Bytes}
      (written : Written level.tighter test words) : Written level test words

/-- All names of a test are identifiers, and those of its expressions are operands. -/
def isWritable : Test → Bool
  | .literal _ _ => true
  | .defined _ name => name.isName
  | .not _ operand => operand.isWritable
  | .both _ left right | .either _ left right => left.isWritable && right.isWritable
  | .compare _ _ left right => left.isWritable && right.isWritable

theorem Written.ofSingle {test : Test} {words : List Bytes} (written : Written .single test words) :
    Written .either test words := by
  have both : Written .both test words := .loosen written
  exact .loosen both

/-- With enough parentheses every test can be written. -/
theorem exists_written (test : Test) (writable : test.isWritable = true) :
    ∃ words, Written .single test words := by
  induction test with
  | literal location value => exact ⟨_, .literal location value⟩
  | defined location name => exact ⟨_, .defined location writable⟩
  | not location operand ih =>
      obtain ⟨words, written⟩ := ih writable
      exact ⟨_, .not location List.mem_cons_self written⟩
  | both location left right ihLeft ihRight =>
      simp only [isWritable, Bool.and_eq_true] at writable
      obtain ⟨words, first⟩ := ihLeft writable.1
      obtain ⟨more, second⟩ := ihRight writable.2
      have both : Written .both (.both location left right) _ := .both location (.loosen first) second
      exact ⟨_, .parens (.loosen both)⟩
  | either location left right ihLeft ihRight =>
      simp only [isWritable, Bool.and_eq_true] at writable
      obtain ⟨words, first⟩ := ihLeft writable.1
      obtain ⟨more, second⟩ := ihRight writable.2
      exact ⟨_, .parens (.either location first.ofSingle (.loosen second))⟩
  | compare location relation left right =>
      simp only [isWritable, Bool.and_eq_true] at writable
      obtain ⟨words, first⟩ := left.exists_written writable.1
      obtain ⟨more, second⟩ := right.exists_written writable.2
      cases relation with
      | equal =>
          have spelled : bytes "=" ∈ Comparison.equal.spellings := List.mem_cons_self
          exact ⟨_, .compare location spelled (first.ofOperand _) (second.ofOperand _)⟩
      | less =>
          have spelled : bytes "<" ∈ Comparison.less.spellings := List.mem_cons_self
          exact ⟨_, .compare location spelled (first.ofOperand _) (second.ofOperand _)⟩
      | greater =>
          have spelled : bytes ">" ∈ Comparison.greater.spellings := List.mem_cons_self
          exact ⟨_, .compare location spelled (first.ofOperand _) (second.ofOperand _)⟩

end Test

end ScopedMacros
