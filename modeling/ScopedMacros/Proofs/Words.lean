import Mathlib.Data.List.TakeWhile
import ScopedMacros.Proofs.Grammar
import ScopedMacros.Proofs.Literal

/-!
# Tokens of written words

Each word that an expression is written with is a token by itself, and what the token is can be seen
from the word.
-/

namespace ScopedMacros

namespace Numeral

theorem IsHexDigit.isNumberPart {value : Nat} {byte : Byte} (digit : IsHexDigit value byte) :
    Byte.isNumberPart byte = true :=
  digit.of_tables (fun _ byte => Byte.isNumberPart byte = true) (by decide)

namespace Hex

variable {number : Nat} {text : Bytes}

theorem isNumberPart (hex : Hex number text) :
    ∀ byte ∈ text, Byte.isNumberPart byte = true := by
  induction hex with
  | digit last =>
      intro byte member
      rw [List.mem_singleton.1 member]
      exact last.isNumberPart
  | snoc front last ih =>
      intro byte member
      rcases List.mem_append.1 member with member | member
      · exact ih byte member
      · rw [List.mem_singleton.1 member]
        exact last.isNumberPart

theorem digits (hex : Hex number text) : Digits 16 number text := by
  induction hex with
  | digit last => exact .first last.lt last
  | snoc _ last ih => exact .digit ih last.lt last

end Hex

end Numeral

namespace Token

/-- The class of a text that is one token of a directive line. -/
def Kind.ofText? : Bytes → Option Kind
  | [] => none
  | first :: rest =>
      match Lexeme.inLine first rest with
      | .ok lexeme => if lexeme.more = rest then some lexeme.kind else none
      | .error _ => none

/-- The token, at whatever place, is the one for a word. -/
structure Spells (token : Token) (word : Bytes) : Prop where
  text : token.text = word
  kind : Kind.ofText? word = some token.kind

/-- Tokens for words, one for each. -/
inductive Spell : List Token → List Bytes → Prop where
  | nil : Spell [] []
  | cons {token : Token} {word : Bytes} {tokens : List Token} {words : List Bytes}
      (first : token.Spells word) (rest : Spell tokens words) :
      Spell (token :: tokens) (word :: words)

namespace Spell

variable {tokens : List Token} {words more : List Bytes} {word : Bytes}

theorem exists_cons (spell : Spell tokens (word :: words)) :
    ∃ token rest, tokens = token :: rest ∧ token.Spells word ∧ Spell rest words := by
  cases spell with
  | cons first rest => exact ⟨_, _, rfl, first, rest⟩

theorem exists_singleton (spell : Spell tokens [word]) :
    ∃ token, tokens = [token] ∧ token.Spells word := by
  obtain ⟨token, rest, rfl, first, nothing⟩ := spell.exists_cons
  cases nothing
  exact ⟨token, rfl, first⟩

theorem exists_append (spell : Spell tokens (words ++ more)) :
    ∃ left right, tokens = left ++ right ∧ Spell left words ∧ Spell right more := by
  induction words generalizing tokens with
  | nil => exact ⟨[], tokens, rfl, .nil, spell⟩
  | cons word words ih =>
      obtain ⟨token, rest, rfl, first, spell⟩ := spell.exists_cons
      obtain ⟨left, right, rfl, others, spell⟩ := ih spell
      exact ⟨token :: left, right, rfl, .cons first others, spell⟩

/-- Words on both sides of a sign. -/
theorem exists_infix (spell : Spell tokens (words ++ word :: more)) :
    ∃ left sign right, tokens = left ++ sign :: right ∧ Spell left words ∧ sign.Spells word ∧
      Spell right more := by
  obtain ⟨left, rest, rfl, first, spell⟩ := spell.exists_append
  obtain ⟨sign, right, rfl, isSign, second⟩ := spell.exists_cons
  exact ⟨left, sign, right, rfl, first, isSign, second⟩

/-- Words in parentheses. -/
theorem exists_parens (spell : Spell tokens (bytes "(" :: words ++ [bytes ")"])) :
    ∃ paren inner close, tokens = paren :: inner ++ [close] ∧ paren.kind = .leftParen ∧
      close.kind = .rightParen ∧ Spell inner words := by
  obtain ⟨paren, rest, rfl, opens, spell⟩ := spell.exists_cons
  obtain ⟨inner, last, rfl, inside, spell⟩ := spell.exists_append
  obtain ⟨close, rfl, closes⟩ := spell.exists_singleton
  have openKind : Kind.ofText? (bytes "(") = some .leftParen := by decide
  have closeKind : Kind.ofText? (bytes ")") = some .rightParen := by decide
  refine ⟨paren, inner, close, rfl, ?_, ?_, inside⟩
  · exact Option.some.inj (opens.kind.symm.trans openKind)
  · exact Option.some.inj (closes.kind.symm.trans closeKind)

end Spell

theorem Kind.ofText?_name {name : Bytes} (isName : name.isName = true) :
    Kind.ofText? name = some .ident := by
  cases name with
  | nil => cases isName
  | cons first more =>
      simp only [Bytes.isName, Bool.and_eq_true, List.all_eq_true] at isName
      obtain ⟨starts, goesOn⟩ := isName
      simp [Kind.ofText?, Lexeme.inLine, starts, List.takeWhile_eq_self_iff.2 goesOn]

/-- A number in hexadecimal digits is one token. -/
theorem Kind.ofText?_hex {number : Nat} {digits : Bytes} (fits : number < UInt64.size)
    (hex : Numeral.Hex number digits) :
    Kind.ofText? (bytes "0x" ++ digits) = some (.integer (Int64.ofNat number)) := by
  have zero : Byte.isNameStart Byte.zero = false ∧ Byte.zero ≠ Byte.doubleQuote ∧
      Byte.isDigit Byte.zero = true := by decide
  have whole : (0x78 :: digits : Bytes).takeWhile Byte.isNumberPart = 0x78 :: digits := by
    rw [List.takeWhile_cons_of_pos (by decide), List.takeWhile_eq_self_iff.2 hex.isNumberPart]
  have read : Numeral.read? (Byte.zero :: 0x78 :: digits) = some (Int64.ofNat number) := by
    have below : number ≤ (Numeral.Mark.hexadecimal false).largest .absent :=
      Nat.le_sub_one_of_lt fits
    have written : Numeral.Digits (Numeral.Mark.hexadecimal false).base number digits := hex.digits
    exact Numeral.read?_written written below
  have spelled : bytes "0x" ++ digits = Byte.zero :: 0x78 :: digits := rfl
  rw [spelled]
  simp only [Kind.ofText?, Lexeme.inLine, zero.1, Bool.false_eq_true, if_false, if_neg zero.2.1,
    zero.2.2, if_true, whole, read]

namespace Spells

variable {token : Token} {word : Bytes}

theorem kind_eq {kind : Kind} (spells : token.Spells word) (is : Kind.ofText? word = some kind) :
    token.kind = kind :=
  Option.some.inj (spells.kind.symm.trans is)

/-- What is seen of a token apart from its place can be seen of its word. -/
theorem view {α : Type} {seen : α} (look : Kind → Bytes → α) (spells : token.Spells word)
    (is : (Kind.ofText? word).map (look · word) = some seen) : look token.kind token.text = seen := by
  rw [spells.kind, Option.map_some, Option.some.injEq] at is
  rw [spells.text]
  exact is

theorem operation {operation : Operation} (spells : token.Spells word)
    (spelled : word ∈ operation.spellings) : Operation.ofToken? token = some operation := by
  have all : ∀ operation : Operation, ∀ word ∈ operation.spellings,
      (Kind.ofText? word).map (fun kind => Operation.ofToken? ⟨kind, word, .nowhere⟩) =
        some (some operation) := by
    intro operation
    cases operation <;> decide
  exact spells.view (fun kind text => Operation.ofToken? ⟨kind, text, .nowhere⟩)
    (all operation word spelled)

theorem comparison {comparison : Comparison} (spells : token.Spells word)
    (spelled : word ∈ comparison.spellings) : Comparison.ofToken? token = some comparison := by
  have all : ∀ comparison : Comparison, ∀ word ∈ comparison.spellings,
      (Kind.ofText? word).map (fun kind => Comparison.ofToken? ⟨kind, word, .nowhere⟩) =
        some (some comparison) := by
    intro comparison
    cases comparison <;> decide
  exact spells.view (fun kind text => Comparison.ofToken? ⟨kind, text, .nowhere⟩)
    (all comparison word spelled)

end Spells

end Token

end ScopedMacros
