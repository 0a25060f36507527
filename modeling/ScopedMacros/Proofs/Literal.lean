import Mathlib.Algebra.Group.Nat.Defs
import ScopedMacros.Proofs.Numeral
import ScopedMacros.Token.Lexeme

/-!
# Literals that are written and read again

A number written in decimal digits is read back as itself, and a text written between quotes is read
back as itself, whatever bytes it holds.
-/

namespace ScopedMacros

namespace Bytes

/-! ## Decimal digits -/

theorem isDigit_ofNat {number : Nat} : ∀ byte ∈ ofNat number, Byte.isDigit byte = true := by
  have digit : ∀ value : Nat, value < 10 → Byte.isDigit (Byte.zero + value.toUInt8) = true := by
    decide
  induction number using Nat.strongRecOn with
  | ind number ih =>
      intro byte member
      rw [ofNat] at member
      split at member
      · rename_i small
        rw [List.mem_singleton.1 member]
        exact digit number small
      · rename_i large
        rcases List.mem_append.1 member with member | member
        · exact ih (number / 10) (by omega) byte member
        · rw [List.mem_singleton.1 member]
          exact digit (number % 10) (by omega)

theorem ofNat_ne_nil (number : Nat) : ofNat number ≠ [] := by
  rw [ofNat]
  split <;> simp

end Bytes

namespace Numeral

theorem isHexDigit_digit {value : Nat} (small : value < 10) :
    IsHexDigit value (Byte.zero + value.toUInt8) := by
  revert value
  decide

theorem digits_ofNat (number : Nat) : Digits 10 number (Bytes.ofNat number) := by
  induction number using Nat.strongRecOn with
  | ind number ih =>
      rw [Bytes.ofNat]
      split
      · rename_i small
        exact .first small (isHexDigit_digit small)
      · rename_i large
        have last : number % 10 < 10 := Nat.mod_lt number (by decide)
        have whole := Digits.digit (ih (number / 10) (by omega)) last (isHexDigit_digit last)
        rwa [Nat.div_add_mod'] at whole

/-- A number in decimal digits is read as the number. -/
theorem read?_ofNat {number : Nat} (fits : number < 2 ^ 63) :
    read? (Bytes.ofNat number) = some (Int64.ofNat number) := by
  have below : number ≤ Mark.absent.largest .absent := Nat.le_sub_one_of_lt fits
  have written : Digits Mark.absent.base number (Bytes.ofNat number) := digits_ofNat number
  exact read?_written written below

end Numeral

/-! ## Quoted text -/

namespace Lexeme

variable (multiline skipping : Bool) {first second third fourth : Byte}

/-- A backslash before neither a newline nor three digits. -/
theorem stringTail_backslash (rest : Bytes) (inLine : second ≠ Byte.newline)
    (noCode : ∀ third fourth tail, rest = third :: fourth :: tail →
      (Byte.isDigit second && Byte.isDigit third && Byte.isDigit fourth) = false) :
    stringTail multiline skipping (Byte.backslash :: second :: rest) =
      (stringTail multiline false rest).cons [Byte.backslash, second] [unescape second] := by
  have notBlank : (Byte.backslash == Byte.space || Byte.backslash == Byte.tab) = false := rfl
  have notNewline : (Byte.backslash == Byte.newline && !multiline) = false := rfl
  have notQuote : Byte.backslash ≠ Byte.doubleQuote := by decide
  rw [stringTail.eq_def]
  simp only [notBlank, Bool.and_false, notNewline, Bool.false_eq_true, if_false, if_neg notQuote,
    if_neg inLine, ne_eq, not_true_eq_false]
  match rest with
  | [] => rfl
  | [_] => rfl
  | third :: fourth :: tail =>
      simp only [noCode third fourth tail rfl]
      rfl

theorem stringTail_code (rest : Bytes)
    (digits : (Byte.isDigit second && Byte.isDigit third && Byte.isDigit fourth) = true) :
    stringTail multiline skipping (Byte.backslash :: second :: third :: fourth :: rest) =
      (stringTail multiline false rest).cons [Byte.backslash, second, third, fourth]
        [ofCode second third fourth] := by
  have inLine : second ≠ Byte.newline := by
    rintro rfl
    cases digits
  have notBlank : (Byte.backslash == Byte.space || Byte.backslash == Byte.tab) = false := rfl
  have notNewline : (Byte.backslash == Byte.newline && !multiline) = false := rfl
  have notQuote : Byte.backslash ≠ Byte.doubleQuote := by decide
  rw [stringTail.eq_def]
  simp only [notBlank, Bool.and_false, notNewline, Bool.false_eq_true, if_false, if_neg notQuote,
    if_neg inLine, digits, if_true, ne_eq, not_true_eq_false]

/-- A byte that stands for itself. -/
theorem stringTail_plain (rest : Bytes)
    (kept : (skipping && (first == Byte.space || first == Byte.tab)) = false)
    (inLine : (first == Byte.newline && !multiline) = false) (notQuote : first ≠ Byte.doubleQuote)
    (notBackslash : first ≠ Byte.backslash) :
    stringTail multiline skipping (first :: rest) =
      (stringTail multiline false rest).cons [first] [first] := by
  rw [stringTail.eq_def]
  simp [kept, inLine, notQuote, notBackslash]

/-- The three decimal digits of a byte denote the byte. -/
theorem ofCode_digits : ∀ byte : Byte,
    (Byte.isDigit (Byte.zero + byte / 100) && Byte.isDigit (Byte.zero + byte / 10 % 10) &&
        Byte.isDigit (Byte.zero + byte % 10)) = true ∧
      ofCode (Byte.zero + byte / 100) (Byte.zero + byte / 10 % 10) (Byte.zero + byte % 10) =
        byte := by
  decide +kernel

/-- One escape in front of the rest of a literal denotes the byte it is for. -/
theorem stringTail_escape (byte : Byte) (rest : Bytes) :
    stringTail multiline false (Bytes.quote.escape byte ++ rest) =
      (stringTail multiline false rest).cons (Bytes.quote.escape byte) [byte] := by
  have letter : ∀ {second : Byte}, second ≠ Byte.newline → Byte.isDigit second = false →
      stringTail multiline false (Byte.backslash :: second :: rest) =
        (stringTail multiline false rest).cons [Byte.backslash, second] [unescape second] :=
    fun inLine notDigit =>
      stringTail_backslash multiline false rest inLine fun _ _ _ _ => by simp [notDigit]
  unfold Bytes.quote.escape
  iterate 6
    split
    · rename_i same
      subst same
      exact letter (by decide) (by decide)
  split
  · rename_i notQuote notBackslash notNewline _ _ _ _
    exact stringTail_plain multiline false rest rfl (by simp [notNewline]) notQuote notBackslash
  · obtain ⟨digits, code⟩ := ofCode_digits byte
    have read := stringTail_code multiline false rest digits
    rw [code] at read
    exact read

/-- A quoted text is read as a literal that denotes the text. -/
theorem string_quote (text rest : Bytes) :
    string multiline (text.flatMap Bytes.quote.escape ++ Byte.doubleQuote :: rest) =
      .ok ⟨.string text, text.flatMap Bytes.quote.escape ++ [Byte.doubleQuote]⟩ := by
  have tail : stringTail multiline false
      (text.flatMap Bytes.quote.escape ++ Byte.doubleQuote :: rest) =
      ⟨text.flatMap Bytes.quote.escape ++ [Byte.doubleQuote], text, true⟩ := by
    induction text with
    | nil =>
        rw [List.flatMap_nil, List.nil_append, stringTail.eq_def]
        cases multiline <;> rfl
    | cons byte more ih =>
        rw [List.flatMap_cons, List.append_assoc, stringTail_escape, ih]
        simp [StringTail.cons]
  rw [string, tail]
  rfl

end Lexeme

end ScopedMacros
