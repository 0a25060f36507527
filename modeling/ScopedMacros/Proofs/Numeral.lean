import Mathlib.Algebra.Group.Nat.Defs
import Mathlib.Data.List.Induction
import ScopedMacros.Numeral
import ScopedMacros.Proofs.Grammar

/-!
# Integer literals are read exactly

A literal is a sign, a base mark, and digits that may be set apart by underscores.  The digits denote
a number, however large.  Reading adds them up in a word of 64 bits, which never wraps: a number that
is too large is refused at the digit that makes it so.
-/

namespace ScopedMacros

namespace Byte

/-- There are few enough bytes to try them all. -/
instance (priority := low) decidableForall (test : Byte → Prop) [DecidablePred test] :
    Decidable (∀ byte, test byte) :=
  decidable_of_iff (∀ code : Fin 256, test (UInt8.ofFin code))
    ⟨fun all byte => all byte.toFin, fun all code => all (UInt8.ofFin code)⟩

end Byte

namespace Numeral

/-! ## Digits -/

instance (value : Nat) (byte : Byte) : Decidable (IsHexDigit value byte) :=
  inferInstanceAs (Decidable (_ ∨ _))

/-- A digit of a base, then digits and underscores, and the number that they denote. -/
inductive Digits (base : Nat) : Nat → Bytes → Prop where
  | first {value : Nat} {byte : Byte} (small : value < base) (digit : IsHexDigit value byte) :
      Digits base value [byte]
  | digit {number value : Nat} {digits : Bytes} {byte : Byte} (front : Digits base number digits)
      (small : value < base) (last : IsHexDigit value byte) :
      Digits base (number * base + value) (digits ++ [byte])
  | gap {number : Nat} {digits : Bytes} (front : Digits base number digits) :
      Digits base number (digits ++ [Byte.underscore])

theorem IsHexDigit.lt {value : Nat} {byte : Byte} (digit : IsHexDigit value byte) : value < 16 := by
  rcases digit with found | found
  · exact (List.getElem?_eq_some_iff.1 found).1
  · exact (List.getElem?_eq_some_iff.1 found).1

/-- What is true of the digits in both tables is true of every digit. -/
theorem IsHexDigit.of_tables (test : Nat → Byte → Prop) (all : ∀ value : Fin 16,
      test value.val ((bytes "0123456789abcdef").get (value.cast rfl)) ∧
        test value.val ((bytes "0123456789ABCDEF").get (value.cast rfl)))
    {value : Nat} {byte : Byte} (digit : IsHexDigit value byte) : test value byte := by
  rcases digit with found | found
  · obtain ⟨small, rfl⟩ := List.getElem?_eq_some_iff.1 found
    exact (all ⟨value, small⟩).1
  · obtain ⟨small, rfl⟩ := List.getElem?_eq_some_iff.1 found
    exact (all ⟨value, small⟩).2

/-- A digit is neither an underscore nor a sign. -/
theorem IsHexDigit.ne {value : Nat} {byte : Byte} (digit : IsHexDigit value byte) :
    byte ≠ Byte.underscore ∧ byte ≠ Byte.plus ∧ byte ≠ Byte.minus :=
  digit.of_tables (fun _ byte => byte ≠ Byte.underscore ∧ byte ≠ Byte.plus ∧ byte ≠ Byte.minus)
    (by decide)

theorem isHexDigit_of_digit? : ∀ byte : Byte,
    (digit? byte).all (fun value => 16 ≤ value ∨ IsHexDigit value byte) = true := by
  decide +kernel

theorem digit?_eq_some_iff {value : Nat} {byte : Byte} (small : value < 16) :
    digit? byte = some value ↔ IsHexDigit value byte := by
  constructor
  · intro found
    have all := isHexDigit_of_digit? byte
    rw [found, Option.all_some, decide_eq_true_eq] at all
    exact all.resolve_left (Nat.not_le_of_lt small)
  · intro digit
    exact digit.of_tables (fun value byte => digit? byte = some value) (by decide +kernel)

theorem digitBelow?_eq_some_iff {base value : Nat} {byte : Byte} (small : base ≤ 16) :
    digitBelow? base byte = some value ↔ value < base ∧ IsHexDigit value byte := by
  rw [digitBelow?, Option.filter_eq_some_iff, decide_eq_true_eq, and_comm]
  refine and_congr_right fun below => ?_
  exact digit?_eq_some_iff (Nat.lt_of_lt_of_le below small)

/-! ## Adding up -/

section

variable {base : Nat} {limit value next : UInt64} {byte : Byte}

theorem toNat_toUInt64 {number : Nat} (small : number ≤ 16) : number.toUInt64.toNat = number :=
  UInt64.toNat_ofNat_of_lt' (Nat.lt_of_le_of_lt small (by decide))

/-- The guard looks ahead exactly as far as the limit. -/
theorem guard_iff (small : base ≤ 16) (positive : 0 < base) {digit : Nat} (below : digit < base)
    (wide : 16 ≤ limit.toNat) :
    (limit - digit.toUInt64) / base.toUInt64 < value ↔
      limit.toNat < value.toNat * base + digit := by
  have baseWord := toNat_toUInt64 small
  have digitWord := toNat_toUInt64 (Nat.le_trans (Nat.le_of_lt below) small)
  have difference : (limit - digit.toUInt64).toNat = limit.toNat - digit := by
    rw [UInt64.toNat_sub_of_le, digitWord]
    rw [UInt64.le_iff_toNat_le, digitWord]
    omega
  rw [UInt64.lt_iff_toNat_lt, UInt64.toNat_div, difference, baseWord,
    Nat.div_lt_iff_lt_mul positive]
  omega

/-- A word below the limit is added up without wrapping. -/
theorem toNat_add_up (small : base ≤ 16) {digit : Nat} (below : digit < base)
    (fits : value.toNat * base + digit ≤ limit.toNat) :
    (value * base.toUInt64 + digit.toUInt64).toNat = value.toNat * base + digit := by
  have baseWord := toNat_toUInt64 small
  have digitWord := toNat_toUInt64 (Nat.le_trans (Nat.le_of_lt below) small)
  have most := limit.toNat_lt
  rw [UInt64.toNat_add, UInt64.toNat_mul, baseWord, digitWord,
    Nat.mod_eq_of_lt (a := value.toNat * base) (by omega), Nat.mod_eq_of_lt (by omega)]

/-- One more byte: an underscore changes nothing, and a digit is added up exactly unless it leads
past the limit. -/
theorem next?_eq_some_iff (small : base ≤ 16) (positive : 0 < base) (wide : 16 ≤ limit.toNat) :
    next? base limit value byte = some next ↔
      (byte = Byte.underscore ∧ next = value) ∨
        ∃ digit, digit < base ∧ IsHexDigit digit byte ∧
          next.toNat = value.toNat * base + digit ∧ next.toNat ≤ limit.toNat := by
  unfold next?
  by_cases underscore : byte = Byte.underscore
  · subst underscore
    have noDigit : ∀ digit, ¬ IsHexDigit digit Byte.underscore := fun _ digit => digit.ne.1 rfl
    simp [noDigit, eq_comm]
  · rw [if_neg underscore]
    cases found : digitBelow? base byte with
    | none =>
        have noDigit : ∀ digit, digit < base → ¬ IsHexDigit digit byte := by
          intro digit below isDigit
          cases found.symm.trans ((digitBelow?_eq_some_iff small).2 ⟨below, isDigit⟩)
        simp only [underscore, false_and, false_or, reduceCtorEq, false_iff, not_exists, not_and]
        exact fun digit below isDigit => absurd isDigit (noDigit digit below)
    | some digit =>
        obtain ⟨below, isDigit⟩ := (digitBelow?_eq_some_iff small).1 found
        have only : ∀ other, other < base → IsHexDigit other byte → other = digit := by
          intro other otherBelow otherDigit
          have again := (digitBelow?_eq_some_iff small).2 ⟨otherBelow, otherDigit⟩
          exact Option.some.inj (again.symm.trans found)
        simp only [guard_iff small positive below wide, underscore, false_and, false_or]
        split
        · rename_i past
          simp only [reduceCtorEq, false_iff, not_exists]
          rintro other ⟨otherBelow, otherDigit, sum, fits⟩
          rw [only other otherBelow otherDigit] at sum
          omega
        · rename_i fits
          have sum := toNat_add_up small below (Nat.le_of_not_lt fits)
          rw [Option.some.injEq]
          constructor
          · rintro rfl
            exact ⟨digit, below, isDigit, sum, by omega⟩
          · rintro ⟨other, otherBelow, otherDigit, same, _⟩
            rw [only other otherBelow otherDigit] at same
            exact UInt64.toNat_inj.1 (sum.trans same.symm)

end

theorem digits?_concat (base : Nat) (limit : UInt64) {front : Bytes} (nonempty : front ≠ [])
    (byte : Byte) :
    digits? base limit (front ++ [byte]) =
      (digits? base limit front).bind fun value => next? base limit value byte := by
  obtain ⟨first, rest, rfl⟩ := List.exists_cons_of_ne_nil nonempty
  simp only [List.cons_append, digits?]
  split
  · rw [← List.cons_append, List.foldlM_append]
    simp
  · rfl

namespace Digits

variable {base number : Nat} {digits front : Bytes} {byte : Byte}

theorem ne_nil (written : Digits base number digits) : digits ≠ [] := by
  cases written <;> simp

/-- The last byte is the only one, an underscore, or one more digit. -/
theorem concat_cases (written : Digits base number (front ++ [byte])) :
    (front = [] ∧ number < base ∧ IsHexDigit number byte) ∨
      (byte = Byte.underscore ∧ Digits base number front) ∨
        ∃ before value, Digits base before front ∧ value < base ∧ IsHexDigit value byte ∧
          number = before * base + value := by
  generalize spelled : front ++ [byte] = text at written
  cases written with
  | first small digit =>
      obtain ⟨rfl, last⟩ := List.append_inj' (spelled.trans (List.nil_append _).symm) rfl
      cases last
      exact .inl ⟨rfl, small, digit⟩
  | digit before small last =>
      obtain ⟨rfl, same⟩ := List.append_inj' spelled rfl
      cases same
      exact .inr (.inr ⟨_, _, before, small, last, rfl⟩)
  | gap before =>
      obtain ⟨rfl, same⟩ := List.append_inj' spelled rfl
      cases same
      exact .inr (.inl ⟨rfl, before⟩)

theorem underscore_or_digit (written : Digits base number digits) :
    ∀ byte ∈ digits, byte = Byte.underscore ∨ ∃ value < base, IsHexDigit value byte := by
  induction written with
  | first small digit =>
      intro byte member
      rw [List.mem_singleton.1 member]
      exact .inr ⟨_, small, digit⟩
  | digit _ small last ih =>
      intro byte member
      rcases List.mem_append.1 member with member | member
      · exact ih byte member
      · rw [List.mem_singleton.1 member]
        exact .inr ⟨_, small, last⟩
  | gap _ ih =>
      intro byte member
      rcases List.mem_append.1 member with member | member
      · exact ih byte member
      · exact .inl (List.mem_singleton.1 member)

theorem exists_head (written : Digits base number digits) :
    ∃ value byte rest, digits = byte :: rest ∧ value < base ∧ IsHexDigit value byte := by
  induction written with
  | first small digit => exact ⟨_, _, [], rfl, small, digit⟩
  | digit _ _ _ ih =>
      obtain ⟨value, byte, rest, rfl, small, digit⟩ := ih
      exact ⟨value, byte, rest ++ [_], rfl, small, digit⟩
  | gap _ ih =>
      obtain ⟨value, byte, rest, rfl, small, digit⟩ := ih
      exact ⟨value, byte, rest ++ [_], rfl, small, digit⟩

end Digits

section

variable {base : Nat} {limit word : UInt64} (small : base ≤ 16) (positive : 0 < base)
  (wide : 16 ≤ limit.toNat)

include small positive wide

theorem digits?_singleton_eq_some_iff {byte : Byte} :
    digits? base limit [byte] = some word ↔
      word.toNat < base ∧ IsHexDigit word.toNat byte ∧ word.toNat ≤ limit.toNat := by
  have one : [byte].foldlM (next? base limit) 0 = next? base limit 0 byte := by
    rw [List.foldlM_cons]
    cases next? base limit 0 byte <;> rfl
  have step : next? base limit 0 byte = some word ↔ _ := next?_eq_some_iff small positive wide
  simp only [UInt64.toNat_zero, Nat.zero_mul, Nat.zero_add] at step
  rw [digits?, one]
  constructor
  · intro read
    split at read
    · rename_i isDigit
      obtain ⟨value, found⟩ := Option.isSome_iff_exists.1 isDigit
      obtain ⟨_, digit⟩ := (digitBelow?_eq_some_iff small).1 found
      rcases step.1 read with ⟨rfl, _⟩ | ⟨other, below, isOther, rfl, fits⟩
      · exact absurd rfl digit.ne.1
      · exact ⟨below, isOther, fits⟩
    · cases read
  · rintro ⟨below, digit, fits⟩
    have found := (digitBelow?_eq_some_iff small).2 ⟨below, digit⟩
    rw [found, if_pos Option.isSome_some]
    exact step.2 (.inr ⟨_, below, digit, rfl, fits⟩)

/-- Digits are added up exactly when the number they denote is within the limit, and to that
number. -/
theorem digits?_eq_some_iff {text : Bytes} :
    digits? base limit text = some word ↔
      Digits base word.toNat text ∧ word.toNat ≤ limit.toNat := by
  induction text using List.reverseRecOn generalizing word with
  | nil =>
      constructor
      · intro read
        cases read
      · rintro ⟨written, _⟩
        exact absurd rfl written.ne_nil
  | append_singleton front byte ih =>
      by_cases empty : front = []
      · subst empty
        rw [List.nil_append, digits?_singleton_eq_some_iff small positive wide, ← and_assoc]
        refine and_congr_left fun _ => ⟨fun ⟨below, digit⟩ => .first below digit, fun written => ?_⟩
        have onto : Digits base word.toNat ([] ++ [byte]) := written
        rcases onto.concat_cases with
          ⟨_, below, digit⟩ | ⟨_, nothing⟩ | ⟨_, _, nothing, _⟩
        · exact ⟨below, digit⟩
        · exact absurd rfl nothing.ne_nil
        · exact absurd rfl nothing.ne_nil
      · rw [digits?_concat base limit empty, Option.bind_eq_some_iff]
        constructor
        · rintro ⟨value, read, step⟩
          obtain ⟨written, fits⟩ := ih.1 read
          rcases (next?_eq_some_iff small positive wide).1 step with
            ⟨rfl, rfl⟩ | ⟨digit, below, isDigit, sum, stillFits⟩
          · exact ⟨.gap written, fits⟩
          · rw [sum] at stillFits ⊢
            exact ⟨.digit written below isDigit, stillFits⟩
        · rintro ⟨written, fits⟩
          rcases written.concat_cases with
            ⟨nothing, _⟩ | ⟨rfl, before⟩ | ⟨number, value, before, below, isDigit, sum⟩
          · exact absurd nothing empty
          · exact ⟨word, ih.2 ⟨before, fits⟩,
              (next?_eq_some_iff small positive wide).2 (.inl ⟨rfl, rfl⟩)⟩
          · -- The number before the last digit is no larger, so it is within the limit as well.
            have smaller : number ≤ number * base := Nat.le_mul_of_pos_right number positive
            have same : (UInt64.ofNat number).toNat = number :=
              UInt64.toNat_ofNat_of_lt' (Nat.lt_of_le_of_lt (by omega) word.toNat_lt)
            refine ⟨UInt64.ofNat number, ih.2 ⟨same.symm ▸ before, by omega⟩, ?_⟩
            refine (next?_eq_some_iff small positive wide).2 (.inr ⟨value, below, isDigit, ?_, fits⟩)
            rw [same, sum]

end

/-! ## Signs and marks -/

/-- The sign of a literal. -/
inductive Sign where
  | absent
  | plus
  | minus

namespace Sign

def spelling : Sign → Bytes
  | absent => []
  | plus => bytes "+"
  | minus => bytes "-"

def negative : Sign → Bool
  | minus => true
  | _ => false

/-- The integer that a sign makes of a number. -/
def apply (sign : Sign) (number : Nat) : Int :=
  if sign.negative then -number else number

end Sign

/-- The base mark of a literal, with a small or a capital letter. -/
inductive Mark where
  | absent
  | hexadecimal (capital : Bool)
  | octal (capital : Bool)
  | binary (capital : Bool)
  | decimal (capital : Bool)

namespace Mark

def spelling : Mark → Bytes
  | absent => []
  | hexadecimal capital => bytes (if capital then "0X" else "0x")
  | octal capital => bytes (if capital then "0O" else "0o")
  | binary capital => bytes (if capital then "0B" else "0b")
  | decimal capital => bytes (if capital then "0U" else "0u")

def base : Mark → Nat
  | absent => 10
  | hexadecimal _ => 16
  | octal _ => 8
  | binary _ => 2
  | decimal _ => 10

/-- The largest number that the digits after a sign and a mark may denote. -/
def largest : Mark → Sign → Nat
  | absent, .minus => 2 ^ 63
  | absent, _ => 2 ^ 63 - 1
  | _, _ => 2 ^ 64 - 1

def numeral : Mark → Numeral
  | absent => plain
  | mark => ⟨mark.base, true⟩

theorem base_numeral (mark : Mark) : mark.numeral.base = mark.base := by
  cases mark <;> rfl

theorem limit_numeral (mark : Mark) (sign : Sign) :
    (mark.numeral.limit sign.negative).toNat = mark.largest sign := by
  cases mark <;> cases sign <;> rfl

theorem base_le (mark : Mark) : mark.numeral.base ≤ 16 := by
  cases mark <;> simp [numeral, base, plain]

theorem base_pos (mark : Mark) : 0 < mark.numeral.base := by
  cases mark <;> simp [numeral, base, plain]

theorem le_limit_numeral (mark : Mark) (sign : Sign) :
    16 ≤ (mark.numeral.limit sign.negative).toNat := by
  rw [limit_numeral]
  cases mark <;> cases sign <;> simp [largest]

end Mark

theorem ofMark?_of_digit {value : Nat} {byte : Byte} (digit : IsHexDigit value byte)
    (small : value < 10) : ofMark? byte = none :=
  digit.of_tables (fun value byte => value < 10 → ofMark? byte = none) (by decide) small

/-- A mark and digits of its base come apart again. -/
theorem split_written {mark : Mark} {number : Nat} {digits : Bytes}
    (written : Digits mark.base number digits) :
    split (mark.spelling ++ digits) = (mark.numeral, digits) := by
  cases mark with
  | absent =>
      have unmarked : ∀ byte ∈ digits, ofMark? byte = none := by
        intro byte member
        rcases written.underscore_or_digit byte member with rfl | ⟨value, below, digit⟩
        · decide
        · exact ofMark?_of_digit digit below
      rw [Mark.spelling, List.nil_append, split.eq_def]
      split
      · rw [unmarked _ (by simp)]
        simp [Mark.numeral]
      · rfl
  | hexadecimal capital => cases capital <;> rfl
  | octal capital => cases capital <;> rfl
  | binary capital => cases capital <;> rfl
  | decimal capital => cases capital <;> rfl

theorem exists_mark_of_ofMark? {letter : Byte} {numeral : Numeral}
    (found : ofMark? letter = some numeral) :
    ∃ mark : Mark, mark.spelling = [Byte.zero, letter] ∧ mark.numeral = numeral := by
  unfold ofMark? at found
  repeat' split at found
  · cases found
    rename_i letters
    rcases letters with rfl | rfl
    · exact ⟨.hexadecimal false, rfl, rfl⟩
    · exact ⟨.hexadecimal true, rfl, rfl⟩
  · cases found
    rename_i letters
    rcases letters with rfl | rfl
    · exact ⟨.octal false, rfl, rfl⟩
    · exact ⟨.octal true, rfl, rfl⟩
  · cases found
    rename_i letters
    rcases letters with rfl | rfl
    · exact ⟨.binary false, rfl, rfl⟩
    · exact ⟨.binary true, rfl, rfl⟩
  · cases found
    rename_i letters
    rcases letters with rfl | rfl
    · exact ⟨.decimal false, rfl, rfl⟩
    · exact ⟨.decimal true, rfl, rfl⟩
  · cases found

theorem exists_mark_of_split {text digits : Bytes} {numeral : Numeral}
    (parts : split text = (numeral, digits)) :
    ∃ mark : Mark, text = mark.spelling ++ digits ∧ numeral = mark.numeral := by
  unfold split at parts
  split at parts
  · split at parts
    · rename_i zero
      split at parts
      · rename_i found
        cases parts
        obtain ⟨mark, spelled, rfl⟩ := exists_mark_of_ofMark? found
        exact ⟨mark, by rw [spelled, zero]; rfl, rfl⟩
      · cases parts
        exact ⟨.absent, rfl, rfl⟩
    · cases parts
      exact ⟨.absent, rfl, rfl⟩
  · cases parts
    exact ⟨.absent, rfl, rfl⟩

/-! ## Literals -/

/-- The word is the number of the digits after some mark, within what the sign allows. -/
theorem magnitude?_eq_some_iff {sign : Sign} {text : Bytes} {word : UInt64} :
    magnitude? sign.negative text = some word ↔
      ∃ (mark : Mark) (digits : Bytes), text = mark.spelling ++ digits ∧
        Digits mark.base word.toNat digits ∧ word.toNat ≤ mark.largest sign := by
  have sum : ∀ (mark : Mark) (digits : Bytes),
      digits? mark.numeral.base (mark.numeral.limit sign.negative) digits = some word ↔
        Digits mark.base word.toNat digits ∧ word.toNat ≤ mark.largest sign := by
    intro mark digits
    rw [digits?_eq_some_iff mark.base_le mark.base_pos (mark.le_limit_numeral sign),
      mark.base_numeral, mark.limit_numeral]
  unfold magnitude?
  constructor
  · intro read
    rcases parts : split text with ⟨numeral, digits⟩
    rw [parts] at read
    obtain ⟨mark, spelled, rfl⟩ := exists_mark_of_split parts
    exact ⟨mark, digits, spelled, (sum mark digits).1 read⟩
  · rintro ⟨mark, digits, rfl, written, fits⟩
    rw [split_written written]
    exact (sum mark digits).2 ⟨written, fits⟩

theorem ne_of_magnitude? {sign : Sign} {first : Byte} {rest : Bytes} {word : UInt64}
    (read : magnitude? sign.negative (first :: rest) = some word) :
    first ≠ Byte.plus ∧ first ≠ Byte.minus := by
  obtain ⟨mark, digits, spelled, written, _⟩ := magnitude?_eq_some_iff.1 read
  obtain ⟨value, head, more, rfl, _, digit⟩ := written.exists_head
  cases mark with
  | absent =>
      cases spelled
      exact digit.ne.2
  | hexadecimal capital => cases capital <;> cases spelled <;> decide
  | octal capital => cases capital <;> cases spelled <;> decide
  | binary capital => cases capital <;> cases spelled <;> decide
  | decimal capital => cases capital <;> cases spelled <;> decide

namespace Sign

/-- The signed word for a magnitude after a sign. -/
def word (sign : Sign) (magnitude : UInt64) : Int64 :=
  if sign.negative then (-magnitude).toInt64 else magnitude.toInt64

theorem toInt_word (sign : Sign) (magnitude : UInt64) :
    (sign.word magnitude).toInt = (sign.apply magnitude.toNat).bmod (2 ^ 64) := by
  have positive : magnitude.toInt64.toInt = (magnitude.toNat : Int).bmod (2 ^ 64) :=
    BitVec.toInt_eq_toNat_bmod magnitude.toBitVec
  have negative : (-magnitude).toInt64.toInt = (-(magnitude.toNat : Int)).bmod (2 ^ 64) := by
    have opposite : (-magnitude).toInt64.toInt = (-magnitude.toInt64.toInt).bmod (2 ^ 64) :=
      Int64.toInt_neg magnitude.toInt64
    rw [opposite, positive, Int.bmod_neg_bmod]
  unfold word apply
  split
  · exact negative
  · exact positive

end Sign

theorem read?_eq_some_iff_magnitude? {text : Bytes} {value : Int64} :
    read? text = some value ↔ ∃ (sign : Sign) (rest : Bytes) (magnitude : UInt64),
      text = sign.spelling ++ rest ∧ magnitude? sign.negative rest = some magnitude ∧
        sign.word magnitude = value := by
  constructor
  · intro read
    cases text with
    | nil => cases read
    | cons first rest =>
        rw [read?] at read
        split at read
        · rename_i minus
          obtain ⟨magnitude, found, rfl⟩ := Option.map_eq_some_iff.1 read
          exact ⟨.minus, rest, magnitude, by rw [minus]; rfl, found, rfl⟩
        · split at read
          · rename_i plus
            obtain ⟨magnitude, found, rfl⟩ := Option.map_eq_some_iff.1 read
            exact ⟨.plus, rest, magnitude, by rw [plus]; rfl, found, rfl⟩
          · obtain ⟨magnitude, found, rfl⟩ := Option.map_eq_some_iff.1 read
            exact ⟨.absent, first :: rest, magnitude, rfl, found, rfl⟩
  · rintro ⟨sign, rest, magnitude, rfl, found, rfl⟩
    cases sign with
    | minus =>
        have spelled : Sign.minus.spelling ++ rest = Byte.minus :: rest := rfl
        rw [spelled, read?, if_pos rfl]
        exact Option.map_eq_some_iff.2 ⟨magnitude, found, rfl⟩
    | plus =>
        have spelled : Sign.plus.spelling ++ rest = Byte.plus :: rest := rfl
        rw [spelled, read?, if_neg (by decide), if_pos rfl]
        exact Option.map_eq_some_iff.2 ⟨magnitude, found, rfl⟩
    | absent =>
        cases rest with
        | nil => cases found
        | cons first rest =>
            obtain ⟨notPlus, notMinus⟩ := ne_of_magnitude? found
            rw [Sign.spelling, List.nil_append, read?, if_neg notMinus, if_neg notPlus]
            exact Option.map_eq_some_iff.2 ⟨magnitude, found, rfl⟩

/-- A literal is read as the integer that it denotes, wrapped into the signed range. -/
theorem read?_written {sign : Sign} {mark : Mark} {number : Nat} {digits : Bytes}
    (written : Digits mark.base number digits) (fits : number ≤ mark.largest sign) :
    read? (sign.spelling ++ (mark.spelling ++ digits)) = some (Int64.ofInt (sign.apply number)) := by
  have most : mark.largest sign < 2 ^ 64 := by
    rw [← mark.limit_numeral]
    exact UInt64.toNat_lt _
  have same : (UInt64.ofNat number).toNat = number :=
    UInt64.toNat_ofNat_of_lt' (Nat.lt_of_le_of_lt fits most)
  have value : sign.word (UInt64.ofNat number) = Int64.ofInt (sign.apply number) := by
    rw [← Int64.toInt_inj, Sign.toInt_word, Int64.toInt_ofInt, same]
    rfl
  rw [← value]
  refine read?_eq_some_iff_magnitude?.2 ⟨sign, _, UInt64.ofNat number, rfl, ?_, rfl⟩
  exact magnitude?_eq_some_iff.2 ⟨mark, digits, rfl, same.symm ▸ written, same.symm ▸ fits⟩

/-- Exactly the literals whose number is within the range of their sign and mark are read, and to the
signed word for that number.  Whatever has been added up so far, a further byte is accepted exactly
if it is an underscore or a digit that leads to a number within the range, and no addition wraps. -/
theorem read?_eq_some_iff (text : Bytes) (value : Int64) :
    (read? text = some value ↔
      ∃ (sign : Sign) (mark : Mark) (digits : Bytes) (number : Nat),
        text = sign.spelling ++ (mark.spelling ++ digits) ∧ Digits mark.base number digits ∧
          number ≤ mark.largest sign ∧ value.toInt = (sign.apply number).bmod (2 ^ 64)) ∧
    ∀ (sign : Sign) (mark : Mark) (before after : UInt64) (byte : Byte),
      next? mark.numeral.base (mark.numeral.limit sign.negative) before byte = some after ↔
        (byte = Byte.underscore ∧ after = before) ∨
          ∃ digit, digit < mark.base ∧ IsHexDigit digit byte ∧
            after.toNat = before.toNat * mark.base + digit ∧ after.toNat ≤ mark.largest sign := by
  refine ⟨⟨?_, ?_⟩, ?_⟩
  · intro read
    obtain ⟨sign, rest, magnitude, rfl, found, rfl⟩ := read?_eq_some_iff_magnitude?.1 read
    obtain ⟨mark, digits, rfl, written, fits⟩ := magnitude?_eq_some_iff.1 found
    exact ⟨sign, mark, digits, magnitude.toNat, rfl, written, fits, sign.toInt_word magnitude⟩
  · rintro ⟨sign, mark, digits, number, rfl, written, fits, is⟩
    rw [read?_written written fits, Option.some.injEq, ← Int64.toInt_inj, Int64.toInt_ofInt, is]
    rfl
  · intro sign mark before after byte
    rw [← mark.base_numeral, ← mark.limit_numeral]
    exact next?_eq_some_iff mark.base_le mark.base_pos (mark.le_limit_numeral sign)

end Numeral

end ScopedMacros
