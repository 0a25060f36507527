import ScopedMacros.Proofs.DefinedValue

/-!
# Lines that go on

A newline right after a backslash does not end a line.  The body of a definition takes in such
newlines and no others, and it leaves no backslash right before the newline that it stops at.  Where
it stops is therefore settled by the text alone.
-/

namespace ScopedMacros

namespace Bytes

/-- The last byte of a text, or else the byte before it. -/
def lastOr (before : Option Byte) (text : Bytes) : Option Byte :=
  text.getLast?.or before

/-- Every newline is right after a backslash, where `before` is the byte before the text. -/
def Unbroken (before : Option Byte) : Bytes → Prop
  | [] => True
  | byte :: rest =>
      (byte = Byte.newline → before = some Byte.backslash) ∧ Unbroken (some byte) rest

variable {before : Option Byte} {text more : Bytes}

theorem lastOr_nil (before : Option Byte) : lastOr before [] = before := rfl

theorem lastOr_cons (before : Option Byte) (byte : Byte) (rest : Bytes) :
    lastOr before (byte :: rest) = lastOr (some byte) rest := by
  cases last : rest.getLast? <;> simp [lastOr, List.getLast?_cons, last]

theorem lastOr_append (before : Option Byte) (text more : Bytes) :
    lastOr before (text ++ more) = lastOr (lastOr before text) more := by
  induction text generalizing before with
  | nil => rfl
  | cons byte rest ih => rw [List.cons_append, lastOr_cons, lastOr_cons, ih]

theorem lastOr_concat (before : Option Byte) (text : Bytes) (byte : Byte) :
    lastOr before (text ++ [byte]) = some byte := by
  rw [lastOr_append, lastOr_cons, lastOr_nil]

theorem lastOr_of_ne_nil (nonempty : text ≠ []) (before : Option Byte) :
    lastOr before text = text.getLast? := by
  rw [lastOr, List.getLast?_eq_some_getLast nonempty]
  rfl

theorem unbroken_append :
    Unbroken before (text ++ more) ↔ Unbroken before text ∧ Unbroken (lastOr before text) more := by
  induction text generalizing before with
  | nil => simp [Unbroken, lastOr_nil]
  | cons byte rest ih => rw [List.cons_append, Unbroken, Unbroken, ih, lastOr_cons, and_assoc]

theorem unbroken_of_not_mem (noNewline : Byte.newline ∉ text) (before : Option Byte) :
    Unbroken before text := by
  induction text generalizing before with
  | nil => trivial
  | cons byte rest ih =>
      rw [List.mem_cons, not_or] at noNewline
      exact ⟨fun same => absurd same.symm noNewline.1, ih noNewline.2 _⟩

/-- What is unbroken by itself is unbroken after anything. -/
theorem Unbroken.after (unbroken : Unbroken none text) (before : Option Byte) :
    Unbroken before text := by
  cases text with
  | nil => trivial
  | cons byte rest =>
      refine ⟨fun newline => ?_, unbroken.2⟩
      cases unbroken.1 newline

theorem unbroken_continued (text : Bytes) (before : Option Byte) : Unbroken before text.continued := by
  induction text generalizing before with
  | nil => trivial
  | cons byte rest ih =>
      by_cases newline : byte = Byte.newline
      · subst newline
        rw [continued_newline]
        exact ⟨(by simp [Byte.backslash, Byte.newline]), fun _ => rfl, ih _⟩
      · rw [continued_cons newline]
        exact ⟨fun same => absurd same newline, ih _⟩

theorem lastOr_continued (text : Bytes) (before : Option Byte) :
    lastOr before text.continued = lastOr before text := by
  induction text generalizing before with
  | nil => rfl
  | cons byte rest ih =>
      by_cases newline : byte = Byte.newline
      · subst newline
        rw [continued_newline, lastOr_cons, lastOr_cons, lastOr_cons, ih]
      · rw [continued_cons newline, lastOr_cons, lastOr_cons, ih]

/-- A text has one first newline that is not right after a backslash. -/
theorem eq_of_unbroken {other rest left : Bytes} (first : Unbroken before text)
    (second : Unbroken before other) (ends : lastOr before text ≠ some Byte.backslash)
    (otherEnds : lastOr before other ≠ some Byte.backslash)
    (same : text ++ Byte.newline :: rest = other ++ Byte.newline :: left) :
    text = other ∧ rest = left := by
  induction text generalizing before other with
  | nil =>
      cases other with
      | nil => exact ⟨rfl, (List.cons.inj same).2⟩
      | cons byte more => exact absurd (second.1 (List.cons.inj same).1.symm) ends
  | cons byte more ih =>
      cases other with
      | nil => exact absurd (first.1 (List.cons.inj same).1) otherEnds
      | cons twin others =>
          obtain ⟨rfl, further⟩ := List.cons.inj same
          rw [lastOr_cons] at ends otherEnds
          obtain ⟨rfl, after⟩ := ih first.2 second.2 ends otherEnds further
          exact ⟨rfl, after⟩

end Bytes

/-! ## Bodies -/

namespace Lexeme

open Bytes

variable {first : Byte} {rest : Bytes} {lexeme : Lexeme}

theorem unbroken_continuation (text : Bytes) (before : Option Byte) :
    Unbroken before (continuation text) := by
  have solid : ∀ byte, Byte.isBlank byte = true → byte ≠ Byte.newline := by decide +kernel
  fun_induction continuation text generalizing before with
  | case1 => trivial
  | case2 last blank => exact ⟨fun newline => absurd newline (solid last blank), trivial⟩
  | case3 => trivial
  | case4 first second rest blank ih => exact ⟨fun newline => absurd newline (solid first blank), ih _⟩
  | case5 first second rest notBlank both ih =>
      obtain ⟨rfl, rfl⟩ := both
      exact ⟨(by simp [Byte.backslash, Byte.newline]), fun _ => rfl, ih _⟩
  | case6 => trivial

theorem lastOr_continuation {before : Option Byte} (other : before ≠ some Byte.backslash)
    (text : Bytes) : lastOr before (continuation text) ≠ some Byte.backslash := by
  have solid : ∀ byte, Byte.isBlank byte = true → some byte ≠ some Byte.backslash := by
    decide +kernel
  fun_induction continuation text generalizing before with
  | case1 => exact other
  | case2 last blank => exact solid last blank
  | case3 => exact other
  | case4 first second rest blank ih =>
      rw [lastOr_cons]
      exact ih (solid first blank)
  | case5 first second rest notBlank both ih =>
      rw [lastOr_cons, lastOr_cons]
      exact ih (by simp [both.2, Byte.backslash, Byte.newline])
  | case6 => exact other

/-- A newline inside of a string literal of one line is right after a backslash. -/
theorem unbroken_stringTail (skipping : Bool) (text : Bytes) (before : Option Byte) :
    Unbroken before (stringTail false skipping text).raw := by
  have cons : ∀ (raw value : Bytes) (tail : StringTail) (before : Option Byte),
      Byte.newline ∉ raw → (∀ before, Unbroken before tail.raw) →
      Unbroken before (tail.cons raw value).raw := fun raw value tail before noNewline unbroken =>
    unbroken_append.2 ⟨unbroken_of_not_mem noNewline before, unbroken _⟩
  have digit : ∀ byte, Byte.isDigit byte = true → Byte.newline ≠ byte := by decide +kernel
  have escape : Byte.newline ≠ Byte.backslash := by decide
  generalize single : false = multiline
  fun_induction stringTail multiline skipping text generalizing before with
  | case1 => trivial
  | case2 skipping first rest skips ih =>
      refine cons _ _ _ before (fun newline => ?_) ih
      rw [← List.mem_singleton.1 newline] at skips
      simp [Byte.newline, Byte.space, Byte.tab] at skips
  | case3 => trivial
  | case4 skipping rest => exact unbroken_of_not_mem (by decide) before
  | case5 skipping first rest skips ends notQuote notBackslash ih =>
      refine cons _ _ _ before (fun newline => ?_) ih
      simp [← List.mem_singleton.1 newline, ← single] at ends
  | case6 skipping first skips ends notQuote backslash =>
      refine unbroken_of_not_mem ?_ before
      rw [Classical.not_not.1 backslash]
      decide
  | case7 skipping first skips ends notQuote backslash rest ih =>
      obtain rfl := Classical.not_not.1 backslash
      exact ⟨fun newline => absurd newline.symm escape, fun _ => rfl, ih _⟩
  | case8 skipping first skips ends notQuote backslash second inLine third fourth tail digits ih =>
      obtain rfl := Classical.not_not.1 backslash
      simp only [Bool.and_eq_true] at digits
      refine cons _ _ _ before ?_ ih
      simp [escape, digit second digits.1.1, digit third digits.1.2, digit fourth digits.2]
  | case9 skipping first skips ends notQuote backslash second inLine third fourth tail digits ih =>
      obtain rfl := Classical.not_not.1 backslash
      exact cons _ _ _ before (by simp [escape, Ne.symm inLine]) ih
  | case10 skipping first skips ends notQuote backslash second inLine tail short ih =>
      obtain rfl := Classical.not_not.1 backslash
      exact cons _ _ _ before (by simp [escape, Ne.symm inLine]) ih

theorem newline_not_mem_characterTail? {tail : Bytes} (found : characterTail? rest = some tail) :
    Byte.newline ∉ tail := by
  have quote : Byte.newline ≠ Byte.apostrophe := by decide
  have escape : Byte.newline ≠ Byte.backslash := by decide
  match rest with
  | [] => cases found
  | [_] => cases found
  | first :: second :: rest =>
      rw [characterTail?_cons_cons] at found
      split at found
      · next escaped =>
          obtain ⟨code, coded, rfl⟩ := Option.map_eq_some_iff.1 found
          have noNewline : Byte.newline ∉ code := by
            unfold escapeCode? at coded
            dsimp only at coded
            split at coded
            · cases coded
              exact newline_not_mem_takeWhile (by simp) _
            · cases coded
          rw [escaped.1]
          simp [noNewline, quote, escape, Ne.symm escaped.2.2]
      split at found
      · next closes =>
          cases found
          simp [closes.2.2, quote, Ne.symm closes.2.1]
      · cases found

theorem unbroken_solid (notNewline : first ≠ Byte.newline)
    (lexed : solid false first rest = .ok lexeme) : Unbroken none (first :: lexeme.more) := by
  have single : ∀ {more : Bytes}, Byte.newline ∉ more → Unbroken none (first :: more) :=
    fun noNewline => unbroken_of_not_mem (by simp [Ne.symm notNewline, noNewline]) none
  unfold solid at lexed
  split at lexed
  · cases lexed
    exact single (newline_not_mem_takeWhile rfl rest)
  split at lexed
  · cases lexed
    exact single (newline_not_mem_takeWhile rfl rest)
  split at lexed
  · obtain ⟨_, rfl⟩ := closed_of_string lexed
    exact ⟨fun newline => absurd newline notNewline, unbroken_stringTail false rest _⟩
  split at lexed
  · cases lexed
    unfold character
    split
    · next literal => exact single (newline_not_mem_characterTail? literal)
    · exact single (by simp)
  iterate 3
    split at lexed
    · cases lexed
      exact single (by simp)
  · cases lexed
    exact single (newline_not_mem_takeWhile rfl rest)

/-- Text other than space ends with a backslash only if it is one. -/
theorem eq_backslash_of_solid (lexed : solid false first rest = .ok lexeme)
    (ends : lastOr none (first :: lexeme.more) = some Byte.backslash) :
    first = Byte.backslash ∧ lexeme.more = [] := by
  have run : ∀ {more : Bytes}, Byte.backslash ∉ more →
      lastOr none (first :: more) = some Byte.backslash → first = Byte.backslash ∧ more = [] := by
    intro more noBackslash last
    rw [lastOr_cons] at last
    by_cases nothing : more = []
    · rw [nothing, lastOr_nil] at last
      exact ⟨Option.some.inj last, nothing⟩
    · rw [lastOr_of_ne_nil nothing] at last
      exact absurd (List.mem_of_getLast? last) noBackslash
  have concat : ∀ {more front : Bytes} {last : Byte}, more = front ++ [last] →
      last ≠ Byte.backslash → lastOr none (first :: more) ≠ some Byte.backslash := by
    rintro _ front last rfl other
    rw [lastOr_cons, lastOr_concat]
    exact fun same => other (Option.some.inj same)
  unfold solid at lexed
  split at lexed
  · cases lexed
    exact run (not_mem_takeWhile rfl rest) ends
  split at lexed
  · cases lexed
    exact run (not_mem_takeWhile rfl rest) ends
  split at lexed
  · obtain ⟨closed, rfl⟩ := closed_of_string lexed
    obtain ⟨front, raw⟩ := exists_raw_of_closed closed
    exact absurd ends (concat raw (by decide))
  split at lexed
  · cases lexed
    cases literal : characterTail? rest with
    | none =>
        rw [character, literal] at ends ⊢
        exact run (by simp) ends
    | some tail =>
        rw [character, literal] at ends
        obtain ⟨front, raw⟩ := exists_characterTail? literal
        exact absurd ends (concat raw (by decide))
  iterate 3
    split at lexed
    · cases lexed
      exact run (by simp) ends
  · cases lexed
    exact run (not_mem_takeWhile rfl rest) ends

/-- The first lexeme of a body: space up to the first byte that is not, or else text. -/
theorem inBody_cases (lexed : inBody first rest = .ok lexeme) :
    first :: lexeme.more = continuation (first :: rest) ∨
      continuation (first :: rest) = [] ∧ solid false first rest = .ok lexeme := by
  unfold inBody at lexed
  split at lexed
  · next byte more space =>
      cases lexed
      have inText := prefix_continuation (first :: rest)
      rw [space] at inText ⊢
      rw [(List.cons_prefix_cons.1 inText).1]
      exact .inl rfl
  · next nothing => exact .inr ⟨nothing, lexed⟩

theorem unbroken_inBody (notNewline : first ≠ Byte.newline)
    (lexed : inBody first rest = .ok lexeme) : Unbroken none (first :: lexeme.more) := by
  rcases inBody_cases lexed with space | ⟨_, solid⟩
  · rw [space]
    exact unbroken_continuation _ none
  · exact unbroken_solid notNewline solid

/-- A lexeme of a body leaves no backslash before a newline. -/
theorem head?_ne_of_inBody {left : Bytes} (lexed : inBody first (lexeme.more ++ left) = .ok lexeme)
    (ends : lastOr none (first :: lexeme.more) = some Byte.backslash) :
    left.head? ≠ some Byte.newline := by
  rcases inBody_cases lexed with space | ⟨nothing, solid⟩
  · rw [space] at ends
    exact absurd ends (lastOr_continuation (by simp) _)
  · obtain ⟨rfl, alone⟩ := eq_backslash_of_solid solid ends
    intro newline
    obtain ⟨others, rfl⟩ := List.head?_eq_some_iff.1 newline
    rw [alone, List.nil_append, continuation, if_neg (by decide), if_pos ⟨rfl, rfl⟩] at nothing
    cases nothing

end Lexeme

namespace Token

open Bytes

/-- A body takes in no newline but after a backslash, and leaves no backslash before a newline. -/
theorem exists_raw_of_ofBody {cursor stop : Cursor} {tokens : List Token}
    (read : ofBody cursor = .ok (tokens, stop)) :
    ∃ raw, cursor.rest = raw ++ stop.rest ∧ Unbroken none raw ∧
      (lastOr none raw = some Byte.backslash → stop.rest.head? ≠ some Byte.newline) := by
  fun_induction ofBody cursor generalizing tokens stop with
  | case1 cursor ended =>
      cases read
      exact ⟨[], rfl, trivial, by simp [lastOr_nil]⟩
  | case2 => cases read
  | case3 => cases read
  | case4 cursor next found lexeme lexed tail stop' rest ih =>
      cases read
      obtain ⟨whole, notNewline⟩ := Cursor.rest_of_inLine? found
      obtain ⟨left, split⟩ := Lexeme.prefix_inBody lexed
      obtain ⟨raw, further, unbroken, ends⟩ := ih rest
      have advanced : (cursor.advance (next.1 :: lexeme.more)).rest = left := by
        rw [Cursor.advance, whole, ← split, ← List.cons_append, List.drop_left]
      rw [advanced] at further
      have first := Lexeme.unbroken_inBody notNewline lexed
      refine ⟨next.1 :: lexeme.more ++ raw, ?_, unbroken_append.2 ⟨first, unbroken.after _⟩, ?_⟩
      · rw [whole, ← split, further, List.append_assoc]
        rfl
      · intro last
        rw [lastOr_append] at last
        by_cases nothing : raw = []
        · subst nothing
          rw [List.nil_append] at further
          rw [← further]
          rw [← split] at lexed
          exact Lexeme.head?_ne_of_inBody lexed last
        · rw [lastOr_of_ne_nil nothing] at last
          exact ends ((lastOr_of_ne_nil nothing none).trans last)

end Token

end ScopedMacros
