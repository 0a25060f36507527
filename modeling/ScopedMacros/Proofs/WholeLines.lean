import Mathlib.Data.List.TakeWhile
import ScopedMacros.Proofs.Extent

/-!
# Whole lines

A text ends a line if its last byte is a newline that no backslash takes away.  More text after it is
not seen by what reads the lines before.
-/

namespace ScopedMacros

namespace Bytes

/-- The text ends with a newline that no backslash takes away. -/
def EndsLine (text : Bytes) : Prop :=
  ∃ front, text = front ++ [Byte.newline] ∧ front.getLast? ≠ some Byte.backslash

/-- Any number of lines, the last one ended as well. -/
def WholeLines (text : Bytes) : Prop :=
  text = [] ∨ EndsLine text

/-- The second text is empty, or it starts on a line of its own. -/
def Apart (text more : Bytes) : Prop :=
  more = [] ∨ EndsLine text

variable {text raw more : Bytes}

theorem EndsLine.newline_mem (ends : EndsLine text) : Byte.newline ∈ text := by
  obtain ⟨front, rfl, _⟩ := ends
  simp

/-- What is left of lines, if anything, ends a line. -/
theorem EndsLine.of_append (raw : Bytes) (ends : EndsLine (raw ++ text)) (nonempty : text ≠ []) :
    EndsLine text := by
  obtain ⟨front, split, kept⟩ := ends
  obtain ⟨start, last, rfl⟩ : ∃ start last, text = start ++ [last] :=
    ⟨_, _, (List.dropLast_concat_getLast nonempty).symm⟩
  rw [← List.append_assoc] at split
  obtain ⟨rfl, same⟩ := List.append_inj' split rfl
  cases same
  refine ⟨start, rfl, fun backslash => kept ?_⟩
  rw [List.getLast?_append, backslash]
  rfl

theorem WholeLines.of_suffix {later : Bytes} (whole : WholeLines text) (ends : later <:+ text) :
    WholeLines later := by
  obtain ⟨raw, rfl⟩ := ends
  by_cases empty : later = []
  · exact .inl empty
  rcases whole with nothing | ends
  · exact absurd (List.append_eq_nil_iff.1 nothing).2 empty
  · exact .inr (ends.of_append raw empty)

theorem not_endsLine_of_getLast? (last : Byte) (ends : text.getLast? = some last)
    (other : last ≠ Byte.newline) : ¬ EndsLine text := by
  rintro ⟨front, rfl, _⟩
  rw [List.getLast?_concat] at ends
  exact other (Option.some.inj ends).symm

theorem not_endsLine_of_newline_not_mem (noNewline : Byte.newline ∉ text) : ¬ EndsLine text :=
  fun ends => noNewline ends.newline_mem

theorem not_endsLine_backslash : ¬ EndsLine [Byte.backslash, Byte.newline] := by
  rintro ⟨front, split, kept⟩
  have alone : [Byte.backslash] ++ [Byte.newline] = front ++ [Byte.newline] := split
  rw [← List.append_cancel_right alone] at kept
  exact kept rfl

theorem not_mem_takeWhile {byte : Byte} {test : Byte → Bool} (stops : test byte = false)
    (text : Bytes) : byte ∉ text.takeWhile test := by
  intro member
  have tested := List.mem_takeWhile_imp member
  rw [stops] at tested
  cases tested

theorem newline_not_mem_takeWhile {test : Byte → Bool} (stops : test Byte.newline = false)
    (text : Bytes) : Byte.newline ∉ text.takeWhile test :=
  not_mem_takeWhile stops text

namespace Apart

theorem of_append (raw : Bytes) (apart : Apart (raw ++ text) more) (unfinished : ¬ EndsLine raw) :
    Apart text more := by
  rcases apart with nothing | ends
  · exact .inl nothing
  · refine .inr (ends.of_append raw ?_)
    rintro rfl
    rw [List.append_nil] at ends
    exact unfinished ends

theorem head?_append (apart : Apart text more) : (text ++ more).head? = text.head? := by
  rcases apart with rfl | ⟨front, rfl, _⟩
  · rw [List.append_nil]
  · cases front <;> rfl

theorem alike (apart : Apart text more) : Bytes.Alike text (text ++ more) := by
  rcases apart with rfl | ends
  · rw [List.append_nil]
    have same := Alike.append text .nil
    rwa [List.append_nil] at same
  · have same := Alike.of_newline ends.newline_mem [] more
    rwa [List.append_nil] at same

theorem takeWhile_append (test : Byte → Bool) (stops : test Byte.newline = false)
    (apart : Apart text more) : (text ++ more).takeWhile test = text.takeWhile test := by
  rcases apart with rfl | ends
  · rw [List.append_nil]
  · rw [List.takeWhile_append, if_neg]
    intro all
    have tested := List.takeWhile_eq_self_iff.1
      ((List.takeWhile_prefix test).eq_of_length all) _ ends.newline_mem
    rw [stops] at tested
    cases tested

theorem dropWhile_append (test : Byte → Bool) (stops : test Byte.newline = false)
    (apart : Apart text more) : (text ++ more).dropWhile test = text.dropWhile test ++ more := by
  have whole := List.takeWhile_append_dropWhile (p := test) (l := text ++ more)
  rw [apart.takeWhile_append test stops] at whole
  have split : text.takeWhile test ++ (text.dropWhile test ++ more) = text ++ more := by
    rw [← List.append_assoc, List.takeWhile_append_dropWhile]
  exact List.append_cancel_left (whole.trans split.symm)

theorem dropWhile (test : Byte → Bool) (stops : test Byte.newline = false)
    (apart : Apart text more) : Apart (text.dropWhile test) more := by
  rw [← List.takeWhile_append_dropWhile (p := test) (l := text)] at apart
  exact apart.of_append _ (not_endsLine_of_newline_not_mem (newline_not_mem_takeWhile stops text))

end Apart

end Bytes

namespace Lexeme

open Bytes

variable {text more rest : Bytes} {first : Byte} {lexeme : Lexeme}

/-! ## Space -/

theorem not_endsLine_continuation (text : Bytes) : ¬ EndsLine (continuation text) := by
  fun_induction continuation text with
  | case1 => exact not_endsLine_of_newline_not_mem (by simp)
  | case2 last blank =>
      refine not_endsLine_of_newline_not_mem fun member => ?_
      rw [List.mem_singleton] at member
      rw [← member] at blank
      cases blank
  | case3 => exact not_endsLine_of_newline_not_mem (by simp)
  | case4 first second rest blank ih =>
      intro ends
      by_cases empty : continuation (second :: rest) = []
      · rw [empty] at ends
        have member := List.mem_singleton.1 ends.newline_mem
        rw [← member] at blank
        cases blank
      · exact ih (ends.of_append [first] empty)
  | case5 first second rest _ both ih =>
      obtain ⟨rfl, rfl⟩ := both
      intro ends
      by_cases empty : continuation rest = []
      · rw [empty] at ends
        exact not_endsLine_backslash ends
      · exact ih (ends.of_append [Byte.backslash, Byte.newline] empty)
  | case6 => exact not_endsLine_of_newline_not_mem (by simp)

theorem continuation_append (apart : Apart text more) :
    continuation (text ++ more) = continuation text := by
  rcases apart with rfl | ends
  · rw [List.append_nil]
  fun_induction continuation text with
  | case1 => cases ends.newline_mem
  | case2 last blank =>
      rw [← List.mem_singleton.1 ends.newline_mem] at blank
      cases blank
  | case3 last _ =>
      obtain rfl : last = Byte.newline := (List.mem_singleton.1 ends.newline_mem).symm
      cases more <;> rfl
  | case4 first second rest blank ih =>
      have further := ih (ends.of_append [first] (by simp))
      rw [List.cons_append, List.cons_append, continuation, if_pos blank, ← List.cons_append, further]
  | case5 first second rest notBlank both ih =>
      have nonempty : rest ≠ [] := by
        rintro rfl
        obtain ⟨rfl, rfl⟩ := both
        exact not_endsLine_backslash ends
      have further := ih (ends.of_append [first, second] nonempty)
      rw [List.cons_append, List.cons_append, continuation, if_neg notBlank, if_pos both, further]
  | case6 first second rest notBlank other =>
      rw [List.cons_append, List.cons_append, continuation, if_neg notBlank, if_neg other]

theorem blankLine_append (apart : Apart text more) : blankLine (text ++ more) = blankLine text := by
  rcases apart with rfl | ends
  · rw [List.append_nil]
  induction text with
  | nil => cases ends.newline_mem
  | cons byte rest ih =>
      rw [List.cons_append, Token.blankLine_cons, Token.blankLine_cons]
      split
      · next blank =>
          by_cases empty : rest = []
          · subst empty
            rw [← List.mem_singleton.1 ends.newline_mem] at blank
            cases blank
          · rw [ih (ends.of_append [byte] empty)]
      · rfl

/-! ## Other lexemes -/

theorem exists_raw_of_closed {multiline skipping : Bool} {text : Bytes}
    (closed : (stringTail multiline skipping text).closed = true) :
    ∃ front, (stringTail multiline skipping text).raw = front ++ [Byte.doubleQuote] := by
  have cons : ∀ (raw value : Bytes) (tail : StringTail),
      (∃ front, tail.raw = front ++ [Byte.doubleQuote]) →
      ∃ front, (tail.cons raw value).raw = front ++ [Byte.doubleQuote] := by
    rintro raw value tail ⟨front, ends⟩
    exact ⟨raw ++ front, by rw [StringTail.cons, ends, List.append_assoc]⟩
  fun_induction stringTail multiline skipping text with
  | case1 => cases closed
  | case2 _ _ _ _ ih => exact cons _ _ _ (ih closed)
  | case3 => cases closed
  | case4 => exact ⟨[], rfl⟩
  | case5 _ _ _ _ _ _ _ ih => exact cons _ _ _ (ih closed)
  | case6 => cases closed
  | case7 => rename_i ih; exact cons _ _ _ (ih closed)
  | case8 => rename_i ih; exact cons _ _ _ (ih closed)
  | case9 => rename_i ih; exact cons _ _ _ (ih closed)
  | case10 => rename_i ih; exact cons _ _ _ (ih closed)

theorem exists_characterTail? {tail : Bytes} (found : characterTail? rest = some tail) :
    ∃ front, tail = front ++ [Byte.apostrophe] := by
  match rest with
  | [] => cases found
  | [_] => cases found
  | first :: second :: rest =>
      rw [characterTail?_cons_cons] at found
      split at found
      · obtain ⟨code, _, rfl⟩ := Option.map_eq_some_iff.1 found
        exact ⟨_, rfl⟩
      split at found
      · next closes =>
          cases found
          exact ⟨[first], by rw [closes.2.2]; rfl⟩
      · cases found

theorem not_endsLine_takeWhile {test : Byte → Bool} (notNewline : first ≠ Byte.newline)
    (stops : test Byte.newline = false) (rest : Bytes) :
    ¬ EndsLine (first :: rest.takeWhile test) := by
  refine not_endsLine_of_newline_not_mem fun member => ?_
  rcases List.mem_cons.1 member with rfl | member
  · exact notNewline rfl
  · exact newline_not_mem_takeWhile stops rest member

theorem not_endsLine_string {multiline : Bool} (found : string multiline rest = .ok lexeme)
    (first : Byte) : ¬ EndsLine (first :: lexeme.more) := by
  obtain ⟨closed, rfl⟩ := closed_of_string found
  obtain ⟨front, raw⟩ := exists_raw_of_closed closed
  refine not_endsLine_of_getLast? Byte.doubleQuote ?_ (by decide)
  rw [raw, ← List.cons_append, List.getLast?_concat]

theorem not_endsLine_character (notNewline : first ≠ Byte.newline) (rest : Bytes) :
    ¬ EndsLine (first :: (character rest).more) := by
  unfold character
  split
  · next tail literal =>
      obtain ⟨front, rfl⟩ := exists_characterTail? literal
      refine not_endsLine_of_getLast? Byte.apostrophe ?_ (by decide)
      rw [← List.cons_append, List.getLast?_concat]
  · exact not_endsLine_of_getLast? first rfl notNewline

theorem not_endsLine_solid {multiline : Bool} (notNewline : first ≠ Byte.newline)
    (found : solid multiline first rest = .ok lexeme) : ¬ EndsLine (first :: lexeme.more) := by
  unfold solid at found
  split at found
  · cases found
    exact not_endsLine_takeWhile notNewline rfl rest
  split at found
  · cases found
    exact not_endsLine_takeWhile notNewline rfl rest
  split at found
  · exact not_endsLine_string found first
  split at found
  · cases found
    exact not_endsLine_character notNewline rest
  iterate 3
    split at found
    · cases found
      exact not_endsLine_of_getLast? first rfl notNewline
  · cases found
    exact not_endsLine_takeWhile notNewline rfl rest

theorem not_endsLine_inBody (notNewline : first ≠ Byte.newline)
    (found : inBody first rest = .ok lexeme) : ¬ EndsLine (first :: lexeme.more) := by
  unfold inBody at found
  split at found
  · next byte space spaced =>
      cases found
      have inText := prefix_continuation (first :: rest)
      rw [spaced] at inText
      rw [← (List.cons_prefix_cons.1 inText).1, ← spaced]
      exact not_endsLine_continuation _
  · exact not_endsLine_solid notNewline found

theorem not_endsLine_inLine (notNewline : first ≠ Byte.newline)
    (found : inLine first rest = .ok lexeme) : ¬ EndsLine (first :: lexeme.more) := by
  unfold inLine at found
  split at found
  · cases found
    exact not_endsLine_takeWhile notNewline rfl rest
  split at found
  · exact not_endsLine_string found first
  split at found
  · dsimp only at found
    split at found
    · cases found
      exact not_endsLine_takeWhile notNewline rfl rest
    · cases found
  split at found
  · next op _ =>
      cases found
      refine not_endsLine_of_newline_not_mem ?_
      have spelled : Byte.newline ∉ op.spelling.tail := by cases op <;> decide
      exact List.not_mem_cons_of_ne_of_not_mem (Ne.symm notNewline) spelled
  iterate 3
    split at found
    · cases found
      exact not_endsLine_of_getLast? first rfl notNewline
  · cases found

/-! ## More text after whole lines -/

theorem exists_left {raw : Bytes} (inText : raw <+: rest) (apart : Apart (first :: rest) more)
    (unfinished : ¬ EndsLine (first :: raw)) : ∃ left, rest = raw ++ left ∧ Apart left more := by
  obtain ⟨left, rfl⟩ := inText
  rw [← List.cons_append] at apart
  exact ⟨left, rfl, apart.of_append _ unfinished⟩

theorem inLine_of_apart (apart : Apart (first :: rest) more) (notNewline : first ≠ Byte.newline)
    (found : inLine first rest = .ok lexeme) : inLine first (rest ++ more) = .ok lexeme := by
  obtain ⟨left, rfl, remains⟩ :=
    exists_left (prefix_inLine found) apart (not_endsLine_inLine notNewline found)
  rw [List.append_assoc]
  exact inLine_append (.inl remains.head?_append) found

theorem solid_of_apart {multiline : Bool} (apart : Apart (first :: rest) more)
    (notNewline : first ≠ Byte.newline) (found : solid multiline first rest = .ok lexeme) :
    solid multiline first (rest ++ more) = .ok lexeme := by
  obtain ⟨left, rfl, remains⟩ :=
    exists_left (prefix_solid found) apart (not_endsLine_solid notNewline found)
  rw [List.append_assoc]
  exact solid_append remains.alike found

theorem inBody_of_apart (apart : Apart (first :: rest) more) (notNewline : first ≠ Byte.newline)
    (found : inBody first rest = .ok lexeme) : inBody first (rest ++ more) = .ok lexeme := by
  have space := continuation_append apart
  rw [List.cons_append] at space
  unfold inBody at found ⊢
  rw [space]
  split at found
  · exact found
  · exact solid_of_apart apart notNewline found

theorem inSource_of_apart (apart : Apart (first :: rest) more)
    (found : inSource first rest = .ok lexeme) : inSource first (rest ++ more) = .ok lexeme := by
  unfold inSource at found ⊢
  split at found
  · next newline =>
      rw [if_pos newline]
      exact found
  · next notNewline =>
      rw [if_neg notNewline]
      split at found
      · next blank =>
          have unfinished : ¬ EndsLine [first] := not_endsLine_of_getLast? first rfl notNewline
          have tail : Apart rest more := apart.of_append [first] unfinished
          rw [if_pos blank, blankLine_append tail]
          exact found
      · next notBlank =>
          rw [if_neg notBlank]
          exact solid_of_apart apart notNewline found

/-- Only space ends a line. -/
theorem kind_of_endsLine (found : inSource first rest = .ok lexeme)
    (ends : EndsLine (first :: lexeme.more)) : lexeme.kind = .space := by
  unfold inSource at found
  split at found
  · cases found
    rfl
  · next notNewline =>
      split at found
      · cases found
        rfl
      · exact absurd ends (not_endsLine_solid notNewline found)

end Lexeme

namespace Token

open Bytes

variable {text more : Bytes} {head : Head}

theorem head?_append (apart : Apart text more) : head? (text ++ more) = head? text := by
  have start : Apart (text.dropWhile Byte.isBlank) more := apart.dropWhile _ rfl
  unfold head?
  rw [apart.takeWhile_append Byte.isBlank rfl, apart.dropWhile_append Byte.isBlank rfl]
  cases left : text.dropWhile Byte.isBlank with
  | nil =>
      rw [left] at start
      rcases start with rfl | ends
      · rfl
      · cases ends.newline_mem
  | cons first rest =>
      rw [left] at start
      simp only [List.cons_append]
      split
      · next hash =>
          have unfinished : ¬ EndsLine [first] :=
            not_endsLine_of_getLast? first rfl (by rw [hash]; decide)
          have gap : Apart rest more := start.of_append [first] unfinished
          have word : Apart (rest.dropWhile Byte.isBlank) more := gap.dropWhile _ rfl
          rw [gap.takeWhile_append Byte.isBlank rfl, gap.dropWhile_append Byte.isBlank rfl,
            word.head?_append, word.takeWhile_append Byte.isLetter rfl]
      · rfl

/-- The start of a directive line has no newline. -/
theorem newline_not_mem_head? (found : head? text = some head) :
    Byte.newline ∉ head.blanks ++ head.raw := by
  have blank : ∀ rest : Bytes, Byte.newline ∉ rest.takeWhile Byte.isBlank :=
    newline_not_mem_takeWhile rfl
  have letter : ∀ rest : Bytes, Byte.newline ∉ rest.takeWhile Byte.isLetter :=
    newline_not_mem_takeWhile rfl
  unfold head? at found
  split at found
  · cases found
  · split at found
    · next hash =>
        dsimp only at found
        have other : Byte.newline ≠ Byte.hash := by decide
        split at found
        · cases found
          simp [blank, hash, other]
        · obtain ⟨directive, _, rfl⟩ := Option.map_eq_some_iff.1 found
          simp [blank, letter, hash, other]
    · cases found

end Token

end ScopedMacros
