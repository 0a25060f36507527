import ScopedMacros.Proofs.Item
import ScopedMacros.Proofs.Literal

/-!
# How far a lexeme looks

A lexeme of text other than a string ends within its line, and to see where it ends no more than the
line is looked at.  Blanks that a line has in place of the end of the file make no difference.
-/

namespace ScopedMacros

namespace Bytes

/-- The second text has the same line as the first one, or goes on with blanks to the end of its line
where the first one ends. -/
inductive Alike : Bytes → Bytes → Prop where
  | nil : Alike [] []
  | newline (left right : Bytes) : Alike (Byte.newline :: left) (Byte.newline :: right)
  | ended (right : Bytes) : Alike [] (Byte.newline :: right)
  | blank {byte : Byte} {right : Bytes} (blank : Byte.isBlank byte = true)
      (alike : Alike [] right) : Alike [] (byte :: right)
  | cons (byte : Byte) {left right : Bytes} (alike : Alike left right) :
      Alike (byte :: left) (byte :: right)

namespace Alike

variable {left right : Bytes}

theorem append (text : Bytes) (alike : Alike left right) : Alike (text ++ left) (text ++ right) := by
  induction text with
  | nil => exact alike
  | cons byte rest ih => exact .cons byte ih

/-- Blanks up to a newline may stand in place of the end of the text. -/
theorem spaces {text : Bytes} (all : ∀ byte ∈ text, Byte.isSpace byte = true)
    (alike : Alike [] right) : Alike [] (text ++ right) := by
  induction text with
  | nil => exact alike
  | cons byte rest ih =>
      have space := all byte (by simp)
      by_cases newline : byte = Byte.newline
      · subst newline
        exact .ended _
      · have blank : Byte.isBlank byte = true := by simpa [Byte.isSpace, newline] using space
        exact .blank blank (ih fun other member => all other (by simp [member]))

/-- What stands after a newline makes no difference. -/
theorem of_newline {text : Bytes} (found : Byte.newline ∈ text) (left right : Bytes) :
    Alike (text ++ left) (text ++ right) := by
  induction text with
  | nil => cases found
  | cons byte rest ih =>
      rcases List.mem_cons.1 found with rfl | found
      · exact .newline _ _
      · exact .cons byte (ih found)

/-- Bytes of a class that has neither blanks nor newlines are the same at both heads. -/
theorem takeWhile_eq (test : Byte → Bool)
    (noSpace : [Byte.space, Byte.tab, Byte.carriageReturn, Byte.newline].any test = false)
    (alike : Alike left right) :
    right.takeWhile test = left.takeWhile test := by
  simp only [List.any_cons, List.any_nil, Bool.or_false, Bool.or_eq_false_iff] at noSpace
  obtain ⟨noSpace, noTab, noReturn, noNewline⟩ := noSpace
  have noBlank : ∀ byte, Byte.isBlank byte = true → test byte = false := by
    intro byte blank
    simp only [Byte.isBlank, Bool.or_eq_true, beq_iff_eq, or_assoc] at blank
    rcases blank with rfl | rfl | rfl
    · exact noSpace
    · exact noTab
    · exact noReturn
  induction alike with
  | nil => rfl
  | newline left right => simp [noNewline]
  | ended right => simp [noNewline]
  | blank blank _ _ => simp [noBlank _ blank]
  | cons byte _ ih => rw [List.takeWhile_cons, List.takeWhile_cons, ih]

theorem dropWhile_isBlank (alike : Alike left right) :
    Alike (left.dropWhile Byte.isBlank) (right.dropWhile Byte.isBlank) := by
  induction alike with
  | nil => exact .nil
  | newline left right => exact .newline left right
  | ended right => exact .ended right
  | blank blank _ ih =>
      rw [List.dropWhile_cons, if_pos blank]
      exact ih
  | cons byte alike ih =>
      rw [List.dropWhile_cons, List.dropWhile_cons]
      split
      · exact ih
      · exact .cons byte alike

end Alike

/-- The second text starts like the first one, or with space. -/
def StartsAlike (left right : Bytes) : Prop :=
  right.head? = left.head? ∨ ∃ byte ∈ right.head?, Byte.isSpace byte = true

end Bytes

namespace Lexeme

open Bytes

variable {left right : Bytes}

/-! ## Character literals -/

/-- The bytes of an escape after its first one, at most `count` of them, if an apostrophe follows. -/
def escapeCode? (count : Nat) (text : Bytes) : Option Bytes :=
  let code := (text.take count).takeWhile fun byte =>
    byte != Byte.apostrophe && byte != Byte.newline
  if (text.drop code.length).head? = some Byte.apostrophe then some code else none

theorem characterTail?_cons_cons (first second : Byte) (rest : Bytes) :
    characterTail? (first :: second :: rest) =
      if first = Byte.backslash ∧ second ≠ 0 ∧ second ≠ Byte.newline then
        (escapeCode? 3 rest).map fun code => first :: second :: code ++ [Byte.apostrophe]
      else if first ≠ 0 ∧ first ≠ Byte.newline ∧ second = Byte.apostrophe then
        some [first, second]
      else
        none := by
  simp only [characterTail?, escapeCode?]
  split
  · split <;> rfl
  · rfl

theorem escapeCode?_nil (count : Nat) : escapeCode? count [] = none := by
  simp [escapeCode?]

theorem escapeCode?_zero (text : Bytes) :
    escapeCode? 0 text = if text.head? = some Byte.apostrophe then some [] else none := by
  simp [escapeCode?]

theorem escapeCode?_succ_cons (count : Nat) (byte : Byte) (rest : Bytes) :
    escapeCode? (count + 1) (byte :: rest) =
      if byte = Byte.apostrophe then some []
      else if byte = Byte.newline then none
      else (escapeCode? count rest).map (byte :: ·) := by
  by_cases closes : byte = Byte.apostrophe
  · simp [escapeCode?, closes]
  · by_cases ends : byte = Byte.newline
    · simp [escapeCode?, ends, Byte.newline, Byte.apostrophe]
    · have code : ((byte :: rest).take (count + 1)).takeWhile
            (fun byte => byte != Byte.apostrophe && byte != Byte.newline) =
          byte :: (rest.take count).takeWhile
            (fun byte => byte != Byte.apostrophe && byte != Byte.newline) := by
        simp [closes, ends]
      simp only [escapeCode?, code, List.length_cons, List.drop_succ_cons, closes, ends, if_false]
      split <;> rfl

theorem apostrophe_ne_of_isBlank {byte : Byte} (blank : Byte.isBlank byte = true) :
    byte ≠ Byte.apostrophe := by
  rintro rfl
  cases blank

theorem escapeCode?_eq (count : Nat) (alike : Alike left right) :
    escapeCode? count right = escapeCode? count left := by
  induction alike generalizing count with
  | nil => rfl
  | newline left right =>
      cases count with
      | zero => rfl
      | succ count =>
          rw [escapeCode?_succ_cons, escapeCode?_succ_cons]
          rfl
  | ended right =>
      cases count with
      | zero => rfl
      | succ count =>
          rw [escapeCode?_succ_cons, escapeCode?_nil]
          rfl
  | blank blank _ ih =>
      cases count with
      | zero => simp [escapeCode?_zero, apostrophe_ne_of_isBlank blank]
      | succ count =>
          rw [escapeCode?_succ_cons, ih, escapeCode?_nil, escapeCode?_nil,
            if_neg (apostrophe_ne_of_isBlank blank)]
          simp
  | cons byte _ ih =>
      cases count with
      | zero => rfl
      | succ count => rw [escapeCode?_succ_cons, escapeCode?_succ_cons, ih]

/-- No character literal holds a newline. -/
theorem characterTail?_newline (text : Bytes) : characterTail? (Byte.newline :: text) = none := by
  cases text with
  | nil => rfl
  | cons second rest =>
      rw [characterTail?_cons_cons, if_neg (by simp [Byte.newline, Byte.backslash]),
        if_neg (by simp)]

theorem characterTail?_cons_newline (first : Byte) (text : Bytes) :
    characterTail? (first :: Byte.newline :: text) = none := by
  rw [characterTail?_cons_cons, if_neg (by simp), if_neg (by simp [Byte.newline, Byte.apostrophe])]

theorem characterTail?_cons_blank {first second : Byte} {text : Bytes}
    (blank : Byte.isBlank second = true) (alike : Alike [] text) :
    characterTail? (first :: second :: text) = none := by
  rw [characterTail?_cons_cons, escapeCode?_eq 3 alike, escapeCode?_nil]
  simp [apostrophe_ne_of_isBlank blank]

theorem characterTail?_eq (alike : Alike left right) :
    characterTail? right = characterTail? left := by
  cases alike with
  | nil => rfl
  | newline left right => rw [characterTail?_newline, characterTail?_newline]
  | ended right =>
      rw [characterTail?_newline]
      rfl
  | blank _ alike =>
      cases alike with
      | nil => rfl
      | ended right =>
          rw [characterTail?_cons_newline]
          rfl
      | blank blank alike =>
          rw [characterTail?_cons_blank blank alike]
          rfl
  | cons first alike =>
      cases alike with
      | nil => rfl
      | newline left right => rw [characterTail?_cons_newline, characterTail?_cons_newline]
      | ended right =>
          rw [characterTail?_cons_newline]
          rfl
      | blank blank alike =>
          rw [characterTail?_cons_blank blank alike]
          rfl
      | cons second alike =>
          rw [characterTail?_cons_cons, characterTail?_cons_cons, escapeCode?_eq 3 alike]

/-! ## Strings -/

theorem prefix_raw_stringTail (multiline skipping : Bool) (text : Bytes) :
    (stringTail multiline skipping text).raw <+: text := by
  fun_induction stringTail multiline skipping text with
  | case1 => exact List.nil_prefix
  | case2 _ _ _ _ ih => exact List.prefix_append_right_inj [_] |>.2 ih
  | case3 => exact List.nil_prefix
  | case4 => exact ⟨_, rfl⟩
  | case5 _ _ _ _ _ _ _ ih => exact List.prefix_append_right_inj [_] |>.2 ih
  | case6 => exact ⟨_, rfl⟩
  | case7 _ _ _ _ _ _ _ ih => exact List.prefix_append_right_inj [_, _] |>.2 ih
  | case8 =>
      rename_i ih
      exact List.prefix_append_right_inj [_, _, _, _] |>.2 ih
  | case9 =>
      rename_i ih
      exact List.prefix_append_right_inj [_, _] |>.2 ih
  | case10 =>
      rename_i ih
      exact List.prefix_append_right_inj [_, _] |>.2 ih

theorem raw_ne_nil_of_closed {multiline skipping : Bool} {text : Bytes}
    (closed : (stringTail multiline skipping text).closed = true) :
    (stringTail multiline skipping text).raw ≠ [] := by
  revert closed
  fun_cases stringTail multiline skipping text <;> simp [StringTail.cons]

/-- The raw text of a closed literal starts like the text it was read from. -/
theorem exists_eq_cons_of_raw {multiline skipping : Bool} {text rest other : Bytes} {first : Byte}
    (closed : (stringTail multiline skipping text).closed = true)
    (starts : (stringTail multiline skipping text).raw ++ other = first :: rest) :
    ∃ more raw, text = first :: more ∧ (stringTail multiline skipping text).raw = first :: raw ∧
      rest = raw ++ other := by
  obtain ⟨after, whole⟩ := prefix_raw_stringTail multiline skipping text
  cases found : (stringTail multiline skipping text).raw with
  | nil => exact absurd found (raw_ne_nil_of_closed closed)
  | cons byte raw =>
      rw [found, List.cons_append] at starts whole
      injection starts with same others
      subst same
      exact ⟨raw ++ after, raw, whole.symm, rfl, others.symm⟩

/-- Three digits after a backslash are seen as well in what a closed literal covers. -/
theorem exists_eq_cons_cons_of_raw {multiline : Bool} {text rest other : Bytes}
    {third fourth : Byte} (closed : (stringTail multiline false text).closed = true)
    (starts : (stringTail multiline false text).raw ++ other = third :: fourth :: rest)
    (digit : Byte.isDigit third = true) : ∃ tail, text = third :: fourth :: tail := by
  obtain ⟨more, raw, rfl, found, others⟩ := exists_eq_cons_of_raw closed starts
  have notNewline : (third == Byte.newline && !multiline) = false := by
    have : third ≠ Byte.newline := by
      rintro rfl
      cases digit
    simp [this]
  have notQuote : third ≠ Byte.doubleQuote := by
    rintro rfl
    cases digit
  have notBackslash : third ≠ Byte.backslash := by
    rintro rfl
    cases digit
  have tail := stringTail_plain multiline false more rfl notNewline notQuote notBackslash
  rw [tail] at closed found
  injection found with _ found
  rw [← found] at others
  obtain ⟨last, _, rfl, _⟩ := exists_eq_cons_of_raw closed others.symm
  exact ⟨last, rfl⟩

/-- A string literal ends at its closing quote, whatever follows. -/
theorem stringTail_append {multiline skipping : Bool} {text : Bytes}
    (closed : (stringTail multiline skipping text).closed = true) (other : Bytes) :
    stringTail multiline skipping ((stringTail multiline skipping text).raw ++ other) =
      stringTail multiline skipping text := by
  -- What was read before the closing quote leads to the same cases again; only an escape looks two
  -- bytes ahead, and those two belong to the literal if they are digits.
  have noCode : ∀ (second : Byte) {tail : Bytes}, (stringTail multiline false tail).closed = true →
      (∀ third fourth rest, tail = third :: fourth :: rest →
        (Byte.isDigit second && Byte.isDigit third && Byte.isDigit fourth) = false) →
      ∀ third fourth rest,
        (stringTail multiline false tail).raw ++ other = third :: fourth :: rest →
        (Byte.isDigit second && Byte.isDigit third && Byte.isDigit fourth) = false := by
    intro second tail closed none third fourth rest starts
    cases digit : Byte.isDigit third with
    | false => simp
    | true =>
        obtain ⟨last, rfl⟩ := exists_eq_cons_cons_of_raw closed starts digit
        rw [← digit]
        exact none third fourth last rfl
  fun_induction stringTail multiline skipping text with
  | case1 => cases closed
  | case2 skipping first rest skips ih =>
      show stringTail _ _ (first :: ((stringTail _ _ rest).raw ++ other)) = _
      rw [stringTail.eq_def]
      simp only [skips, if_true, ih closed]
  | case3 => cases closed
  | case4 skipping rest skips ends =>
      show stringTail _ _ (Byte.doubleQuote :: other) = _
      rw [stringTail.eq_def]
      simp [skips, ends]
  | case5 skipping first rest skips ends notQuote notBackslash ih =>
      show stringTail _ _ (first :: ((stringTail _ _ rest).raw ++ other)) = _
      rw [stringTail_plain multiline skipping _ (Bool.eq_false_iff.2 skips)
        (Bool.eq_false_iff.2 ends) notQuote notBackslash, ih closed]
  | case6 => cases closed
  | case7 skipping first skips ends notQuote backslash rest ih =>
      show stringTail _ _ (first :: Byte.newline :: ((stringTail _ _ rest).raw ++ other)) = _
      rw [stringTail.eq_def]
      simp only [if_neg skips, if_neg ends, if_neg notQuote, if_neg backslash, if_true, ih closed]
  | case8 skipping first skips ends notQuote backslash second inLine third fourth tail digits ih =>
      obtain rfl := Classical.not_not.1 backslash
      show stringTail _ _ (Byte.backslash :: second :: third :: fourth ::
        ((stringTail _ _ tail).raw ++ other)) = _
      rw [stringTail_code multiline skipping _ digits, ih closed]
  | case9 skipping first skips ends notQuote backslash second inLine third fourth tail digits ih =>
      obtain rfl := Classical.not_not.1 backslash
      have none := noCode second closed fun _ _ _ same => by
        cases same
        exact Bool.eq_false_iff.2 digits
      show stringTail _ _ (Byte.backslash :: second ::
        ((stringTail _ _ (third :: fourth :: tail)).raw ++ other)) = _
      rw [stringTail_backslash multiline skipping _ inLine none, ih closed]
  | case10 skipping first skips ends notQuote backslash second inLine tail short ih =>
      obtain rfl := Classical.not_not.1 backslash
      have none := noCode second closed fun third fourth rest same =>
        (short third fourth rest same).elim
      show stringTail _ _ (Byte.backslash :: second :: ((stringTail _ _ tail).raw ++ other)) = _
      rw [stringTail_backslash multiline skipping _ inLine none, ih closed]

theorem string_append {multiline : Bool} {rest : Bytes} {lexeme : Lexeme}
    (found : string multiline rest = .ok lexeme) (other : Bytes) :
    string multiline (lexeme.more ++ other) = .ok lexeme := by
  obtain ⟨closed, rfl⟩ := closed_of_string found
  simp only [string, stringTail_append closed, closed, if_true]

/-! ## All lexemes of a source -/

/-- A lexeme of text other than space stays the same if what follows it changes, as long as the line
does not. -/
theorem solid_append {multiline : Bool} {first : Byte} {left right : Bytes} {lexeme : Lexeme}
    (alike : Alike left right) (found : solid multiline first (lexeme.more ++ left) = .ok lexeme) :
    solid multiline first (lexeme.more ++ right) = .ok lexeme := by
  have whole := alike.append lexeme.more
  unfold solid at found ⊢
  rw [whole.takeWhile_eq Byte.isNamePart rfl,
    whole.takeWhile_eq Byte.isNumberPart rfl, whole.takeWhile_eq isPlain rfl,
    character, characterTail?_eq whole, ← character]
  split
  · rw [if_pos ‹_›] at found
    exact found
  rw [if_neg ‹_›] at found
  split
  · rw [if_pos ‹_›] at found
    exact found
  rw [if_neg ‹_›] at found
  split
  · rw [if_pos ‹_›] at found
    exact string_append found right
  rw [if_neg ‹_›] at found
  exact found

/-! ## Lexemes of directive lines -/

theorem takeWhile_append_of_startsAlike {test : Byte → Bool}
    (noSpace : ∀ byte, Byte.isSpace byte = true → test byte = false) {more : Bytes}
    (alike : StartsAlike left right) (ends : (more ++ left).takeWhile test = more) :
    (more ++ right).takeWhile test = more := by
  induction more with
  | nil =>
      cases right with
      | nil => rfl
      | cons byte rest =>
          rw [List.nil_append] at ends ⊢
          refine List.takeWhile_cons_of_neg ?_
          rcases alike with same | ⟨_, ⟨⟩, space⟩
          · obtain ⟨others, rfl⟩ := List.head?_eq_some_iff.1 same.symm
            intro holds
            rw [List.takeWhile_cons_of_pos holds] at ends
            cases ends
          · simp [noSpace byte space]
  | cons byte more ih =>
      rw [List.cons_append, List.takeWhile_cons] at ends ⊢
      split at ends
      · rw [if_pos ‹_›, ih (List.cons.inj ends).2]
      · cases ends

end Lexeme

namespace Token.Op

theorem atHead?_take (text : Bytes) : atHead? (text.take 2) = atHead? text := by
  have same : (fun op : Op => op.spelling.isPrefixOf (text.take 2)) =
      fun op => op.spelling.isPrefixOf text := by
    funext op
    have short : op.spelling.length ≤ 2 := by cases op <;> decide
    rw [Bool.eq_iff_iff, List.isPrefixOf_iff_prefix, List.isPrefixOf_iff_prefix,
      List.prefix_take_iff]
    exact ⟨fun found => found.1, fun found => ⟨found, short⟩⟩
  rw [atHead?, same, atHead?]

/-- No operator is found at a byte that none of them starts with. -/
theorem atHead?_eq_none {byte : Byte} (other : ∀ op ∈ all, op.spelling.head? ≠ some byte)
    (rest : Bytes) : atHead? (byte :: rest) = none := by
  refine List.find?_eq_none.2 fun op member found => other op member ?_
  obtain ⟨first, more, spelling⟩ := List.exists_cons_of_ne_nil op.spelling_ne_nil
  have inText := List.isPrefixOf_iff_prefix.1 found
  rw [spelling] at inText ⊢
  rw [(List.cons_prefix_cons.1 inText).1, List.head?_cons]

/-- An operator looks at one byte after it at most. -/
theorem atHead?_append {op : Op} {left right : Bytes} (alike : Bytes.StartsAlike left right)
    (found : atHead? (op.spelling ++ left) = some op) :
    atHead? (op.spelling ++ right) = some op := by
  have before : ∀ (byte : Byte) (rest others : Bytes),
      atHead? (op.spelling ++ byte :: rest) = atHead? (op.spelling ++ byte :: others) := by
    intro byte rest others
    rw [← atHead?_take, ← atHead?_take (op.spelling ++ byte :: others)]
    obtain ⟨first, more, spelling⟩ := List.exists_cons_of_ne_nil op.spelling_ne_nil
    rw [spelling]
    cases more <;> rfl
  rcases alike with same | ⟨byte, starts, space⟩
  · cases left with
    | nil =>
        rw [List.head?_nil, List.head?_eq_none_iff] at same
        rw [same]
        exact found
    | cons byte rest =>
        obtain ⟨others, rfl⟩ := List.head?_eq_some_iff.1 same
        rw [before byte others rest]
        exact found
  · have apart : ∀ byte, Byte.isSpace byte = true → ∀ op : Op,
        atHead? (op.spelling ++ [byte]) = some op := by
      intro byte space op
      simp only [Byte.isSpace, Byte.isBlank, Bool.or_eq_true, beq_iff_eq] at space
      rcases space with ((rfl | rfl) | rfl) | rfl <;> cases op <;> decide
    obtain ⟨others, rfl⟩ := List.head?_eq_some_iff.1 starts
    rw [before byte others [], apart byte space op]

end Token.Op

namespace Lexeme

/-- A lexeme of a directive line looks at one byte after it at most, and space ends it. -/
theorem inLine_append {first : Byte} {left right : Bytes} {lexeme : Lexeme}
    (alike : Bytes.StartsAlike left right) (found : inLine first (lexeme.more ++ left) = .ok lexeme) :
    inLine first (lexeme.more ++ right) = .ok lexeme := by
  obtain ⟨kind, more⟩ := lexeme
  dsimp only at found ⊢
  have name : ∀ byte, Byte.isSpace byte = true → Byte.isNamePart byte = false := by decide +kernel
  have number : ∀ byte, Byte.isSpace byte = true → Byte.isNumberPart byte = false := by
    decide +kernel
  unfold inLine at found ⊢
  split
  · rw [if_pos ‹_›] at found
    have ends : (more ++ left).takeWhile Byte.isNamePart = more := by
      injection found with found
      injection found
    rw [takeWhile_append_of_startsAlike name alike ends]
    rw [ends] at found
    exact found
  rw [if_neg ‹_›] at found
  split
  · rw [if_pos ‹_›] at found
    exact string_append found right
  rw [if_neg ‹_›] at found
  split
  · rw [if_pos ‹_›] at found
    dsimp only at found ⊢
    have ends : (more ++ left).takeWhile Byte.isNumberPart = more := by
      split at found
      · injection found with found
        injection found
      · cases found
    rw [takeWhile_append_of_startsAlike number alike ends]
    rw [ends] at found
    exact found
  rw [if_neg ‹_›] at found
  split at found
  · rename_i op spelled
    have spelling : op.spelling = first :: more := by
      have inText := List.isPrefixOf_iff_prefix.1 (Token.Op.isPrefixOf_of_atHead? spelled)
      obtain ⟨byte, others, whole⟩ := List.exists_cons_of_ne_nil op.spelling_ne_nil
      rw [whole] at inText found ⊢
      injection found with found
      injection found with _ same
      rw [(List.cons_prefix_cons.1 inText).1, ← same, List.tail_cons]
    have again : Token.Op.atHead? (op.spelling ++ right) = some op := by
      refine Token.Op.atHead?_append alike ?_
      rw [spelling]
      exact spelled
    rw [spelling, List.cons_append] at again
    rw [again]
    exact found
  · split at found
    · rename_i mark
      cases found
      subst mark
      rw [Token.Op.atHead?_eq_none (by decide)]
      rfl
    split at found
    · rename_i mark
      cases found
      subst mark
      rw [Token.Op.atHead?_eq_none (by decide)]
      rfl
    split at found
    · rename_i mark
      cases found
      subst mark
      rw [Token.Op.atHead?_eq_none (by decide)]
      rfl
    · cases found

end Lexeme

namespace Token

open Bytes

/-! ## Directives -/

/-- Whether a line starts a directive is seen on the line. -/
theorem isSome_head?_eq {left right : Bytes} (alike : Bytes.Alike left right) :
    (head? right).isSome = (head? left).isSome := by
  have tails := alike.dropWhile_isBlank
  unfold head?
  dsimp only
  generalize left.dropWhile Byte.isBlank = leftTail at tails
  generalize right.dropWhile Byte.isBlank = rightTail at tails
  cases tails with
  | nil => rfl
  | newline left right => rfl
  | ended right => rfl
  | @blank byte right blank alike =>
      have notHash : byte ≠ Byte.hash := by
        rintro rfl
        cases blank
      simp [notHash]
  | @cons first left right alike =>
      by_cases hash : first = Byte.hash
      · have tail := alike.dropWhile_isBlank
        have word := tail.takeWhile_eq Byte.isLetter rfl
        have digits := tail.takeWhile_eq Byte.isDigit rfl
        have starts : ∀ text : Bytes, (text.head?.map Byte.isDigit).getD false =
            !(text.takeWhile Byte.isDigit).isEmpty := by
          intro text
          cases text with
          | nil => rfl
          | cons byte rest => cases test : Byte.isDigit byte <;> simp [test]
        simp only [hash, if_true, word, starts, digits]
        split
        · rfl
        · simp
      · simp [hash]

end Token

end ScopedMacros
