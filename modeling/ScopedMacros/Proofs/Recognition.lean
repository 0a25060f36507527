import Mathlib.Data.List.Pairwise
import ScopedMacros.Proofs.Coverage
import ScopedMacros.Proofs.LogicalLine
import ScopedMacros.Proofs.Positions

/-!
# Which lines are directives

A `#` starts a directive if it is the first byte of its line that is no blank, if it stands neither in
a string nor in a directive that goes on, and if a directive word or a number comes next.  The word is
read as a run of letters, not as a whole identifier, and this makes a difference exactly where a
directive word is the beginning of a longer identifier.
-/

namespace ScopedMacros

/-! ## Lines -/

namespace Bytes

/-- There are only blanks in the line before the index. -/
def FirstInLine (text : Bytes) (index : Nat) : Prop :=
  ∃ start, text.LineStarts start index ∧ ∀ place, start ≤ place → place < index →
    ∃ byte, text[place]? = some byte ∧ Byte.isBlank byte = true

variable {text raw rest : Bytes} {index : Nat} {byte : Byte}

theorem firstInLine_zero (text : Bytes) : text.FirstInLine 0 :=
  ⟨0, ⟨Nat.le_refl 0, .inl rfl, fun _ _ less => by cases less⟩, fun _ _ less => by cases less⟩

/-- What one more byte does: a newline starts a line, and a blank leaves it without anything else. -/
theorem firstInLine_succ (here : text[index]? = some byte) :
    text.FirstInLine (index + 1) ↔
      byte = Byte.newline ∨ Byte.isBlank byte = true ∧ text.FirstInLine index := by
  have notNewline : ∀ byte : Byte, Byte.isBlank byte = true → byte ≠ Byte.newline := by
    decide +kernel
  constructor
  · rintro ⟨start, starts, blank⟩
    rcases Nat.lt_or_ge index start with past | inside
    · have last : start = index + 1 := Nat.le_antisymm starts.le past
      rcases starts.opens with zero | ⟨before, next, newline⟩
      · omega
      · have same : before = index := by omega
        rw [same, here] at newline
        exact .inl (Option.some.inj newline)
    · obtain ⟨found, same, isBlank⟩ := blank index inside (Nat.lt_succ_self _)
      rw [here] at same
      cases same
      refine .inr ⟨isBlank, start, ⟨inside, starts.opens, fun place begun less => ?_⟩,
        fun place begun less => blank place begun (Nat.lt_succ_of_lt less)⟩
      exact starts.unbroken place begun (Nat.lt_succ_of_lt less)
  · rintro (rfl | ⟨isBlank, start, starts, blank⟩)
    · exact ⟨index + 1, ⟨Nat.le_refl _, .inr ⟨index, rfl, here⟩, fun _ _ _ => by omega⟩,
        fun _ _ _ => by omega⟩
    · refine ⟨start, ⟨Nat.le_succ_of_le starts.le, starts.opens, fun place begun less => ?_⟩,
        fun place begun less => ?_⟩
      all_goals rcases Nat.lt_succ_iff_lt_or_eq.1 less with before | rfl
      · exact starts.unbroken place begun before
      · rw [here]
        simpa using notNewline byte isBlank
      · exact blank place begun before
      · exact ⟨byte, here, isBlank⟩

/-- Whether a line has held nothing but blanks after more bytes. -/
def freshAfter (fresh : Bool) (raw : Bytes) : Bool :=
  raw.foldl (fun fresh byte => byte == Byte.newline || Byte.isBlank byte && fresh) fresh

theorem freshAfter_cons (fresh : Bool) (byte : Byte) (raw : Bytes) :
    freshAfter fresh (byte :: raw) =
      freshAfter (byte == Byte.newline || Byte.isBlank byte && fresh) raw := rfl

theorem freshAfter_append (fresh : Bool) (raw more : Bytes) :
    freshAfter fresh (raw ++ more) = freshAfter (freshAfter fresh raw) more :=
  List.foldl_append

/-- After bytes that stand at an offset. -/
theorem firstInLine_add {offset : Nat} {fresh : Bool} (placed : text.drop offset = raw ++ rest)
    (same : fresh = true ↔ text.FirstInLine offset) :
    freshAfter fresh raw = true ↔ text.FirstInLine (offset + raw.length) := by
  induction raw generalizing offset fresh with
  | nil => exact same
  | cons byte raw ih =>
      have here : text[offset]? = some byte := Token.Tiles.getElem?_of_drop placed
      have later : text.drop (offset + 1) = raw ++ rest := by
        rw [← List.drop_drop, placed]
        rfl
      have step : (byte == Byte.newline || Byte.isBlank byte && fresh) = true ↔
          text.FirstInLine (offset + 1) := by
        rw [firstInLine_succ here, ← same]
        simp
      rw [freshAfter_cons, ih later step, List.length_cons, Nat.add_right_comm, Nat.add_assoc]

theorem freshAfter_blanks (fresh : Bool) (blank : ∀ byte ∈ raw, Byte.isBlank byte = true) :
    freshAfter fresh raw = fresh := by
  have notNewline : ∀ byte : Byte, Byte.isBlank byte = true → (byte == Byte.newline) = false := by
    decide +kernel
  induction raw with
  | nil => rfl
  | cons byte raw ih =>
      obtain ⟨first, others⟩ := List.forall_mem_cons.1 blank
      rw [freshAfter_cons, notNewline byte first, first]
      exact ih others

theorem freshAfter_concat (fresh : Bool) (raw : Bytes) (last : Byte) :
    freshAfter fresh (raw ++ [last]) =
      (last == Byte.newline || Byte.isBlank last && freshAfter fresh raw) :=
  freshAfter_append fresh raw [last]

theorem freshAfter_solid (fresh : Bool) (raw : Bytes) {last : Byte}
    (solid : Byte.isSpace last = false) : freshAfter fresh (raw ++ [last]) = false := by
  simp only [Byte.isSpace, Bool.or_eq_false_iff] at solid
  rw [freshAfter_concat, solid.1, solid.2]
  rfl

/-- Something other than space is seen up to the end of its line. -/
theorem freshAfter_within (fresh : Bool) {first : Byte} (solid : Byte.isSpace first = false)
    (noNewline : Byte.newline ∉ raw) : freshAfter fresh (first :: raw) = false := by
  have stays : freshAfter false raw = false := by
    clear solid
    induction raw with
    | nil => rfl
    | cons byte raw ih =>
        rw [List.mem_cons, not_or] at noNewline
        have other : (byte == Byte.newline) = false := by simpa using Ne.symm noNewline.1
        rw [freshAfter_cons, other, Bool.and_false]
        exact ih noNewline.2
  simp only [Byte.isSpace, Bool.or_eq_false_iff] at solid
  rw [freshAfter_cons, solid.1, solid.2]
  exact stays

/-- A byte is not the first of its line if something other than space stands before it in the line. -/
theorem not_firstInLine_within {offset distance : Nat} {fresh : Bool} {first : Byte}
    (placed : text.drop offset = (first :: raw) ++ rest)
    (same : fresh = true ↔ text.FirstInLine offset) (solid : Byte.isSpace first = false)
    (noNewline : Byte.newline ∉ raw) (inside : distance < raw.length) :
    ¬ text.FirstInLine (offset + (distance + 1)) := by
  have split : text.drop offset = (first :: raw.take distance) ++ (raw.drop distance ++ rest) := by
    rw [placed, List.cons_append, List.cons_append, ← List.append_assoc, List.take_append_drop]
  have stays : Byte.newline ∉ raw.take distance := fun member =>
    noNewline (List.mem_of_mem_take member)
  have length : (first :: raw.take distance).length = distance + 1 := by
    rw [List.length_cons, List.length_take, Nat.min_eq_left (Nat.le_of_lt inside)]
  rw [← length, ← firstInLine_add split same, freshAfter_within fresh solid stays]
  exact Bool.false_ne_true

end Bytes

/-! ## Directive words -/

namespace Bytes

/-- The identifier at the head of a text. -/
def identifier : Bytes → Bytes
  | [] => []
  | first :: rest =>
      if Byte.isNameStart first then first :: rest.takeWhile Byte.isNamePart else []

end Bytes

namespace Directive

/-- The directive that the bytes after a `#` announce: after blanks there is a digit, which stands for
`line`, or a word, which is found in the given way. -/
def announced? (word : Bytes → Bytes) (text : Bytes) : Option Directive :=
  let tail := text.dropWhile Byte.isBlank
  if (tail.head?.map Byte.isDigit).getD false then some .line else ofWord? (word tail)

/-- The word is a whole identifier. -/
def byIdentifier? (text : Bytes) : Option Directive :=
  announced? Bytes.identifier text

/-- The word is a run of letters. -/
def byLetters? (text : Bytes) : Option Directive :=
  announced? (·.takeWhile Byte.isLetter) text

/-- A directive word goes on as a longer identifier. -/
def RunsOn (text : Bytes) : Prop :=
  ∃ (directive : Directive) (byte : Byte) (rest : Bytes),
    text.dropWhile Byte.isBlank = directive.word ++ byte :: rest ∧
      (Byte.isDigit byte = true ∨ byte = Byte.underscore ∨ byte = Byte.apostrophe)

variable {text : Bytes} {directive : Directive}

theorem isLetter_of_mem_word (directive : Directive) :
    ∀ byte ∈ directive.word, Byte.isLetter byte = true := by
  cases directive <;> decide +kernel

theorem isNamePart_iff (byte : Byte) : Byte.isNamePart byte = true ↔ Byte.isLetter byte = true ∨
    (Byte.isDigit byte = true ∨ byte = Byte.underscore ∨ byte = Byte.apostrophe) := by
  simp [Byte.isNamePart, Byte.isNumberPart, or_assoc]

theorem isLetter_of_goesOn (byte : Byte)
    (goesOn : Byte.isDigit byte = true ∨ byte = Byte.underscore ∨ byte = Byte.apostrophe) :
    Byte.isLetter byte = false := by
  revert byte
  decide +kernel

/-- A directive word is found by a class of bytes if the class has all letters and the word ends
where the class does. -/
theorem ofWord?_takeWhile {test : Byte → Bool} (letters : ∀ byte, Byte.isLetter byte = true →
    test byte = true) :
    ofWord? (text.takeWhile test) = some directive ↔
      ∃ rest, text = directive.word ++ rest ∧ ∀ byte ∈ rest.head?, test byte = false := by
  constructor
  · intro found
    refine ⟨text.dropWhile test, ?_, fun byte first => ?_⟩
    · rw [word_of_ofWord? found, List.takeWhile_append_dropWhile]
    · have stops := List.head?_dropWhile_not test text
      rw [first] at stops
      exact stops
  · rintro ⟨rest, rfl, stops⟩
    have inWord : ∀ byte ∈ directive.word, test byte = true :=
      fun byte member => letters byte (directive.isLetter_of_mem_word byte member)
    have ended : rest.takeWhile test = [] := by
      cases rest with
      | nil => rfl
      | cons byte rest => simp [stops byte rfl]
    rw [List.takeWhile_append_of_pos inWord, ended, List.append_nil, ofWord?_word]

theorem ofWord?_identifier (text : Bytes) :
    ofWord? text.identifier = ofWord? (text.takeWhile Byte.isNamePart) := by
  cases text with
  | nil => rfl
  | cons first rest =>
      rw [Bytes.identifier]
      split
      · next starts =>
          have inName : Byte.isNamePart first = true := by
            simp only [Byte.isNameStart, Bool.or_eq_true] at starts
            rcases starts with letter | underscore
            · simp [Byte.isNamePart, Byte.isNumberPart, letter]
            · simp [Byte.isNamePart, Byte.isNumberPart, underscore]
          rw [List.takeWhile_cons_of_pos inName]
      · next starts =>
          cases found : ofWord? ((first :: rest).takeWhile Byte.isNamePart) with
          | none => rfl
          | some directive =>
              -- A directive word starts with a letter.
              have held := word_of_ofWord? found
              have letters := directive.isLetter_of_mem_word
              rw [held] at letters
              rw [List.takeWhile_cons] at held letters
              split at held
              · next inName =>
                  rw [if_pos inName] at letters
                  have letter := letters first (by simp)
                  simp [Byte.isNameStart, letter] at starts
              · cases directive <;> cases held

theorem not_runsOn_of_digit
    (digit : ((text.dropWhile Byte.isBlank).head?.map Byte.isDigit).getD false = true) :
    ¬ RunsOn text := by
  rintro ⟨directive, byte, rest, whole, _⟩
  rw [whole] at digit
  cases directive <;> cases digit

/-- A directive is announced by an identifier if it is announced by letters and they do not go on. -/
theorem isSome_byIdentifier? (text : Bytes) :
    (byIdentifier? text).isSome = true ↔ (byLetters? text).isSome = true ∧ ¬ RunsOn text := by
  unfold byIdentifier? byLetters? announced?
  dsimp only
  split
  · next digit => simpa using not_runsOn_of_digit digit
  rw [ofWord?_identifier, Option.isSome_iff_exists, Option.isSome_iff_exists]
  have inName : ∀ byte, Byte.isLetter byte = true → Byte.isNamePart byte = true :=
    fun byte letter => (isNamePart_iff byte).2 (.inl letter)
  simp only [ofWord?_takeWhile inName, ofWord?_takeWhile fun _ letter => letter]
  constructor
  · rintro ⟨directive, rest, whole, stops⟩
    have ended : ∀ byte ∈ rest.head?, Byte.isLetter byte = false := by
      intro byte first
      have outside := stops byte first
      refine Bool.eq_false_iff.2 fun letter => ?_
      rw [inName byte letter] at outside
      cases outside
    refine ⟨⟨directive, rest, whole, ended⟩, ?_⟩
    rintro ⟨other, byte, more, same, goesOn⟩
    have noLetter : ∀ first ∈ (byte :: more).head?, Byte.isLetter first = false := by
      rintro first ⟨⟩
      exact isLetter_of_goesOn byte goesOn
    have one := (ofWord?_takeWhile fun _ letter => letter).2 ⟨rest, whole, ended⟩
    have two := (ofWord?_takeWhile fun _ letter => letter).2 ⟨byte :: more, same, noLetter⟩
    obtain rfl := Option.some.inj (one.symm.trans two)
    obtain rfl := List.append_cancel_left (whole.symm.trans same)
    have outside := stops byte rfl
    rw [(isNamePart_iff byte).2 (.inr goesOn)] at outside
    cases outside
  · rintro ⟨⟨directive, rest, whole, stops⟩, wholly⟩
    refine ⟨directive, rest, whole, fun byte first => Bool.eq_false_iff.2 fun inside => ?_⟩
    rcases (isNamePart_iff byte).1 inside with letter | goesOn
    · rw [stops byte first] at letter
      cases letter
    · obtain ⟨more, rfl⟩ := List.head?_eq_some_iff.1 first
      exact wholly ⟨directive, byte, more, whole, goesOn⟩

end Directive

/-! ## Places in a source -/

namespace Cursor

/-- The cursor stands in the text where its offset says, and no offset wraps. -/
structure StandsIn (text : Bytes) (cursor : Cursor) : Prop where
  small : cursor.Small
  left : text.drop cursor.offset = cursor.rest

variable {text raw rest : Bytes} {cursor stop : Cursor}

theorem StandsIn.advance (stands : StandsIn text cursor) (left : cursor.rest = raw ++ rest) :
    StandsIn text (cursor.advance raw) := by
  refine ⟨small_advance stands.small left, ?_⟩
  rw [offset_advance stands.small left, rest_advance left, ← List.drop_drop, stands.left, left,
    List.drop_left]

theorem StandsIn.passes (stands : StandsIn text cursor) (passes : Passes cursor stop) :
    StandsIn text stop ∧ cursor.offset ≤ stop.offset := by
  obtain ⟨raw, ⟨rest, whole⟩, rfl⟩ := passes
  refine ⟨stands.advance whole.symm, ?_⟩
  rw [offset_advance stands.small whole.symm]
  exact Nat.le_add_right _ _

end Cursor

namespace Token

open Cursor

variable {text : Bytes} {cursor next : Cursor} {index : Nat}

/-- The start of a directive line announces its directive. -/
theorem announced_of_head? {head : Head} (found : head? text = some head) :
    ∃ rest more, text = head.blanks ++ Byte.hash :: rest ∧ head.raw = Byte.hash :: more ∧
      (∀ byte ∈ head.blanks, Byte.isBlank byte = true) ∧
      Directive.byLetters? rest = some head.directive := by
  have whole := List.takeWhile_append_dropWhile (p := Byte.isBlank) (l := text)
  unfold head? at found
  split at found
  · cases found
  · next first rest tail =>
      rw [tail] at whole
      have blank : ∀ byte ∈ text.takeWhile Byte.isBlank, Byte.isBlank byte = true :=
        fun byte member => List.mem_takeWhile_imp member
      split at found
      · next hash =>
          subst hash
          dsimp only at found
          unfold Directive.byLetters? Directive.announced?
          dsimp only
          split at found
          · next digit =>
              cases found
              exact ⟨rest, _, whole.symm, rfl, blank, if_pos digit⟩
          · next digit =>
              obtain ⟨directive, named, rfl⟩ := Option.map_eq_some_iff.1 found
              exact ⟨rest, _, whole.symm, rfl, blank, (if_neg digit).trans named⟩
      · cases found

/-- A `#` that does not start a directive line announces nothing. -/
theorem byLetters?_of_head?_none {rest : Bytes} (none : head? (Byte.hash :: rest) = none) :
    Directive.byLetters? rest = .none := by
  have notBlank : Byte.isBlank Byte.hash = false := rfl
  simp only [head?, List.dropWhile_cons, notBlank, Bool.false_eq_true, if_false, if_true] at none
  unfold Directive.byLetters? Directive.announced?
  dsimp only
  split at none
  · cases none
  · next digit =>
      rw [if_neg digit]
      simpa using none

end Token

/-! ## Where a `#` can stand -/

namespace Lexeme

variable {first : Byte} {rest : Bytes} {lexeme : Lexeme}

theorem freshAfter_inSource (lexed : inSource first rest = .ok lexeme) (fresh : Bool) :
    Token.freshAfter fresh first lexeme = Bytes.freshAfter fresh (first :: lexeme.more) := by
  unfold Token.freshAfter
  rcases inSource_cases lexed with ⟨space, all, last⟩ | ⟨isSolid, solid, notNewline, notBlank⟩
  · rw [space, last]
    cases broken : (first :: lexeme.more).contains Byte.newline with
    | true =>
        rw [broken] at last
        obtain ⟨front, whole⟩ := List.getLast?_eq_some_iff.1 (by simpa using last)
        rw [whole, Bytes.freshAfter_concat]
        simp
    | false =>
        have blank : ∀ byte ∈ first :: lexeme.more, Byte.isBlank byte = true := by
          intro byte member
          have isSpace := all byte member
          simp only [Byte.isSpace, Bool.or_eq_true, beq_iff_eq] at isSpace
          refine isSpace.resolve_right fun newline => ?_
          subst newline
          simp [member] at broken
        rw [Bytes.freshAfter_blanks fresh blank]
        simp
  · have starts : Byte.isSpace first = false := by simp [Byte.isSpace, notBlank, notNewline]
    obtain ⟨front, last, whole, ends⟩ := exists_last_of_solid starts solid
    rw [whole, Bytes.freshAfter_solid fresh front ends]
    simp [ne_space_of_isSolid isSolid]

/-- A `#` in text other than space is in a string, or in something that stays in its line. -/
theorem kind_of_hash_mem (lexed : solid true first rest = .ok lexeme)
    (notNewline : first ≠ Byte.newline) (member : Byte.hash ∈ first :: lexeme.more) :
    (∃ value, lexeme.kind = .string value) ∨
      (lexeme.kind = .text ∨ lexeme.kind = .character) ∧ Byte.newline ∉ lexeme.more := by
  -- A run of bytes of a class has no `#` if neither its first byte nor the class has one.
  have run : ∀ {test : Byte → Bool}, first ≠ Byte.hash → test Byte.hash = false →
      Byte.hash ∉ first :: rest.takeWhile test := by
    intro test other outside member
    rcases List.mem_cons.1 member with same | member
    · exact other same.symm
    · exact Bytes.not_mem_takeWhile outside rest member
  unfold solid at lexed
  split at lexed
  · next starts =>
      cases lexed
      refine absurd member (run ?_ rfl)
      rintro rfl
      cases starts
  split at lexed
  · next digit =>
      cases lexed
      refine absurd member (run ?_ rfl)
      rintro rfl
      cases digit
  split at lexed
  · obtain ⟨_, rfl⟩ := closed_of_string lexed
    exact .inl ⟨_, rfl⟩
  split at lexed
  · cases lexed
    refine .inr ?_
    unfold character
    split
    · next literal => exact ⟨.inr rfl, newline_not_mem_characterTail? literal⟩
    · exact ⟨.inl rfl, by simp⟩
  iterate 3
    split at lexed
    · next mark =>
        cases lexed
        rw [List.mem_singleton, mark] at member
        cases member
  · cases lexed
    exact .inr ⟨.inl rfl, Bytes.newline_not_mem_takeWhile rfl rest⟩

end Lexeme

namespace Token

open Cursor

/-- Where a `#` stands among the items of a source. -/
inductive Sorted (text : Bytes) (items : List Item) (index : Nat) : Prop where
  | word {word stop : Token} {arguments : List Token} {directive : Directive}
      (member : .line word arguments stop ∈ items) (begins : word.begins = index)
      (first : text.FirstInLine index)
      (announced : Directive.byLetters? (text.drop (index + 1)) = some directive)
      (named : word.text = directive.word)
  | inside {word stop : Token} {arguments : List Token}
      (member : .line word arguments stop ∈ items) (after : word.begins < index)
      (before : index < stop.begins)
  | string {token : Token} {value : Bytes} (member : .text token ∈ items)
      (kind : token.kind = .string value) (holds : token.Holds index)
  | text {token : Token} (member : .text token ∈ items)
      (kind : token.kind = .text ∨ token.kind = .character) (holds : token.Holds index)
      (other : text.FirstInLine index → Directive.byLetters? (text.drop (index + 1)) = none)

variable {text : Bytes} {cursor next : Cursor} {index : Nat} {items : List Item}

theorem Sorted.cons (item : Item) (sorted : Sorted text items index) :
    Sorted text (item :: items) index := by
  cases sorted with
  | word member begins first announced named =>
      exact .word (List.mem_cons_of_mem _ member) begins first announced named
  | inside member after before => exact .inside (List.mem_cons_of_mem _ member) after before
  | string member kind holds => exact .string (List.mem_cons_of_mem _ member) kind holds
  | text member kind holds other => exact .text (List.mem_cons_of_mem _ member) kind holds other

/-- A `#` in a token of text. -/
theorem sorted_text {fresh : Bool} {first : Byte} {rest : Bytes} {lexeme : Lexeme}
    (stands : StandsIn text cursor) (noHead : fresh = true → head? cursor.rest = none)
    (left : cursor.rest = first :: rest) (lexed : Lexeme.inSource first rest = .ok lexeme)
    (line : fresh = true ↔ text.FirstInLine cursor.offset) (start : cursor.offset ≤ index)
    (stop : index < cursor.offset + (first :: lexeme.more).length)
    (here : text[index]? = some Byte.hash) :
    Sorted text (.text (cursor.token first lexeme) :: items) index := by
  obtain ⟨after, whole⟩ := Lexeme.prefix_inSource lexed
  have left' : cursor.rest = (first :: lexeme.more) ++ after := by
    rw [left, ← whole]
    rfl
  have placed : text.drop cursor.offset = (first :: lexeme.more) ++ after := stands.left.trans left'
  obtain ⟨distance, rfl⟩ := Nat.exists_eq_add_of_le start
  have inside : distance < (first :: lexeme.more).length := by omega
  have isHash : (first :: lexeme.more)[distance]? = some Byte.hash := by
    rw [← List.getElem?_append_left inside, ← placed, List.getElem?_drop, here]
  have holds : (cursor.token first lexeme).Holds (cursor.offset + distance) := by
    refine ⟨start, ?_⟩
    have ends : (cursor.token first lexeme).ends =
        (cursor.advance (first :: lexeme.more)).offset := rfl
    rw [ends, offset_advance stands.small left']
    exact stop
  have member := List.mem_of_getElem? isHash
  rcases Lexeme.inSource_cases lexed with ⟨_, all, _⟩ | ⟨_, solid, notNewline, notBlank⟩
  · cases all Byte.hash member
  rcases Lexeme.kind_of_hash_mem solid notNewline member with ⟨value, kind⟩ | ⟨kind, noNewline⟩
  · exact .string (by simp) kind holds
  refine .text (by simp) kind holds fun isFirst => ?_
  cases distance with
  | zero =>
      have isFresh : fresh = true := line.2 isFirst
      have headNone := noHead isFresh
      have same : first = Byte.hash := by simpa using isHash
      rw [left, same] at headNone
      have rest' : text.drop (cursor.offset + 1) = rest := by
        rw [← List.drop_drop, stands.left, left]
        rfl
      rw [Nat.add_zero, rest']
      exact byLetters?_of_head?_none headNone
  | succ distance =>
      have starts : Byte.isSpace first = false := by simp [Byte.isSpace, notBlank, notNewline]
      refine absurd isFirst (Bytes.not_firstInLine_within placed line starts noNewline ?_)
      exact Nat.lt_of_succ_lt_succ inside

/-- A directive line ends at a newline or with the source, and the next line starts after it. -/
theorem standsIn_nextLine {directive : Directive} {tokens : List Token} {stop : Cursor}
    (stands : StandsIn text stop) (ended : stop.inLine? = none)
    (read : nextLine directive tokens stop = .ok next) :
    StandsIn text next ∧ (next.rest ≠ [] → text.FirstInLine next.offset) ∧
      ∀ index, stop.offset ≤ index → index < next.offset → text[index]? = some Byte.newline := by
  obtain ⟨newline, rest, left, taken, kind⟩ := ended_of_inLine? ended
  obtain ⟨sameOffset, sameRest⟩ := offset_nextLine read
  have moved := stands.advance left
  rw [taken] at sameOffset sameRest
  have stands' : StandsIn text next := by
    refine ⟨?_, ?_⟩
    · rw [Cursor.Small, sameOffset, sameRest]
      exact moved.small
    · rw [sameOffset, sameRest]
      exact moved.left
  rw [rest_advance left] at sameRest
  rw [offset_advance stands.small left] at sameOffset
  rcases kind with rfl | ⟨rfl, rfl⟩
  · have here : text[stop.offset]? = some Byte.newline :=
      Tiles.getElem?_of_drop (stands.left.trans left)
    rw [List.length_singleton] at sameOffset
    refine ⟨stands', fun _ => ?_, fun index start stop => ?_⟩
    · rw [sameOffset]
      exact (Bytes.firstInLine_succ here).2 (.inl rfl)
    · have same : index = _ := Nat.le_antisymm (by omega) start
      rw [same]
      exact here
  · refine ⟨stands', fun left => absurd sameRest left, fun index start stop => ?_⟩
    rw [sameOffset] at stop
    exact absurd start (Nat.not_le.2 stop)

/-- A `#` in a directive line, or before it. -/
theorem sorted_line {head : Head} {stop : Cursor} {inner : List Token}
    (stands : StandsIn text cursor) (found : head? cursor.rest = some head)
    (read : Line head cursor inner stop next) (line : text.FirstInLine cursor.offset) :
    StandsIn text next ∧ (next.rest ≠ [] → text.FirstInLine next.offset) ∧
      ∀ index, cursor.offset ≤ index → index < next.offset → text[index]? = some Byte.hash →
        Sorted text (.line (head.word cursor) inner (stop.point .lineEnd) :: items) index := by
  obtain ⟨rest, more, left, raw, blank, announced⟩ := announced_of_head? found
  have trail := read.trail
  have standsWord := stands.advance left
  have moved := offset_advance stands.small left
  have atHash := rest_advance left
  have raw : Passes (cursor.advance head.blanks) ((cursor.advance head.blanks).advance head.raw) := by
    refine ⟨head.raw, ?_, rfl⟩
    have front := prefix_head? found
    rw [left] at front
    rw [atHash]
    exact (List.prefix_append_right_inj _).1 front
  obtain ⟨standsStop, _⟩ := standsWord.passes (raw.trans trail.passes)
  obtain ⟨standsNext, starts, newline⟩ := standsIn_nextLine standsStop trail.ended read.following
  refine ⟨standsNext, starts, fun index start stop here => ?_⟩
  have placed : text.drop cursor.offset = head.blanks ++ Byte.hash :: rest := stands.left.trans left
  rcases Nat.lt_trichotomy index (cursor.offset + head.blanks.length) with before | rfl | after
  · obtain ⟨byte, same, isBlank⟩ := Tiles.blank_of_drop placed blank start before
    rw [here] at same
    cases same
    cases isBlank
  · have isFresh : true = true ↔ text.FirstInLine cursor.offset := ⟨fun _ => line, fun _ => rfl⟩
    have first := (Bytes.firstInLine_add placed isFresh).1 (Bytes.freshAfter_blanks true blank)
    have tail : text.drop (cursor.offset + head.blanks.length + 1) = rest := by
      rw [← List.drop_drop, ← moved, standsWord.left, atHash]
      rfl
    rw [← tail] at announced
    exact .word List.mem_cons_self moved first announced rfl
  · refine .inside List.mem_cons_self (moved.trans_lt after) (Nat.lt_of_not_le fun past => ?_)
    have isNewline := newline index past stop
    rw [here] at isNewline
    cases isNewline

/-- Every `#` of what is left of a source has its place among the items. -/
theorem Laid.sorted {fresh : Bool} (laid : Laid fresh cursor items) (stands : StandsIn text cursor)
    (line : cursor.rest ≠ [] → (fresh = true ↔ text.FirstInLine cursor.offset)) :
    ∀ index, cursor.offset ≤ index → text[index]? = some Byte.hash → Sorted text items index := by
  induction laid with
  | stop fresh ended =>
      intro index start here
      have left := stands.left
      rw [ended, List.drop_eq_nil_iff] at left
      have inText := (List.getElem?_eq_some_iff.1 here).1
      omega
  | @text fresh cursor first rest lexeme items noHead left lexed laid ih =>
      intro index start here
      obtain ⟨after, whole⟩ := Lexeme.prefix_inSource lexed
      have split : cursor.rest = (first :: lexeme.more) ++ after := by
        rw [left, ← whole]
        rfl
      have fresh' := line (by simp [left])
      rcases Nat.lt_or_ge index (cursor.offset + (first :: lexeme.more).length) with inside | past
      · exact sorted_text stands noHead left lexed fresh' start inside here
      · have moved := offset_advance stands.small split
        refine (ih (stands.advance split) (fun _ => ?_) index (moved ▸ past) here).cons _
        rw [Lexeme.freshAfter_inSource lexed, moved]
        exact Bytes.firstInLine_add (stands.left.trans split) fresh'
  | @line cursor stop next head inner items found read laid ih =>
      have nonempty : cursor.rest ≠ [] := by
        intro empty
        rw [empty] at found
        cases found
      obtain ⟨standsNext, starts, sorted⟩ := sorted_line stands found read ((line nonempty).1 rfl)
      intro index start here
      rcases Nat.lt_or_ge index next.offset with inside | past
      · exact sorted index start inside here
      · exact (ih standsNext (fun left => by simpa using starts left) index past here).cons _

/-! ## Directives of a source -/

/-- A directive starts at the index. -/
def StartsDirective (tokens : List Token) (index : Nat) : Prop :=
  ∃ token ∈ tokens, token.kind = .directive ∧ token.begins = index

/-- The byte at the index stands in a string. -/
def InString (tokens : List Token) (index : Nat) : Prop :=
  ∃ token ∈ tokens, ∃ value, token.kind = .string value ∧ token.Holds index

/-- The byte at the index stands in a directive, after its `#` and before the end of its last line. -/
def InDirective (tokens : List Token) (index : Nat) : Prop :=
  ∃ word arguments stop, .line word arguments stop ∈ Item.ofTokens tokens ∧
    word.begins < index ∧ index < stop.begins

/-- A `#` at the index is the first byte of its line other than blanks, outside strings and other
directives, and by the given rule the bytes after it announce a directive. -/
def Announces (rule : Bytes → Option Directive) (text : Bytes) (tokens : List Token) (index : Nat) :
    Prop :=
  text.FirstInLine index ∧ ¬ InString tokens index ∧ ¬ InDirective tokens index ∧
    (rule (text.drop (index + 1))).isSome = true

/-- What is recognised as a directive among the tokens of a source. -/
structure Recognises (text : Bytes) (tokens : List Token) : Prop where
  /-- A directive starts with a `#`, and it has for a text the word that comes next. -/
  named : ∀ token ∈ tokens, token.kind = .directive →
    text[token.begins]? = some Byte.hash ∧ ∃ directive,
      Directive.byLetters? (text.drop (token.begins + 1)) = some directive ∧
        token.text = directive.word
  starts : ∀ index, text[index]? = some Byte.hash →
    (StartsDirective tokens index ↔ Announces Directive.byLetters? text tokens index)
  /-- Every other `#` outside strings and directives is in a token of text or in a character. -/
  others : ∀ index, text[index]? = some Byte.hash → ¬ StartsDirective tokens index →
    ¬ InString tokens index → ¬ InDirective tokens index →
      ∃ token ∈ tokens, (token.kind = .text ∨ token.kind = .character) ∧ token.Holds index
  /-- Directives are announced by whole identifiers, except where a directive word runs on. -/
  wholly : ∀ index, text[index]? = some Byte.hash →
    ((StartsDirective tokens index ↔ Announces Directive.byIdentifier? text tokens index) ↔
      ¬ (Announces Directive.byLetters? text tokens index ∧
        Directive.RunsOn (text.drop (index + 1))))

variable {zone : Zone} {offset : Nat} {rest : Bytes} {tokens : List Token}

/-- One of the tokens ends before the other one begins. -/
def Disjoint (first second : Token) : Prop :=
  first.ends ≤ second.begins ∨ second.ends ≤ first.begins

instance : Std.Symm Disjoint :=
  ⟨fun _ _ => Or.symm⟩

/-- Two tokens of a source do not overlap. -/
theorem Tiles.disjoint (tiles : Tiles zone offset rest tokens) {first second : Token}
    (one : first ∈ tokens) (two : second ∈ tokens) (different : first ≠ second) :
    Disjoint first second := by
  have either : tokens.Pairwise Disjoint := tiles.pairwise.imp .inl
  exact either.forall one two different

/-- A token stands outside a directive line, or it is one of its tokens. -/
theorem Tiles.apart_line (tiles : Tiles zone offset rest tokens) {items : List Item}
    {word stop last : Token} {arguments : List Token}
    (same : tokens = items.flatMap Item.tokens ++ [last])
    (line : .line word arguments stop ∈ items) {token : Token} (member : token ∈ tokens) :
    token ∈ word :: arguments ++ [stop] ∨ token.ends ≤ word.begins ∨ stop.ends ≤ token.begins := by
  obtain ⟨front, back, rfl⟩ := List.append_of_mem line
  have split : tokens = front.flatMap Item.tokens ++
      ((word :: arguments ++ [stop]) ++ (back.flatMap Item.tokens ++ [last])) := by
    rw [same]
    simp [Item.tokens]
  have ordered := tiles.pairwise
  rw [split] at ordered member
  obtain ⟨_, later, beforeAll⟩ := List.pairwise_append.1 ordered
  obtain ⟨_, _, afterAll⟩ := List.pairwise_append.1 later
  rcases List.mem_append.1 member with before | member
  · exact .inr (.inl (beforeAll _ before _ (by simp)))
  rcases List.mem_append.1 member with inside | after
  · exact .inl inside
  · exact .inr (.inr (afterAll _ (by simp) _ after))

/-- A directive starts with a `#` and is not empty. -/
theorem Tiles.hash_of_directive {text : Bytes} (tiles : Tiles .text 0 text tokens) {token : Token}
    (member : token ∈ tokens) (kind : token.kind = .directive) :
    text[token.begins]? = some Byte.hash ∧ token.begins < token.ends := by
  obtain ⟨before, after, split⟩ := List.append_of_mem member
  have writes := tiles.writes_at rfl before token after split
  rw [Writes, kind] at writes
  obtain ⟨_, gap, _, raw⟩ := writes
  obtain ⟨more, held⟩ : ∃ more, text.extract token.begins token.ends = Byte.hash :: more := by
    rcases raw with raw | ⟨raw, _⟩
    · exact ⟨_, raw⟩
    · exact ⟨_, raw⟩
  rw [List.extract_eq_take_drop] at held
  constructor
  · obtain ⟨tail, whole⟩ := List.take_prefix (token.ends - token.begins) (text.drop token.begins)
    rw [held] at whole
    exact getElem?_of_drop whole.symm
  · refine Nat.lt_of_not_le fun le => ?_
    rw [Nat.sub_eq_zero_of_le le] at held
    cases held

/-- The tokens tile the text, and every `#` of the text has its place among their items. -/
structure Surveyed (text : Bytes) (tokens : List Token) : Prop where
  tiles : Tiles .text 0 text tokens
  whole : ∃ last, tokens = (Item.ofTokens tokens).flatMap Item.tokens ++ [last]
  proper : ∀ item ∈ Item.ofTokens tokens, item.Proper
  sorted : ∀ index, text[index]? = some Byte.hash → Sorted text (Item.ofTokens tokens) index

theorem surveyed_of_scan {file text : Bytes} (scanned : scan file text = .ok tokens)
    (short : text.length < UInt32.size) : Surveyed text tokens := by
  obtain ⟨last, same, ended, laid⟩ := exists_stop_of_scan scanned
  have stands : StandsIn text ⟨.first file, text⟩ := by
    refine ⟨?_, rfl⟩
    change 0 + text.length < UInt32.size
    omega
  refine ⟨tiles_scan scanned short, ⟨last, same⟩, laid.proper, fun index here => ?_⟩
  refine laid.sorted stands (fun _ => ?_) index (Nat.zero_le _) here
  exact ⟨fun _ => Bytes.firstInLine_zero text, fun _ => rfl⟩

namespace Surveyed

variable {token : Token} {word stop : Token} {arguments : List Token}

theorem mem_of_item (surveyed : Surveyed text tokens) {item : Item}
    (member : item ∈ Item.ofTokens tokens) (inItem : token ∈ item.tokens) : token ∈ tokens := by
  obtain ⟨last, same⟩ := surveyed.whole
  rw [same]
  exact List.mem_append_left _ (List.mem_flatMap.2 ⟨item, member, inItem⟩)

theorem mem_text (surveyed : Surveyed text tokens) (member : .text token ∈ Item.ofTokens tokens) :
    token ∈ tokens :=
  surveyed.mem_of_item member (by simp [Item.tokens])

theorem mem_word (surveyed : Surveyed text tokens)
    (member : .line word arguments stop ∈ Item.ofTokens tokens) :
    word ∈ tokens ∧ word.kind = .directive :=
  ⟨surveyed.mem_of_item member (by simp [Item.tokens]), (surveyed.proper _ member).1⟩

/-- Only the directive itself holds the `#` that it starts with. -/
theorem not_holds (surveyed : Surveyed text tokens) (member : token ∈ tokens)
    (kind : token.kind = .directive) {other : Token} (inTokens : other ∈ tokens)
    (different : token ≠ other) : ¬ other.Holds token.begins := by
  rintro ⟨start, stop⟩
  have filled := (surveyed.tiles.hash_of_directive member kind).2
  rcases surveyed.tiles.disjoint member inTokens different with before | after <;> omega

theorem not_inString (surveyed : Surveyed text tokens) (member : token ∈ tokens)
    (kind : token.kind = .directive) : ¬ InString tokens token.begins := by
  rintro ⟨other, inTokens, value, isString, holds⟩
  refine surveyed.not_holds member kind inTokens ?_ holds
  rintro rfl
  rw [kind] at isString
  cases isString

/-- No directive starts inside another one. -/
theorem not_inDirective (surveyed : Surveyed text tokens) (member : token ∈ tokens)
    (kind : token.kind = .directive) : ¬ InDirective tokens token.begins := by
  rintro ⟨word, arguments, stop, line, after, before⟩
  obtain ⟨last, same⟩ := surveyed.whole
  obtain ⟨_, inside, isEnd⟩ := surveyed.proper _ line
  have stopUpright := (surveyed.tiles.bounds stop
    (surveyed.mem_of_item line (by simp [Item.tokens]))).2
  have upright := (surveyed.tiles.bounds token member).2
  rcases surveyed.tiles.apart_line same line member with inLine | earlier | later
  · rcases List.mem_append.1 inLine with inLine | isStop
    · rcases List.mem_cons.1 inLine with rfl | among
      · omega
      · exact (Builder.kind_ne_of_inside (inside token among)).1 kind
    · rw [List.mem_singleton.1 isStop, isEnd] at kind
      cases kind
  · omega
  · omega

/-- A directive is the first thing in its line, and it is announced by letters. -/
theorem announced (surveyed : Surveyed text tokens) (member : token ∈ tokens)
    (kind : token.kind = .directive) : text.FirstInLine token.begins ∧ ∃ directive,
      Directive.byLetters? (text.drop (token.begins + 1)) = some directive ∧
        token.text = directive.word := by
  obtain ⟨here, filled⟩ := surveyed.tiles.hash_of_directive member kind
  cases surveyed.sorted token.begins here with
  | @word word stop arguments directive inItems begins first announced named =>
      obtain ⟨inTokens, isDirective⟩ := surveyed.mem_word inItems
      have same : token = word := by
        refine Classical.byContradiction fun different => ?_
        have filledWord := (surveyed.tiles.hash_of_directive inTokens isDirective).2
        rcases surveyed.tiles.disjoint member inTokens different with before | after <;> omega
      subst same
      exact ⟨first, directive, announced, named⟩
  | inside inItems after before =>
      exact absurd ⟨_, _, _, inItems, after, before⟩ (surveyed.not_inDirective member kind)
  | string inItems isString holds =>
      exact absurd ⟨_, surveyed.mem_text inItems, _, isString, holds⟩
        (surveyed.not_inString member kind)
  | @text other inItems isText holds _ =>
      refine absurd holds (surveyed.not_holds member kind (surveyed.mem_text inItems) ?_)
      rintro rfl
      rw [kind] at isText
      simp at isText

/-- A directive starts at a `#` where letters announce one. -/
theorem starts_iff (surveyed : Surveyed text tokens) (here : text[index]? = some Byte.hash) :
    StartsDirective tokens index ↔ Announces Directive.byLetters? text tokens index := by
  constructor
  · rintro ⟨token, member, kind, rfl⟩
    obtain ⟨first, directive, announced, _⟩ := surveyed.announced member kind
    exact ⟨first, surveyed.not_inString member kind, surveyed.not_inDirective member kind,
      by simp [announced]⟩
  · rintro ⟨first, noString, noDirective, announced⟩
    cases surveyed.sorted index here with
    | word inItems begins _ _ _ =>
        obtain ⟨inTokens, isDirective⟩ := surveyed.mem_word inItems
        exact ⟨_, inTokens, isDirective, begins⟩
    | inside inItems after before => exact absurd ⟨_, _, _, inItems, after, before⟩ noDirective
    | string inItems isString holds =>
        exact absurd ⟨_, surveyed.mem_text inItems, _, isString, holds⟩ noString
    | text inItems isText holds other =>
        rw [other first] at announced
        cases announced

end Surveyed

/-- What scanning recognises as a directive, for every `#` of a source whose offsets do not wrap. -/
theorem scan_recognises_directives {file text : Bytes} {tokens : List Token}
    (short : text.length < UInt32.size) (scanned : scan file text = .ok tokens) :
    Recognises text tokens := by
  have surveyed := surveyed_of_scan scanned short
  refine ⟨fun token member kind => ?_, fun index here => surveyed.starts_iff here,
    fun index here noStart noString noDirective => ?_, fun index here => ?_⟩
  · exact ⟨(surveyed.tiles.hash_of_directive member kind).1, (surveyed.announced member kind).2⟩
  · cases surveyed.sorted index here with
    | word inItems begins _ _ _ =>
        obtain ⟨inTokens, isDirective⟩ := surveyed.mem_word inItems
        exact absurd ⟨_, inTokens, isDirective, begins⟩ noStart
    | inside inItems after before => exact absurd ⟨_, _, _, inItems, after, before⟩ noDirective
    | string inItems isString holds =>
        exact absurd ⟨_, surveyed.mem_text inItems, _, isString, holds⟩ noString
    | text inItems isText holds other => exact ⟨_, surveyed.mem_text inItems, isText, holds⟩
  · rw [surveyed.starts_iff here, Announces, Announces, Directive.isSome_byIdentifier?]
    tauto

/-- A directive that goes on, a string over two lines, words that are no directives, and a number. -/
def hashedSource : Bytes :=
  bytes " # define A \"#\" \\\n #undef B\n\"x\n#if\" #\n#foo '#' #\n\t#7\n#endif_\n"

theorem scan_recognises_hashedSource : ∃ tokens, scan [] hashedSource = .ok tokens ∧
    Recognises hashedSource tokens := by
  obtain ⟨tokens, scanned⟩ := exists_eq_ok_of_isOk
    (show (scan [] hashedSource).isOk = true by decide +kernel)
  exact ⟨tokens, scanned, scan_recognises_directives (by decide +kernel) scanned⟩

/-- A directive word at the head of a longer identifier starts a directive. -/
theorem scan_cuts_longer_identifier :
    ∃ tokens, scan (bytes "t.pp") (bytes "#define_x 1\n") = .ok tokens ∧ StartsDirective tokens 0 ∧
      ¬ Announces Directive.byIdentifier? (bytes "#define_x 1\n") tokens 0 := by
  obtain ⟨tokens, scanned⟩ := exists_eq_ok_of_isOk
    (show (scan (bytes "t.pp") (bytes "#define_x 1\n")).isOk = true by decide +kernel)
  have directive : (scan (bytes "t.pp") (bytes "#define_x 1\n")).toOption.any (fun tokens =>
      tokens.any fun token => token.kind == .directive && token.begins == 0) = true := by
    decide +kernel
  rw [scanned] at directive
  obtain ⟨token, member, here⟩ := List.any_eq_true.1 directive
  rw [Bool.and_eq_true, beq_iff_eq, beq_iff_eq] at here
  refine ⟨tokens, scanned, ⟨token, member, here⟩, fun announces => ?_⟩
  have longer : Directive.byIdentifier? ((bytes "#define_x 1\n").drop 1) = none := by decide +kernel
  have announced := announces.2.2.2
  rw [longer] at announced
  cases announced

end Token

end ScopedMacros
