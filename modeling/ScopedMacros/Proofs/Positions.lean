import ScopedMacros.Proofs.Names
import ScopedMacros.Proofs.Tiling

/-!
# Where tokens stand

Scanning keeps up its position byte by byte, and a line directive sets the line and the file anew once
its newline has been passed.  What the position says can therefore be told from the source and the
offset: the line starts after the last newline, it is numbered from the last line directive on, and its
file is the last one that a line directive names.
-/

namespace ScopedMacros

namespace Bytes

/-- The line that an offset stands in starts after the last newline before it, or with the text if
there is none. -/
structure LineStarts (text : Bytes) (start offset : Nat) : Prop where
  le : start ≤ offset
  opens : start = 0 ∨ ∃ last, start = last + 1 ∧ text[last]? = some Byte.newline
  unbroken : ∀ index, start ≤ index → index < offset → text[index]? ≠ some Byte.newline

theorem count_extract_le (text : Bytes) (start offset : Nat) :
    (text.extract start offset).count Byte.newline ≤ offset - start := by
  refine Nat.le_trans List.count_le_length ?_
  rw [List.extract_eq_take_drop, List.length_take]
  exact Nat.min_le_left _ _

theorem count_extract_succ {text : Bytes} {start offset : Nat} {byte : Byte}
    (le : start ≤ offset) (here : text[offset]? = some byte) :
    (text.extract start (offset + 1)).count Byte.newline =
      (text.extract start offset).count Byte.newline + if byte = Byte.newline then 1 else 0 := by
  have next : (text.drop start)[offset - start]? = some byte := by
    rw [List.getElem?_drop, Nat.add_sub_cancel' le, here]
  rw [List.extract_eq_take_drop, List.extract_eq_take_drop, Nat.succ_sub le, List.take_add_one, next,
    List.count_append]
  simp [List.count_singleton]

end Bytes

/-! ## Line directives -/

/-- What a line directive says of the lines after it. -/
structure Numbering where
  number : Int64
  file : Option Bytes
  /-- The offset where the directive line ends; its newline follows. -/
  ends : Nat
  deriving DecidableEq, Repr

/-- The file that is named right after the number of a line directive. -/
def Token.namedFile? : List Token → Option Bytes
  | ⟨.string file, _, _⟩ :: _ => some file
  | _ => none

/-- What an item says of the lines after it, if it is a line directive with a number. -/
def Item.numbering? : Item → Option Numbering
  | .line word (⟨.integer number, _, _⟩ :: more) stop =>
      if word.text = Directive.line.word then some ⟨number, Token.namedFile? more, stop.begins⟩
      else none
  | _ => none

/-- The line directives with a number that end among the tokens, in order. -/
def Token.numberings (tokens : List Token) : List Numbering :=
  (Item.ofTokens tokens).filterMap Item.numbering?

namespace Numbering

/-- The number of the line that an offset of a source stands in, after the given line directives. -/
def lineAt (text : Bytes) (before : List Numbering) (offset : Nat) : Int :=
  match before.getLast? with
  | none => 1 + (text.take offset).count Byte.newline
  | some last => last.number.toInt + (text.extract (last.ends + 1) offset).count Byte.newline

/-- The file of what follows the given line directives of a file. -/
def fileAfter (file : Bytes) (before : List Numbering) : Bytes :=
  (before.filterMap Numbering.file).getLast?.getD file

theorem lineAt_append (text : Bytes) (before : List Numbering) (last : Numbering) (offset : Nat) :
    lineAt text (before ++ [last]) offset =
      last.number.toInt + (text.extract (last.ends + 1) offset).count Byte.newline := by
  rw [lineAt, List.getLast?_concat]

theorem fileAfter_append (file : Bytes) (before : List Numbering) (last : Numbering) :
    fileAfter file (before ++ [last]) = last.file.getD (fileAfter file before) := by
  rw [fileAfter, List.filterMap_append]
  cases named : last.file with
  | none => simp [named, fileAfter]
  | some name => simp [named]

/-- A byte that is passed adds a line if it is a newline. -/
theorem lineAt_succ {text : Bytes} {before : List Numbering} {offset : Nat} {byte : Byte}
    (past : ∀ last ∈ before.getLast?, last.ends < offset) (here : text[offset]? = some byte) :
    lineAt text before (offset + 1) =
      lineAt text before offset + if byte = Byte.newline then 1 else 0 := by
  have counted (start : Nat) (le : start ≤ offset) :
      ((text.extract start (offset + 1)).count Byte.newline : Int) =
        (text.extract start offset).count Byte.newline + if byte = Byte.newline then 1 else 0 := by
    rw [Bytes.count_extract_succ le here]
    split <;> simp
  unfold lineAt
  cases ended : before.getLast? with
  | none =>
      have fromStart := counted 0 (Nat.zero_le _)
      simp only [List.extract_eq_take_drop, List.drop_zero, Nat.sub_zero] at fromStart
      simp only [fromStart, Int.add_assoc]
  | some last =>
      have fromLast := counted (last.ends + 1) (past last ended)
      simp only [fromLast, Int.add_assoc]

theorem lineAt_le (text : Bytes) {before : List Numbering} (offset : Nat)
    (range : ∀ last ∈ before.getLast?, last.number.toInt ≤ 0x7fffffff) :
    lineAt text before offset ≤ 0x7fffffff + offset := by
  unfold lineAt
  cases ended : before.getLast? with
  | none =>
      have few := Bytes.count_extract_le text 0 offset
      simp only [List.extract_eq_take_drop, List.drop_zero, Nat.sub_zero] at few
      dsimp only
      omega
  | some last =>
      have few := Bytes.count_extract_le text (last.ends + 1) offset
      have small := range last ended
      dsimp only
      omega

end Numbering

/-! ## Positions -/

namespace Position

/-- What the position says is true of its offset in the source of the given file, where the given line
directives come before. -/
structure Exact (file text : Bytes) (before : List Numbering) (position : Position) : Prop where
  lineStart : text.LineStarts position.lineStart.toNat position.offset.toNat
  /-- The distance from the line start does not wrap. -/
  column : position.column.toNat = position.offset.toNat - position.lineStart.toNat
  line : (position.line.toNat : Int) = Numbering.lineAt text before position.offset.toNat
  file : position.file = Numbering.fileAfter file before

theorem column_of_le {position : Position}
    (le : position.lineStart.toNat ≤ position.offset.toNat) :
    position.column.toNat = position.offset.toNat - position.lineStart.toNat :=
  UInt32.toNat_sub_of_le _ _ (UInt32.le_iff_toNat_le.2 le)

variable {file text : Bytes} {before : List Numbering} {position : Position} {byte : Byte}

theorem lineStarts_step (starts : text.LineStarts position.lineStart.toNat position.offset.toNat)
    (here : text[position.offset.toNat]? = some byte)
    (moved : (position.step byte).offset.toNat = position.offset.toNat + 1) :
    text.LineStarts (position.step byte).lineStart.toNat (position.step byte).offset.toNat := by
  by_cases newline : byte = Byte.newline
  · subst newline
    have atStart : (position.step Byte.newline).lineStart = (position.step Byte.newline).offset := rfl
    rw [atStart, moved]
    exact ⟨Nat.le_refl _, .inr ⟨_, rfl, here⟩, fun index le less => by omega⟩
  · have same : (position.step byte).lineStart = position.lineStart := by
      rw [step, if_neg newline]
    rw [same, moved]
    refine ⟨Nat.le_succ_of_le starts.le, starts.opens, fun index le less => ?_⟩
    rcases Nat.lt_succ_iff_lt_or_eq.1 less with before | rfl
    · exact starts.unbroken index le before
    · rw [here]
      simpa using newline

/-- One more byte keeps the position exact, as long as nothing wraps. -/
theorem Exact.step (exact : Exact file text before position)
    (short : position.offset.toNat + 1 < 2 ^ 31)
    (range : ∀ last ∈ before.getLast?, last.number.toInt ≤ 0x7fffffff)
    (past : ∀ last ∈ before.getLast?, last.ends < position.offset.toNat)
    (here : text[position.offset.toNat]? = some byte) :
    Exact file text before (position.step byte) := by
  have moved : (position.step byte).offset.toNat = position.offset.toNat + 1 :=
    position.offset_advance (show position.offset.toNat + [byte].length < UInt32.size by
      simp only [List.length_singleton, UInt32.size]
      omega)
  have starts := lineStarts_step exact.lineStart here moved
  have small := Numbering.lineAt_le text position.offset.toNat range
  refine ⟨starts, column_of_le starts.le, ?_, (file_step position byte).trans exact.file⟩
  rw [moved, Numbering.lineAt_succ past here, ← exact.line, line_step]
  rw [← exact.line] at small
  split
  · rw [UInt32.toNat_add, UInt32.toNat_one, Nat.mod_eq_of_lt (by omega)]
    rfl
  · exact (Int.add_zero _).symm

end Position

namespace Cursor

/-- The cursor stands in the source of the given file, after the given line directives. -/
structure Placed (file text : Bytes) (before : List Numbering) (cursor : Cursor) : Prop where
  exact : cursor.position.Exact file text before
  within : cursor.offset ≤ text.length
  left : text.drop cursor.offset = cursor.rest
  range : ∀ last ∈ before.getLast?, last.number.toInt ≤ 0x7fffffff
  past : ∀ last ∈ before.getLast?, cursor.rest ≠ [] → last.ends < cursor.offset

variable {file text : Bytes} {before : List Numbering} {cursor stop : Cursor}

theorem Placed.small (placed : Placed file text before cursor) (short : text.length < 2 ^ 31) :
    cursor.Small := by
  have rest := congrArg List.length placed.left
  have within := placed.within
  rw [List.length_drop] at rest
  simp only [Small, UInt32.size]
  omega

theorem placed_first (file text : Bytes) : Placed file text [] ⟨.first file, text⟩ where
  exact := ⟨⟨Nat.le_refl _, .inl rfl, fun _ _ less => by cases less⟩,
    Position.column_of_le (Nat.le_refl _), rfl, rfl⟩
  within := Nat.zero_le _
  left := rfl
  range := by simp
  past := by simp

theorem Placed.step {byte : Byte} {rest : Bytes} (placed : Placed file text before cursor)
    (short : text.length < 2 ^ 31) (left : cursor.rest = byte :: rest) :
    Placed file text before (cursor.advance [byte]) := by
  have small := placed.small short
  have moved : (cursor.advance [byte]).offset = cursor.offset + 1 :=
    offset_advance small (show cursor.rest = [byte] ++ rest from left)
  have whole : text.drop cursor.offset = byte :: rest := placed.left.trans left
  have here : text[cursor.offset]? = some byte := by
    rw [← List.head?_drop, whole]
    rfl
  have inText : cursor.offset < text.length := (List.getElem?_eq_some_iff.1 here).1
  have past : ∀ last ∈ before.getLast?, last.ends < cursor.offset :=
    fun last member => placed.past last member (by rw [left]; exact List.cons_ne_nil _ _)
  refine ⟨?_, ?_, ?_, placed.range, fun last member _ => ?_⟩
  · exact placed.exact.step (Nat.lt_of_le_of_lt inText short) placed.range past here
  · rw [moved]
    exact inText
  · rw [moved, ← List.drop_drop, whole, advance, left]
    rfl
  · rw [moved]
    exact Nat.lt_succ_of_lt (past last member)

/-- Passing over bytes of the source keeps the cursor in its place. -/
theorem Placed.passes (placed : Placed file text before cursor) (short : text.length < 2 ^ 31)
    (passes : Passes cursor stop) : Placed file text before stop := by
  obtain ⟨raw, ⟨after, whole⟩, rfl⟩ := passes
  induction raw generalizing cursor with
  | nil => exact placed
  | cons byte raw ih =>
      rw [advance_cons]
      refine ih (placed.step short whole.symm) ?_
      rw [rest_advance (show cursor.rest = [byte] ++ (raw ++ after) from whole.symm)]

end Cursor

/-! ## Tokens -/

namespace Token

open Cursor

/-- The token starts and stops where the source is read on from the cursor. -/
def StandsAfter (cursor : Cursor) (token : Token) : Prop :=
  ∃ start stop, Passes cursor start ∧ Passes start stop ∧
    token.location = ⟨start.position, stop.position⟩

theorem StandsAfter.of_passes {cursor middle : Cursor} {token : Token}
    (stands : StandsAfter middle token) (passes : Passes cursor middle) :
    StandsAfter cursor token := by
  obtain ⟨start, stop, first, second, located⟩ := stands
  exact ⟨start, stop, passes.trans first, second, located⟩

theorem standsAfter_token {cursor : Cursor} {first : Byte} {lexeme : Lexeme}
    (inText : first :: lexeme.more <+: cursor.rest) :
    StandsAfter cursor (cursor.token first lexeme) :=
  ⟨cursor, _, .refl _, ⟨_, inText, rfl⟩, rfl⟩

theorem standsAfter_point (cursor : Cursor) (kind : Kind) :
    StandsAfter cursor (cursor.point kind) :=
  ⟨cursor, cursor, .refl _, .refl _, rfl⟩

theorem Trail.standsAfter {inBody : Bool} {cursor stop : Cursor} {tokens : List Token}
    (trail : Trail inBody cursor tokens stop) : ∀ token ∈ tokens, StandsAfter cursor token := by
  induction trail with
  | stop => simp
  | skip _ ih => exact fun token member => (ih token member).of_passes (.skip _)
  | inLine found lexed _ ih =>
      have inRest := Lexeme.prefix_inLine lexed
      exact List.forall_mem_cons.2 ⟨standsAfter_token (prefix_of_inLine? found inRest),
        fun token member => (ih token member).of_passes (.lexeme found inRest)⟩
  | opens _ ih => exact List.forall_mem_cons.2 ⟨standsAfter_point _ .body, ih⟩
  | inBody found lexed _ ih =>
      have inRest := Lexeme.prefix_inBody lexed
      exact List.forall_mem_cons.2 ⟨standsAfter_token (prefix_of_inLine? found inRest),
        fun token member => (ih token member).of_passes (.lexeme found inRest)⟩

/-! ## Lines -/

/-- Both ends of the token are exact. -/
structure Exact (file text : Bytes) (before : List Numbering) (token : Token) : Prop where
  start : token.location.start.Exact file text before
  stop : token.location.stop.Exact file text before

variable {file text : Bytes} {before : List Numbering} {cursor stop next : Cursor}

theorem StandsAfter.exact {token : Token} (stands : StandsAfter cursor token)
    (placed : Placed file text before cursor) (short : text.length < 2 ^ 31) :
    token.Exact file text before := by
  obtain ⟨start, stop, first, second, located⟩ := stands
  have placedStart := placed.passes short first
  constructor
  · rw [located]
    exact placedStart.exact
  · rw [located]
    exact (placedStart.passes short second).exact

/-- A number that a line directive may have is the number of a line as it is. -/
theorem toNat_lineNumber {number : Int64} (inRange : ¬(number < 0 ∨ 0x7fffffff < number)) :
    (number.toUInt64.toUInt32.toNat : Int) = number.toInt ∧ number.toInt ≤ 0x7fffffff := by
  have zero : (0 : Int64).toInt = 0 := rfl
  have largest : (0x7fffffff : Int64).toInt = 0x7fffffff := rfl
  rw [Int64.lt_iff_toInt_lt, Int64.lt_iff_toInt_lt, zero, largest] at inRange
  have natural : (number.toUInt64.toNat : Int) = number.toInt := by
    rw [Int64.toNat_toUInt64_of_le (Int64.le_iff_toInt_le.2 (by omega))]
    exact Int.toNat_of_nonneg (by omega)
  rw [UInt64.toNat_toUInt32]
  omega

/-- The newline of a directive line is all that is passed after its end. -/
theorem offset_newline (small : stop.Small) :
    (stop.advance (stop.rest.take 1)).offset ≤ stop.offset + 1 ∧
      ((stop.advance (stop.rest.take 1)).rest ≠ [] →
        stop.offset < (stop.advance (stop.rest.take 1)).offset) := by
  have moved := offset_advance small (List.take_append_drop 1 stop.rest).symm
  rw [moved, List.length_take, rest_advance (List.take_append_drop 1 stop.rest).symm]
  constructor
  · omega
  · intro more
    have := List.length_pos_iff.2 more
    rw [List.length_drop] at this
    omega

/-- After a line directive the cursor is placed by what the directive says. -/
theorem placed_renumber {word : Token} {tokens : List Token}
    (placed : Placed file text before stop) (short : text.length < 2 ^ 31)
    (spelled : word.text = Directive.line.word)
    (read : renumber tokens (stop.advance (stop.rest.take 1)) = .ok next) :
    Placed file text
      (before ++ (Item.line word tokens (stop.point .lineEnd)).numbering?.toList) next := by
  have passed : Placed file text before (stop.advance (stop.rest.take 1)) :=
    placed.passes short ⟨_, List.take_prefix 1 _, rfl⟩
  obtain ⟨near, beyond⟩ := offset_newline (placed.small short)
  generalize stop.advance (stop.rest.take 1) = after at *
  unfold renumber at read
  split at read
  · next number digits location more =>
      split at read
      · cases read
      · next inRange =>
          cases read
          obtain ⟨value, small⟩ := toNat_lineNumber inRange
          have given : (Item.line word (⟨.integer number, digits, location⟩ :: more)
              (stop.point .lineEnd)).numbering? = some ⟨number, namedFile? more, stop.offset⟩ :=
            if_pos spelled
          have exact := passed.exact
          rw [given, Option.toList_some]
          have isLast : ∀ last ∈ (before ++ [Numbering.mk number (namedFile? more) stop.offset]).getLast?,
              last = ⟨number, namedFile? more, stop.offset⟩ := by
            intro last member
            rw [List.getLast?_concat] at member
            exact (Option.some.inj member).symm
          refine ⟨⟨exact.lineStart, exact.column, ?_, ?_⟩, passed.within, passed.left, ?_, ?_⟩
          · have nothing : text.extract (stop.offset + 1) after.offset = [] := by
              rw [List.extract_eq_take_drop, Nat.sub_eq_zero_of_le near, List.take_zero]
            rw [Numbering.lineAt_append]
            change _ = number.toInt + ((text.extract (stop.offset + 1) after.offset).count _ : Int)
            rw [nothing]
            exact value.trans (Int.add_zero _).symm
          · rw [Numbering.fileAfter_append, ← exact.file]
            cases more with
            | nil => rfl
            | cons token more =>
                obtain ⟨kind, _, _⟩ := token
                cases kind <;> rfl
          · intro last member
            rw [isLast last member]
            exact small
          · intro last member
            rw [isLast last member]
            exact beyond
  · next silent =>
      cases read
      have given : (Item.line word tokens (stop.point .lineEnd)).numbering? = none := by
        unfold Item.numbering?
        split
        · next same =>
            injection same with _ same
            exact absurd same (silent _ _ _ _)
        · rfl
      rw [given]
      simpa using passed

theorem numbering?_of_ne {word last : Token} {arguments : List Token}
    (other : word.text ≠ Directive.line.word) :
    (Item.line word arguments last).numbering? = none := by
  unfold Item.numbering?
  split
  · next same =>
      injection same with same
      rw [← same, if_neg other]
  · rfl

theorem ofDirective_exact {head : Head} {tokens : List Token}
    (found : head? cursor.rest = some head) (read : ofDirective head cursor = .ok (tokens, next))
    (placed : Placed file text before cursor) (short : text.length < 2 ^ 31) :
    ∃ word arguments last, tokens = (Item.line word arguments last).tokens ∧
      (Item.line word arguments last).Proper ∧ (∀ token ∈ tokens, token.Exact file text before) ∧
      Placed file text (before ++ (Item.line word arguments last).numbering?.toList) next := by
  obtain ⟨inner, stop, line, rfl⟩ := line_of_ofDirective read
  have trail := line.trail
  have following := line.following
  have start := passes_head found
  have ended := start.trans trail.passes
  refine ⟨_, inner, _, rfl, line.proper, ?_, ?_⟩
  · have indented : Passes cursor (cursor.advance head.blanks) :=
      ⟨_, (List.prefix_append _ _).trans (prefix_head? found), rfl⟩
    have word : Passes (cursor.advance head.blanks) ((cursor.advance head.blanks).advance head.raw) := by
      obtain ⟨rest, whole⟩ := prefix_head? found
      refine ⟨_, ⟨rest, ?_⟩, rfl⟩
      rw [rest_advance (show cursor.rest = head.blanks ++ (head.raw ++ rest) by
        rw [← whole, List.append_assoc])]
    refine List.forall_mem_append.2 ⟨List.forall_mem_cons.2 ⟨?_, fun token member => ?_⟩,
      List.forall_mem_singleton.2 ?_⟩
    · exact StandsAfter.exact ⟨_, _, indented, word, rfl⟩ placed short
    · exact ((trail.standsAfter token member).of_passes start).exact placed short
    · exact ((standsAfter_point stop .lineEnd).of_passes ended).exact placed short
  · have placedStop := placed.passes short ended
    unfold nextLine at following
    dsimp only at following
    split at following
    · next isLine => exact placed_renumber placedStop short (congrArg Directive.word isLine) following
    · next other =>
        cases following
        rw [numbering?_of_ne fun same => other (Directive.word_injective same)]
        simpa using placedStop.passes short ⟨_, List.take_prefix 1 _, rfl⟩

/-! ## Sources -/

/-- A directive line that has not ended says nothing yet. -/
theorem numberings_of_unfinished {word last : Token} {arguments front rest : List Token}
    (proper : (Item.line word arguments last).Proper)
    (split : (Item.line word arguments last).tokens = front ++ rest) (unfinished : rest ≠ []) :
    numberings front = [] := by
  obtain ⟨isDirective, inside, isEnd⟩ := proper
  have collected : ∀ (tokens before : List Token), (∀ token ∈ tokens, token.kind ≠ .lineEnd) →
      Item.collect (some (word, before)) tokens = [] := by
    intro tokens
    induction tokens with
    | nil => exact fun _ _ => rfl
    | cons token tokens ih =>
        intro before noEnd
        obtain ⟨here, others⟩ := List.forall_mem_cons.1 noEnd
        rw [Item.collect, if_neg here, ih _ others]
  cases front with
  | nil => rfl
  | cons first front =>
      have inner : word :: (arguments ++ [last]) = first :: (front ++ rest) := split
      injection inner with same inner
      subst same
      have among : front <+: arguments := by
        obtain ⟨init, final, rfl⟩ : ∃ init final, rest = init ++ [final] :=
          ⟨_, _, (List.dropLast_concat_getLast unfinished).symm⟩
        rw [← List.append_assoc] at inner
        exact ⟨init, (List.append_inj' inner rfl).1.symm⟩
      have noEnd : ∀ token ∈ front, token.kind ≠ .lineEnd := fun token member =>
        (Builder.kind_ne_of_inside (inside token (among.subset member))).2
      simp only [numberings, Item.ofTokens, Item.collect, isDirective, collected front [] noEnd,
        List.filterMap_nil]

theorem numberings_append {item : Item} (proper : item.Proper) (rest : List Token) :
    numberings (item.tokens ++ rest) = item.numbering?.toList ++ numberings rest := by
  rw [numberings, Item.ofTokens_cons proper, List.filterMap_cons]
  cases item.numbering? <;> rfl

/-- All tokens of what is left of a source stand where they say. -/
theorem exact_ofSource {fresh : Bool} {tokens : List Token} (short : text.length < 2 ^ 31)
    (placed : Placed file text before cursor) (read : ofSource fresh cursor = .ok tokens)
    {earlier later : List Token} {token : Token} (split : tokens = earlier ++ token :: later) :
    token.Exact file text (before ++ numberings earlier) := by
  fun_induction ofSource fresh cursor generalizing tokens before earlier with
  | case1 => cases read
  | case2 => cases read
  | case3 fresh cursor head found lineTokens next line rest source ih =>
      cases read
      have found : head? cursor.rest = some head := by
        cases fresh with
        | false => cases found
        | true => exact found
      obtain ⟨word, arguments, last, rfl, proper, exact, placedNext⟩ :=
        ofDirective_exact found line placed short
      have onward : ∀ between, rest = between ++ token :: later →
          token.Exact file text
            (before ++ numberings ((Item.line word arguments last).tokens ++ between)) := by
        intro between sameRest
        rw [numberings_append proper, ← List.append_assoc]
        exact ih placedNext source sameRest
      rcases List.append_eq_append_iff.1 split with ⟨between, rfl, sameRest⟩ | ⟨between, inLine, ended⟩
      · exact onward between sameRest
      cases between with
      | nil =>
          have whole := onward [] ended.symm
          rwa [inLine, List.append_nil, List.append_nil] at whole
      | cons here between =>
          obtain ⟨rfl, _⟩ := List.cons.inj ended
          rw [numberings_of_unfinished proper inLine (List.cons_ne_nil _ _), List.append_nil]
          exact exact token (by rw [inLine]; simp)
  | case4 fresh cursor _ ended =>
      cases read
      cases earlier with
      | nil =>
          obtain ⟨rfl, _⟩ := List.cons.inj split
          rw [numberings, Item.ofTokens, Item.collect, List.filterMap_nil, List.append_nil]
          exact (standsAfter_point cursor .fileEnd).exact placed short
      | cons first earlier => simp at split
  | case5 => cases read
  | case6 => cases read
  | case7 fresh cursor noHead first rest left lexeme lexed tail source ih =>
      cases read
      have inText := cons_prefix_of_eq left (Lexeme.prefix_inSource lexed)
      cases earlier with
      | nil =>
          obtain ⟨rfl, _⟩ := List.cons.inj split
          rw [numberings, Item.ofTokens, Item.collect, List.filterMap_nil, List.append_nil]
          exact (standsAfter_token inText).exact placed short
      | cons here earlier =>
          obtain ⟨rfl, others⟩ := List.cons.inj split
          have same : numberings (cursor.token first lexeme :: earlier) = numberings earlier :=
            numberings_append (proper_token cursor lexed) earlier
          rw [same]
          exact ih (placed.passes short ⟨_, inText, rfl⟩) source others

/-- Positions of tokens are exact.  In a source of less than 2 ^ 31 bytes, the first and the last
position of every token have the line start after the last newline before their offset, so that the
column does not wrap.  Their line is numbered from the last line directive with a number that has ended
among the tokens before, or else from the start, and their file is the last one that such a directive
names, or else the given one. -/
theorem scan_positions_exact {file text : Bytes} {tokens earlier later : List Token} {token : Token}
    (short : text.length < 2 ^ 31) (scanned : scan file text = .ok tokens)
    (split : tokens = earlier ++ token :: later) :
    token.Exact file text (numberings earlier) :=
  exact_ofSource short (placed_first file text) scanned split

/-- A string and a definition over two lines, and two line directives, of which the first is continued
and names a file. -/
def renumberedSource : Bytes :=
  bytes "a \"b\n\" c\n# 7 \\\n \"f\"\n#define A \\\n d\n  #line 3\ne"

theorem scan_positions_renumbered :
    ∃ tokens earlier token later, scan (bytes "t") renumberedSource = .ok tokens ∧
      tokens = earlier ++ token :: later ∧
      numberings earlier = [⟨7, some (bytes "f"), 19⟩, ⟨3, none, 44⟩] ∧
      token.location = ⟨⟨bytes "f", 3, 45, 45⟩, ⟨bytes "f", 3, 45, 46⟩⟩ ∧
      token.Exact (bytes "t") renumberedSource (numberings earlier) := by
  have evaluated : (scan (bytes "t") renumberedSource).toOption.map (fun tokens =>
      (numberings (tokens.take 19), tokens[19]?.map Token.location)) =
        some ([⟨7, some (bytes "f"), 19⟩, ⟨3, none, 44⟩],
          some ⟨⟨bytes "f", 3, 45, 45⟩, ⟨bytes "f", 3, 45, 46⟩⟩) := by
    decide +kernel
  cases scanned : scan (bytes "t") renumberedSource with
  | error => simp [scanned, Except.toOption] at evaluated
  | ok tokens =>
      rw [scanned] at evaluated
      obtain ⟨before, located⟩ := Prod.mk.inj (Option.some.inj evaluated)
      obtain ⟨token, found, located⟩ := Option.map_eq_some_iff.1 located
      obtain ⟨inside, here⟩ := List.getElem?_eq_some_iff.1 found
      have split : tokens = tokens.take 19 ++ token :: tokens.drop 20 := by
        rw [← here, ← List.drop_eq_getElem_cons inside, List.take_append_drop]
      exact ⟨tokens, _, token, _, rfl, split, before, located,
        scan_positions_exact (by decide +kernel) scanned split⟩

end Token

end ScopedMacros
