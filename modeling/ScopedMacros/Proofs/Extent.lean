import ScopedMacros.Proofs.Lookahead
import ScopedMacros.Proofs.Sight

/-!
# Where lexemes lie

A lexeme is a stretch of the text that it is found in, so scanning a directive line only moves the
cursor over bytes of the source.  The number of the line grows by at most one for each of them.
-/

namespace ScopedMacros

/-- Each byte adds at most one line. -/
theorem Position.line_advance_le (position : Position) (text : Bytes) :
    (position.advance text).line.toNat ≤ position.line.toNat + text.length := by
  induction text generalizing position with
  | nil => exact Nat.le_refl _
  | cons byte rest ih =>
      have later := ih (position.step byte)
      have step : (position.step byte).line.toNat ≤ position.line.toNat + 1 := by
        rw [line_step]
        split
        · rw [UInt32.toNat_add]
          exact Nat.mod_le _ _
        · omega
      rw [advance_cons, List.length_cons]
      omega

/-! ## Lexemes -/

namespace Lexeme

theorem prefix_blankLine (text : Bytes) : blankLine text <+: text := by
  induction text with
  | nil => exact List.nil_prefix
  | cons byte rest ih =>
      rw [Token.blankLine_cons]
      split
      · exact List.prefix_append_right_inj [byte] |>.2 ih
      split
      · exact ⟨rest, rfl⟩
      · exact List.nil_prefix

theorem prefix_continuation (text : Bytes) : continuation text <+: text := by
  fun_induction continuation text with
  | case1 => exact List.nil_prefix
  | case2 => exact List.prefix_rfl
  | case3 => exact List.nil_prefix
  | case4 first second rest blank ih => exact List.prefix_append_right_inj [first] |>.2 ih
  | case5 first second rest _ _ ih => exact List.prefix_append_right_inj [first, second] |>.2 ih
  | case6 => exact List.nil_prefix

theorem prefix_escapeCode? {count : Nat} {text code : Bytes}
    (found : escapeCode? count text = some code) : code ++ [Byte.apostrophe] <+: text := by
  unfold escapeCode? at found
  dsimp only at found
  split at found
  · rename_i closes
    cases found
    have inCode := List.takeWhile_prefix (l := text.take count) fun byte =>
      byte != Byte.apostrophe && byte != Byte.newline
    have inText := List.take_prefix count text
    obtain ⟨after, whole⟩ := inCode.trans inText
    generalize List.takeWhile _ _ = code at closes whole ⊢
    subst whole
    rw [List.drop_left] at closes
    obtain ⟨rest, rfl⟩ := List.head?_eq_some_iff.1 closes
    exact ⟨rest, by simp⟩
  · cases found

theorem prefix_characterTail? {text tail : Bytes} (found : characterTail? text = some tail) :
    tail <+: text := by
  match text with
  | [] => cases found
  | [_] => cases found
  | first :: second :: rest =>
      rw [characterTail?_cons_cons] at found
      split at found
      · obtain ⟨code, escape, rfl⟩ := Option.map_eq_some_iff.1 found
        exact List.prefix_append_right_inj [first, second] |>.2 (prefix_escapeCode? escape)
      split at found
      · cases found
        exact ⟨rest, rfl⟩
      · cases found

variable {multiline : Bool} {first : Byte} {rest : Bytes} {lexeme : Lexeme}

theorem prefix_string (found : string multiline rest = .ok lexeme) : lexeme.more <+: rest := by
  obtain ⟨_, rfl⟩ := closed_of_string found
  exact prefix_raw_stringTail multiline false rest

theorem prefix_solid (found : solid multiline first rest = .ok lexeme) : lexeme.more <+: rest := by
  rcases solid_cases found with ⟨kind, test, _, rfl⟩ | string | rfl | ⟨kind, _, rfl⟩
  · exact List.takeWhile_prefix test
  · exact prefix_string string
  · unfold character
    split
    · rename_i tail literal
      exact prefix_characterTail? literal
    · exact List.nil_prefix
  · exact List.nil_prefix

theorem prefix_inSource (found : inSource first rest = .ok lexeme) : lexeme.more <+: rest := by
  unfold inSource at found
  split at found
  · cases found
    exact List.nil_prefix
  split at found
  · cases found
    exact prefix_blankLine rest
  · exact prefix_solid found

theorem prefix_inBody (found : inBody first rest = .ok lexeme) : lexeme.more <+: rest := by
  unfold inBody at found
  split at found
  · rename_i byte more space
    cases found
    have inText := prefix_continuation (first :: rest)
    rw [space] at inText
    exact (List.cons_prefix_cons.1 inText).2
  · exact prefix_solid found

theorem prefix_inLine (found : inLine first rest = .ok lexeme) : lexeme.more <+: rest := by
  unfold inLine at found
  split at found
  · cases found
    exact List.takeWhile_prefix _
  split at found
  · exact prefix_string found
  split at found
  · dsimp only at found
    split at found
    · cases found
      exact List.takeWhile_prefix _
    · cases found
  split at found
  · rename_i op spelled
    cases found
    have inText := List.isPrefixOf_iff_prefix.1 (Token.Op.isPrefixOf_of_atHead? spelled)
    obtain ⟨byte, more, spelling⟩ := List.exists_cons_of_ne_nil op.spelling_ne_nil
    rw [spelling] at inText ⊢
    exact (List.cons_prefix_cons.1 inText).2
  split at found
  · cases found
    exact List.nil_prefix
  split at found
  · cases found
    exact List.nil_prefix
  split at found
  · cases found
    exact List.nil_prefix
  · cases found

end Lexeme

/-! ## Cursors -/

theorem cons_prefix_of_eq {whole rest more : Bytes} {first : Byte} (left : whole = first :: rest)
    (inRest : more <+: rest) : first :: more <+: whole :=
  left ▸ List.cons_prefix_cons.2 ⟨rfl, inRest⟩

namespace Cursor

theorem prefix_of_inLine? {cursor : Cursor} {next : Byte × Bytes} {more : Bytes}
    (found : cursor.inLine? = some next) (inRest : more <+: next.2) :
    next.1 :: more <+: cursor.rest := by
  unfold inLine? at found
  split at found
  · cases found
  · rename_i left
    split at found
    · cases found
    · cases found
      exact cons_prefix_of_eq left inRest

/-- The second cursor stands after bytes at the head of what is left at the first one. -/
def Passes (cursor stop : Cursor) : Prop :=
  ∃ raw, raw <+: cursor.rest ∧ stop = cursor.advance raw

namespace Passes

variable {cursor middle stop : Cursor}

theorem refl (cursor : Cursor) : Passes cursor cursor :=
  ⟨[], List.nil_prefix, rfl⟩

theorem trans (first : Passes cursor middle) (second : Passes middle stop) :
    Passes cursor stop := by
  obtain ⟨raw, ⟨after, whole⟩, rfl⟩ := first
  obtain ⟨more, inRest, rfl⟩ := second
  refine ⟨raw ++ more, ?_, (cursor.advance_append raw more).symm⟩
  rw [advance, ← whole, List.drop_left] at inRest
  rw [← whole]
  exact (List.prefix_append_right_inj raw).2 inRest

theorem skip (cursor : Cursor) : Passes cursor cursor.skip :=
  ⟨_, Lexeme.prefix_continuation cursor.rest, rfl⟩

theorem lexeme {next : Byte × Bytes} {more : Bytes} (found : cursor.inLine? = some next)
    (inRest : more <+: next.2) : Passes cursor (cursor.advance (next.1 :: more)) :=
  ⟨_, prefix_of_inLine? found inRest, rfl⟩

/-- A line ends at the latest after as many lines as there are bytes. -/
theorem line_add_length_le (passes : Passes cursor stop) :
    stop.position.line.toNat + stop.rest.length ≤
      cursor.position.line.toNat + cursor.rest.length := by
  obtain ⟨raw, ⟨after, whole⟩, rfl⟩ := passes
  have lines := cursor.position.line_advance_le raw
  simp only [advance, ← whole, List.drop_left, List.length_append]
  omega

end Passes

end Cursor

namespace Token

open Cursor

/-- The end of a directive line stands after bytes that are left anywhere in the line. -/
theorem Trail.passes {inBody : Bool} {cursor stop : Cursor} {tokens : List Token}
    (trail : Trail inBody cursor tokens stop) : Passes cursor stop := by
  induction trail with
  | stop => exact .refl _
  | skip _ ih => exact (Passes.skip _).trans ih
  | inLine found lexed _ ih => exact (Passes.lexeme found (Lexeme.prefix_inLine lexed)).trans ih
  | opens _ ih => exact ih
  | inBody found lexed _ ih => exact (Passes.lexeme found (Lexeme.prefix_inBody lexed)).trans ih

/-- The start of a directive line is a stretch of the text. -/
theorem prefix_head? {text : Bytes} {head : Head} (found : head? text = some head) :
    head.blanks ++ head.raw <+: text := by
  have whole := List.takeWhile_append_dropWhile (p := Byte.isBlank) (l := text)
  unfold head? at found
  split at found
  · cases found
  · rename_i first rest tail
    rw [tail] at whole
    have spaced := List.takeWhile_append_dropWhile (p := Byte.isBlank) (l := rest)
    split at found
    · dsimp only at found
      split at found
      · cases found
        refine ⟨rest.dropWhile Byte.isBlank, ?_⟩
        rw [List.append_assoc, List.cons_append, spaced, whole]
      · obtain ⟨directive, _, rfl⟩ := Option.map_eq_some_iff.1 found
        have word := List.takeWhile_append_dropWhile (p := Byte.isLetter)
          (l := rest.dropWhile Byte.isBlank)
        refine ⟨(rest.dropWhile Byte.isBlank).dropWhile Byte.isLetter, ?_⟩
        dsimp only
        rw [List.append_assoc, List.cons_append, List.cons_append, List.append_assoc, word, spaced,
          whole]
    · cases found

theorem passes_head {head : Head} {cursor : Cursor} (found : head? cursor.rest = some head) :
    Passes cursor ((cursor.advance head.blanks).advance head.raw) := by
  refine ⟨_, prefix_head? found, ?_⟩
  rw [advance_append]

/-- A directive line other than a line directive moves the cursor over bytes of the source. -/
theorem Line.passes {head : Head} {cursor stop next : Cursor} {inner : List Token}
    (line : Line head cursor inner stop next) (found : head? cursor.rest = some head)
    (other : head.directive ≠ .line) : Passes cursor next := by
  have following := line.following
  rw [nextLine, if_neg other] at following
  cases following
  have newline : Passes stop (stop.advance (stop.rest.take 1)) :=
    ⟨_, List.take_prefix 1 stop.rest, rfl⟩
  exact (passes_head found).trans (line.trail.passes.trans newline)

end Token

end ScopedMacros
