import ScopedMacros.Proofs.Extent
import ScopedMacros.Proofs.Relexing

/-!
# Sources tiled by tokens

Scanning goes over a source from its first byte to its last one.  Each token lies on the bytes that
it was made of, and what is left out between two tokens belongs to a directive line: the blanks in
front of it, blanks and continued newlines inside it, and the newline at its end.  The relation
`Tiles` says so byte by byte, and every scanned source satisfies it.
-/

namespace ScopedMacros

/-- The text with a newline in place of every backslash and newline. -/
def Bytes.joinLines : Bytes → Bytes
  | [] => []
  | [last] => [last]
  | first :: second :: rest =>
      if first = Byte.backslash ∧ second = Byte.newline then second :: joinLines rest
      else first :: joinLines (second :: rest)

theorem Bytes.joinLines_cons {first : Byte} (other : first ≠ Byte.backslash) (rest : Bytes) :
    joinLines (first :: rest) = first :: joinLines rest := by
  cases rest with
  | nil => rfl
  | cons second rest => rw [joinLines, if_neg fun both => other both.1]

/-- Space that runs over continued lines loses just their backslashes. -/
theorem Lexeme.joinLines_continuation (text : Bytes) :
    Bytes.joinLines (continuation text) = (continuation text).filter (· != Byte.backslash) := by
  have notBackslash : ∀ byte, Byte.isBlank byte = true → byte ≠ Byte.backslash := by
    decide +kernel
  fun_induction continuation text with
  | case1 => rfl
  | case2 last blank => simp [Bytes.joinLines, notBackslash last blank]
  | case3 => rfl
  | case4 first second rest blank ih =>
      have other := notBackslash first blank
      rw [Bytes.joinLines_cons other, ih, List.filter_cons_of_pos (by simpa using other)]
  | case5 first second rest _ continued ih =>
      obtain ⟨rfl, rfl⟩ := continued
      rw [Bytes.joinLines, if_pos ⟨rfl, rfl⟩, ih]
      rfl
  | case6 => rfl

/-! ## Tilings -/

/-- Where a token can stand: in the text of a source, in a directive line, or in the body of a
definition. -/
inductive Zone where
  | text
  | line
  | body
  deriving DecidableEq, Repr

namespace Zone

/-- Where the next token stands after one of the given class. -/
def after : Zone → Token.Kind → Zone
  | _, .directive => .line
  | _, .body => .body
  | _, .lineEnd => .text
  | zone, _ => zone

def afterAll (zone : Zone) (tokens : List Token) : Zone :=
  tokens.foldl (fun zone token => zone.after token.kind) zone

theorem after_inline (zone : Zone) {kind : Token.Kind} (inline : kind.isInline = true) :
    zone.after kind = zone := by
  cases kind with
  | directive | body | lineEnd | fileEnd | invalid => cases inline
  | _ => rfl

/-- The text of a token of the given class that lies on the given bytes: a space of a body has its
lines joined. -/
def textOf (zone : Zone) (kind : Token.Kind) (raw : Bytes) : Bytes :=
  if zone = .body ∧ kind = .space then raw.joinLines else raw

end Zone

namespace Lexeme

variable {first : Byte} {rest : Bytes} {lexeme : Lexeme}

theorem ne_space_of_isSolid {kind : Token.Kind} (solid : kind.isSolid = true) : kind ≠ .space := by
  rintro rfl
  cases solid

theorem tokenText_of_ne_space (zone : Zone) {kind : Token.Kind} (other : kind ≠ .space)
    (raw : Bytes) : tokenText kind raw = zone.textOf kind raw := by
  simp [tokenText, Zone.textOf, other]

theorem tokenText_inBody (lexed : inBody first rest = .ok lexeme) :
    tokenText lexeme.kind (first :: lexeme.more) =
      Zone.body.textOf lexeme.kind (first :: lexeme.more) := by
  unfold inBody at lexed
  split at lexed
  · rename_i byte more space
    cases lexed
    have joined := joinLines_continuation (first :: rest)
    obtain ⟨after, whole⟩ := prefix_continuation (first :: rest)
    rw [space] at joined whole
    injection whole with same
    subst same
    simp only [tokenText, Zone.textOf, if_true, and_self]
    exact joined.symm
  · exact tokenText_of_ne_space _ (ne_space_of_isSolid (isSolid_solid lexed)) _

/-- Outside directive lines there is no backslash in a space. -/
theorem tokenText_inSource (lexed : inSource first rest = .ok lexeme) :
    tokenText lexeme.kind (first :: lexeme.more) =
      Zone.text.textOf lexeme.kind (first :: lexeme.more) := by
  rcases inSource_cases lexed with ⟨space, all, _⟩ | ⟨solid, _⟩
  · have noBackslash : ∀ byte ∈ first :: lexeme.more, (byte != Byte.backslash) = true := by
      intro byte member
      have isSpace := all byte member
      rw [bne_iff_ne]
      rintro rfl
      cases isSpace
    simp only [tokenText, Zone.textOf, space, if_true, List.filter_eq_self.2 noBackslash,
      reduceCtorEq, false_and, if_false]
  · exact tokenText_of_ne_space _ (ne_space_of_isSolid solid) _

end Lexeme

namespace Token

/-- The offset of the first byte of a token. -/
def begins (token : Token) : Nat :=
  token.location.start.offset.toNat

/-- The offset after the last byte of a token. -/
def ends (token : Token) : Nat :=
  token.location.stop.offset.toNat

/-- The token lies on the given bytes, which stand at an offset. -/
structure LiesOn (token : Token) (offset : Nat) (raw : Bytes) : Prop where
  begins : token.begins = offset
  ends : token.ends = offset + raw.length

/-- The bytes of a directive word with the given text: a `#`, blanks, and the word.  A number that
comes next stands for the word `line`. -/
def Introduces (raw rest text : Bytes) : Prop :=
  (Directive.ofWord? text).isSome = true ∧
    ∃ gap, (∀ byte ∈ gap, Byte.isBlank byte = true) ∧
      (raw = Byte.hash :: gap ++ text ∨
        raw = Byte.hash :: gap ∧ text = Directive.line.word ∧
          (rest.head?.map Byte.isDigit).getD false = true)

/-- What a token in the given zone has for a text, when it lies on the bytes `raw` and the bytes
`rest` follow. -/
def Writes (zone : Zone) (token : Token) (raw rest : Bytes) : Prop :=
  match token.kind with
  | .directive => Introduces raw rest token.text
  | .lineEnd | .fileEnd => token.text = []
  | .space => token.text = if zone = .body then raw.joinLines else raw
  | _ => token.text = raw

/-- The tokens tile the bytes that stand in a source from an offset on, where the first of them
stands in the given zone. -/
inductive Tiles : Zone → Nat → Bytes → List Token → Prop where
  | stop {offset : Nat} {token : Token} (kind : token.kind = .fileEnd)
      (writes : token.text = []) (lies : token.LiesOn offset []) : Tiles .text offset [] [token]
  | token {zone : Zone} {offset : Nat} {raw rest : Bytes} {token : Token} {tokens : List Token}
      (goesOn : token.kind ≠ .fileEnd) (lies : token.LiesOn offset raw)
      (writes : Writes zone token raw rest)
      (tiles : Tiles (zone.after token.kind) (offset + raw.length) rest tokens) :
      Tiles zone offset (raw ++ rest) (token :: tokens)
  /-- The end of a directive line, with its newline unless the source ends there. -/
  | lineEnd {zone : Zone} {offset : Nat} {newline rest : Bytes} {token : Token}
      {tokens : List Token} (kind : token.kind = .lineEnd) (writes : token.text = [])
      (lies : token.LiesOn offset []) (ended : newline = [Byte.newline] ∨ newline = [] ∧ rest = [])
      (tiles : Tiles .text (offset + newline.length) rest tokens) :
      Tiles zone offset (newline ++ rest) (token :: tokens)
  /-- The blanks in front of a directive word. -/
  | indent {offset : Nat} {blanks rest : Bytes} {token : Token} {tokens : List Token}
      (kind : token.kind = .directive) (begins : token.begins = offset + blanks.length)
      (blank : ∀ byte ∈ blanks, Byte.isBlank byte = true)
      (tiles : Tiles .text (offset + blanks.length) rest (token :: tokens)) :
      Tiles .text offset (blanks ++ rest) (token :: tokens)
  | blank {offset : Nat} {byte : Byte} {rest : Bytes} {tokens : List Token}
      (blank : Byte.isBlank byte = true) (tiles : Tiles .line (offset + 1) rest tokens) :
      Tiles .line offset (byte :: rest) tokens
  | continued {offset : Nat} {rest : Bytes} {tokens : List Token}
      (tiles : Tiles .line (offset + 2) rest tokens) :
      Tiles .line offset (Byte.backslash :: Byte.newline :: rest) tokens

theorem writes_of_inline {zone : Zone} {token : Token} {raw : Bytes} (rest : Bytes)
    (inline : token.kind.isInline = true)
    (text : token.text = zone.textOf token.kind raw) : Writes zone token raw rest := by
  obtain ⟨kind, written, location⟩ := token
  cases kind with
  | directive | body | lineEnd | fileEnd | invalid => cases inline
  | _ => simpa [Writes, Zone.textOf] using text

end Token

/-! ## Cursors -/

theorem Position.offset_advance (position : Position) {text : Bytes}
    (small : position.offset.toNat + text.length < UInt32.size) :
    (position.advance text).offset.toNat = position.offset.toNat + text.length := by
  induction text generalizing position with
  | nil => rfl
  | cons byte rest ih =>
      rw [List.length_cons] at small
      have step : (position.step byte).offset.toNat = position.offset.toNat + 1 := by
        have moved : (position.step byte).offset = position.offset + 1 := by
          unfold Position.step
          split <;> rfl
        rw [moved, UInt32.toNat_add]
        exact Nat.mod_eq_of_lt (by simp only [UInt32.toNat_one, UInt32.size] at *; omega)
      rw [advance_cons, ih (position.step byte) (by omega), step, List.length_cons]
      omega

namespace Cursor

def offset (cursor : Cursor) : Nat :=
  cursor.position.offset.toNat

/-- No offset wraps up to the end of the source. -/
def Small (cursor : Cursor) : Prop :=
  cursor.offset + cursor.rest.length < UInt32.size

variable {cursor : Cursor} {raw rest : Bytes}

theorem offset_advance (small : cursor.Small) (left : cursor.rest = raw ++ rest) :
    (cursor.advance raw).offset = cursor.offset + raw.length := by
  refine Position.offset_advance _ ?_
  rw [Small, offset, left, List.length_append] at small
  omega

theorem rest_advance (left : cursor.rest = raw ++ rest) : (cursor.advance raw).rest = rest := by
  rw [advance, left, List.drop_left]

theorem small_advance (small : cursor.Small) (left : cursor.rest = raw ++ rest) :
    (cursor.advance raw).Small := by
  rw [Small, offset_advance small left, rest_advance left]
  rw [Small, left, List.length_append] at small
  omega

/-- A line has ended at a newline or at the end of the source. -/
theorem ended_of_inLine? (ended : cursor.inLine? = none) :
    ∃ newline rest, cursor.rest = newline ++ rest ∧ cursor.rest.take 1 = newline ∧
      (newline = [Byte.newline] ∨ newline = [] ∧ rest = []) := by
  unfold inLine? at ended
  split at ended
  · rename_i empty
    exact ⟨[], [], empty, by rw [empty]; rfl, .inr ⟨rfl, rfl⟩⟩
  · rename_i first rest left
    split at ended
    · rename_i newline
      exact ⟨[first], rest, left, by rw [left]; rfl, .inl (by rw [newline])⟩
    · cases ended

end Cursor

namespace Token

open Cursor

/-- From the first cursor up to the second one, the tokens tile the source: put in front of tokens
that tile the rest, they tile the whole. -/
def Tiled (zone : Zone) (cursor : Cursor) (tokens : List Token) (last : Zone) (stop : Cursor) :
    Prop :=
  cursor.Small → stop.Small ∧
    ∀ more, Tiles last stop.offset stop.rest more →
      Tiles zone cursor.offset cursor.rest (tokens ++ more)

namespace Tiled

variable {zone between last : Zone} {cursor middle stop : Cursor} {tokens others : List Token}

theorem refl (zone : Zone) (cursor : Cursor) : Tiled zone cursor [] zone cursor :=
  fun small => ⟨small, fun _ tiles => tiles⟩

theorem trans (first : Tiled zone cursor tokens between middle)
    (second : Tiled between middle others last stop) :
    Tiled zone cursor (tokens ++ others) last stop := by
  intro small
  obtain ⟨smallMiddle, front⟩ := first small
  obtain ⟨smallStop, back⟩ := second smallMiddle
  refine ⟨smallStop, fun more tiles => ?_⟩
  rw [List.append_assoc]
  exact front _ (back _ tiles)

/-- Blanks and continued newlines of a directive line are left out. -/
theorem skip (cursor : Cursor) : Tiled .line cursor [] .line cursor.skip := by
  have tiles : ∀ (text : Bytes) (offset : Nat) (more : List Token),
      Tiles .line (offset + (Lexeme.continuation text).length)
        (text.drop (Lexeme.continuation text).length) more → Tiles .line offset text more := by
    intro text
    fun_induction Lexeme.continuation text with
    | case1 => exact fun _ _ tiles => tiles
    | case2 last blank => exact fun _ _ tiles => .blank blank tiles
    | case3 => exact fun _ _ tiles => tiles
    | case4 first second rest blank ih =>
        intro offset more tiles
        refine .blank blank (ih (offset + 1) more ?_)
        rw [List.length_cons, List.drop_succ_cons] at tiles
        rwa [Nat.add_right_comm]
    | case5 first second rest _ continued ih =>
        intro offset more tiles
        obtain ⟨rfl, rfl⟩ := continued
        refine .continued (ih (offset + 2) more ?_)
        rw [List.length_cons, List.length_cons, List.drop_succ_cons, List.drop_succ_cons] at tiles
        rwa [Nat.add_right_comm]
    | case6 => exact fun _ _ tiles => tiles
  intro small
  obtain ⟨rest, left⟩ := Lexeme.prefix_continuation cursor.rest
  refine ⟨small_advance small left.symm, fun more later => tiles _ _ _ ?_⟩
  rwa [Cursor.skip, offset_advance small left.symm] at later

/-- A lexeme makes a token that lies on it. -/
theorem lexeme {first : Byte} {lexeme : Lexeme} (inline : lexeme.kind.isInline = true)
    (inText : first :: lexeme.more <+: cursor.rest)
    (text : Lexeme.tokenText lexeme.kind (first :: lexeme.more) =
      zone.textOf lexeme.kind (first :: lexeme.more)) :
    Tiled zone cursor [cursor.token first lexeme] zone
      (cursor.advance (first :: lexeme.more)) := by
  intro small
  obtain ⟨rest, left⟩ := inText
  have moved := offset_advance small left.symm
  refine ⟨small_advance small left.symm, fun more tiles => ?_⟩
  rw [moved, rest_advance left.symm] at tiles
  rw [← left]
  have goesOn : lexeme.kind ≠ .fileEnd := by
    intro last
    rw [last] at inline
    cases inline
  rw [← Zone.after_inline zone inline] at tiles
  exact .token goesOn ⟨rfl, moved⟩ (writes_of_inline rest inline text) tiles

end Tiled

/-! ## Directive lines -/

/-- The empty token between the head of a definition and its body. -/
theorem tiled_point (cursor : Cursor) : Tiled .line cursor [cursor.point .body] .body cursor := by
  refine fun small => ⟨small, fun more tiles => ?_⟩
  have goesOn : (cursor.point .body).kind ≠ .fileEnd := fun last => by cases last
  exact @Tiles.token _ _ [] _ _ _ goesOn ⟨rfl, rfl⟩ rfl tiles

/-- The tokens of a directive line tile it. -/
theorem Trail.tiled {inBody : Bool} {cursor stop : Cursor} {tokens : List Token}
    (trail : Trail inBody cursor tokens stop) :
    ∃ zone, Tiled (bif inBody then .body else .line) cursor tokens zone stop := by
  induction trail with
  | stop => exact ⟨_, .refl _ _⟩
  | @skip cursor _ _ _ ih =>
      obtain ⟨zone, tiled⟩ := ih
      exact ⟨zone, (Tiled.skip cursor).trans tiled⟩
  | inLine found lexed _ ih =>
      obtain ⟨zone, tiled⟩ := ih
      have inText := prefix_of_inLine? found (Lexeme.prefix_inLine lexed)
      exact ⟨zone, (Tiled.lexeme (Lexeme.isInline_inLine lexed) inText
        (Lexeme.tokenText_of_ne_space _ (Lexeme.kind_ne_space_of_inLine lexed) _)).trans tiled⟩
  | @opens cursor _ _ _ ih =>
      obtain ⟨zone, tiled⟩ := ih
      exact ⟨zone, (tiled_point cursor).trans tiled⟩
  | inBody found lexed _ ih =>
      obtain ⟨zone, tiled⟩ := ih
      have inText := prefix_of_inLine? found (Lexeme.prefix_inBody lexed)
      exact ⟨zone, (Tiled.lexeme (Lexeme.isInline_inBody lexed) inText
        (Lexeme.tokenText_inBody lexed)).trans tiled⟩

/-- The start of a directive line is blanks and the bytes that introduce its word. -/
theorem introduces_of_head? {text : Bytes} {head : Head} (found : head? text = some head) :
    (∀ byte ∈ head.blanks, Byte.isBlank byte = true) ∧
      ∃ rest, text = head.blanks ++ (head.raw ++ rest) ∧
        Introduces head.raw rest head.directive.word := by
  have blank : ∀ text : Bytes, ∀ byte ∈ text.takeWhile Byte.isBlank, Byte.isBlank byte = true :=
    fun text byte member => List.mem_takeWhile_imp member
  have whole := List.takeWhile_append_dropWhile (p := Byte.isBlank) (l := text)
  unfold head? at found
  split at found
  · cases found
  · rename_i first rest tail
    rw [tail] at whole
    have spaced := List.takeWhile_append_dropWhile (p := Byte.isBlank) (l := rest)
    split at found
    · rename_i hash
      subst hash
      dsimp only at found
      split at found
      · rename_i digit
        cases found
        refine ⟨blank text, rest.dropWhile Byte.isBlank, ?_, by simp, _, blank rest,
          .inr ⟨rfl, rfl, digit⟩⟩
        rw [List.cons_append, spaced, whole]
      · obtain ⟨directive, isWord, rfl⟩ := Option.map_eq_some_iff.1 found
        have word := List.takeWhile_append_dropWhile (p := Byte.isLetter)
          (l := rest.dropWhile Byte.isBlank)
        refine ⟨blank text, (rest.dropWhile Byte.isBlank).dropWhile Byte.isLetter, ?_, by simp, _,
          blank rest, .inl ?_⟩
        · dsimp only
          rw [List.cons_append, List.cons_append, List.append_assoc, word, spaced, whole]
        · rw [Directive.word_of_ofWord? isWord]
    · cases found

theorem offset_renumber {tokens : List Token} {cursor next : Cursor}
    (read : renumber tokens cursor = .ok next) : next.offset = cursor.offset := by
  unfold renumber at read
  split at read
  · split at read
    · cases read
    · cases read
      rfl
  · cases read
    rfl

theorem offset_nextLine {directive : Directive} {tokens : List Token} {stop next : Cursor}
    (read : nextLine directive tokens stop = .ok next) :
    next.offset = (stop.advance (stop.rest.take 1)).offset ∧
      next.rest = (stop.advance (stop.rest.take 1)).rest := by
  unfold nextLine at read
  dsimp only at read
  split at read
  · exact ⟨offset_renumber read, rest_renumber read⟩
  · cases read
    exact ⟨rfl, rfl⟩

/-- The end of a directive line, and the newline after it. -/
theorem tiled_nextLine {directive : Directive} {tokens : List Token} {zone : Zone}
    {stop next : Cursor} (ended : stop.inLine? = none)
    (read : nextLine directive tokens stop = .ok next) :
    Tiled zone stop [stop.point .lineEnd] .text next := by
  intro small
  obtain ⟨newline, rest, left, taken, kind⟩ := ended_of_inLine? ended
  obtain ⟨sameOffset, sameRest⟩ := offset_nextLine read
  rw [taken, offset_advance small left] at sameOffset
  rw [taken, rest_advance left] at sameRest
  constructor
  · rw [Cursor.Small, left, List.length_append] at small
    rw [Cursor.Small, sameOffset, sameRest]
    omega
  · intro more tiles
    rw [sameOffset, sameRest] at tiles
    rw [left]
    exact .lineEnd rfl rfl ⟨rfl, rfl⟩ kind tiles

theorem tiled_ofDirective {head : Head} {cursor next : Cursor} {tokens : List Token}
    (found : head? cursor.rest = some head) (read : ofDirective head cursor = .ok (tokens, next)) :
    Tiled .text cursor tokens .text next := by
  obtain ⟨inner, stop, line, rfl⟩ := line_of_ofDirective read
  obtain ⟨blank, rest, left, introduces⟩ := introduces_of_head? found
  obtain ⟨zone, tiled⟩ := line.trail.tiled
  have word : Tiled .text cursor [⟨.directive, head.directive.word,
      (cursor.advance head.blanks).location head.raw⟩] .line
        ((cursor.advance head.blanks).advance head.raw) := by
    intro small
    have smallWord := small_advance small left
    have leftWord := rest_advance left
    have start := offset_advance small left
    have moved := offset_advance smallWord leftWord
    refine ⟨small_advance smallWord leftWord, fun more tiles => ?_⟩
    rw [moved, start, rest_advance leftWord] at tiles
    rw [left]
    refine .indent rfl start blank (.token (fun last => by cases last) ⟨start, ?_⟩ introduces tiles)
    rw [← start]
    exact moved
  exact word.trans (tiled.trans (tiled_nextLine line.trail.ended line.following))

/-! ## Sources -/

/-- The tokens of what is left of a source tile it. -/
theorem tiles_ofSource {fresh : Bool} {cursor : Cursor} {tokens : List Token}
    (read : ofSource fresh cursor = .ok tokens) (small : cursor.Small) :
    Tiles .text cursor.offset cursor.rest tokens := by
  fun_induction ofSource fresh cursor generalizing tokens with
  | case1 => cases read
  | case2 => cases read
  | case3 fresh cursor head found lineTokens next line rest source ih =>
      cases read
      have found : head? cursor.rest = some head := by
        cases fresh with
        | false => cases found
        | true => exact found
      obtain ⟨smallNext, tiled⟩ := tiled_ofDirective found line small
      exact tiled rest (ih source smallNext)
  | case4 fresh cursor _ ended =>
      cases read
      rw [ended]
      exact .stop rfl rfl ⟨rfl, rfl⟩
  | case5 => cases read
  | case6 => cases read
  | case7 fresh cursor noHead first rest left lexeme lexed tail source ih =>
      cases read
      have inText := cons_prefix_of_eq left (Lexeme.prefix_inSource lexed)
      have token := Tiled.lexeme (Lexeme.isInline_inSource lexed) inText
        (Lexeme.tokenText_inSource lexed)
      obtain ⟨smallNext, tiled⟩ := token small
      exact tiled tail (ih source smallNext)

theorem tiles_scan {file text : Bytes} {tokens : List Token}
    (scanned : scan file text = .ok tokens) (small : text.length < UInt32.size) :
    Tiles .text 0 text tokens := by
  refine tiles_ofSource scanned ?_
  rw [Cursor.Small]
  change 0 + text.length < UInt32.size
  omega

end Token

end ScopedMacros
