import ScopedMacros.Proofs.Contents
import ScopedMacros.Proofs.Extent
import ScopedMacros.Proofs.Relexing

/-!
# What a source can be read as

A source that cannot be scanned, or whose tokens cannot be read, gives an error of form.  A token of
space holds nothing but space, and a parenthesis or a comma is written as one, so the nodes of a
source are made of its names and of space.
-/

namespace ScopedMacros

namespace Lexeme

variable {first : Byte} {rest : Bytes} {lexeme : Lexeme} {failure : Failure}

theorem kind_of_string_error {multiline : Bool} (failed : string multiline rest = .error failure) :
    failure.cause.kind = .form := by
  unfold string at failed
  dsimp only at failed
  split at failed
  · cases failed
  · cases failed
    rfl

theorem kind_of_solid_error {multiline : Bool}
    (failed : solid multiline first rest = .error failure) : failure.cause.kind = .form := by
  unfold solid at failed
  split at failed
  · cases failed
  split at failed
  · cases failed
  split at failed
  · exact kind_of_string_error failed
  split at failed
  · cases failed
  split at failed
  · cases failed
  split at failed
  · cases failed
  split at failed
  · cases failed
  · cases failed

theorem kind_of_inSource_error (failed : inSource first rest = .error failure) :
    failure.cause.kind = .form := by
  unfold inSource at failed
  split at failed
  · cases failed
  split at failed
  · cases failed
  · exact kind_of_solid_error failed

theorem kind_of_inBody_error (failed : inBody first rest = .error failure) :
    failure.cause.kind = .form := by
  unfold inBody at failed
  split at failed
  · cases failed
  · exact kind_of_solid_error failed

theorem kind_of_inLine_error (failed : inLine first rest = .error failure) :
    failure.cause.kind = .form := by
  unfold inLine at failed
  split at failed
  · cases failed
  split at failed
  · exact kind_of_string_error failed
  split at failed
  · dsimp only at failed
    split at failed
    · cases failed
    · cases failed
      rfl
  split at failed
  · cases failed
  split at failed
  · cases failed
  split at failed
  · cases failed
  split at failed
  · cases failed
  · cases failed
    rfl

/-- Continued space is blanks and newlines once its backslashes are taken out. -/
theorem isSpace_of_mem_continuation {text : Bytes} {byte : Byte} (member : byte ∈ continuation text) :
    Byte.isSpace byte = true ∨ byte = Byte.backslash := by
  fun_induction continuation text with
  | case1 => cases member
  | case2 last blank =>
      rw [List.mem_singleton.1 member]
      exact .inl (by simp [Byte.isSpace, blank])
  | case3 => cases member
  | case4 first second rest blank ih =>
      rcases List.mem_cons.1 member with rfl | member
      · exact .inl (by simp [Byte.isSpace, blank])
      · exact ih member
  | case5 first second rest _ continued ih =>
      rcases List.mem_cons.1 member with rfl | member
      · exact .inr continued.1
      rcases List.mem_cons.1 member with rfl | member
      · exact .inl (by simp [Byte.isSpace, continued.2])
      · exact ih member
  | case6 => cases member

end Lexeme

namespace Token

/-- A token of space holds nothing but space, and a mark is written as such. -/
structure Genuine (token : Token) : Prop where
  space : token.kind = .space → ∀ byte ∈ token.text, Byte.isSpace byte = true
  mark : ∀ mark ∈ token.kind.mark?, token.text = mark

variable {cursor stop : Cursor} {first : Byte} {rest : Bytes} {lexeme : Lexeme}

theorem genuine_of_ne {token : Token} (noSpace : token.kind ≠ .space)
    (noMark : token.kind.mark? = none) : token.Genuine where
  space := fun kind => absurd kind noSpace
  mark := by simp [noMark]

theorem genuine_of_solid {multiline : Bool} (lexed : Lexeme.solid multiline first rest = .ok lexeme) :
    (cursor.token first lexeme).Genuine := by
  have noSpace : lexeme.kind ≠ .space := by
    intro same
    have solid := Lexeme.isSolid_solid lexed
    rw [same] at solid
    cases solid
  refine ⟨fun kind => absurd kind noSpace, fun mark member => ?_⟩
  rw [← text_of_mark lexed mark member]
  simp [Cursor.token, Lexeme.tokenText, noSpace]

theorem genuine_inSource (lexed : Lexeme.inSource first rest = .ok lexeme) :
    (cursor.token first lexeme).Genuine := by
  refine ⟨?_, (proper_token cursor lexed).2⟩
  rcases Lexeme.inSource_cases lexed with ⟨_, all, _⟩ | ⟨solid, _⟩
  · intro kind byte member
    change byte ∈ Lexeme.tokenText lexeme.kind (first :: lexeme.more) at member
    rw [Lexeme.tokenText, if_pos (show lexeme.kind = .space from kind)] at member
    exact all byte (List.mem_filter.1 member).1
  · intro kind
    have same : lexeme.kind = .space := kind
    rw [same] at solid
    cases solid

theorem genuine_inBody (lexed : Lexeme.inBody first rest = .ok lexeme) :
    (cursor.token first lexeme).Genuine := by
  unfold Lexeme.inBody at lexed
  split at lexed
  · next byte more space =>
      cases lexed
      have whole : first :: more = Lexeme.continuation (first :: rest) := by
        obtain ⟨after, same⟩ := Lexeme.prefix_continuation (first :: rest)
        rw [space] at same ⊢
        injection same with same
        rw [same]
      refine ⟨fun _ byte member => ?_, by simp [Cursor.token, Kind.mark?]⟩
      change byte ∈ (first :: more).filter (· != Byte.backslash) at member
      rw [whole] at member
      obtain ⟨among, other⟩ := List.mem_filter.1 member
      exact (Lexeme.isSpace_of_mem_continuation among).resolve_right (by simpa using other)
  · exact genuine_of_solid lexed

theorem genuine_inLine (lexed : Lexeme.inLine first rest = .ok lexeme) :
    (cursor.token first lexeme).Genuine := by
  refine ⟨fun kind => absurd kind (Lexeme.kind_ne_space_of_inLine lexed), ?_⟩
  unfold Lexeme.inLine at lexed
  split at lexed
  · cases lexed
    simp [Cursor.token, Kind.mark?]
  split at lexed
  · obtain ⟨_, rfl⟩ := Lexeme.closed_of_string lexed
    simp [Cursor.token, Kind.mark?]
  split at lexed
  · dsimp only at lexed
    split at lexed
    · cases lexed
      simp [Cursor.token, Kind.mark?]
    · cases lexed
  split at lexed
  · cases lexed
    simp [Cursor.token, Kind.mark?]
  split at lexed
  · next paren =>
      cases lexed
      simp [Cursor.token, Kind.mark?, Lexeme.tokenText, paren]
  split at lexed
  · next paren =>
      cases lexed
      simp [Cursor.token, Kind.mark?, Lexeme.tokenText, paren]
  split at lexed
  · next comma =>
      cases lexed
      simp [Cursor.token, Kind.mark?, Lexeme.tokenText, comma]
  · cases lexed

/-- Genuine tokens, with a cursor after them. -/
abbrev ScansWell (answer : Except Error (List Token × Cursor)) : Prop :=
  WellRead (fun read => ∀ token ∈ read.1, token.Genuine) answer

theorem scansWell_ofLine (cursor : Cursor) : ScansWell (ofLine cursor) := by
  fun_induction ofLine cursor with
  | case1 cursor => simp [WellRead]
  | case2 cursor next found failure failed => exact Lexeme.kind_of_inLine_error failed
  | case3 cursor next found lexeme lexed error failed ih =>
      rw [failed] at ih
      exact ih
  | case4 cursor next found lexeme lexed tokens stop read ih =>
      rw [read] at ih
      exact List.forall_mem_cons.2 ⟨genuine_inLine lexed, ih⟩

theorem scansWell_ofParameters (start : Position) (cursor : Cursor) :
    ScansWell (ofParameters start cursor) := by
  fun_induction ofParameters start cursor with
  | case1 => exact rfl
  | case2 cursor next found failure failed => exact Lexeme.kind_of_inLine_error failed
  | case3 cursor next found lexeme lexed =>
      exact List.forall_mem_cons.2 ⟨genuine_inLine lexed, by simp⟩
  | case4 =>
      rename_i failed ih
      rw [failed] at ih
      exact ih
  | case5 =>
      rename_i lexed _ _ _ _ _ read ih
      rw [read] at ih
      exact List.forall_mem_cons.2 ⟨genuine_inLine lexed, ih⟩

theorem scansWell_ofBody (cursor : Cursor) : ScansWell (ofBody cursor) := by
  fun_induction ofBody cursor with
  | case1 cursor => simp [WellRead]
  | case2 cursor next found failure failed => exact Lexeme.kind_of_inBody_error failed
  | case3 cursor next found lexeme lexed error failed ih =>
      rw [failed] at ih
      exact ih
  | case4 cursor next found lexeme lexed tokens stop read ih =>
      rw [read] at ih
      exact List.forall_mem_cons.2 ⟨genuine_inBody lexed, ih⟩

theorem scansWell_afterName (cursor : Cursor) : ScansWell (afterName cursor) := by
  unfold afterName
  split
  · refine (scansWell_ofParameters cursor.position _).bind fun read each => ?_
    refine List.forall_mem_cons.2 ⟨?_, each⟩
    constructor
    · simp [Cursor.token]
    · simp [Cursor.token, Kind.mark?, Lexeme.tokenText]
  · simp [WellRead]

theorem scansWell_ofDefinition (cursor : Cursor) : ScansWell (ofDefinition cursor) := by
  refine (scansWell_afterName cursor).bind fun parameters each => ?_
  refine (scansWell_ofBody parameters.2).bind fun body others => ?_
  refine List.forall_mem_append.2 ⟨each, List.forall_mem_cons.2 ⟨?_, others⟩⟩
  exact genuine_of_ne (by simp [Cursor.point]) rfl

theorem scansWell_afterWord (directive : Directive) (cursor : Cursor) :
    ScansWell (afterWord directive cursor) := by
  unfold afterWord
  split
  · unfold ofDefine
    split
    · split
      · refine (scansWell_ofDefinition _).bind fun read each => ?_
        exact List.forall_mem_cons.2 ⟨genuine_of_ne (by simp [Cursor.token]) rfl, each⟩
      · exact scansWell_ofLine cursor
    · exact scansWell_ofLine cursor
  · exact scansWell_ofLine cursor

theorem wellRead_nextLine (directive : Directive) (tokens : List Token) (stop : Cursor) :
    WellRead (fun _ => True) (nextLine directive tokens stop) := by
  unfold nextLine
  dsimp only
  split
  · unfold renumber
    split
    · split
      · exact rfl
      · trivial
    · trivial
  · trivial

theorem scansWell_ofDirective (head : Head) (cursor : Cursor) :
    ScansWell (ofDirective head cursor) := by
  refine (scansWell_afterWord head.directive _).bind fun line each => ?_
  refine (wellRead_nextLine head.directive line.1 line.2).bind fun next _ => ?_
  refine List.forall_mem_append.2 ⟨List.forall_mem_cons.2 ⟨?_, each⟩, ?_⟩
  · exact genuine_of_ne (by simp) rfl
  · exact List.forall_mem_cons.2 ⟨genuine_of_ne (by simp [Cursor.point]) rfl, by simp⟩

theorem wellRead_ofSource (fresh : Bool) (cursor : Cursor) :
    WellRead (fun tokens => ∀ token ∈ tokens, token.Genuine) (ofSource fresh cursor) := by
  fun_induction ofSource fresh cursor with
  | case1 fresh cursor head found error failed =>
      have line := scansWell_ofDirective head cursor
      rw [failed] at line
      exact line
  | case2 fresh cursor head found tokens next line error failed ih =>
      rw [failed] at ih
      exact ih
  | case3 fresh cursor head found tokens next line rest read ih =>
      have each := scansWell_ofDirective head cursor
      rw [line] at each
      rw [read] at ih
      exact List.forall_mem_append.2 ⟨each, ih⟩
  | case4 => exact List.forall_mem_cons.2 ⟨genuine_of_ne (by simp [Cursor.point]) rfl, by simp⟩
  | case5 fresh cursor noHead first rest left failure failed =>
      exact Lexeme.kind_of_inSource_error failed
  | case6 fresh cursor noHead first rest left lexeme lexed error failed ih =>
      rw [failed] at ih
      exact ih
  | case7 fresh cursor noHead first rest left lexeme lexed tail read ih =>
      rw [read] at ih
      exact List.forall_mem_cons.2 ⟨genuine_inSource lexed, ih⟩

theorem wellRead_scan (file text : Bytes) :
    WellRead (fun tokens => ∀ token ∈ tokens, token.Genuine) (scan file text) :=
  wellRead_ofSource true _

end Token

namespace Vocabulary

/-- The names that satisfy a test, and space. -/
def named (allowed : Bytes → Prop) : Vocabulary :=
  ⟨allowed, fun text => ∀ byte ∈ text, Byte.isSpace byte = true⟩

end Vocabulary

/-- The names in the nodes of a source are the texts of its name tokens, and the space in them is
space.  A source that cannot be read gives an error of form. -/
theorem Node.wellRead_ofSource (allowed : Bytes → Prop) (file text : Bytes)
    (names : ∀ tokens, Token.scan file text = .ok tokens →
      ∀ token ∈ tokens, token.kind = .ident → allowed token.text) :
    WellRead (fun nodes => ∀ node ∈ nodes, node.MadeFrom (.named allowed))
      (Node.ofSource file text) := by
  have scanned := Token.wellRead_scan file text
  unfold Node.ofSource
  cases read : Token.scan file text with
  | error error =>
      rw [read] at scanned
      exact scanned
  | ok tokens =>
      rw [read] at scanned
      exact Node.wellRead_ofTokens fun token member =>
        ⟨names tokens read token member, (scanned token member).space⟩

/-- A source that cannot be read gives an error of form. -/
theorem Node.form_of_ofSource {file text : Bytes} {error : Error}
    (failed : Node.ofSource file text = .error error) : error.kind = .form := by
  have well := Node.wellRead_ofSource (fun _ => True) file text fun _ _ _ _ _ => trivial
  rw [failed] at well
  exact well

end ScopedMacros
