import ScopedMacros.Proofs.Extent
import ScopedMacros.Proofs.Reader

/-!
# Reading the output again

The output holds the tokens that a reader of the sources comes upon, and a marker wherever it leaves
a gap.  Between two markers it goes on as the source does, so each token is found again, and seen at
the same place.
-/

namespace ScopedMacros

namespace Position

/-- The same file, line and column. -/
structure Agree (left right : Position) : Prop where
  file : left.file = right.file
  line : left.line = right.line
  column : left.column = right.column

theorem Agree.advance {left right : Position} (agree : Agree left right) (text : Bytes) :
    Agree (left.advance text) (right.advance text) := by
  induction text generalizing left right with
  | nil => exact agree
  | cons byte rest ih =>
      refine ih ⟨?_, ?_, ?_⟩
      · rw [file_step, file_step, agree.file]
      · rw [line_step, line_step, agree.line]
      · rw [column_step, column_step, agree.column]

end Position

/-! ## Lexemes of a source -/

namespace Lexeme

theorem isSpace_blankLine (text : Bytes) :
    ∀ byte ∈ blankLine text, Byte.isSpace byte = true := by
  induction text with
  | nil => simp [blankLine]
  | cons byte rest ih =>
      rw [Token.blankLine_cons]
      split
      · rename_i blank
        intro other member
        rcases List.mem_cons.1 member with rfl | member
        · simp [Byte.isSpace, blank]
        · exact ih other member
      split
      · rename_i newline
        simp [newline, Byte.isSpace]
      · simp

/-- A newline can only be the last byte of space. -/
theorem getLast?_blankLine {first : Byte} (blank : Byte.isBlank first = true) (text : Bytes) :
    ((first :: blankLine text).getLast? == some Byte.newline) =
      (first :: blankLine text).contains Byte.newline := by
  have notNewline : ∀ byte, Byte.isBlank byte = true → byte ≠ Byte.newline := by
    decide +kernel
  induction text generalizing first with
  | nil => simp [blankLine, notNewline first blank, (notNewline first blank).symm]
  | cons byte rest ih =>
      rw [Token.blankLine_cons]
      split
      · rename_i blank'
        have others : (first :: byte :: blankLine rest).contains Byte.newline =
            (byte :: blankLine rest).contains Byte.newline := by
          simp [(notNewline first blank).symm]
        rw [List.getLast?_cons_cons, ih blank', others]
      split
      · rename_i newline
        simp [newline]
      · simp [notNewline first blank, (notNewline first blank).symm]

theorem isSolid_solid {multiline : Bool} {first : Byte} {rest : Bytes} {lexeme : Lexeme}
    (found : solid multiline first rest = .ok lexeme) : lexeme.kind.isSolid = true := by
  rcases solid_cases found with ⟨kind, test, word, rfl⟩ | string | rfl | ⟨kind, mark, rfl⟩
  · rcases word with rfl | rfl <;> rfl
  · obtain ⟨_, rfl⟩ := closed_of_string string
    rfl
  · unfold character
    split <;> rfl
  · cases kind <;> first | rfl | cases mark

/-- A lexeme of a source is space, with a newline at most at its end, or it is text. -/
theorem inSource_cases {first : Byte} {rest : Bytes} {lexeme : Lexeme}
    (found : inSource first rest = .ok lexeme) :
    (lexeme.kind = .space ∧ (∀ byte ∈ first :: lexeme.more, Byte.isSpace byte = true) ∧
      ((first :: lexeme.more).getLast? == some Byte.newline) =
        (first :: lexeme.more).contains Byte.newline) ∨
    (lexeme.kind.isSolid = true ∧ solid true first rest = .ok lexeme ∧
      first ≠ Byte.newline ∧ Byte.isBlank first = false) := by
  unfold inSource at found
  split at found
  · rename_i newline
    cases found
    subst newline
    exact .inl ⟨rfl, by simp [Byte.isSpace], rfl⟩
  rename_i notNewline
  split at found
  · rename_i blank
    cases found
    refine .inl ⟨rfl, ?_, getLast?_blankLine blank rest⟩
    intro byte member
    rcases List.mem_cons.1 member with rfl | member
    · simp [Byte.isSpace, blank]
    · exact isSpace_blankLine rest byte member
  · rename_i notBlank
    exact .inr ⟨isSolid_solid found, found, notNewline, Bool.eq_false_iff.2 notBlank⟩

end Lexeme

namespace Token

variable {cursor : Cursor} {first : Byte} {rest : Bytes} {lexeme : Lexeme}

theorem event_of_space (space : lexeme.kind = .space)
    (all : ∀ byte ∈ first :: lexeme.more, Byte.isSpace byte = true) :
    (cursor.token first lexeme).event = .space (first :: lexeme.more) := by
  have noBackslash : ∀ byte ∈ first :: lexeme.more, (byte != Byte.backslash) = true := by
    intro byte member
    have isSpace := all byte member
    rw [bne_iff_ne]
    rintro rfl
    cases isSpace
  simp [event, Cursor.token, space, Lexeme.tokenText, List.filter_eq_self.2 noBackslash]

theorem event_of_solid (solid : lexeme.kind.isSolid = true) :
    (cursor.token first lexeme).event = .text cursor.position (first :: lexeme.more) := by
  have notSpace : lexeme.kind ≠ .space := by
    intro space
    rw [space] at solid
    cases solid
  simp [event, Cursor.token, notSpace, Lexeme.tokenText, Cursor.location]

theorem freshAfter_of_solid (fresh : Bool) (first : Byte) (solid : lexeme.kind.isSolid = true) :
    freshAfter fresh first lexeme = false := by
  have notSpace : (lexeme.kind == .space) = false := by
    rw [beq_eq_false_iff_ne]
    intro space
    rw [space] at solid
    cases solid
  simp [freshAfter, notSpace]

theorem sight?_of_space (space : lexeme.kind = .space) :
    (cursor.token first lexeme).sight? = none := by
  simp [sight?, Cursor.token, space, Kind.isSolid]

end Token

/-! ## Marks that follow sources -/

/-- The text of marks follows a source from a cursor on, as scanning finds it, and after a gap it
starts anew at some line of some source.  A gap stands where a line has held nothing but blanks, or at
the end of a source. -/
inductive Traced : Option (Bool × Cursor) → List Mark → Prop where
  | stop {state : Option (Bool × Cursor)}
      (idle : ∀ cursor, state = some (false, cursor) → cursor.rest = []) : Traced state []
  | gap {state : Option (Bool × Cursor)} {marks : List Mark}
      (idle : ∀ cursor, state = some (false, cursor) → cursor.rest = [])
      (traced : Traced none marks) : Traced state (.gap :: marks)
  | resume {cursor : Cursor} {marks : List Mark} (traced : Traced (some (true, cursor)) marks) :
      Traced none marks
  | text {fresh : Bool} {cursor : Cursor} {first : Byte} {rest : Bytes} {lexeme : Lexeme}
      {marks : List Mark} (noHead : fresh = true → Token.head? cursor.rest = none)
      (left : cursor.rest = first :: rest) (lexed : Lexeme.inSource first rest = .ok lexeme)
      (small : cursor.position.line.toNat ≤ 0x7fffffff)
      (traced : Traced (some (Token.freshAfter fresh first lexeme,
        cursor.advance (first :: lexeme.more))) marks) :
      Traced (some (fresh, cursor)) (.text (cursor.token first lexeme) :: marks)

namespace Traced

variable {marks more : List Mark} {cursor : Cursor}

/-- Other marks may come after a gap. -/
theorem append_gap {state : Option (Bool × Cursor)} (first : Traced state marks)
    (second : Traced none more) : Traced state (marks ++ .gap :: more) := by
  induction first with
  | stop idle => exact .gap idle second
  | gap idle _ ih => exact .gap idle ih
  | resume _ ih => exact .resume ih
  | text noHead left lexed small _ ih => exact .text noHead left lexed small ih

theorem none_of_fresh {live : Bool}
    (traced : Traced (if live then some (true, cursor) else none) marks) : Traced none marks := by
  cases live with
  | false => exact traced
  | true => exact .resume traced

end Traced

namespace Item

variable {files : FileSet} {ancestry : List Bytes}

/-- One level of inclusion: if the marks of included files follow those files, so do the marks of the
file that includes them. -/
theorem traced_of_deeper
    (deeper : ∀ path text tokens env, path ∉ ancestry → files.contents? path = some text →
      Token.scan path text = .ok tokens →
        Traced none (read files (path :: ancestry) [] env (ofTokens tokens)).marks)
    {fresh : Bool} {cursor : Cursor} {items : List Item} (laid : Token.Laid fresh cursor items)
    (traceable : ∀ item ∈ items, item.isTraceable = true)
    (small : cursor.position.line.toNat + cursor.rest.length ≤ 2 ^ 31) (gates : List Gate)
    (env : Env) :
    Traced (if Gate.live gates then some (fresh, cursor) else none)
      (read files ancestry gates env items).marks := by
  induction laid generalizing gates env with
  | stop fresh ended =>
      rw [read_nil]
      refine .stop fun cursor state => ?_
      split at state
      · cases state
        exact ended
      · cases state
  | @text fresh cursor first rest lexeme items noHead left lexed laid ih =>
      have passes : cursor.Passes (cursor.advance (first :: lexeme.more)) :=
        ⟨_, cons_prefix_of_eq left (Lexeme.prefix_inSource lexed), rfl⟩
      have follows := ih (fun item member => traceable item (by simp [member]))
        (Nat.le_trans passes.line_add_length_le small) gates env
      rw [read_text]
      cases live : Gate.live gates with
      | true =>
          rw [live] at follows
          have nonempty : cursor.rest.length ≠ 0 := by simp [left]
          exact .text noHead left lexed (by omega) follows
      | false =>
          rw [live] at follows
          exact follows
  | @line cursor stop next head inner items found line laid ih =>
      have idle : ∀ other, (if Gate.live gates then some (true, cursor) else none) =
          some (false, other) → other.rest = [] := by
        intro other state
        split at state <;> cases state
      have other : head.directive ≠ .line := by
        intro isLine
        have traced := traceable (.line (head.word cursor) inner (stop.point .lineEnd)) (by simp)
        rw [isTraceable, Token.Head.word, Directive.ofWord?_word, isLine] at traced
        cases traced
      have bound := Nat.le_trans (line.passes found other).line_add_length_le small
      have follows : ∀ gates env, Traced none (read files ancestry gates env items).marks :=
        fun gates env => .none_of_fresh
          (ih (fun item member => traceable item (by simp [member])) bound gates env)
      generalize (if Gate.live gates then some (true, cursor) else none) = state at idle ⊢
      rw [read_line]
      split
      · exact .gap idle (follows _ _)
      · split
        · exact .gap idle (follows _ _)
        · rename_i path inner included
          obtain ⟨new, text, tokens, contents, scanned, rfl⟩ :=
            exists_contents_of_included? included
          have file := deeper path text tokens env new contents scanned
          have whole := Traced.gap idle (file.append_gap (follows gates
            (read files (path :: ancestry) [] env (ofTokens tokens)).env))
          simpa [Passage.after] using whole

/-- The marks of a source follow the source and the files that it includes. -/
theorem traced_of_scan
    (traceable : ∀ path text, files.contents? path = some text → Token.Traceable path text)
    (small : ∀ path text, files.contents? path = some text → text.length < 2 ^ 31)
    {name text : Bytes} {tokens : List Token} (own : Token.Traceable name text)
    (short : text.length < 2 ^ 31) (scanned : Token.scan name text = .ok tokens)
    (ancestry : List Bytes) (env : Env) :
    Traced (some (true, ⟨.first name, text⟩))
      (read files ancestry [] env (ofTokens tokens)).marks := by
  obtain ⟨_, _, _, laid⟩ := Token.exists_stop_of_scan scanned
  have first : (Cursor.mk (.first name) text).position.line.toNat +
      (Cursor.mk (.first name) text).rest.length ≤ 2 ^ 31 := by
    change 1 + text.length ≤ 2 ^ 31
    omega
  refine traced_of_deeper ?_ laid (own tokens scanned) first [] env
  intro path contents inner env new found read
  exact .resume (traced_of_scan traceable small (traceable path contents found)
    (small path contents found) read (path :: ancestry) env)
termination_by (Bytes.unseen files.names ancestry).length
decreasing_by exact Bytes.length_unseen_lt (FileSet.mem_names_of_contents? found) new

end Item

/-! ## The line that goes on -/

namespace Layout

variable (layout : Layout) (file : Option Bytes) (events : List Event)

theorem render_space (content : Bytes) :
    layout.render (.space content :: events) = content ++ layout.render events := by
  simp [render_cons, piecesOf, Piece.render, next]

theorem render_text_owed (position : Position) (content : Bytes) :
    (mk true file).render (.text position content :: events) =
      Byte.newline :: position.marker (file != some position.file) ++
        (content ++ (mk false (some position.file)).render events) := by
  simp [render_cons, piecesOf, marker, Piece.render, next, fileAt]

theorem render_text_paid (position : Position) (content : Bytes) :
    (mk false file).render (.text position content :: events) =
      content ++ (mk false file).render events := by
  simp [render_cons, piecesOf, marker, Piece.render, next, fileAt]

end Layout

namespace Traced

open Bytes

variable {state : Option (Bool × Cursor)} {marks : List Mark} {cursor : Cursor}

/-- Where a marker is owed, the line of the output goes on with blanks only. -/
theorem alike_of_owed (traced : Traced state marks) (file : Option Bytes) :
    Alike [] ((Layout.mk true file).render (marks.flatMap Mark.events)) := by
  induction traced with
  | stop => exact .nil
  | gap _ _ ih => exact ih
  | resume _ ih => exact ih
  | @text fresh cursor first rest lexeme marks noHead left lexed small traced ih =>
      rw [List.flatMap_cons, Mark.events, List.singleton_append]
      rcases Lexeme.inSource_cases lexed with ⟨space, all, _⟩ | ⟨solid, _⟩
      · rw [Token.event_of_space space all, Layout.render_space]
        exact .spaces all ih
      · rw [Token.event_of_solid solid, Layout.render_text_owed]
        exact .ended _

/-- Where no marker is owed, the line of the output goes on as in the source. -/
theorem alike_of_paid (traced : Traced (some (false, cursor)) marks) (file : Option Bytes) :
    Alike cursor.rest ((Layout.mk false file).render (marks.flatMap Mark.events)) := by
  generalize reached : some (false, cursor) = state at traced
  induction traced generalizing cursor with
  | stop idle =>
      rw [idle cursor reached.symm]
      exact .nil
  | gap idle traced =>
      rw [idle cursor reached.symm]
      exact traced.alike_of_owed file
  | resume => cases reached
  | @text fresh cursor' first rest lexeme marks noHead left lexed small traced ih =>
      cases reached
      obtain ⟨after, rfl⟩ := Lexeme.prefix_inSource lexed
      have advanced : (cursor'.advance (first :: lexeme.more)).rest = after := by
        simp [Cursor.advance, left]
      have goesOn : Token.freshAfter false first lexeme = false →
          Alike after ((Layout.mk false file).render (marks.flatMap Mark.events)) := by
        intro stays
        have alike := ih (congrArg some (Prod.ext stays.symm rfl))
        rw [advanced] at alike
        exact alike
      rw [List.flatMap_cons, Mark.events, List.singleton_append, left, ← List.cons_append]
      rcases Lexeme.inSource_cases lexed with ⟨space, all, newline⟩ | ⟨solid, _⟩
      · rw [Token.event_of_space space all, Layout.render_space]
        cases found : (first :: lexeme.more).contains Byte.newline with
        | true => exact .of_newline (List.contains_iff_mem.1 found) _ _
        | false =>
            rw [found] at newline
            apply Alike.append
            apply goesOn
            simp [Token.freshAfter, newline]
      · rw [Token.event_of_solid solid, Layout.render_text_paid]
        apply Alike.append
        apply goesOn
        exact Token.freshAfter_of_solid false first solid

end Traced

/-! ## What is seen of the output -/

/-- What is seen of a mark. -/
def Mark.sight? : Mark → Option Sight
  | .text token => token.sight?
  | .gap => none

theorem Mark.filterMap_text (token : Token) (marks : List Mark) :
    (Mark.text token :: marks).filterMap sight? =
      token.sight?.toList ++ marks.filterMap sight? := by
  rw [List.filterMap_cons, sight?]
  cases token.sight? <;> rfl

/-- Text is seen again at its place if the line goes on alike. -/
theorem Token.sees_of_solid {fresh : Bool} {cursor : Cursor} {position : Position} {first : Byte}
    {after right : Bytes} {lexeme : Lexeme} {seen : List Sight}
    (noHead : fresh = true → head? cursor.rest = none)
    (left : cursor.rest = first :: lexeme.more ++ after)
    (lexed : Lexeme.solid true first (lexeme.more ++ after) = .ok lexeme)
    (solid : lexeme.kind.isSolid = true) (notNewline : first ≠ Byte.newline)
    (notBlank : Byte.isBlank first = false) (agree : position.Agree cursor.position)
    (alike : Bytes.Alike after right)
    (sees : Sees false ⟨position.advance (first :: lexeme.more), right⟩ seen) :
    Sees fresh ⟨position, first :: lexeme.more ++ right⟩
      ((cursor.token first lexeme).sight?.toList ++ seen) := by
  have again : Lexeme.inSource first (lexeme.more ++ right) = .ok lexeme := by
    rw [Lexeme.inSource, if_neg notNewline, if_neg (by simp [notBlank])]
    exact Lexeme.solid_append alike lexed
  have noHeadAgain : fresh = true → head? (first :: lexeme.more ++ right) = none := by
    intro isFresh
    have same := isSome_head?_eq (alike.append (first :: lexeme.more))
    rw [← left, noHead isFresh] at same
    exact Option.not_isSome_iff_eq_none.1 (by rw [same]; decide)
  have sameSight : (cursor.token first lexeme).sight? =
      ((Cursor.mk position (first :: lexeme.more ++ right)).token first lexeme).sight? := by
    simp [sight?, sight, Cursor.token, Cursor.location, solid, agree.file, agree.line, agree.column]
  rw [sameSight, sees_lexeme_iff noHeadAgain rfl again, freshAfter_of_solid fresh first solid,
    Cursor.advance_mk_append]
  exact sees

/-- Where a marker is owed, the output of marks shows them, wherever it stands in the file that the
last marker named. -/
def Mark.ShowsOwed (marks : List Mark) : Prop :=
  ∀ (file : Option Bytes) (position : Position) (fresh : Bool),
    (∀ name, file = some name → position.file = name) →
    Token.Sees fresh ⟨position, (Layout.mk true file).render (marks.flatMap Mark.events)⟩
      (marks.filterMap Mark.sight?)

/-- Where no marker is owed, the output of marks shows them if it stands at the place of their
source. -/
def Mark.ShowsPaid (fresh : Bool) (source : Position) (marks : List Mark) : Prop :=
  ∀ (file : Option Bytes) (position : Position), position.Agree source →
    (∀ name, file = some name → position.file = name) →
    Token.Sees fresh ⟨position, (Layout.mk false file).render (marks.flatMap Mark.events)⟩
      (marks.filterMap Mark.sight?)

namespace Mark

variable {cursor : Cursor} {first : Byte} {lexeme : Lexeme} {marks : List Mark}

theorem showsOwed_space (space : lexeme.kind = .space)
    (all : ∀ byte ∈ first :: lexeme.more, Byte.isSpace byte = true) (shows : ShowsOwed marks) :
    ShowsOwed (.text (cursor.token first lexeme) :: marks) := by
  intro file position fresh named
  rw [List.flatMap_cons, events, List.singleton_append, filterMap_text,
    Token.event_of_space space all, Layout.render_space, Token.sight?_of_space space,
    Option.toList_none, List.nil_append]
  apply Token.sees_of_spaces all
  apply shows
  rw [Position.file_advance]
  exact named

theorem showsPaid_space {fresh : Bool} (space : lexeme.kind = .space)
    (all : ∀ byte ∈ first :: lexeme.more, Byte.isSpace byte = true)
    (newline : ((first :: lexeme.more).getLast? == some Byte.newline) =
      (first :: lexeme.more).contains Byte.newline)
    (shows : ShowsPaid (Token.freshAfter fresh first lexeme)
      (cursor.position.advance (first :: lexeme.more)) marks) :
    ShowsPaid fresh cursor.position (.text (cursor.token first lexeme) :: marks) := by
  -- A newline in the space leads to a new line in the output as in the source.
  have starts : Token.freshAfter fresh first lexeme =
      (fresh || (first :: lexeme.more).contains Byte.newline) := by
    simp only [Token.freshAfter, space, newline, beq_self_eq_true, Bool.true_and]
  rw [starts] at shows
  intro file position agree named
  rw [List.flatMap_cons, events, List.singleton_append, filterMap_text,
    Token.event_of_space space all, Layout.render_space, Token.sight?_of_space space,
    Option.toList_none, List.nil_append]
  apply Token.sees_of_spaces all
  apply shows file _ (agree.advance _)
  rw [Position.file_advance]
  exact named

/-- An owed marker leads to the place where the text stands in its source. -/
theorem showsOwed_solid (solid : lexeme.kind.isSolid = true)
    (small : cursor.position.line.toNat ≤ 0x7fffffff)
    (shows : ShowsPaid true cursor.position (.text (cursor.token first lexeme) :: marks)) :
    ShowsOwed (.text (cursor.token first lexeme) :: marks) := by
  intro file position fresh named
  rw [List.flatMap_cons, events, List.singleton_append, Token.event_of_solid solid,
    Layout.render_text_owed]
  refine Token.sees_of_marker small ?_ ?_
  · intro unnamed
    have same : file = some cursor.position.file := by simpa using unnamed
    exact named _ same
  · intro start sameFile sameLine sameColumn
    have seen := shows (some cursor.position.file) start ⟨sameFile, sameLine, sameColumn⟩
      (fun name same => sameFile.trans (Option.some.inj same))
    rw [List.flatMap_cons, events, List.singleton_append, Token.event_of_solid solid,
      Layout.render_text_paid] at seen
    exact seen

end Mark

/-- The output of marks that follow sources shows them again. -/
theorem Traced.shows {state : Option (Bool × Cursor)} {marks : List Mark}
    (traced : Traced state marks) :
    ((∀ cursor, state ≠ some (false, cursor)) → Mark.ShowsOwed marks) ∧
      ∀ fresh cursor, state = some (fresh, cursor) → Mark.ShowsPaid fresh cursor.position marks := by
  induction traced with
  | stop =>
      constructor
      · intro _ file position fresh _
        exact Token.sees_of_rest_nil rfl
      · intro fresh cursor _ file position _ _
        exact Token.sees_of_rest_nil rfl
  | gap _ _ ih =>
      have shows := ih.1 (by simp)
      constructor
      · intro _ file position fresh named
        exact shows file position fresh named
      · intro fresh cursor _ file position _ named
        exact shows file position fresh named
  | resume _ ih =>
      constructor
      · intro _
        exact ih.1 (by simp)
      · intro fresh cursor same
        cases same
  | @text fresh cursor first rest lexeme marks noHead left lexed small traced ih =>
      have next := ih.2 _ _ rfl
      rcases Lexeme.inSource_cases lexed with ⟨space, all, newline⟩ |
        ⟨solid, again, notNewline, notBlank⟩
      · constructor
        · intro owing
          refine Mark.showsOwed_space space all (ih.1 ?_)
          intro other same
          cases fresh with
          | false => exact owing cursor rfl
          | true => simp [Token.freshAfter, space] at same
        · rintro _ _ ⟨⟩
          exact Mark.showsPaid_space space all newline next
      · have paid : Mark.ShowsPaid fresh cursor.position
            (.text (cursor.token first lexeme) :: marks) := by
          rw [Token.freshAfter_of_solid fresh first solid] at traced next
          intro file position agree named
          obtain ⟨after, rfl⟩ := Lexeme.prefix_inSource lexed
          have alike := traced.alike_of_paid file
          rw [Cursor.advance, left, List.length_cons, List.drop_succ_cons, List.drop_left] at alike
          rw [List.flatMap_cons, Mark.events, List.singleton_append, Mark.filterMap_text,
            Token.event_of_solid solid, Layout.render_text_paid]
          refine Token.sees_of_solid noHead left again solid notNewline notBlank agree alike ?_
          apply next file _ (agree.advance _)
          rw [Position.file_advance]
          exact named
        constructor
        · intro owing
          cases fresh with
          | false => exact absurd rfl (owing cursor)
          | true => exact Mark.showsOwed_solid solid small paid
        · rintro _ _ ⟨⟩
          exact paid

end ScopedMacros
