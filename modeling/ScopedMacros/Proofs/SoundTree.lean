import Mathlib.Algebra.Group.Int.Defs
import Mathlib.Data.List.DropRight
import Mathlib.Data.List.Nodup
import ScopedMacros.Proofs.Assembly
import ScopedMacros.Proofs.Positions
import ScopedMacros.Proofs.Scoping

/-!
# Trees read from sources are sound

Every node of a source, at whatever depth, is as those who expand and show nodes expect it: bodies and
arguments hold nothing but text and uses of macros, no body has space at its ends, parameters are
different names, line numbers are in range, and space is space.
-/

namespace ScopedMacros

/-! ## Tokens -/

namespace Lexeme

/-- Continued space has a byte that is no backslash. -/
theorem filter_continuation_ne_nil {text : Bytes} (nonempty : continuation text ≠ []) :
    (continuation text).filter (· != Byte.backslash) ≠ [] := by
  have blankKept : ∀ {byte : Byte}, Byte.isBlank byte = true → (byte != Byte.backslash) = true := by
    decide +kernel
  fun_cases continuation text with
  | case1 => simp [continuation] at nonempty
  | case2 last blank => simp [blankKept blank]
  | case3 last solid => simp [continuation, solid] at nonempty
  | case4 first second rest blank => simp [blankKept blank]
  | case5 first second rest _ continued =>
      have kept : (second != Byte.backslash) = true := by rw [continued.2]; rfl
      exact List.ne_nil_of_mem (List.mem_filter.2 ⟨by simp, kept⟩)
  | case6 first second rest solid notContinued =>
      simp [continuation, solid, notContinued] at nonempty

end Lexeme

namespace Token

/-- A token of space is made of space and not empty, and one of other text does not start with
space. -/
structure Neat (token : Token) : Prop where
  space : token.kind = .space →
    token.text ≠ [] ∧ ∀ byte ∈ token.text, Byte.isSpace byte = true
  solid : token.kind.isSolid = true →
    ∃ first more, token.text = first :: more ∧ Byte.isSpace first = false

variable {first : Byte} {rest : Bytes} {lexeme : Lexeme}

theorem neat_inSource (cursor : Cursor) (lexed : Lexeme.inSource first rest = .ok lexeme) :
    (cursor.token first lexeme).Neat := by
  rcases Lexeme.inSource_cases lexed with ⟨space, all, _⟩ | ⟨solid, _, notNewline, notBlank⟩
  · refine ⟨fun kind => ⟨?_, (genuine_inSource lexed).space kind⟩, fun solid => ?_⟩
    · have other : ∀ byte : Byte, Byte.isSpace byte = true → (byte != Byte.backslash) = true := by
        decide +kernel
      have kept : first ∈ (first :: lexeme.more).filter (· != Byte.backslash) :=
        List.mem_filter.2 ⟨by simp, other first (all first (by simp))⟩
      have text : (cursor.token first lexeme).text =
          (first :: lexeme.more).filter (· != Byte.backslash) := if_pos space
      rw [text]
      exact List.ne_nil_of_mem kept
    · change lexeme.kind.isSolid = true at solid
      rw [space] at solid
      cases solid
  · have other : lexeme.kind ≠ .space := Lexeme.ne_space_of_isSolid solid
    refine ⟨fun kind => absurd kind other, fun _ => ⟨first, lexeme.more, if_neg other, ?_⟩⟩
    simp [Byte.isSpace, notBlank, notNewline]

theorem neat_inBody (cursor : Cursor) (notNewline : first ≠ Byte.newline)
    (lexed : Lexeme.inBody first rest = .ok lexeme) : (cursor.token first lexeme).Neat := by
  have edged : (cursor.token first lexeme).Edged := edged_inBody notNewline lexed
  refine ⟨fun kind => ⟨?_, edged.space kind⟩, fun solid => edged.first ?_⟩
  · unfold Lexeme.inBody at lexed
    split at lexed
    · next byte more space =>
        cases lexed
        have whole : first :: more = Lexeme.continuation (first :: rest) := by
          obtain ⟨after, same⟩ := Lexeme.prefix_continuation (first :: rest)
          rw [space] at same ⊢
          injection same with same
          rw [same]
        change (first :: more).filter (· != Byte.backslash) ≠ []
        rw [whole]
        exact Lexeme.filter_continuation_ne_nil (by simp [space])
    · have solid := Lexeme.isSolid_solid lexed
      exact absurd kind (Lexeme.ne_space_of_isSolid solid)
  · exact Lexeme.ne_space_of_isSolid solid

theorem neat_inLine (cursor : Cursor) (lexed : Lexeme.inLine first rest = .ok lexeme) :
    (cursor.token first lexeme).Neat := by
  have other := Lexeme.kind_ne_space_of_inLine lexed
  refine ⟨fun kind => absurd kind other, fun solid => ⟨first, lexeme.more, if_neg other, ?_⟩⟩
  change lexeme.kind.isSolid = true at solid
  unfold Lexeme.inLine at lexed
  split at lexed
  · next starts =>
      have noSpace : ∀ byte : Byte, Byte.isNameStart byte = true → Byte.isSpace byte = false := by
        decide +kernel
      exact noSpace first starts
  split at lexed
  · next quote => rw [quote]; rfl
  split at lexed
  · dsimp only at lexed
    split at lexed
    · cases lexed
      cases solid
    · cases lexed
  split at lexed
  · cases lexed
    cases solid
  split at lexed
  · next paren => rw [paren]; rfl
  split at lexed
  · next paren => rw [paren]; rfl
  split at lexed
  · next comma => rw [comma]; rfl
  · cases lexed

theorem neat_common : Common Neat where
  inSource cursor _ _ _ := neat_inSource cursor
  inBody cursor _ _ _ := neat_inBody cursor
  inLine cursor _ _ _ := neat_inLine cursor
  other token kind := by
    refine ⟨fun space => ?_, fun solid => ?_⟩
    · rw [space] at kind
      cases kind
    · cases found : token.kind <;> simp [found, Kind.isInline, Kind.isSolid] at kind solid

end Token

/-! ## Definitions -/

namespace Node

theorem trim_eq_rdropWhile (nodes : List Node) :
    trim nodes = (nodes.dropWhile isSpace).rdropWhile isSpace := rfl

/-- What is left after trimming does not start with space. -/
theorem isSpace_head?_trim (nodes : List Node) :
    ∀ node ∈ (trim nodes).head?, node.isSpace = false := by
  intro node first
  rw [trim_eq_rdropWhile] at first
  obtain ⟨tail, whole⟩ := List.rdropWhile_prefix isSpace (nodes.dropWhile isSpace)
  have starts : (nodes.dropWhile isSpace).head? = some node := by
    rw [← whole, List.head?_append, first]
    rfl
  have solid := List.head?_dropWhile_not isSpace nodes
  rw [starts] at solid
  exact solid

/-- What is left after trimming does not end with space. -/
theorem isSpace_getLast?_trim (nodes : List Node) :
    ∀ node ∈ (trim nodes).getLast?, node.isSpace = false := by
  intro node last
  rw [trim_eq_rdropWhile] at last
  obtain ⟨nonempty, rfl⟩ := List.mem_getLast?_eq_getLast last
  exact Bool.eq_false_iff.2 (List.rdropWhile_last_not isSpace _ nonempty)

end Node

namespace Builder

theorem nodup_takeParameters {stop : Token} {name : Bytes} {seen names : List Bytes}
    {tokens rest : List Token} (different : seen.Nodup)
    (taken : takeParameters stop name seen tokens = .ok (names, rest)) : names.Nodup := by
  have snoc : ∀ {seen : List Bytes} {name : Bytes}, seen.Nodup → name ∉ seen →
      (seen ++ [name]).Nodup :=
    fun different fresh =>
      List.Nodup.append different (List.nodup_singleton _) (List.disjoint_singleton.2 fresh)
  fun_induction takeParameters stop name seen tokens with
  | case1 => cases taken
  | case2 => cases taken
  | case3 => cases taken
  | case4 seen token isName fresh =>
      cases taken
      exact snoc different fresh
  | case5 seen token isName fresh next rest comma ih => exact ih (snoc different fresh) taken
  | case6 seen token isName fresh next rest notComma =>
      cases taken
      exact snoc different fresh

/-- The parameters in the head of a definition are different names. -/
theorem nodup_takeHead {stop : Token} {tokens : List Token} {name : Bytes}
    {parameters : Option (List Bytes)} (taken : takeHead stop tokens = .ok (name, parameters)) :
    ∀ list ∈ parameters, list.Nodup := by
  obtain ⟨⟨token, rest⟩, _, taken⟩ := bind_eq_ok_iff.1 taken
  obtain ⟨⟨found, left⟩, listed, taken⟩ := bind_eq_ok_iff.1 taken
  dsimp only at taken
  split at taken
  · cases taken
    unfold takeParameterList at listed
    split at listed
    · cases listed
      simp
    · obtain ⟨⟨names, after⟩, read, listed⟩ := bind_eq_ok_iff.1 listed
      dsimp only at listed
      split at listed
      · cases listed
        intro list same
        cases same
        exact nodup_takeParameters List.nodup_nil read
      · cases listed
    · cases listed
      simp
  · cases taken

end Builder

/-! ## Nodes -/

namespace Node

/-- The names that stand for the place where they are used. -/
def placeNames : List Bytes :=
  [bytes "__LINE__", bytes "__FILE__"]

/-- What holds of a node by itself: the names in it are macros to be looked up, its space is space,
and its body and its parameters are those of a definition. -/
def Tidy : Node → Prop
  | .ident _ name | .call _ name _ => name ∉ placeNames
  | .define _ _ parameters body =>
      (∀ node ∈ body.head?, node.isSpace = false) ∧
      (∀ node ∈ body.getLast?, node.isSpace = false) ∧ ∀ list ∈ parameters, list.Nodup
  | .space _ content => content ≠ [] ∧ ∀ byte ∈ content, Byte.isSpace byte = true
  | .text _ content => ∃ first more, content = first :: more ∧ Byte.isSpace first = false
  | _ => True

theorem tidy_ofName (token : Token) :
    ∀ part : Node, part.Within (Builder.ofName token) → part.Tidy := by
  intro part within
  unfold Builder.ofName at within
  split at within
  · cases within
    trivial
  split at within
  · cases within
    trivial
  · next notLine notFile =>
      cases within
      simp [Tidy, placeNames, notLine, notFile]

/-- Whatever the builder makes of neat tokens is tidy at every depth. -/
theorem tidy_common :
    Builder.Common Token.Neat fun node => ∀ part : Node, part.Within node → part.Tidy where
  name _ _ := tidy_ofName _
  space neat kind := by
    intro part within
    cases within
    exact neat.space kind
  text neat solid := by
    intro part within
    cases within
    exact neat.solid solid
  call whole _ _ named each := by
    intro part within
    cases within with
    | self =>
        have own := named _ .self
        exact own
    | argument _ _ member among deeper => exact each _ member _ among part deeper
  define location nodes head each := by
    intro part within
    cases within with
    | self =>
        exact ⟨isSpace_head?_trim _, isSpace_getLast?_trim _, Builder.nodup_takeHead head⟩
    | body _ _ _ among deeper => exact each _ (mem_of_mem_trim among) part deeper
  single form notDefine := by
    rename_i node _
    intro part within
    cases within with
    | self => cases node <;> cases form <;> trivial
    | argument => cases form
    | body =>
        cases form
        contradiction
    | yes => cases form
    | no => cases form
    | sequence => cases form
  cond location test _ _ yesEach noEach := by
    intro part within
    cases within with
    | self => trivial
    | yes _ _ _ among deeper => exact yesEach _ among part deeper
    | no _ _ _ among deeper => exact noEach _ among part deeper

theorem Plain.of_within {part node : Node} (within : part.Within node) (plain : node.Plain) :
    part.Plain := by
  induction within with
  | self => exact plain
  | argument _ _ member among _ ih =>
      cases plain with
      | call _ _ _ each => exact ih (each _ member _ among)
  | body | yes | no | sequence => cases plain

theorem FromSource.of_within {part node : Node} (within : part.Within node)
    (form : node.FromSource) : part.FromSource := by
  induction within with
  | self => exact form
  | argument location name member among deeper ih =>
      cases form with
      | plain plain => exact .plain (.of_within (.argument location name member among deeper) plain)
  | body location name parameters among deeper ih =>
      cases form with
      | plain plain => cases plain
      | define _ _ _ _ plain => exact ih (.plain (plain _ among))
  | yes location test no among deeper ih =>
      cases form with
      | plain plain => cases plain
      | cond _ _ _ _ yesForm _ => exact ih (yesForm _ among)
  | no location test yes among deeper ih =>
      cases form with
      | plain plain => cases plain
      | cond _ _ _ _ _ noForm => exact ih (noForm _ among)
  | sequence =>
      cases form with
      | plain plain => cases plain

end Node

/-! ## Line numbers -/

/-- The number of a line directive is one that a line can have. -/
def Item.InRange : Item → Prop
  | .text _ => True
  | .line word arguments _ => Directive.ofWord? word.text = some .line →
      ∀ number content location more, arguments = ⟨.integer number, content, location⟩ :: more →
        0 ≤ number.toInt ∧ number.toInt < 2 ^ 31

theorem Token.inRange_of_nextLine {tokens : List Token} {stop next : Cursor}
    (read : nextLine .line tokens stop = .ok next) (number : Int64) (content : Bytes)
    (location : Location) (more : List Token)
    (same : tokens = ⟨.integer number, content, location⟩ :: more) :
    0 ≤ number.toInt ∧ number.toInt < 2 ^ 31 := by
  subst same
  simp only [nextLine, if_true, renumber] at read
  split at read
  · cases read
  · next inRange =>
      obtain ⟨natural, small⟩ := toNat_lineNumber inRange
      omega

theorem Token.Laid.inRange {fresh : Bool} {cursor : Cursor} {items : List Item}
    (laid : Laid fresh cursor items) : ∀ item ∈ items, item.InRange := by
  induction laid with
  | stop => simp
  | text _ _ _ _ ih => exact List.forall_mem_cons.2 ⟨trivial, ih⟩
  | line _ line _ ih =>
      refine List.forall_mem_cons.2 ⟨fun isLine => ?_, ih⟩
      have following := line.following
      rw [Token.Head.word, Directive.ofWord?_word] at isLine
      injection isLine with isLine
      rw [isLine] at following
      exact inRange_of_nextLine following

/-- The number of a line node is the first thing in its line. -/
theorem Builder.exists_number_of_line {word stop : Token} {arguments : List Token}
    {location : Location} {file : Option Bytes} {number : Int64}
    (proper : (Item.line word arguments stop).Proper)
    (found : Directive.ofWord? word.text = some .line)
    (alone : Node.ofTokens (word :: arguments ++ [stop]) = .ok [.line location file number]) :
    ∃ content place more, arguments = ⟨.integer number, content, place⟩ :: more := by
  have fold : (word :: arguments ++ [stop]).foldlM step empty =
      finishLine empty word .line arguments stop :=
    takes_line (directive_of_purpose? found rfl empty) trivial proper (endsLine_of_ne (by simp))
  rw [Node.ofTokens_eq (Item.kind_ne_fileEnd proper), fold] at alone
  obtain ⟨builder, finished, alone⟩ := bind_eq_ok_iff.1 alone
  obtain ⟨⟨value, path, rest⟩, taken, finished⟩ := bind_eq_ok_iff.1 finished
  obtain ⟨whole, _, finished⟩ := bind_eq_ok_iff.1 finished
  cases finished
  cases alone
  unfold takeLine at taken
  split at taken
  · next token rest =>
      obtain ⟨kind, content, place⟩ := token
      dsimp only at taken
      split at taken
      · cases taken
        exact ⟨_, _, _, rfl⟩
      · cases taken
        exact ⟨_, _, _, rfl⟩
      · cases taken
  · cases taken

namespace Node

/-- All line numbers in the node are numbers that a line can have. -/
def LinesInRange (node : Node) : Prop :=
  ∀ location file number, (Node.line location file number).Within node →
    0 ≤ number.toInt ∧ number.toInt < 2 ^ 31

theorem Plain.linesInRange {node : Node} (plain : node.Plain) : node.LinesInRange := by
  intro location file number within
  cases of_within within plain

theorem linesInRange_cond {location : Location} {test : Test} {yes no : List Node}
    (yesEach : ∀ node ∈ yes, node.LinesInRange) (noEach : ∀ node ∈ no, node.LinesInRange) :
    (Node.cond location test yes no).LinesInRange := by
  intro place file number within
  cases within with
  | yes _ _ _ among deeper => exact yesEach _ among place file number deeper
  | no _ _ _ among deeper => exact noEach _ among place file number deeper

theorem FromSource.branches {location : Location} {test : Test} {yes no : List Node}
    (form : (Node.cond location test yes no).FromSource) :
    (∀ node ∈ yes, node.FromSource) ∧ ∀ node ∈ no, node.FromSource := by
  cases form with
  | plain plain => cases plain
  | cond _ _ _ _ yesForm noForm => exact ⟨yesForm, noForm⟩

end Node

/-- A node that is a line by itself has the number of that line. -/
theorem Item.InRange.linesInRange {word stop : Token} {arguments : List Token} {node : Node}
    {directive : Directive} (inRange : (Item.line word arguments stop).InRange)
    (proper : (Item.line word arguments stop).Proper)
    (found : Directive.ofWord? word.text = some directive)
    (isLine : node.directive? = some directive) (form : node.FromSource)
    (alone : Node.ofTokens (word :: arguments ++ [stop]) = .ok [node]) : node.LinesInRange := by
  intro location file number within
  cases within with
  | self =>
      cases isLine
      obtain ⟨content, place, more, same⟩ := Builder.exists_number_of_line proper found alone
      exact inRange found _ _ _ _ same
  | body _ _ _ among deeper =>
      cases form with
      | plain plain => cases plain
      | define _ _ _ _ plain => exact (plain _ among).linesInRange _ _ _ deeper
  | argument | yes | no | sequence => cases isLine

/-- All line numbers in nodes that items spell are in range. -/
theorem Spelled.linesInRange {part : Part} {items : List Item} {nodes : List Node}
    (spelled : Spelled part items nodes) (each : ∀ item ∈ items, item.Proper ∧ item.InRange)
    (form : ∀ node ∈ nodes, node.FromSource) : ∀ node ∈ nodes, node.LinesInRange := by
  induction spelled with
  | nil => simp
  | text text _ ih =>
      obtain ⟨_, others⟩ := List.forall_mem_append.1 each
      obtain ⟨_, rest⟩ := List.forall_mem_append.1 form
      exact List.forall_mem_append.2
        ⟨fun node member => (text.plain node member).linesInRange, ih others rest⟩
  | line found isLine alone _ ih =>
      obtain ⟨⟨proper, inRange⟩, others⟩ := List.forall_mem_cons.1 each
      obtain ⟨first, rest⟩ := List.forall_mem_cons.1 form
      exact List.forall_mem_cons.2
        ⟨inRange.linesInRange proper found isLine first alone, ih others rest⟩
  | cond _ _ _ _ _ _ yesIh noIh ih =>
      obtain ⟨_, others⟩ := List.forall_mem_cons.1 each
      obtain ⟨yesEach, others⟩ := List.forall_mem_append.1 others
      obtain ⟨noEach, others⟩ := List.forall_mem_append.1 others
      obtain ⟨first, rest⟩ := List.forall_mem_cons.1 form
      obtain ⟨yesForm, noForm⟩ := first.branches
      exact List.forall_mem_cons.2
        ⟨Node.linesInRange_cond (yesIh yesEach yesForm) (noIh noEach noForm), ih others rest⟩
  | endIf => simp
  | otherwise _ _ _ ih =>
      obtain ⟨_, others⟩ := List.forall_mem_cons.1 each
      exact ih (List.forall_mem_append.1 others).1 form
  | elseIf _ _ _ _ yesIh noIh =>
      obtain ⟨_, others⟩ := List.forall_mem_cons.1 each
      obtain ⟨yesEach, noEach⟩ := List.forall_mem_append.1 others
      obtain ⟨yesForm, noForm⟩ := (List.forall_mem_cons.1 form).1.branches
      simpa using Node.linesInRange_cond (yesIh yesEach yesForm) (noIh noEach noForm)

namespace Node

theorem linesInRange_of_ofSource {file source : Bytes} {nodes : List Node}
    (read : Node.ofSource file source = .ok nodes) : ∀ node ∈ nodes, node.LinesInRange := by
  have form := Node.fromSource_of_ofSource read
  obtain ⟨tokens, scanned, read⟩ := bind_eq_ok_iff.1 read
  obtain ⟨stop, same, ended, laid⟩ := Token.exists_stop_of_scan scanned
  rw [same] at read
  have spelled := Node.spelled_of_ofTokens laid.proper ended read
  exact spelled.linesInRange (fun item member => ⟨laid.proper item member, laid.inRange item member⟩)
    form

/-! ## Sound nodes -/

/-- A node as those who expand and show nodes expect it. -/
structure Sound (node : Node) : Prop where
  /-- The node is no sequence, and bodies and arguments in it hold only text and uses of macros. -/
  form : node.FromSource
  /-- Names, space, text, bodies and parameters are as they should be. -/
  tidy : node.Tidy
  number : ∀ location file number, node = .line location file number →
    0 ≤ number.toInt ∧ number.toInt < 2 ^ 31

/-- Every node of a source is sound, at whatever depth it stands. -/
theorem sound_of_ofSource {file source : Bytes} {nodes : List Node}
    (read : Node.ofSource file source = .ok nodes) :
    ∀ outer ∈ nodes, ∀ part : Node, part.Within outer → part.Sound := by
  intro outer member part within
  refine ⟨.of_within within (Node.fromSource_of_ofSource read outer member),
    tidy_common.ofSource Token.neat_common read outer member part within, ?_⟩
  rintro location path number rfl
  exact linesInRange_of_ofSource read outer member location path number within

/-- A macro whose body goes over two lines, a call in a call, and a line directive in a branch. -/
def layeredTree : Bytes :=
  bytes "#define pair(a, b) a \\\n b __LINE__ \n#ifdef pair\n# 7 \"x\"\n" ++
    bytes " pair(f(1 , 2), __FILE__) 3\n#endif\n"

theorem sound_layeredTree : ∃ nodes, Node.ofSource [] layeredTree = .ok nodes ∧
    ∀ outer ∈ nodes, ∀ part : Node, part.Within outer → part.Sound := by
  obtain ⟨nodes, read⟩ := exists_eq_ok_of_isOk
    (show (Node.ofSource [] layeredTree).isOk = true by decide +kernel)
  exact ⟨nodes, read, sound_of_ofSource read⟩

end Node

end ScopedMacros
