import ScopedMacros.Proofs.Derivation
import ScopedMacros.Proofs.DescentExpr
import ScopedMacros.Proofs.Failure
import ScopedMacros.Proofs.PlainScopes
import ScopedMacros.Proofs.Scanned
import ScopedMacros.Proofs.Scoping
import ScopedMacros.Proofs.Selection
import ScopedMacros.Proofs.SoundTree

/-!
# Expressions stand where their locations say

The location of an expression in a test covers a text that is read as that expression again.  This
holds for each part of it, so that an error in a part shows the text of that part and no more.
-/

namespace ScopedMacros

/-! ## Texts of expressions -/

/-- In a test that compares it with zero, the text is read as the expression, up to places. -/
def Bytes.Denotes (text : Bytes) (tree : Arith) : Prop :=
  ∀ file, ∃ location test,
    Node.ofSource file (bytes "#if 0 = " ++ text ++ bytes "\n#endif\n") =
      .ok [.cond location test [] []] ∧
    test.unplaced = .compare .nowhere .equal (.int .nowhere 0) tree.unplaced

/-- Each part of the expression lies on a text that denotes it. -/
def Arith.Located (text : Bytes) (tree : Arith) : Prop :=
  ∀ part : Arith, part.Within tree → (text.slice part.location).Denotes part

/-- The comparison sign that comes next on a directive line. -/
def Cursor.sign? (cursor : Cursor) : Option Comparison := do
  let next ← cursor.skip.inLine?
  let lexeme ← (Lexeme.inLine next.1 next.2).toOption
  Comparison.ofToken? (cursor.skip.token next.1 lexeme)

/-- The comparison sign that stands next after the location, on its line. -/
def Bytes.signAfter? (text : Bytes) (location : Location) : Option Comparison :=
  Cursor.sign? ⟨location.stop, text.drop location.stop.offset.toNat⟩

/-- The operands of the comparisons are located in the text.  Only where no comparison sign follows
the left one in the text, there is no text for the right one, which is the zero that a bare number is
compared with. -/
def Test.Located (text : Bytes) (test : Test) : Prop :=
  ∀ location relation left right, (Test.compare location relation left right).Within test →
    left.Located text ∧
      if (text.signAfter? left.location).isSome then
        right.Located text ∧ right.location ≠ left.location
      else
        relation = .equal ∧ right = .int left.location 0

/-- A conditional with nothing in it has the test that is read from its text. -/
theorem Node.ofSource_of_isRead {text : Bytes} {test : Test} (isRead : test.IsRead text)
    (file : Bytes) :
    ∃ location read, Node.ofSource file (bytes "#if " ++ text ++ bytes "\n#endif\n") =
      .ok [.cond location read [] []] ∧ read.unplaced = test.unplaced := by
  obtain ⟨word, tokens, stop, place, read, isIf, proper, whole, same, source⟩ :=
    Token.exists_line_of_isRead isRead .ifTrue (by decide) (by decide) (.first file)
      (bytes "#endif\n")
  obtain ⟨last, lastStop, ended, isEnd, properEnd, isFileEnd, sourceEnd⟩ :=
    Token.ofSource_endIf place
  obtain ⟨location, nodes⟩ :=
    Node.ofTokens_condition isIf isEnd proper properEnd isFileEnd whole
  refine ⟨location, read, ?_, same⟩
  have written : bytes "#if " ++ text ++ bytes "\n#endif\n" =
      bytes "#" ++ Directive.ifTrue.word ++ bytes " " ++ text ++ bytes "\n" ++ bytes "#endif\n" := by
    rw [List.append_assoc _ (bytes "\n")]
    rfl
  have scanned : Token.scan file (bytes "#if " ++ text ++ bytes "\n#endif\n") =
      .ok ([Item.line word tokens stop, .line last [] lastStop].flatMap Item.tokens ++ [ended]) := by
    rw [Token.scan, written, source, sourceEnd]
    simp [Except.map]
  rw [Node.ofSource, scanned]
  exact nodes

namespace Arith

variable {tokens twins : List Token} {tree : Arith} {stop : Token}

/-- From tokens that are the same up to places, the same expression is read. -/
theorem Derives.readsTo_of_same (derives : Derives .sum tokens tree)
    (same : Token.AllSame tokens twins) : ReadsTo stop .sum twins tree [] := by
  have ended : Stops .sum [] := by
    intro token operation absurd
    cases absurd
  obtain ⟨reading, answered, value, rest⟩ := (derives.readsBack stop).1 [] ended
  have same : Token.AllSame (tokens ++ []) twins := (List.append_nil tokens).symm ▸ same
  obtain ⟨twin, other, alike⟩ := read_follows stop stop .sum same _ answered
  refine ⟨twin, other, alike.value.symm.trans value, ?_⟩
  have nothing := alike.rest
  rw [rest] at nothing
  exact List.forall₂_nil_left_iff.1 nothing

end Arith

/-- A zero, an equals sign and the tokens of an expression are read as a comparison. -/
theorem Test.ofTokens_equation {zero sign stop : Token} {tokens twins : List Token} {tree : Arith}
    (isZero : zero.kind = .integer 0) (isSign : sign.kind = .op .equal)
    (ended : stop.kind = .lineEnd) (derives : tree.Derives .sum tokens)
    (same : Token.AllSame tokens twins) :
    ∃ test, Test.ofTokens stop (zero :: sign :: twins) = .ok (test, []) ∧
      test.unplaced = .compare .nowhere .equal (.int .nowhere 0) tree.unplaced := by
  have notWord : ∀ word, zero.isWord word = false := fun word => by simp [Token.isWord, isZero]
  have number : Arith.Derives .operand [zero] (.int zero.location 0) :=
    .token (by simp [Arith.ofToken?, isZero]) (notWord _)
  have left := (number.sum.readsBack stop).1 (sign :: twins)
    (Arith.stops_of_no_operation (by simp [Operation.ofToken?, isSign]))
  have starts : StartsNumber [zero] :=
    .of_token (by simp [isZero]) (by simp [isZero]) (by simp [isZero]) (fun word _ => notWord word)
      .nil
  have stops : Stops stop .either [] := by
    constructor
    · simp [continues, Comparison.ofToken?, Operation.ofToken?, ended]
    · intro token absurd
      cases absurd
  have equal : Comparison.ofToken? sign = some .equal := by simp [Comparison.ofToken?, isSign]
  have single := readsTo_comparison starts left equal (derives.readsTo_of_same same) .nowhere
  have both := readsTo_of_chain (by decide) single fun _ gets => chainsTo_of_stops gets stops.tighter
  obtain ⟨reading, answered, value, rest⟩ :=
    readsTo_of_chain (by decide) both fun _ gets => chainsTo_of_stops gets stops
  refine ⟨reading.value, ?_, value⟩
  rw [ofTokens, if_neg (by simp)]
  exact bind_eq_ok_iff.2 ⟨reading, answered, by rw [rest]⟩

namespace Token

/-- One more word in front of a row, with a space before it and one after it. -/
theorem exists_row_of_word {word rest : Bytes} {kind : Kind} {position : Position}
    {tokens : List Token} {stop : Cursor} (isToken : Kind.ofText? word = some kind)
    (row : Row ⟨position.advance (Byte.space :: word), Byte.space :: rest⟩ tokens stop) :
    ∃ token, token.kind = kind ∧
      Row ⟨position, Byte.space :: (word ++ Byte.space :: rest)⟩ (token :: tokens) stop := by
  obtain ⟨first, more, rfl, starts, lexed⟩ :=
    exists_lexeme_of_ofText? isToken (.inr ⟨Byte.space, rfl, rfl⟩ : Bytes.StartsAlike [] (Byte.space :: rest))
  obtain ⟨notBlank, notBackslash, notNewline⟩ := Lexeme.solid_of_startsInLine first starts
  let start : Cursor := ⟨position.advance [Byte.space], first :: (more ++ Byte.space :: rest)⟩
  have skip : (Cursor.mk position (Byte.space :: (first :: more ++ Byte.space :: rest))).skip =
      start :=
    skip_blanks (List.forall_mem_singleton.2 rfl) first notBlank notBackslash position
      (more ++ Byte.space :: rest)
  have found : start.inLine? = some (first, more ++ Byte.space :: rest) := by
    simp [start, Cursor.inLine?, notNewline]
  have further : start.advance (first :: more) =
      ⟨position.advance (Byte.space :: first :: more), Byte.space :: rest⟩ :=
    Cursor.advance_mk_append _ (first :: more) (Byte.space :: rest)
  refine ⟨start.token first ⟨kind, more⟩, rfl, ?_⟩
  rw [← further, ← skip] at row
  rw [← skip] at found ⊢
  exact .cons found lexed row

end Token

namespace Arith

variable {text : Bytes} {cursor stop : Cursor} {tokens : List Token} {part : Arith}

/-- An expression that lies on tokens of a line is denoted by the text it lies on. -/
theorem LiesIn.denotes (lies : LiesIn tokens part) (row : Token.Row cursor tokens stop)
    (stands : cursor.StandsIn text) : (text.slice part.location).Denotes part := by
  obtain ⟨core, ⟨before, after, rfl⟩, derives, spans⟩ := lies
  obtain ⟨_, row, _⟩ := row.split
  obtain ⟨start, front, row⟩ := row.split
  let place := ((Position.first []).advance (Byte.space :: bytes "0")).advance
    (Byte.space :: bytes "=")
  obtain ⟨twins, same, excerpt⟩ :=
    row.exists_slice (stands.passes front.passes).1 spans (place.step Byte.space) []
  have nonempty : twins ≠ [] := by
    rintro rfl
    rw [List.forall₂_nil_right_iff.1 same] at spans
    cases spans.start
  generalize text.slice part.location = slice at excerpt ⊢
  have spaced := excerpt.of_skip nonempty
    (Cursor.skip_cons place (show Byte.isBlank Byte.space = true from rfl) _)
  have equals : Token.Kind.ofText? (bytes "=") = some (.op .equal) := by decide
  have number : Token.Kind.ofText? (bytes "0") = some (.integer 0) := by decide
  obtain ⟨sign, isSign, row⟩ := Token.exists_row_of_word equals spaced
  obtain ⟨zero, isZero, row⟩ := Token.exists_row_of_word number row
  have line := row.ofLine_eq rfl
  let last := Cursor.mk ((place.step Byte.space).advance slice) [Byte.newline]
  have ended : (last.point .lineEnd).kind = .lineEnd := rfl
  obtain ⟨test, read, same⟩ := Test.ofTokens_equation isZero isSign ended derives same
  intro file
  have isRead : test.IsRead (bytes "0 = " ++ slice) := ⟨_, _, line, read⟩
  obtain ⟨location, found, source, unplaced⟩ := Node.ofSource_of_isRead isRead file
  exact ⟨location, found, source, unplaced.trans same⟩

/-- An expression ends where the tokens end that it is derived from. -/
theorem Derives.location_stop {level : Level} (derives : Derives level tokens part)
    (row : Token.Row cursor tokens stop) : part.location.stop = stop.position := by
  obtain ⟨signs, core, rfl, _, spans⟩ := derives.exists_core
  have last := spans.stop_append signs
  have nonempty : signs ++ core ≠ [] := by
    intro empty
    rw [empty] at last
    cases last
  exact Option.some.inj (last.symm.trans (row.spans nonempty).stop)

end Arith

/-- The sign after a location where a row of tokens starts is the first of them, if that is one. -/
theorem Token.Row.signAfter?_eq {text : Bytes} {cursor stop : Cursor} {tokens : List Token}
    {location : Location} (row : Row cursor tokens stop) (ended : stop.skip.inLine? = none)
    (stands : cursor.StandsIn text) (here : location.stop = cursor.position) :
    text.signAfter? location = tokens.head?.bind Comparison.ofToken? := by
  have start : Cursor.mk location.stop (text.drop location.stop.offset.toNat) = cursor := by
    rw [here]
    exact congrArg (Cursor.mk cursor.position) stands.left
  rw [Bytes.signAfter?, start, Cursor.sign?]
  cases row with
  | nil =>
      rw [ended]
      rfl
  | cons found lexed =>
      rw [found, Option.bind_eq_bind, Option.bind_some, lexed]
      rfl

/-- An expression that is derived from tokens of a line is located, and the sign after it is the next
token, if that is one. -/
theorem Arith.Derives.located {text : Bytes} {cursor stop : Cursor}
    {tokens used rest : List Token} {tree : Arith} (derives : tree.Derives .sum used)
    (ends : used ++ rest <:+ tokens) (row : Token.Row cursor tokens stop)
    (ended : stop.skip.inLine? = none) (stands : cursor.StandsIn text) :
    tree.Located text ∧ text.signAfter? tree.location = rest.head?.bind Comparison.ofToken? := by
  have inside : used <:+: tokens := (List.prefix_append used rest).isInfix.trans ends.isInfix
  refine ⟨fun part within => ((derives.liesIn_of_within within).mono inside).denotes row stands, ?_⟩
  obtain ⟨before, rfl⟩ := ends
  obtain ⟨start, front, row⟩ := row.split
  obtain ⟨middle, rowUsed, row⟩ := row.split
  have standsStart := (stands.passes front.passes).1
  exact row.signAfter?_eq ended (standsStart.passes rowUsed.passes).1 (derives.location_stop rowUsed)

/-- The comparisons of a test that is read from a line are located. -/
theorem Test.Compares.located {text : Bytes} {cursor stop : Cursor} {tokens : List Token}
    {test : Test} (compares : test.Compares (HasBare tokens) (HasPair tokens))
    (row : Token.Row cursor tokens stop) (ended : stop.skip.inLine? = none)
    (stands : cursor.StandsIn text) : test.Located text := by
  intro place relation first second within
  rcases compares place relation first second within with
    ⟨left, sign, right, rest, ends, derivesLeft, isSign, derivesRight⟩ |
      ⟨⟨used, rest, ends, derives, unsigned⟩, zero⟩
  · obtain ⟨located, signed⟩ := derivesLeft.located ends row ended stands
    have atRight : right ++ rest <:+ tokens :=
      ((List.suffix_cons sign _).trans (List.suffix_append left _)).trans ends
    refine ⟨located, ?_⟩
    rw [signed, List.head?_cons, Option.bind_some, if_pos isSign]
    refine ⟨(derivesRight.located atRight row ended stands).1, ?_⟩
    -- The right side ends after the left one, because the sign stands between them.
    obtain ⟨before, rfl⟩ := ends
    obtain ⟨start, front, row⟩ := row.split
    obtain ⟨middle, rowLeft, row⟩ := row.split
    obtain ⟨_, row, _⟩ := Token.Row.split (show Token.Row middle (sign :: right ++ rest) _ from row)
    obtain ⟨_, _, rowRight⟩ := Token.Row.split (show Token.Row middle ([sign] ++ right) _ from row)
    have standsStart := (stands.passes front.passes).1
    have later := row.offset_lt (List.cons_ne_nil _ _) (standsStart.passes rowLeft.passes).1
    intro same
    have sameStop := congrArg Location.stop same
    rw [derivesRight.location_stop rowRight, derivesLeft.location_stop rowLeft] at sameStop
    exact absurd (congrArg (·.offset.toNat) sameStop) (Nat.ne_of_gt later)
  · obtain ⟨located, signed⟩ := derives.located ends row ended stands
    refine ⟨located, ?_⟩
    rw [signed, unsigned]
    exact zero

/-! ## Tests of a source -/

/-- The arguments of the line stand in the text, unless the line defines a macro. -/
def Item.Stands (text : Bytes) : Item → Prop
  | .text _ => True
  | .line word arguments _ => Directive.ofWord? word.text ≠ some .define →
      ∃ cursor stop, Token.Row cursor arguments stop ∧ stop.skip.inLine? = none ∧
        cursor.StandsIn text

namespace Token

open Cursor

variable {text : Bytes} {cursor next : Cursor}

theorem Line.stands {head : Head} {stop : Cursor} {inner : List Token}
    (line : Line head cursor inner stop next) (stands : StandsIn text cursor)
    (found : head? cursor.rest = some head) :
    StandsIn text next ∧
      (Item.line (head.word cursor) inner (stop.point .lineEnd)).Stands text := by
  obtain ⟨more, whole⟩ := prefix_head? found
  rw [List.append_assoc] at whole
  have standsBlanks := stands.advance whole.symm
  have standsWord := standsBlanks.advance (rest_advance whole.symm)
  have trail := line.trail
  have standsStop := (standsWord.passes trail.passes).1
  refine ⟨(standsIn_nextLine standsStop trail.ended line.following).1, fun notDefine => ?_⟩
  rw [Head.word, Directive.ofWord?_word] at notDefine
  have read := line.read
  rw [afterWord, if_neg (fun same => notDefine (congrArg some same))] at read
  obtain ⟨final, row, ended⟩ := exists_row_of_ofLine read
  exact ⟨_, final, row, ended, standsWord⟩

theorem Laid.stands {fresh : Bool} {items : List Item} (laid : Laid fresh cursor items)
    (stands : StandsIn text cursor) : ∀ item ∈ items, item.Stands text := by
  induction laid with
  | stop => simp
  | @text fresh cursor first rest lexeme items _ left lexed _ ih =>
      obtain ⟨after, whole⟩ := Lexeme.prefix_inSource lexed
      have split : cursor.rest = (first :: lexeme.more) ++ after := by
        rw [left, ← whole]
        rfl
      exact List.forall_mem_cons.2 ⟨trivial, ih (stands.advance split)⟩
  | line found line _ ih =>
      obtain ⟨standsNext, item⟩ := line.stands stands found
      exact List.forall_mem_cons.2 ⟨item, ih standsNext⟩

end Token

/-- The test of a conditional line is located. -/
theorem Item.Stands.located {text : Bytes} {word stop : Token} {arguments : List Token}
    {directive : Directive} {test : Test} (stands : (Item.line word arguments stop).Stands text)
    (found : Directive.ofWord? word.text = some directive)
    (tests : directive.test? arguments stop = some test) : test.Located text := by
  have read (notDefine : directive ≠ .define)
      (tests : (Test.ofTokens stop arguments).toOption.map (·.1) = some test) :
      test.Located text := by
    obtain ⟨cursor, last, row, ended, inText⟩ := stands fun define =>
      notDefine (Option.some.inj (found.symm.trans define))
    cases answered : Test.ofTokens stop arguments with
    | error error =>
        rw [answered] at tests
        cases tests
    | ok reading =>
        rw [answered] at tests
        cases tests
        exact (Test.compares_of_ofTokens answered).located row ended inText
  unfold Directive.test? at tests
  split at tests
  · obtain ⟨name, _, rfl⟩ := Option.map_eq_some_iff.1 tests
    rintro _ _ _ _ ⟨⟩
  · obtain ⟨name, _, rfl⟩ := Option.map_eq_some_iff.1 tests
    rintro _ _ _ _ (_ | ⟨_, ⟨⟩⟩)
  · exact read (by decide) tests
  · exact read (by decide) tests
  · cases tests

namespace Node

/-- The tests of all conditionals in the node are located in the text. -/
def TestsLocated (text : Bytes) (node : Node) : Prop :=
  ∀ location test yes no, (Node.cond location test yes no).Within node → test.Located text

variable {text : Bytes}

theorem Plain.testsLocated {node : Node} (plain : node.Plain) : node.TestsLocated text := by
  intro location test yes no within
  cases of_within within plain

theorem testsLocated_cond {location : Location} {test : Test} {yes no : List Node}
    (located : test.Located text) (yesEach : ∀ node ∈ yes, node.TestsLocated text)
    (noEach : ∀ node ∈ no, node.TestsLocated text) :
    (Node.cond location test yes no).TestsLocated text := by
  intro place other inner outer within
  cases within with
  | self => exact located
  | yes _ _ _ among deeper => exact yesEach _ among place other inner outer deeper
  | no _ _ _ among deeper => exact noEach _ among place other inner outer deeper

/-- A node that is a line by itself has no conditional in it. -/
theorem testsLocated_line {node : Node} {directive : Directive}
    (isLine : node.directive? = some directive) (form : node.FromSource) :
    node.TestsLocated text := by
  intro location test yes no within
  cases within with
  | body _ _ _ among deeper =>
      cases form with
      | plain plain => cases plain
      | define _ _ _ _ plain => exact (plain _ among).testsLocated _ _ _ _ deeper
  | self | argument | yes | no | sequence => cases isLine

end Node

/-- The tests of nodes that items spell are located. -/
theorem Spelled.testsLocated {text : Bytes} {part : Part} {items : List Item} {nodes : List Node}
    (spelled : Spelled part items nodes) (each : ∀ item ∈ items, item.Stands text)
    (form : ∀ node ∈ nodes, node.FromSource) : ∀ node ∈ nodes, node.TestsLocated text := by
  induction spelled with
  | nil => simp
  | text text _ ih =>
      obtain ⟨_, others⟩ := List.forall_mem_append.1 each
      obtain ⟨_, rest⟩ := List.forall_mem_append.1 form
      exact List.forall_mem_append.2
        ⟨fun node member => (text.plain node member).testsLocated, ih others rest⟩
  | line found isLine alone _ ih =>
      obtain ⟨_, others⟩ := List.forall_mem_cons.1 each
      obtain ⟨first, rest⟩ := List.forall_mem_cons.1 form
      exact List.forall_mem_cons.2 ⟨Node.testsLocated_line isLine first, ih others rest⟩
  | cond found _ tests _ _ _ yesIh noIh ih =>
      obtain ⟨stands, others⟩ := List.forall_mem_cons.1 each
      obtain ⟨yesEach, others⟩ := List.forall_mem_append.1 others
      obtain ⟨noEach, others⟩ := List.forall_mem_append.1 others
      obtain ⟨first, rest⟩ := List.forall_mem_cons.1 form
      obtain ⟨yesForm, noForm⟩ := first.branches
      exact List.forall_mem_cons.2 ⟨Node.testsLocated_cond (stands.located found tests)
        (yesIh yesEach yesForm) (noIh noEach noForm), ih others rest⟩
  | endIf => simp
  | otherwise _ _ _ ih =>
      obtain ⟨_, others⟩ := List.forall_mem_cons.1 each
      exact ih (List.forall_mem_append.1 others).1 form
  | elseIf found tests _ _ yesIh noIh =>
      obtain ⟨stands, others⟩ := List.forall_mem_cons.1 each
      obtain ⟨yesEach, noEach⟩ := List.forall_mem_append.1 others
      obtain ⟨yesForm, noForm⟩ := (List.forall_mem_cons.1 form).1.branches
      exact List.forall_mem_singleton.2 (Node.testsLocated_cond (stands.located found tests)
        (yesIh yesEach yesForm) (noIh noEach noForm))

theorem Node.testsLocated_of_ofSource {file text : Bytes} {nodes : List Node}
    (short : text.length < 2 ^ 31) (read : Node.ofSource file text = .ok nodes) :
    ∀ node ∈ nodes, node.TestsLocated text := by
  have form := Node.fromSource_of_ofSource read
  obtain ⟨tokens, scanned, read⟩ := bind_eq_ok_iff.1 read
  obtain ⟨stop, same, ended, laid⟩ := Token.exists_stop_of_scan scanned
  rw [same] at read
  have stands : Cursor.StandsIn text ⟨.first file, text⟩ := by
    refine ⟨?_, rfl⟩
    change 0 + text.length < 2 ^ 32
    omega
  exact (Node.spelled_of_ofTokens laid.proper ended read).testsLocated (laid.stands stands) form

/-! ## Divisions by zero -/

/-- The expression is the quotient or the remainder of a number by zero. -/
def Arith.DividesByZero (env : Env) (tree : Arith) : Prop :=
  ∃ location operation left right value, tree = .binary location operation left right ∧
    operation ∈ [Operation.div, .mod] ∧ left.eval env = .ok value ∧ right.eval env = .ok 0

theorem Operation.result?_eq_none {left right : Int64} {operation : Operation}
    (none : operation.result? left right = none) : operation ∈ [Operation.div, .mod] ∧ right = 0 := by
  cases operation with
  | div | mod =>
      refine ⟨by simp, ?_⟩
      by_contra nonzero
      rw [result?, if_neg nonzero] at none
      cases none
  | add | sub | mul | shiftLeft | shiftRight | shiftSigned | and | or | xor => cases none

theorem Env.cause_value_ne {env : Env} {followed : List Bytes} {location : Location} {name : Bytes}
    {error : Error} (failed : env.value followed location name = .error error) :
    error.cause ≠ .divisionByZero := by
  cases bound : env.lookup name with
  | none =>
      rw [value_of_lookup_eq_none bound] at failed
      cases failed
      exact Cause.noConfusion
  | some definition =>
      rw [value_of_lookup bound] at failed
      split at failed
      · cases failed
        exact Cause.noConfusion
      · generalize Option.elim _ _ _ = inner at failed
        cases inner with
        | ok value => cases failed
        | error reason =>
            cases failed
            exact Cause.noConfusion

/-- A division by zero is reported at the part that divides. -/
theorem Arith.exists_division {env : Env} {tree : Arith} {location : Location}
    (failed : tree.eval env = .error ⟨.divisionByZero, location⟩) :
    ∃ part : Arith, part.Within tree ∧ part.location = location ∧ part.DividesByZero env := by
  induction tree with
  | int => cases failed
  | ident place name => exact absurd rfl (Env.cause_value_ne failed)
  | neg place operand ih =>
      rcases bind_eq_error_iff.1 failed with inner | ⟨value, _, failed⟩
      · obtain ⟨part, within, found⟩ := ih inner
        exact ⟨part, .neg place within, found⟩
      · cases failed
  | complement place operand ih =>
      rcases bind_eq_error_iff.1 failed with inner | ⟨value, _, failed⟩
      · obtain ⟨part, within, found⟩ := ih inner
        exact ⟨part, .complement place within, found⟩
      · cases failed
  | binary place operation left right ihLeft ihRight =>
      rcases bind_eq_error_iff.1 failed with inner | ⟨first, leftValue, failed⟩
      · obtain ⟨part, within, found⟩ := ihLeft inner
        exact ⟨part, .left place operation right within, found⟩
      rcases bind_eq_error_iff.1 failed with inner | ⟨second, rightValue, failed⟩
      · obtain ⟨part, within, found⟩ := ihRight inner
        exact ⟨part, .right place operation left within, found⟩
      split at failed
      · cases failed
      · next none =>
          cases failed
          obtain ⟨divides, rfl⟩ := Operation.result?_eq_none none
          exact ⟨_, .self, rfl, _, _, _, _, first, rfl, divides, leftValue, rightValue⟩

/-- The expression is a part of an operand of a comparison in the test. -/
def Arith.Among (part : Arith) (test : Test) : Prop :=
  ∃ location relation left right, (Test.compare location relation left right).Within test ∧
    (part.Within left ∨ part.Within right)

theorem Arith.Among.imp {part : Arith} {test other : Test} (among : part.Among test)
    (deeper : ∀ inner : Test, inner.Within test → inner.Within other) : part.Among other := by
  obtain ⟨location, relation, left, right, within, operand⟩ := among
  exact ⟨location, relation, left, right, deeper _ within, operand⟩

theorem Test.exists_division {env : Env} {test : Test} {location : Location}
    (failed : test.eval env = .error ⟨.divisionByZero, location⟩) :
    ∃ part : Arith, part.Among test ∧ part.location = location ∧ part.DividesByZero env := by
  induction test with
  | literal => cases failed
  | defined => cases failed
  | not place operand ih =>
      rcases bind_eq_error_iff.1 failed with inner | ⟨value, _, failed⟩
      · obtain ⟨part, among, found⟩ := ih inner
        exact ⟨part, among.imp fun _ => .not place, found⟩
      · cases failed
  | both place left right ihLeft ihRight =>
      rcases bind_eq_error_iff.1 failed with inner | ⟨value, _, failed⟩
      · obtain ⟨part, among, found⟩ := ihLeft inner
        exact ⟨part, among.imp fun _ => .bothLeft place right, found⟩
      cases value with
      | true =>
          obtain ⟨part, among, found⟩ := ihRight failed
          exact ⟨part, among.imp fun _ => .bothRight place left, found⟩
      | false => cases failed
  | either place left right ihLeft ihRight =>
      rcases bind_eq_error_iff.1 failed with inner | ⟨value, _, failed⟩
      · obtain ⟨part, among, found⟩ := ihLeft inner
        exact ⟨part, among.imp fun _ => .eitherLeft place right, found⟩
      cases value with
      | true => cases failed
      | false =>
          obtain ⟨part, among, found⟩ := ihRight failed
          exact ⟨part, among.imp fun _ => .eitherRight place left, found⟩
  | compare place relation left right =>
      rcases bind_eq_error_iff.1 failed with inner | ⟨first, _, failed⟩
      · obtain ⟨part, within, found⟩ := Arith.exists_division inner
        exact ⟨part, ⟨_, _, _, _, .self, .inl within⟩, found⟩
      rcases bind_eq_error_iff.1 failed with inner | ⟨second, _, failed⟩
      · obtain ⟨part, within, found⟩ := Arith.exists_division inner
        exact ⟨part, ⟨_, _, _, _, .self, .inr within⟩, found⟩
      · cases failed

/-- The division of a located test that fails is the one that its location shows. -/
theorem Test.Located.denotes {text : Bytes} {test : Test} {part : Arith} {env : Env}
    (located : test.Located text) (among : part.Among test) (divides : part.DividesByZero env) :
    (text.slice part.location).Denotes part := by
  obtain ⟨place, relation, left, right, within, operand⟩ := among
  obtain ⟨first, second⟩ := located place relation left right within
  rcases operand with inLeft | inRight
  · exact first part inLeft
  split at second
  · exact second.1 part inRight
  · -- The zero that a bare number is compared with is no division.
    obtain ⟨_, rfl⟩ := second
    obtain ⟨_, _, _, _, _, rfl, _⟩ := divides
    cases inRight

/-! ## Sources of visited nodes -/

theorem Node.Within.trans {part middle whole : Node} (first : part.Within middle)
    (second : middle.Within whole) : part.Within whole := by
  induction second with
  | self => exact first
  | argument location name member among _ ih => exact .argument location name member among ih
  | body location name parameters among _ ih => exact .body location name parameters among ih
  | yes location test no among _ ih => exact .yes location test no among ih
  | no location test yes among _ ih => exact .no location test yes among ih
  | sequence location among _ ih => exact .sequence location among ih

namespace Expansion

/-- The nodes are those of the given source, or of a file. -/
def ReadFrom (files : FileSet) (file text path source : Bytes) (nodes : List Node) : Prop :=
  (path = file ∧ source = text ∨ files.contents? path = some source) ∧
    Node.ofSource path source = .ok nodes

/-- The node is text or a use of a macro, or it stands in the given source or in a file. -/
def Stems (files : FileSet) (file text : Bytes) (node : Node) : Prop :=
  node.Plain ∨ ∃ path source nodes, ReadFrom files file text path source nodes ∧
    ∃ outer ∈ nodes, node.Within outer

variable {files : FileSet} {file text : Bytes} {node : Node}

theorem Stems.fromSource (stems : Stems files file text node) : node.FromSource := by
  rcases stems with plain | ⟨_, _, _, ⟨_, read⟩, outer, member, within⟩
  · exact .plain plain
  · exact .of_within within (Node.fromSource_of_ofSource read outer member)

/-- What stands inside a conditional comes from the same source. -/
theorem Stems.of_cond {location : Location} {test : Test} {yes no : List Node}
    (stems : Stems files file text (.cond location test yes no)) {inner : Node}
    (inside : inner.Within (.cond location test yes no)) : Stems files file text inner := by
  rcases stems with plain | ⟨path, source, nodes, read, outer, member, within⟩
  · cases plain
  · exact .inr ⟨path, source, nodes, read, outer, member, inside.trans within⟩

theorem stems_of_enters {context inner : Context} {env middle : Env} {said : List Event}
    {entered : List Node} (stems : Stems files file text node) (plain : env.Plain)
    (enters : Enters files context node env said inner entered middle) :
    ∀ other ∈ entered, Stems files file text other := by
  intro other member
  cases enters with
  | use bound _ => exact .inl ((plain.lookup bound).body other member)
  | call bound _ _ => exact .inl ((plain.lookup bound).body other member)
  | argument _ _ =>
      cases stems.fromSource with
      | plain callPlain =>
          cases callPlain with
          | call _ _ _ givenPlain => exact .inl (givenPlain _ (by simp) other member)
  | @branch _ _ _ _ _ holds _ =>
      cases holds with
      | true => exact stems.of_cond (.yes _ _ _ member .self)
      | false => exact stems.of_cond (.no _ _ _ member .self)
  | file _ found read => exact .inr ⟨_, _, _, ⟨.inr found, read⟩, other, member, .self⟩
  | sequence =>
      cases stems.fromSource with
      | plain seqPlain => cases seqPlain

/-- A visited node stems from the source or from a file, and the environment there is one that sources
make. -/
theorem stems_of_visits {nodes : List Node} {context inner : Context} {env here : Env}
    {chain : List Bytes} (read : Node.ofSource file text = .ok nodes) (plain : env.Plain)
    (visited : Visits files context nodes env chain inner node here) :
    Stems files file text node ∧ here.Plain := by
  have split : ∀ {entered earlier later : List Node} {context : Context} {found : Node}
      {said : List Event} {start middle : Env},
      (∀ other ∈ entered, Stems files file text other) → start.Plain →
      entered = earlier ++ found :: later → run files context earlier start = ⟨said, .ok middle⟩ →
      Stems files file text found ∧ middle.Plain := by
    intro entered earlier later context found said start middle each startPlain whole ran
    subst whole
    obtain ⟨before, rest⟩ := List.forall_mem_append.1 each
    exact ⟨rest found List.mem_cons_self,
      plain_of_run (fun other member => (before other member).fromSource) startPlain ran⟩
  induction visited with
  | here whole ran =>
      refine split (fun other member => ?_) plain whole ran
      exact .inr ⟨file, text, nodes, ⟨.inl ⟨rfl, rfl⟩, read⟩, other, member, .self⟩
  | inside _ enters whole ran ih =>
      obtain ⟨stems, startPlain⟩ := ih
      exact split (stems_of_enters stems startPlain enters)
        (plain_of_enters stems.fromSource startPlain enters).2 whole ran

end Expansion

/-! ## Main result -/

/-- Expressions stand where their locations say.  In each test of a source that can be read, every
part of an operand lies on a text that is read as that part again.  The one exception is the zero that
a bare number is compared with, where no comparison sign follows the number in the text; a zero that is
written out is located as well.  An expansion that divides by zero shows the location of a division in
a test, of the source or of a file, which covers the text of that division. -/
theorem Node.operands_denoted_by_their_text {file text : Bytes} {nodes : List Node}
    (short : text.length < 2 ^ 31) (read : Node.ofSource file text = .ok nodes) :
    (∀ outer ∈ nodes, ∀ location test yes no, (Node.cond location test yes no).Within outer →
      test.Located text) ∧
    ∀ (files : FileSet) (env : Env) (place : Location), env.Plain →
      (∀ path source, files.contents? path = some source → source.length < 2 ^ 31) →
      (Expansion.expand files file nodes env).result = .error ⟨.divisionByZero, place⟩ →
      ∃ path source parsed, Expansion.ReadFrom files file text path source parsed ∧
        ∃ outer ∈ parsed, ∃ location test yes no, (Node.cond location test yes no).Within outer ∧
          ∃ part here, Arith.Among part test ∧ part.location = place ∧ part.DividesByZero here ∧
            (source.slice place).Denotes part := by
  refine ⟨fun outer member => testsLocated_of_ofSource short read outer member, ?_⟩
  intro files env place plain shortFiles failed
  obtain ⟨chain, context, node, here, visited, alone⟩ := Expansion.run_result_eq_error_iff.1 failed
  obtain ⟨stems, _⟩ := Expansion.stems_of_visits read plain visited
  cases Expansion.fails_of_failsAlone alone with
  | unreadable _ unread => cases Node.form_of_ofSource unread
  | @test location test yes no _ value =>
      rcases stems with absurd | ⟨path, source, parsed, origin, outer, member, within⟩
      · cases absurd
      have shortSource : source.length < 2 ^ 31 := by
        rcases origin.1 with ⟨_, rfl⟩ | found
        · exact short
        · exact shortFiles path source found
      obtain ⟨part, among, rfl, divides⟩ := Test.exists_division value
      have located := testsLocated_of_ofSource shortSource origin.2 outer member _ _ _ _ within
      exact ⟨path, source, parsed, origin, outer, member, location, test, yes, no, within, part,
        here, among, rfl, divides, located.denotes among divides⟩

/-! ### A remainder by zero on a continued line -/

def dividedSource : Bytes :=
  bytes "#if 1 + (6 %\\\n 0)\n#endif\n"

/-- The stretch of the two lines of its test between two offsets. -/
def dividedPlace (start stop : UInt32) : Location :=
  let spot (offset : UInt32) : Position :=
    if offset < 14 then ⟨[], 1, 0, offset⟩ else ⟨[], 2, 14, offset⟩
  ⟨spot start, spot stop⟩

def dividedTokens : List Token :=
  [⟨.integer 1, bytes "1", dividedPlace 4 5⟩, ⟨.op .plus, bytes "+", dividedPlace 6 7⟩,
    ⟨.leftParen, bytes "(", dividedPlace 8 9⟩, ⟨.integer 6, bytes "6", dividedPlace 9 10⟩,
    ⟨.op .percent, bytes "%", dividedPlace 11 12⟩, ⟨.integer 0, bytes "0", dividedPlace 15 16⟩,
    ⟨.rightParen, bytes ")", dividedPlace 16 17⟩]

def dividedTest : Test :=
  Test.nonzero (.binary (dividedPlace 4 17) .add (.int (dividedPlace 4 5) 1)
    (.binary (dividedPlace 8 17) .mod (.int (dividedPlace 9 10) 6) (.int (dividedPlace 15 16) 0)))

theorem exists_ofSource_dividedSource :
    ∃ location, Node.ofSource [] dividedSource = .ok [.cond location dividedTest [] []] := by
  let stop : Token := ⟨.lineEnd, [], dividedPlace 17 17⟩
  let last (start stop : UInt32) : Location := ⟨⟨[], 3, 18, start⟩, ⟨[], 3, 18, stop⟩⟩
  let ended : Position := ⟨[], 4, 25, 25⟩
  have read : Test.ofTokens stop dividedTokens = .ok (dividedTest, []) := by
    have found : Descent.expression (dividedTokens ++ [stop, stop]) 0 = .ok (dividedTest, 7) := by
      decide +kernel
    exact Descent.ofTokens_eq_of_expression (by decide) (by simp) (by decide) found
  have scanned : Token.scan [] dividedSource =
      .ok ([Item.line ⟨.directive, bytes "if", dividedPlace 0 3⟩ dividedTokens stop,
        .line ⟨.directive, bytes "endif", last 18 24⟩ [] ⟨.lineEnd, [], last 24 24⟩].flatMap
          Item.tokens ++ [⟨.fileEnd, [], ⟨ended, ended⟩⟩]) := by
    decide +kernel
  rw [Node.ofSource, scanned]
  exact Node.ofTokens_condition rfl rfl ⟨rfl, by decide, rfl⟩ ⟨rfl, by decide, rfl⟩ rfl read

theorem Node.operands_denoted_in_dividedSource :
    ∃ location, Node.ofSource [] dividedSource = .ok [.cond location dividedTest [] []] ∧
      dividedTest.Located dividedSource ∧
      (Expansion.expand .empty [] [.cond location dividedTest [] []] .empty).result =
        .error ⟨.divisionByZero, dividedPlace 8 17⟩ ∧
      ∃ part here, part.location = dividedPlace 8 17 ∧ part.DividesByZero here ∧
        (bytes "(6 %\\\n 0)").Denotes part := by
  obtain ⟨location, read⟩ := exists_ofSource_dividedSource
  have failed : (Expansion.expand .empty [] [.cond location dividedTest [] []] .empty).result =
      .error ⟨.divisionByZero, dividedPlace 8 17⟩ := by
    have value : dividedTest.eval .empty = .error ⟨.divisionByZero, dividedPlace 8 17⟩ := by
      decide +kernel
    refine Expansion.result_of_failsAlone ⟨[], fun expand => ?_⟩
    simp only [Expansion.ofNode, value]
    rfl
  obtain ⟨located, divides⟩ := Node.operands_denoted_by_their_text (by decide) read
  refine ⟨location, read, ?_, failed, ?_⟩
  · exact located _ (List.mem_singleton_self _) _ _ _ _ .self
  · obtain ⟨path, source, parsed, ⟨origin, _⟩, outer, _, _, _, _, _, _, part, here, _, place, zero,
      denotes⟩ := divides .empty .empty _ .empty (fun path source found => by cases found) failed
    rcases origin with ⟨_, rfl⟩ | found
    · exact ⟨part, here, place, zero, denotes⟩
    · cases found

end ScopedMacros
