import ScopedMacros.Proofs.Condition
import ScopedMacros.Proofs.Joining
import ScopedMacros.Proofs.LogicalLine
import ScopedMacros.Proofs.MarkerErasure
import ScopedMacros.Proofs.Steps
import ScopedMacros.Proofs.WellFormed

/-!
# A conditional takes its first true branch

The tests of a conditional are tried in order.  The block of the first one that is true is expanded
in place of the conditional, or the last block if all are false.  A test that cannot be evaluated
ends the expansion with its error.  Nothing after the test that decides has an effect.
-/

namespace ScopedMacros

/-! ## The end of a line -/

theorem Bytes.lastOr_ne {before : Option Byte} {byte : Byte} {text : Bytes}
    (other : before ≠ some byte) (absent : byte ∉ text) : lastOr before text ≠ some byte := by
  intro last
  by_cases nothing : text = []
  · rw [nothing, lastOr_nil] at last
    exact other last
  · rw [lastOr_of_ne_nil nothing] at last
    exact absent (List.mem_of_getLast? last)

/-- No lexeme of a directive line ends with a backslash. -/
theorem Lexeme.lastOr_inLine {first : Byte} {rest : Bytes} {lexeme : Lexeme}
    (lexed : inLine first rest = .ok lexeme) (before : Option Byte) :
    Bytes.lastOr before (first :: lexeme.more) ≠ some Byte.backslash := by
  have other : some first ≠ some Byte.backslash := by
    rintro ⟨⟩
    exact absurd (startsInLine_of_inLine lexed) (by decide +kernel)
  rw [Bytes.lastOr_cons]
  unfold inLine at lexed
  split at lexed
  · cases lexed
    exact Bytes.lastOr_ne other (Bytes.not_mem_takeWhile rfl rest)
  split at lexed
  · obtain ⟨closed, rfl⟩ := closed_of_string lexed
    obtain ⟨front, raw⟩ := exists_raw_of_closed closed
    rw [raw, Bytes.lastOr_concat]
    decide
  split at lexed
  · dsimp only at lexed
    split at lexed
    · cases lexed
      exact Bytes.lastOr_ne other (Bytes.not_mem_takeWhile rfl rest)
    · cases lexed
  split at lexed
  · next op _ =>
      cases lexed
      exact Bytes.lastOr_ne other (by cases op <;> decide)
  iterate 3
    split at lexed
    · cases lexed
      exact other
  · cases lexed

namespace Token

/-- What is read of a line does not end with a backslash. -/
theorem exists_raw_of_ofLine {cursor stop : Cursor} {tokens : List Token}
    (read : ofLine cursor = .ok (tokens, stop)) :
    ∃ raw, cursor.rest = raw ++ stop.rest ∧
      ∀ before, before ≠ some Byte.backslash → Bytes.lastOr before raw ≠ some Byte.backslash := by
  have skipped : ∀ cursor : Cursor,
      cursor.rest = Lexeme.continuation cursor.rest ++ cursor.skip.rest := fun cursor =>
    (List.prefix_iff_eq_append.1 (Lexeme.prefix_continuation cursor.rest)).symm
  fun_induction ofLine cursor generalizing tokens stop with
  | case1 cursor ended =>
      cases read
      exact ⟨_, skipped cursor, fun before other => Lexeme.lastOr_continuation other _⟩
  | case2 => cases read
  | case3 => cases read
  | case4 cursor next found lexeme lexed tail stop' rest ih =>
      cases read
      obtain ⟨raw, further, ends⟩ := ih rest
      obtain ⟨whole, _⟩ := Cursor.rest_of_inLine? found
      obtain ⟨left, split⟩ := Lexeme.prefix_inLine lexed
      have advanced : (cursor.skip.advance (next.1 :: lexeme.more)).rest = left := by
        rw [Cursor.advance, whole, ← split, ← List.cons_append, List.drop_left]
      rw [advanced] at further
      refine ⟨Lexeme.continuation cursor.rest ++ (next.1 :: lexeme.more ++ raw), ?_, ?_⟩
      · rw [List.append_assoc, List.append_assoc, ← further, List.cons_append, split, ← whole]
        exact skipped cursor
      · intro before _
        rw [Bytes.lastOr_append, Bytes.lastOr_append]
        exact ends _ (Lexeme.lastOr_inLine lexed _)

/-- A line that is read up to its newline ends there. -/
theorem endsLine_of_ofLine {position stop : Position} {text : Bytes} {tokens : List Token}
    (read : ofLine ⟨position, text ++ [Byte.newline]⟩ = .ok (tokens, ⟨stop, [Byte.newline]⟩)) :
    Bytes.EndsLine (text ++ [Byte.newline]) := by
  obtain ⟨raw, whole, ends⟩ := exists_raw_of_ofLine read
  obtain rfl : text = raw := List.append_cancel_right whole
  have last := ends none (by simp)
  rw [Bytes.lastOr, Option.or_none] at last
  exact ⟨text, rfl, last⟩

end Token

/-! ## Sources -/

/-- The text of a test, and the text of the block that it guards. -/
structure Clause where
  test : Bytes
  block : Bytes

/-- The test that a text is read as, after the word of a directive and up to the end of its line. -/
def Test.IsRead (text : Bytes) (test : Test) : Prop :=
  ∃ tokens stop,
    Token.ofLine ⟨.first [], Byte.space :: text ++ [Byte.newline]⟩ =
      .ok (tokens, ⟨stop, [Byte.newline]⟩) ∧
    Test.ofTokens (Cursor.point ⟨stop, [Byte.newline]⟩ .lineEnd) tokens = .ok (test, [])

/-- However a test is written, with blanks between its words, it is read from that text. -/
theorem Test.exists_isRead_of_written {test : Test} {words : List Bytes} {text : Bytes}
    (written : Written .either test words) (spaced : Bytes.Spaced words (Byte.space :: text)) :
    ∃ read, IsRead text read := by
  obtain ⟨tokens, line, spell⟩ :=
    Token.exists_tokens_of_spaced spaced (isSome_of_written written) (.first []) []
  have isEnd : (Cursor.point ⟨Position.advance (.first []) (Byte.space :: text), [Byte.newline]⟩
      .lineEnd).kind = .lineEnd := rfl
  obtain ⟨read, whole, _⟩ := ofTokens_of_written written spell isEnd
  exact ⟨read, tokens, _, line, whole⟩

/-- Whole lines that can be read on their own. -/
structure Bytes.IsBlock (text : Bytes) : Prop where
  whole : text.WholeLines
  read : ∃ nodes, Node.ofSource [] text = .ok nodes

/-- The nodes are those of the text on its own, up to places. -/
def Node.ReadAs (text : Bytes) (nodes : List Node) : Prop :=
  ∃ alone, Node.ofSource [] text = .ok alone ∧ nodes.map unplaced = alone.map unplaced

namespace Clause

structure Valid (clause : Clause) : Prop where
  test : ∃ test, Test.IsRead clause.test test
  block : clause.block.IsBlock

/-- The branch has the test and the nodes of the clause, up to places. -/
structure ReadAs (clause : Clause) (branch : Branch) : Prop where
  test : ∃ alone, Test.IsRead clause.test alone ∧ branch.test.unplaced = alone.unplaced
  nodes : Node.ReadAs clause.block branch.nodes

/-- The line of a directive with the test, and after it the block. -/
def text (directive : Directive) (clause : Clause) : Bytes :=
  bytes "#" ++ directive.word ++ bytes " " ++ clause.test ++ bytes "\n" ++ clause.block

/-- The last block of a conditional, if it has one, and its last line. -/
def ending (last : Option Bytes) : Bytes :=
  (last.elim [] fun block => bytes "#else\n" ++ block) ++ bytes "#endif\n"

/-- A conditional with any number of clauses. -/
def conditional (first : Clause) (others : List Clause) (last : Option Bytes) : Bytes :=
  first.text .ifTrue ++ (others.flatMap (text .elseIf) ++ ending last)

end Clause

/-! ## Lines and blocks -/

namespace Token

theorem allSame_of_unplaced {tokens others : List Token}
    (same : tokens.map unplaced = others.map unplaced) : AllSame tokens others := by
  rw [← List.forall₂_eq_eq_eq, List.forall₂_map_left_iff, List.forall₂_map_right_iff] at same
  refine same.imp fun token other equal => ?_
  obtain ⟨kind, text⟩ := unplaced_eq_iff.1 equal
  exact ⟨kind.symm, text.symm⟩

/-- A line with a test is read alike wherever it stands. -/
theorem exists_line_of_isRead {text : Bytes} {test : Test} (isRead : Test.IsRead text test)
    (directive : Directive) (notDefine : directive ≠ .define) (notLine : directive ≠ .line)
    (position : Position) (after : Bytes) :
    ∃ word tokens last place read, word.text = directive.word ∧
      (Item.line word tokens last).Proper ∧ Test.ofTokens last tokens = .ok (read, []) ∧
      read.unplaced = test.unplaced ∧
      ofSource true ⟨position,
          bytes "#" ++ directive.word ++ bytes " " ++ text ++ bytes "\n" ++ after⟩ =
        (ofSource true ⟨place, after⟩).map ((Item.line word tokens last).tokens ++ ·) := by
  obtain ⟨tokens, stop, line, whole⟩ := isRead
  let start := position.advance (Byte.hash :: directive.word)
  have extended : Cursor.Extends after ⟨.first [], Byte.space :: text ++ [Byte.newline]⟩
      ⟨start, Byte.space :: text ++ [Byte.newline] ++ after⟩ :=
    ⟨rfl, .inr (endsLine_of_ofLine line)⟩
  obtain ⟨⟨others, halt, left⟩, otherLine, alike⟩ := ofLine_follows extended _ line
  obtain rfl : left = Byte.newline :: after := alike.cursor.rest
  obtain ⟨word, spelled, proper, source⟩ := ofSource_word directive notDefine notLine rfl otherLine
  have stops : Token.Same (Cursor.point ⟨stop, [Byte.newline]⟩ .lineEnd)
      (Cursor.point ⟨halt, Byte.newline :: after⟩ .lineEnd) := ⟨rfl, rfl⟩
  obtain ⟨⟨read, rest⟩, otherWhole, same, nothing⟩ :=
    Test.ofTokens_follows stops (allSame_of_unplaced alike.tokens) _ whole
  obtain rfl : rest = [] := List.forall₂_nil_left_iff.1 nothing
  have written :
      bytes "#" ++ directive.word ++ bytes " " ++ text ++ bytes "\n" ++ after =
        Byte.hash :: (directive.word ++ (Byte.space :: text ++ [Byte.newline] ++ after)) := by
    simp only [List.append_assoc]
    rfl
  rw [written]
  exact ⟨word, others, _, _, read, spelled, proper, otherWhole, same.symm, source⟩

/-- A block is read alike wherever it stands, and in a branch it becomes the nodes of the branch. -/
theorem exists_tokens_of_isBlock {block : Bytes} (isBlock : block.IsBlock) (position : Position)
    (after : Bytes) :
    ∃ tokens place nodes, Node.ReadAs block nodes ∧
      ofSource true ⟨position, block ++ after⟩ =
        (ofSource true ⟨place, after⟩).map (tokens ++ ·) ∧
      ∀ outer : Builder, ∀ frame, Builder.AtBlock ((frame, outer.nodes) :: outer.frames) →
        tokens.foldlM Builder.step (outer.enter frame) =
          .ok ⟨nodes.reverse, (frame, outer.nodes) :: outer.frames⟩ := by
  obtain ⟨alone, read⟩ := isBlock.read
  obtain ⟨front, last, builder, _, stretch, taken, closed, rfl⟩ :=
    Node.exists_builder_of_ofSource read
  obtain ⟨tokens, place, same, source⟩ := stretch.read position after (.inr isBlock.whole)
  obtain ⟨⟨nodes, frames⟩, otherTaken, otherClosed, unplaced, _⟩ :=
    Builder.exists_builder_of_unplaced taken closed same
  obtain rfl : frames = [] := otherClosed
  refine ⟨tokens, place, nodes.reverse, ⟨_, read, ?_⟩, source, fun outer frame inBlock => ?_⟩
  · rw [List.map_reverse, List.map_reverse, unplaced]
  · -- The branch holds nothing yet, so that no name before the block can take it for arguments.
    have stacked : tokens.foldlM Builder.step ((outer.enter frame).stack .empty) =
        .ok ((outer.enter frame).stack ⟨nodes, []⟩) :=
      Builder.foldlM_stack_of_ok inBlock rfl otherTaken
    rw [List.reverse_reverse]
    simpa [Builder.stack, Builder.onto, Builder.empty, Builder.enter] using stacked

/-- The line of a clause opens a branch, which the block of the clause fills. -/
theorem exists_tokens_of_valid {clause : Clause} (valid : clause.Valid) (directive : Directive)
    (notDefine : directive ≠ .define) (notLine : directive ≠ .line) (position : Position)
    (after : Bytes) :
    ∃ word arguments stop inner place branch, word.text = directive.word ∧
      (Item.line word arguments stop).Proper ∧ clause.ReadAs branch ∧
      ofSource true ⟨position, clause.text directive ++ after⟩ =
        (ofSource true ⟨place, after⟩).map
          ((Item.line word arguments stop).tokens ++ inner ++ ·) ∧
      ∀ outer : Builder, ∀ earlier,
        (Builder.finishLine outer word (.ifTrue earlier) arguments stop >>=
            fun builder => inner.foldlM Builder.step builder) =
          .ok ⟨branch.nodes.reverse,
            (.branch word.text branch.location branch.test earlier, outer.nodes) ::
              outer.frames⟩ := by
  obtain ⟨test, isRead⟩ := valid.test
  obtain ⟨word, arguments, stop, start, read, spelled, proper, whole, same, line⟩ :=
    exists_line_of_isRead isRead directive notDefine notLine position (clause.block ++ after)
  obtain ⟨inner, place, nodes, readAs, source, taken⟩ :=
    exists_tokens_of_isBlock valid.block start after
  refine ⟨word, arguments, stop, inner, place,
    ⟨word.location.span stop.location, read, nodes⟩, spelled, proper,
    ⟨⟨test, isRead, same⟩, readAs⟩, ?_, fun outer earlier => ?_⟩
  · rw [Clause.text, List.append_assoc, line, source]
    cases ofSource true ⟨place, after⟩ <;> simp [Except.map]
  · refine bind_eq_ok_iff.2 ⟨_, ?_, taken outer _ trivial⟩
    refine bind_eq_ok_iff.2 ⟨_, whole, bind_eq_ok_iff.2 ⟨_, ?_, rfl⟩⟩
    exact Builder.endLine_nil word proper.2.2

end Token

/-! ## Conditionals -/

/-- The nodes for branches in order, and for the case that all tests are false. -/
def Branch.cascade (no : List Node) : List Branch → List Node
  | [] => no
  | branch :: rest => [branch.node (cascade no rest)]

/-- The nodes are those of the last block, if there is one. -/
def Clause.EndsAs (last : Option Bytes) (no : List Node) : Prop :=
  match last with
  | none => no = []
  | some block => Node.ReadAs block no

namespace Token

/-- A directive that stands alone on its line. -/
theorem exists_line_of_word (directive : Directive) (notDefine : directive ≠ .define)
    (notLine : directive ≠ .line) (position : Position) (after : Bytes) :
    ∃ word last place, word.text = directive.word ∧ (Item.line word [] last).Proper ∧
      ofSource true ⟨position, bytes "#" ++ directive.word ++ bytes "\n" ++ after⟩ =
        (ofSource true ⟨place, after⟩).map ((Item.line word [] last).tokens ++ ·) := by
  obtain ⟨word, spelled, proper, source⟩ := ofSource_word directive notDefine notLine rfl
    (ofLine_of_newline (position.advance (Byte.hash :: directive.word)) after)
  have written : bytes "#" ++ directive.word ++ bytes "\n" ++ after =
      Byte.hash :: (directive.word ++ Byte.newline :: after) := by
    simp only [List.append_assoc]
    rfl
  rw [written]
  exact ⟨word, _, _, spelled, proper, source⟩

/-- What is left of a conditional after one of its blocks closes the branch. -/
theorem exists_tokens_of_ending {last : Option Bytes} (valid : ∀ block ∈ last, block.IsBlock)
    (position : Position) :
    ∃ tokens ended no, ofSource true ⟨position, Clause.ending last⟩ = .ok (tokens ++ [ended]) ∧
      Clause.EndsAs last no ∧
      ∀ nodes opener location test earlier before outer,
        tokens.foldlM Builder.step
            ⟨nodes, (.branch opener location test earlier, before) :: outer⟩ =
          .ok ((Builder.mk before outer).push
            (Branch.chain ⟨location, test, nodes.reverse⟩ earlier no)) := by
  cases last with
  | none =>
      obtain ⟨word, stop, ended, isEnd, proper, _, source⟩ := ofSource_endIf position
      refine ⟨_, ended, [], source, rfl, fun nodes opener location test earlier before outer => ?_⟩
      exact Builder.foldlM_endIf_of_branch proper (isEnd ▸ Directive.ofWord?_word _) rfl
  | some block =>
      obtain ⟨word, stop, start, isElse, proper, line⟩ := exists_line_of_word .otherwise
        (by decide) (by decide) position (block ++ bytes "#endif\n")
      obtain ⟨inner, place, no, readAs, source, taken⟩ :=
        exists_tokens_of_isBlock (valid block rfl) start (bytes "#endif\n")
      obtain ⟨final, halt, ended, isEnd, properEnd, _, endSource⟩ := ofSource_endIf place
      refine ⟨(Item.line word [] stop).tokens ++ (inner ++ (Item.line final [] halt).tokens), ended,
        no, ?_, readAs, fun nodes opener location test earlier before outer => ?_⟩
      · have written : Clause.ending (some block) =
            bytes "#" ++ Directive.otherwise.word ++ bytes "\n" ++ (block ++ bytes "#endif\n") :=
          List.append_assoc (bytes "#else\n") block (bytes "#endif\n")
        rw [written, line, source, endSource]
        simp [Except.map]
      · have filled := taken ⟨before, outer⟩
          (.otherwise word.location ⟨location, test, nodes.reverse⟩ earlier) trivial
        rw [Builder.foldlM_append_of_ok (Builder.foldlM_otherwise proper
            (isElse ▸ Directive.ofWord?_word _) rfl),
          Builder.foldlM_append_of_ok filled,
          Builder.foldlM_endIf_of_otherwise properEnd (isEnd ▸ Directive.ofWord?_word _) rfl,
          List.reverse_reverse]

/-- The clauses after one of the blocks of a conditional nest in the branch of that block. -/
theorem exists_tokens_of_clauses {last : Option Bytes} (validLast : ∀ block ∈ last, block.IsBlock)
    {clauses : List Clause} (valid : ∀ clause ∈ clauses, clause.Valid) (position : Position) :
    ∃ tokens ended branches no,
      ofSource true ⟨position, clauses.flatMap (Clause.text .elseIf) ++ Clause.ending last⟩ =
        .ok (tokens ++ [ended]) ∧
      List.Forall₂ Clause.ReadAs clauses branches ∧ Clause.EndsAs last no ∧
      ∀ nodes opener location test earlier before outer,
        tokens.foldlM Builder.step
            ⟨nodes, (.branch opener location test earlier, before) :: outer⟩ =
          .ok ((Builder.mk before outer).push
            (Branch.chain ⟨location, test, nodes.reverse⟩ earlier
              (Branch.cascade no branches))) := by
  induction clauses generalizing position with
  | nil =>
      obtain ⟨tokens, ended, no, source, endsAs, taken⟩ :=
        exists_tokens_of_ending validLast position
      exact ⟨tokens, ended, [], no, source, .nil, endsAs, taken⟩
  | cons clause clauses ih =>
      obtain ⟨word, arguments, stop, inner, place, branch, isElseIf, proper, readAs, source,
          opened⟩ :=
        exists_tokens_of_valid (valid clause (by simp)) .elseIf (by decide) (by decide) position
          (clauses.flatMap (Clause.text .elseIf) ++ Clause.ending last)
      obtain ⟨tokens, ended, branches, no, restSource, each, endsAs, taken⟩ :=
        ih (fun other member => valid other (by simp [member])) place
      refine ⟨(Item.line word arguments stop).tokens ++ inner ++ tokens, ended, branch :: branches,
        no, ?_, .cons readAs each, endsAs, ?_⟩
      · rw [List.flatMap_cons, List.append_assoc, source, restSource]
        simp [Except.map]
      · -- The open branch joins the earlier ones, and what follows is all it has for a false test.
        intro nodes opener location test earlier before outer
        have filled := opened ⟨before, outer⟩ (⟨location, test, nodes.reverse⟩ :: earlier)
        rw [← Builder.foldlM_after_branch proper (isElseIf ▸ Directive.ofWord?_word _) rfl,
          ← List.foldlM_append] at filled
        rw [Builder.foldlM_append_of_ok filled, taken, List.reverse_reverse]
        rfl

end Token

/-- A conditional is read as its branches in order, each with its test and its block. -/
theorem Node.exists_cascade_of_conditional {first : Clause} {others : List Clause}
    {last : Option Bytes} (valid : ∀ clause ∈ first :: others, clause.Valid)
    (validLast : ∀ block ∈ last, block.IsBlock) (name : Bytes) :
    ∃ branches no, Node.ofSource name (first.conditional others last) =
        .ok (Branch.cascade no branches) ∧
      List.Forall₂ Clause.ReadAs (first :: others) branches ∧ Clause.EndsAs last no := by
  obtain ⟨word, arguments, stop, inner, place, branch, isIf, proper, readAs, source, opened⟩ :=
    Token.exists_tokens_of_valid (valid first (by simp)) .ifTrue (by decide) (by decide)
      (.first name) (others.flatMap (Clause.text .elseIf) ++ Clause.ending last)
  obtain ⟨tokens, ended, branches, no, restSource, each, endsAs, taken⟩ :=
    Token.exists_tokens_of_clauses validLast
      (fun other member => valid other (List.mem_cons_of_mem first member)) place
  refine ⟨branch :: branches, no, ?_, .cons readAs each, endsAs⟩
  have scanned : Token.scan name (first.conditional others last) =
      .ok ((Item.line word arguments stop).tokens ++ inner ++ tokens ++ [ended]) := by
    rw [Token.scan, Clause.conditional, source, restSource]
    simp [Except.map]
  have filled := opened .empty []
  have atStart : Builder.AtBlock Builder.empty.frames := trivial
  rw [← Builder.foldlM_opener atStart proper (isIf ▸ Directive.ofWord?_word _) rfl,
    ← List.foldlM_append] at filled
  rw [Node.ofSource_eq scanned, Builder.foldlM_append_of_ok filled]
  exact bind_eq_ok_iff.2 ⟨_, taken _ _ _ _ _ _ _, by simp [Builder.finish, Builder.push,
    Builder.empty, Branch.chain, Branch.cascade]⟩

/-! ## Expansion -/

namespace Session

variable {session : Session} {name : Bytes} {branch : Branch} {no : List Node}

/-- Without markers, a session does not see the jumps around what it takes up. -/
theorem take_between (off : session.markers = false) (outcome : Outcome) (shown : Bool) :
    session.take ⟨[.jump] ++ outcome.events ++ (if outcome.result.isOk then [.jump] else []),
        outcome.result⟩ shown =
      session.take outcome shown := by
  obtain ⟨events, result⟩ := outcome
  have unwritten : Event.written .jump = [] := rfl
  cases result with
  | error error => simp [take, Except.isOk, Except.toBool, Diagnostic.ofEvents, loadsOf]
  | ok env =>
      simp [take, Except.isOk, Except.toBool, Diagnostic.ofEvents, loadsOf, off,
        Layout.output_false, unwritten]

/-- What a session shows that fails at once. -/
def failed (session : Session) (error : Error) : Session × Report :=
  ({ session with log := session.log.append [.ofError error] },
    ⟨.error error, [.ofError error]⟩)

theorem take_error (session : Session) (error : Error) (shown : Bool) :
    session.take ⟨[], .error error⟩ shown = session.failed error := by
  simp [take, failed, Diagnostic.ofEvents, loadsOf]

theorem expandNodes_of_error {error : Error} (fails : branch.test.eval session.env = .error error) :
    session.expandNodes name [branch.node no] = session.failed error := by
  have ran : Expansion.run session.files ⟨[name], none⟩ [branch.node no] session.env =
      ⟨[], .error error⟩ := by
    apply Expansion.run_eq_of_ofNode
    simp only [Branch.node, Expansion.ofNode, fails]
    rfl
  rw [expandNodes, Expansion.expand, ran, take_error]

theorem expandNodes_of_ok (off : session.markers = false) {holds : Bool}
    (value : branch.test.eval session.env = .ok holds) :
    session.expandNodes name [branch.node no] =
      session.expandNodes name (if holds then branch.nodes else no) := by
  have ran : Expansion.run session.files ⟨[name], none⟩ [branch.node no] session.env =
      let inner := Expansion.run session.files ⟨[name], none⟩
        (if holds then branch.nodes else no) session.env
      ⟨[.jump] ++ inner.events ++ (if inner.result.isOk then [.jump] else []), inner.result⟩ := by
    apply Expansion.run_eq_of_ofNode
    simp only [Branch.node, Expansion.ofNode, value, Step.all_between]
    rfl
  rw [expandNodes, Expansion.expand, ran]
  exact take_between off _ true

theorem expandNodes_nil (session : Session) (name : Bytes) :
    session.expandNodes name [] = (session, ⟨.ok [], []⟩) := by
  rw [expandNodes, Expansion.expand, Expansion.run_nil]
  simp [take, Diagnostic.ofEvents, loadsOf, Log.append, Layout.output, Layout.pieces]

/-- Branches whose tests are false are passed over. -/
theorem expandNodes_cascade_append (off : session.markers = false) {before : List Branch}
    (tried : ∀ branch ∈ before, branch.test.eval session.env = .ok false) (rest : List Branch) :
    session.expandNodes name (Branch.cascade no (before ++ rest)) =
      session.expandNodes name (Branch.cascade no rest) := by
  induction before with
  | nil => rfl
  | cons branch before ih =>
      rw [List.cons_append, Branch.cascade, expandNodes_of_ok off (tried branch (by simp))]
      exact ih fun other member => tried other (by simp [member])

/-- The first test that is not false decides what a source expands to. -/
structure TakesFirst (session : Session) (name text : Bytes) (branches : List Branch)
    (no : List Node) : Prop where
  holds : ∀ before branch after, branches = before ++ branch :: after →
    (∀ earlier ∈ before, earlier.test.eval session.env = .ok false) →
    branch.test.eval session.env = .ok true →
    session.expand name text = session.expandNodes name branch.nodes
  fails : ∀ before branch after error, branches = before ++ branch :: after →
    (∀ earlier ∈ before, earlier.test.eval session.env = .ok false) →
    branch.test.eval session.env = .error error →
    session.expand name text = session.failed error
  otherwise : (∀ branch ∈ branches, branch.test.eval session.env = .ok false) →
    session.expand name text = session.expandNodes name no
  nothing : no = [] → (∀ branch ∈ branches, branch.test.eval session.env = .ok false) →
    session.expand name text = (session, ⟨.ok [], []⟩)

theorem takesFirst_of_cascade {text : Bytes} {branches : List Branch}
    (off : session.markers = false)
    (read : Node.ofSource name text = .ok (Branch.cascade no branches)) :
    session.TakesFirst name text branches no := by
  have expanded : session.expand name text =
      session.expandNodes name (Branch.cascade no branches) := by
    rw [expand, Expansion.ofSource, read, expandNodes]
  have passed (tried : ∀ branch ∈ branches, branch.test.eval session.env = .ok false) :
      session.expand name text = session.expandNodes name no := by
    rw [expanded, ← List.append_nil branches]
    exact expandNodes_cascade_append off tried []
  constructor
  case holds =>
    rintro before branch after rfl tried value
    rw [expanded, expandNodes_cascade_append off tried, Branch.cascade, expandNodes_of_ok off value]
    rfl
  case fails =>
    rintro before branch after error rfl tried value
    rw [expanded, expandNodes_cascade_append off tried, Branch.cascade, expandNodes_of_error value]
  case otherwise =>
    intro tried
    exact passed tried
  case nothing =>
    rintro rfl tried
    rw [passed tried, expandNodes_nil]

/-- A conditional of any length is read as its branches, and expands to the nodes of the first one
whose test is true. -/
theorem expand_conditional {first : Clause} {others : List Clause} {last : Option Bytes}
    (valid : ∀ clause ∈ first :: others, clause.Valid)
    (validLast : ∀ block ∈ last, block.IsBlock) (name : Bytes) :
    ∃ branches no,
      Node.ofSource name (first.conditional others last) = .ok (Branch.cascade no branches) ∧
      List.Forall₂ Clause.ReadAs (first :: others) branches ∧ Clause.EndsAs last no ∧
      ∀ session : Session, session.markers = false →
        session.TakesFirst name (first.conditional others last) branches no := by
  obtain ⟨branches, no, read, each, endsAs⟩ :=
    Node.exists_cascade_of_conditional valid validLast name
  exact ⟨branches, no, read, each, endsAs, fun session off => takesFirst_of_cascade off read⟩

/-- After a false test comes a true one, then one that has no value unless `b` is defined, and a
last block that would make a call of the name at the end of the second one. -/
theorem expand_conditional_undefined :
    let first : Clause := ⟨bytes "defined a", bytes "#define b 1\n"⟩
    let others : List Clause := [⟨bytes "not defined a", bytes "f\n"⟩, ⟨bytes "b > 0x1", []⟩]
    let last := some (bytes "(x)\n#ifdef b\n#endif\n")
    (∀ clause ∈ first :: others, clause.Valid) ∧ (∀ block ∈ last, block.IsBlock) ∧
      ∃ branches no, Node.ofSource (bytes "a.txt") (first.conditional others last) =
          .ok (Branch.cascade no branches) ∧
        List.Forall₂ Clause.ReadAs (first :: others) branches ∧ Clause.EndsAs last no ∧
        (Session.start false).TakesFirst (bytes "a.txt") (first.conditional others last)
          branches no := by
  intro first others last
  let nowhere := Location.nowhere
  have defined : Test.Written .single (.defined nowhere (bytes "a"))
      [bytes "defined", bytes "a"] := .defined _ (by decide)
  have negated : Test.Written .single (.not nowhere (.defined nowhere (bytes "a")))
      (bytes "not" :: [bytes "defined", bytes "a"]) := .not _ (by decide) defined
  have b : Arith.Written .operand (.ident nowhere (bytes "b")) [bytes "b"] :=
    .ident _ (by decide) (by decide)
  have one : Arith.Written .operand (.int nowhere 1) [bytes "0x1"] :=
    .int _ (by decide) (.digit (.inl rfl))
  have greater : Test.Written .single (Comparison.greater.test nowhere _ _)
      ([bytes "b"] ++ bytes ">" :: [bytes "0x1"]) :=
    .compare _ (List.mem_singleton.2 rfl) (b.ofOperand _) (one.ofOperand _)
  have isBlock : ∀ text : Bytes, text.WholeLines → (Node.ofSource [] text).isOk = true →
      text.IsBlock := fun text whole read => ⟨whole, exists_eq_ok_of_isOk read⟩
  have valid : ∀ clause ∈ first :: others, clause.Valid := by
    refine List.forall_mem_cons.2 ⟨?_, List.forall_mem_cons.2 ⟨?_, List.forall_mem_singleton.2 ?_⟩⟩
    · exact ⟨Test.exists_isRead_of_written defined.ofSingle (Bytes.spaced_spaced _),
        isBlock _ (.inr ⟨bytes "#define b 1", rfl, by decide⟩) (by decide +kernel)⟩
    · exact ⟨Test.exists_isRead_of_written negated.ofSingle (Bytes.spaced_spaced _),
        isBlock _ (.inr ⟨bytes "f", rfl, by decide⟩) (by decide +kernel)⟩
    · exact ⟨Test.exists_isRead_of_written greater.ofSingle (Bytes.spaced_spaced _),
        isBlock _ (.inl rfl) (by decide +kernel)⟩
  have validLast : ∀ block ∈ last, block.IsBlock := by
    intro block member
    obtain rfl := Option.some.inj member
    exact isBlock _ (.inr ⟨bytes "(x)\n#ifdef b\n#endif", rfl, by decide⟩) (by decide +kernel)
  obtain ⟨branches, no, read, each, endsAs, takes⟩ :=
    expand_conditional valid validLast (bytes "a.txt")
  exact ⟨valid, validLast, branches, no, read, each, endsAs, takes _ rfl⟩

end Session

end ScopedMacros
