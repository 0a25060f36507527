import ScopedMacros.Proofs.LogicalLine
import ScopedMacros.Proofs.Steps
import ScopedMacros.Proofs.Termination
import ScopedMacros.Proofs.Tiling

/-!
# Macros given on a command line

Each macro given on a command line becomes a line of one source.  A text that ends with a backslash
takes in the line after it, with the macro that is given there.  All other macros are defined, each by
itself.
-/

namespace ScopedMacros

/-! ## Signatures -/

namespace Signature

theorem not_mem_listText {byte : Byte} {list : List Bytes} (notPart : Byte.isNamePart byte = false)
    (notMark : byte ∉ [Byte.leftParen, Byte.rightParen, Byte.comma])
    (names : ∀ name ∈ list, name.isName = true) : byte ∉ listText list := by
  simp only [List.mem_cons, List.not_mem_nil, or_false, not_or] at notMark
  fun_induction listText list with
  | case1 => simpa using notMark.2.1
  | case2 last =>
      have noName := Bytes.not_mem_of_isName notPart (names last (by simp))
      simpa [noName] using notMark.2.1
  | case3 first second rest ih =>
      have noName := Bytes.not_mem_of_isName notPart (names first (by simp))
      have others := ih fun name member => names name (List.mem_cons_of_mem first member)
      simp [noName, others, notMark]

/-- A signature is made of names, parentheses and commas. -/
theorem not_mem_text {byte : Byte} {signature : Signature} (proper : signature.Proper)
    (notPart : Byte.isNamePart byte = false)
    (notMark : byte ∉ [Byte.leftParen, Byte.rightParen, Byte.comma]) : byte ∉ signature.text := by
  obtain ⟨name, parameters⟩ := signature
  have noName := Bytes.not_mem_of_isName notPart proper.name
  cases parameters with
  | none => simpa [text, parametersText] using noName
  | some list =>
      have noList := not_mem_listText notPart notMark (proper.parameters list rfl)
      simp only [List.mem_cons, List.not_mem_nil, or_false, not_or] at notMark
      simp [text, parametersText, noName, noList, notMark]

end Signature

/-! ## The lines -/

namespace Predefine

/-- A macro as it is given: its signature, and maybe a value. -/
structure Given where
  signature : Signature
  value : Option Bytes
  deriving DecidableEq, Repr

namespace Given

/-- The text that it is given as. -/
def text (given : Given) : Bytes :=
  given.signature.text ++
    match given.value with
    | none => []
    | some value => Byte.equals :: value

/-- What follows the signature on its line, but for the continued lines. -/
def body (given : Given) : Bytes :=
  valueText (given.value.getD [])

/-- The line that defines it, up to the newline at its end. -/
def line (given : Given) : Bytes :=
  bytes "#define " ++ given.signature.text ++ given.body.continued

/-- Whether the text ends with a backslash. -/
def goesOn (given : Given) : Bool :=
  given.text.getLast? == some Byte.backslash

variable {given : Given}

theorem directive_text (proper : given.signature.Proper) :
    directive given.text = given.line ++ [Byte.newline] := by
  have noEquals : Byte.equals ∉ given.signature.text :=
    Signature.not_mem_text proper rfl (by decide)
  obtain ⟨signature, value⟩ := given
  cases value with
  | some value => exact (directive_of_value noEquals value).trans (List.append_assoc ..).symm
  | none =>
      have other := bne_equals_of_mem noEquals
      have whole : text ⟨signature, none⟩ = signature.text := List.append_nil _
      rw [whole, directive, List.takeWhile_eq_self_iff.2 other, List.dropWhile_eq_nil_iff.2 other]
      simp [line, body, valueText]

/-- The line of a macro goes on exactly if its text ends with a backslash. -/
theorem goesOn_iff (proper : given.signature.Proper) {before : Option Byte}
    (other : before ≠ some Byte.backslash) :
    given.goesOn = true ↔ Bytes.lastOr before given.body.continued = some Byte.backslash := by
  have noBackslash : Byte.backslash ∉ given.signature.text :=
    Signature.not_mem_text proper rfl (by decide)
  have signatureEnds : given.signature.text.getLast? ≠ some Byte.backslash :=
    fun ends => noBackslash (List.mem_of_getLast? ends)
  obtain ⟨signature, value⟩ := given
  rw [goesOn, beq_iff_eq, Bytes.lastOr_continued]
  match value with
  | none => simpa [text, body, valueText, Bytes.lastOr_nil, other] using signatureEnds
  | some [] =>
      have equals : Byte.equals ≠ Byte.backslash := by decide
      simp [text, body, valueText, Bytes.lastOr_nil, other, equals]
  | some (first :: rest) =>
      simp [text, body, valueText, Bytes.lastOr, List.getLast?_cons]

theorem unbroken_line (proper : given.signature.Proper) (before : Option Byte) :
    Bytes.Unbroken before given.line := by
  have noNewline : Byte.newline ∉ bytes "#define " ++ given.signature.text := by
    rw [List.mem_append, not_or]
    exact ⟨by decide, Signature.not_mem_text proper rfl (by decide)⟩
  exact Bytes.unbroken_append.2
    ⟨Bytes.unbroken_of_not_mem noNewline _, Bytes.unbroken_continued _ _⟩

theorem lastOr_line (proper : given.signature.Proper) (before : Option Byte) :
    (Bytes.lastOr before given.line == some Byte.backslash) = given.goesOn := by
  have noBackslash : Byte.backslash ∉ bytes "#define " ++ given.signature.text := by
    rw [List.mem_append, not_or]
    exact ⟨by decide, Signature.not_mem_text proper rfl (by decide)⟩
  have other : Bytes.lastOr before (bytes "#define " ++ given.signature.text) ≠
      some Byte.backslash := by
    rw [Bytes.lastOr_of_ne_nil (by simp [bytes])]
    exact fun ends => noBackslash (List.mem_of_getLast? ends)
  rw [line, Bytes.lastOr_append, Bool.eq_iff_iff, beq_iff_eq, goesOn_iff proper other]

end Given

/-- The lines that define macros. -/
def lines (givens : List Given) : Bytes :=
  (givens.map Given.text).flatMap directive

/-- The macros that are not taken in by the line before theirs, where the line before the first one
goes on if `goesOn`. -/
def kept : Bool → List Given → List Given
  | _, [] => []
  | true, given :: rest => kept given.goesOn rest
  | false, given :: rest => given :: kept given.goesOn rest

theorem kept_sublist (goesOn : Bool) (givens : List Given) : (kept goesOn givens).Sublist givens := by
  fun_induction kept goesOn givens with
  | case1 => exact .refl _
  | case2 given rest ih => exact ih.cons given
  | case3 given rest ih => exact ih.cons_cons given

/-- All macros are kept exactly if the lines before the last one do not go on. -/
theorem kept_eq_self_iff {givens : List Given} :
    kept false givens = givens ↔ ∀ given ∈ givens.dropLast, given.goesOn = false := by
  induction givens with
  | nil => simp [kept]
  | cons given rest ih =>
      cases rest with
      | nil => simp [kept]
      | cons next rest =>
          rw [List.dropLast_cons_cons, List.forall_mem_cons, kept, List.cons_inj_right]
          cases goesOn : given.goesOn with
          | false => simpa using ih
          | true =>
              have fewer := (kept_sublist next.goesOn rest).length_le
              have different : kept true (next :: rest) ≠ next :: rest := by
                intro same
                have lengths := congrArg List.length same
                rw [kept, List.length_cons] at lengths
                omega
              simpa using different

/-- Where the first line ends, the lines of the macros after those that it takes in follow. -/
theorem exists_line {givens : List Given} (proper : ∀ given ∈ givens, given.signature.Proper)
    {front : Bytes} (unbroken : Bytes.Unbroken none front) :
    ∃ raw later, front ++ Byte.newline :: lines givens = raw ++ Byte.newline :: lines later ∧
      Bytes.Unbroken none raw ∧ (Bytes.lastOr none raw = some Byte.backslash → later = []) ∧
      kept (Bytes.lastOr none front == some Byte.backslash) givens = kept false later ∧
      later <:+ givens := by
  induction givens generalizing front with
  | nil => exact ⟨front, [], rfl, unbroken, fun _ => rfl, by simp [kept], List.suffix_refl _⟩
  | cons given rest ih =>
      obtain ⟨givenProper, restProper⟩ := List.forall_mem_cons.1 proper
      by_cases goesOn : Bytes.lastOr none front = some Byte.backslash
      · let next := front ++ Byte.newline :: given.line
        have sameText : front ++ Byte.newline :: lines (given :: rest) =
            next ++ Byte.newline :: lines rest := by
          simp [lines, Given.directive_text givenProper, next]
        have nextUnbroken : Bytes.Unbroken none next :=
          Bytes.unbroken_append.2 ⟨unbroken, fun _ => goesOn, Given.unbroken_line givenProper _⟩
        have sameEnd : (Bytes.lastOr none next == some Byte.backslash) = given.goesOn := by
          rw [Bytes.lastOr_append, Bytes.lastOr_cons, Given.lastOr_line givenProper]
        obtain ⟨raw, later, same, rawUnbroken, ends, keptSame, isSuffix⟩ := ih restProper nextUnbroken
        refine ⟨raw, later, sameText.trans same, rawUnbroken, ends, ?_,
          isSuffix.trans (List.suffix_cons _ _)⟩
        rw [goesOn, beq_self_eq_true, kept, ← sameEnd, keptSame]
      · have ended : (Bytes.lastOr none front == some Byte.backslash) = false := by
          simpa using goesOn
        exact ⟨front, given :: rest, rfl, unbroken, fun backslash => absurd backslash goesOn,
          by rw [ended], List.suffix_refl _⟩

end Predefine

/-! ## Reading them -/

namespace Token

open Bytes Predefine

/-- The body of a definition ends where the line of a macro that is kept begins. -/
theorem exists_later_of_ofBody {givens : List Given}
    (proper : ∀ given ∈ givens, given.signature.Proper) {front : Bytes}
    (unbroken : Unbroken none front) {place : Position} {body : List Token} {stop : Cursor}
    (read : ofBody ⟨place, front ++ Byte.newline :: lines givens⟩ = .ok (body, stop)) :
    ∃ later, stop.rest.drop 1 = lines later ∧
      kept (lastOr none front == some Byte.backslash) givens = kept false later ∧
      later <:+ givens := by
  obtain ⟨raw, later, same, rawUnbroken, ends, keptSame, isSuffix⟩ := exists_line proper unbroken
  refine ⟨later, ?_, keptSame, isSuffix⟩
  obtain ⟨taken, split, takenUnbroken, stops⟩ := exists_raw_of_ofBody read
  have whole : raw ++ Byte.newline :: lines later = taken ++ stop.rest := same.symm.trans split
  obtain ⟨newline, after, left, _, rfl | ⟨rfl, rfl⟩⟩ := Cursor.ended_of_inLine? (trail_ofBody read).ended
  · rw [left, List.singleton_append] at whole stops
    rw [left]
    have takenEnds : lastOr none taken ≠ some Byte.backslash := fun backslash => stops backslash rfl
    by_cases goesOn : lastOr none raw = some Byte.backslash
    · -- The body would take in the last newline, too.
      have longer : Unbroken none (raw ++ [Byte.newline]) :=
        unbroken_append.2 ⟨rawUnbroken, fun _ => goesOn, trivial⟩
      have longerEnds : lastOr none (raw ++ [Byte.newline]) ≠ some Byte.backslash := by
        rw [lastOr_concat]
        decide
      have extended : raw ++ [Byte.newline] ++ Byte.newline :: [] =
          taken ++ Byte.newline :: (after ++ [Byte.newline]) := by
        rw [ends goesOn] at whole
        simpa [lines] using congrArg (· ++ [Byte.newline]) whole
      have impossible := (eq_of_unbroken longer takenUnbroken longerEnds takenEnds extended).2
      simp at impossible
    · exact (eq_of_unbroken rawUnbroken takenUnbroken goesOn takenEnds whole).2.symm
  · -- The text ends in the body, so the last line goes on.
    rw [left, List.nil_append, List.append_nil] at whole
    rw [← whole, unbroken_append] at takenUnbroken
    rw [left, ends (takenUnbroken.2.1 rfl)]
    rfl

/-- The tokens of a line that defines a macro. -/
inductive Defining (signature : Signature) : List Token → Prop
  | line {word opener : Token} {head body : List Token} {cursor stop : Cursor}
      (isDirective : word.kind = .directive) (spelled : word.text = Directive.define.word)
      (same : head.map unplaced = signature.tokens) (isBody : opener.kind = .body)
      (scanned : ofBody cursor = .ok (body, stop)) :
      Defining signature (word :: (head ++ opener :: (body ++ [stop.point .lineEnd])))

/-- The first line defines the first macro.  The lines of the macros that it does not take in
follow. -/
theorem exists_line_of_ofSource {given : Given} {rest : List Given}
    (proper : ∀ other ∈ given :: rest, other.signature.Proper) {position : Position}
    {tokens : List Token}
    (scanned : ofSource true ⟨position, lines (given :: rest)⟩ = .ok tokens) :
    ∃ line others place later, Defining given.signature line ∧ tokens = line ++ others ∧
      ofSource true ⟨place, lines later⟩ = .ok others ∧
      kept given.goesOn rest = kept false later ∧ later <:+ rest := by
  obtain ⟨givenProper, restProper⟩ := List.forall_mem_cons.1 proper
  have whole : lines (given :: rest) = bytes "#define " ++ given.signature.text ++
      (given.body.continued ++ Byte.newline :: lines rest) := by
    simp [lines, Given.directive_text givenProper, Given.line]
  obtain ⟨ends, apart⟩ := apart_valueText (given.value.getD []) (lines rest)
  obtain ⟨word, head, opener, place, isDirective, spelled, same, isBody, source⟩ :=
    ofSource_definition givenProper position ends apart
  rw [whole, Given.body, source] at scanned
  obtain ⟨⟨body, stop⟩, scannedBody, following⟩ := bind_eq_ok_iff.1 scanned
  obtain ⟨later, left, keptSame, isSuffix⟩ := exists_later_of_ofBody restProper
    (unbroken_continued given.body none) scannedBody
  have sameEnd : given.goesOn = (lastOr none given.body.continued == some Byte.backslash) := by
    rw [Bool.eq_iff_iff, beq_iff_eq]
    exact Given.goesOn_iff givenProper (by simp)
  let next := stop.advance (stop.rest.take 1)
  have nextRest : next.rest = lines later := by
    rw [← left]
    simp only [next, Cursor.advance, List.length_take]
    cases stop.rest <;> simp
  change (ofSource true next).map _ = .ok tokens at following
  cases scannedRest : ofSource true next with
  | error error =>
      rw [scannedRest] at following
      cases following
  | ok others =>
      rw [scannedRest] at following
      cases following
      refine ⟨_, others, next.position, later, .line isDirective spelled same isBody scannedBody,
        by simp, ?_, sameEnd ▸ keptSame, isSuffix⟩
      rw [← nextRest]
      exact scannedRest

end Token

/-- A definition of a macro with the given signature. -/
def Signature.Defined (signature : Signature) (node : Node) : Prop :=
  ∃ location body, node = .define location signature.name signature.parameters body

namespace Builder

open Predefine

theorem exists_defined_of_line {signature : Signature} {tokens : List Token}
    (line : Token.Defining signature tokens) {builder next : Builder} (block : AtBlock builder.frames)
    (read : tokens.foldlM step builder = .ok next) :
    ∃ node, signature.Defined node ∧ next = builder.push node := by
  obtain @⟨word, opener, head, body, cursor, stop, isDirective, spelled, same, isBody, scanned⟩ := line
  rw [foldlM_definition block isDirective spelled isBody same] at read
  obtain ⟨taken, takenHead, read⟩ := bind_eq_ok_iff.1 read
  rw [takeHead_signature same takenHead] at read
  have isEnd : (stop.point .lineEnd).kind = .lineEnd := rfl
  rcases foldlM_body (Token.isText_ofBody scanned) (Token.inLine_ofBody scanned) isEnd builder with
    ⟨location, nodes, built, _⟩ | ⟨called, location, _, failed⟩
  · cases built.symm.trans read
    exact ⟨_, ⟨location, Node.trim nodes, rfl⟩, rfl⟩
  · cases failed.symm.trans read

/-- The lines of macros add the definitions of those that are kept. -/
theorem exists_defined_of_lines {givens : List Given}
    (proper : ∀ given ∈ givens, given.signature.Proper) {position : Position} {tokens : List Token}
    (scanned : Token.ofSource true ⟨position, lines givens⟩ = .ok tokens) :
    ∃ items last, tokens = items ++ [last] ∧ ∀ builder final, AtBlock builder.frames →
      items.foldlM step builder = .ok final →
      ∃ nodes, final = ⟨nodes.reverse ++ builder.nodes, builder.frames⟩ ∧
        List.Forall₂ Signature.Defined ((kept false givens).map Given.signature) nodes := by
  -- The lines that the first one takes in are gone together with it.
  induction length : givens.length using Nat.strong_induction_on generalizing givens position tokens with
  | _ count ih =>
  cases givens with
  | nil =>
      have ended : Token.ofSource true ⟨position, lines []⟩ = _ := Token.ofSource_of_rest_nil rfl
      rw [ended] at scanned
      cases scanned
      refine ⟨[], _, rfl, fun builder final _ read => ?_⟩
      cases read
      exact ⟨[], rfl, .nil⟩
  | cons given rest =>
      obtain ⟨line, others, place, later, defining, rfl, scannedLater, keptSame, isSuffix⟩ :=
        Token.exists_line_of_ofSource proper scanned
      have fewer : later.length < count := by
        have := isSuffix.length_le
        rw [← length, List.length_cons]
        omega
      have laterProper : ∀ other ∈ later, other.signature.Proper :=
        fun other member => proper other (List.mem_cons_of_mem given (isSuffix.subset member))
      obtain ⟨items, last, rfl, adds⟩ := ih _ fewer laterProper scannedLater rfl
      refine ⟨line ++ items, last, (List.append_assoc ..).symm, fun builder final block read => ?_⟩
      rw [List.foldlM_append] at read
      obtain ⟨middle, readLine, readItems⟩ := bind_eq_ok_iff.1 read
      obtain ⟨node, defined, rfl⟩ := exists_defined_of_line defining block readLine
      obtain ⟨nodes, rfl, definitions⟩ := adds (builder.push node) final block readItems
      refine ⟨node :: nodes, by simp [push], ?_⟩
      rw [kept, keptSame, List.map_cons]
      exact .cons defined definitions

end Builder

/-- The lines of macros are read as the definitions of those that are kept. -/
theorem Node.defined_of_ofSource {file : Bytes} {givens : List Predefine.Given} {nodes : List Node}
    (proper : ∀ given ∈ givens, given.signature.Proper)
    (read : Node.ofSource file (Predefine.lines givens) = .ok nodes) :
    List.Forall₂ Signature.Defined ((Predefine.kept false givens).map Predefine.Given.signature)
      nodes := by
  obtain ⟨tokens, scanned, _⟩ := bind_eq_ok_iff.1 read
  obtain ⟨items, last, rfl, adds⟩ := Builder.exists_defined_of_lines proper scanned
  rw [Node.ofSource_eq scanned] at read
  obtain ⟨final, readItems, finished⟩ := bind_eq_ok_iff.1 read
  have block : Builder.AtBlock Builder.empty.frames := trivial
  obtain ⟨defined, rfl, definitions⟩ := adds _ final block readItems
  obtain ⟨_, rfl⟩ := Builder.eq_of_finish finished
  simpa [Builder.empty] using definitions

/-! ## Binding them -/

/-- A macro under a new name comes in between the others. -/
theorem Env.perm_macros_bind {definition : Macro} {env : Env}
    (free : env.contains definition.name = false) :
    (env.bind definition).macros.Perm (definition :: env.macros) := by
  induction env with
  | empty => exact .refl _
  | cons name parameters body scope location rest _ ih =>
      rw [contains, lookup] at free
      split at free
      · cases free
      rename_i other
      rw [bind, if_neg (Ne.symm other)]
      split
      · exact .refl _
      · exact ((ih free).cons _).trans (.swap ..)

namespace Expansion

variable {files : FileSet} {context : Context} {env final : Env} {said : List Event}

/-- A definition that succeeds binds a name that was not bound. -/
theorem eq_bind_of_run {location : Location} {name : Bytes} {parameters : Option (List Bytes)}
    {body : List Node}
    (ran : run files context [.define location name parameters body] env = ⟨said, .ok final⟩) :
    env.contains name = false ∧ final = env.bind ⟨name, parameters, body, env, location⟩ := by
  have answered := ofNode_eq_some files context (.define location name parameters body) env
  rw [ran] at answered
  simp only [ofNode] at answered
  split at answered
  · cases answered
  rename_i free
  cases answered
  exact ⟨Bool.eq_false_iff.2 free, rfl⟩

/-- Definitions that succeed add a macro with each of their signatures. -/
theorem perm_signatures_of_run {signatures : List Signature} {nodes : List Node}
    (definitions : List.Forall₂ Signature.Defined signatures nodes)
    (ran : run files context nodes env = ⟨said, .ok final⟩) :
    (final.macros.map Macro.signature).Perm (signatures ++ env.macros.map Macro.signature) := by
  induction definitions generalizing env said with
  | nil =>
      rw [run_nil] at ran
      cases ran
      exact .refl _
  | @cons signature node signatures nodes defined _ ih =>
      obtain ⟨location, body, rfl⟩ := defined
      obtain ⟨before, middle, after, first, others, rfl⟩ :=
        exists_middle_of_run_append (List.singleton_append ▸ ran)
      obtain ⟨free, rfl⟩ := eq_bind_of_run first
      let definition : Macro := ⟨signature.name, signature.parameters, body, env, location⟩
      have bound : (env.bind definition).macros.Perm (definition :: env.macros) :=
        Env.perm_macros_bind free
      exact (ih others).trans
        (((bound.map Macro.signature).append_left signatures).trans List.perm_middle)

end Expansion

theorem predefine_nil (defined : List Bytes) (files : FileSet) :
    predefine defined [] files =
      Expansion.ofSource files Predefine.source (defined.flatMap Predefine.directive) .empty := by
  rw [predefine]
  generalize Expansion.ofSource files Predefine.source _ .empty = outcome
  obtain ⟨events, result⟩ := outcome
  cases result <;> rfl

/-- What a shallow expansion shows of the environment is so. -/
theorem exists_predefine_of_within {α : Type} (view : Env → α) {defined : List Bytes} (depth : Nat)
    {seen : α}
    (answered : ((Node.ofSource Predefine.source (defined.flatMap Predefine.directive)).toOption.bind
      fun nodes => Expansion.within .empty depth ⟨[Predefine.source], none⟩ nodes .empty).map
        (fun outcome => outcome.result.toOption.map view) = some (some seen)) :
    ∃ events env, predefine defined [] = ⟨events, .ok env⟩ ∧ view env = seen := by
  have shown := Expansion.view_ofSource_of_within _ answered
  rw [← predefine_nil] at shown
  match ran : predefine defined [] with
  | ⟨events, .error error⟩ =>
      rw [ran] at shown
      cases shown
  | ⟨events, .ok env⟩ =>
      rw [ran] at shown
      exact ⟨events, env, rfl, Option.some.inj shown⟩

/-- Where macros can be defined as given, those that are kept are bound, and no others. -/
theorem Predefine.perm_signatures {givens : List Given} {files : FileSet} {events : List Event}
    {env : Env}
    (proper : ∀ given ∈ givens, given.signature.Proper)
    (ran : predefine (givens.map Given.text) [] files = ⟨events, .ok env⟩) :
    (env.macros.map Macro.signature).Perm ((kept false givens).map Given.signature) := by
  rw [predefine_nil, ← lines, Expansion.ofSource] at ran
  cases read : Node.ofSource source (lines givens) with
  | error error =>
      rw [read] at ran
      cases ran
  | ok nodes =>
      rw [read] at ran
      have definitions := Node.defined_of_ofSource proper read
      simpa [Env.macros] using Expansion.perm_signatures_of_run definitions ran

/-- Macros given on a command line that can all be defined are bound with the names and parameters
that they are given with, one for each text and nothing else, exactly if no text before the last one
ends with a backslash.  This is so whatever files there are. -/
theorem predefine_binds_iff {givens : List Predefine.Given} {files : FileSet}
    {events : List Event} {env : Env} (proper : ∀ given ∈ givens, given.signature.Proper)
    (ran : predefine (givens.map Predefine.Given.text) [] files = ⟨events, .ok env⟩) :
    (env.macros.map Macro.signature).Perm (givens.map Predefine.Given.signature) ↔
      ∀ given ∈ givens.dropLast, given.text.getLast? ≠ some Byte.backslash := by
  have bound := Predefine.perm_signatures proper ran
  have same : (∀ given ∈ givens.dropLast, given.text.getLast? ≠ some Byte.backslash) ↔
      Predefine.kept false givens = givens := by
    simp [Predefine.kept_eq_self_iff, Predefine.Given.goesOn]
  rw [same]
  constructor
  · intro all
    have lengths := (bound.symm.trans all).length_eq
    rw [List.length_map, List.length_map] at lengths
    exact (Predefine.kept_sublist false givens).eq_of_length lengths
  · intro keptAll
    rw [keptAll] at bound
    exact bound

/-- Macros of all kinds.  The first value goes on over a line that looks like a definition, and the
last one ends with a backslash. -/
def Predefine.mixedGivens : List Given :=
  [⟨⟨bytes "F", some [bytes "a", bytes "b"]⟩, some (bytes "a = \\ b\n#define C 1\n")⟩,
    ⟨⟨bytes "B", none⟩, none⟩, ⟨⟨bytes "A", none⟩, some (bytes "F(1,2)\\")⟩]

theorem predefine_binds_mixedGivens :
    (∀ given ∈ Predefine.mixedGivens, given.signature.Proper) ∧ ∃ events env,
      predefine (Predefine.mixedGivens.map Predefine.Given.text) [] = ⟨events, .ok env⟩ ∧
      (env.macros.map Macro.signature).Perm
        [⟨bytes "F", some [bytes "a", bytes "b"]⟩, ⟨bytes "B", none⟩, ⟨bytes "A", none⟩] := by
  have proper : ∀ given ∈ Predefine.mixedGivens, given.signature.Proper := by decide
  obtain ⟨events, env, ran, _⟩ : ∃ events env,
      predefine (Predefine.mixedGivens.map Predefine.Given.text) [] = ⟨events, .ok env⟩ ∧
        env.size = 3 :=
    exists_predefine_of_within Env.size 2 (by decide +kernel)
  exact ⟨proper, events, env, ran, (predefine_binds_iff proper ran).2 (by decide)⟩

/-- A text that ends with a backslash takes in the macro after it, which is then not defined. -/
theorem predefine_takes_in :
    ∃ events env, predefine [bytes "A=x\\", bytes "B=1"] [] = ⟨events, .ok env⟩ ∧
      env.macros.map Macro.signature = [⟨bytes "A", none⟩] :=
  exists_predefine_of_within (fun env => env.macros.map Macro.signature) 2 (by decide +kernel)

end ScopedMacros
