import ScopedMacros.Proofs.Condition
import ScopedMacros.Proofs.WellFormed

/-!
# Balanced conditionals

Once each line is well formed and each call is closed, a source can be read exactly if its
conditional lines are balanced.  The conditionals among its nodes then have the shape of the
derivation.
-/

namespace ScopedMacros

/-! ## The grammar -/

namespace Directive

/-- Belongs to a conditional. -/
def isConditional (directive : Directive) : Bool :=
  directive.opens || directive.endsBranch

/-- The directives of whole conditionals, one after the other: each is opened, may have further
branches and a last one for the case that all tests fail, and is closed. -/
inductive Balanced : List Directive → Prop where
  | nil : Balanced []
  | cond {opener : Directive} {yes rest : List Directive} {others : List (List Directive)}
      {last : Option (List Directive)} (opens : opener.opens = true) (first : Balanced yes)
      (further : ∀ block ∈ others, Balanced block) (otherwise : ∀ block ∈ last, Balanced block)
      (next : Balanced rest) :
      Balanced (opener :: (yes ++ (others.flatMap (.elseIf :: ·) ++
        (last.elim [] (.otherwise :: ·) ++ .endIf :: rest))))

end Directive

/-- The directive of a conditional line, and the test that the line makes. -/
structure Guard where
  directive : Directive
  test? : Option Test

namespace Item

/-- The directive of a line of a conditional. -/
def conditional? : Item → Option Directive
  | .text _ => none
  | .line word _ _ => (Directive.ofWord? word.text).filter Directive.isConditional

def guard? : Item → Option Guard
  | .text _ => none
  | .line word arguments stop =>
      ((Directive.ofWord? word.text).filter Directive.isConditional).map fun directive =>
        ⟨directive, directive.test? arguments stop⟩

theorem map_guard? (items : List Item) :
    (items.filterMap guard?).map Guard.directive = items.filterMap conditional? := by
  rw [List.map_filterMap]
  congr
  funext item
  cases item with
  | text => rfl
  | line word arguments stop =>
      rw [guard?, conditional?, Option.map_map]
      exact Option.map_id'

end Item

/-! ## The shape of a derivation -/

/-- What can follow the first branch of a conditional: further branches, and the nodes for the case
that all tests fail.  Each comes with the conditional lines inside of it. -/
structure Alternatives where
  others : List (Branch × List Guard)
  last : Option (List Node × List Guard)

namespace Alternatives

/-- The conditional lines after the first branch, up to the end of the conditional. -/
def guards (alternatives : Alternatives) : List Guard :=
  alternatives.others.flatMap (fun other => ⟨.elseIf, some other.1.test⟩ :: other.2) ++
    (alternatives.last.elim [] (fun no => ⟨.otherwise, none⟩ :: no.2) ++ [⟨.endIf, none⟩])

/-- The nodes for the case that the first test fails: a further branch is the only one of them. -/
def nodes (alternatives : Alternatives) : List Node :=
  alternatives.others.foldr (fun other no => [other.1.node no]) (alternatives.last.elim [] (·.1))

end Alternatives

def Node.isCond : Node → Bool
  | .cond _ _ _ _ => true
  | _ => false

/-- The conditionals among nodes have the shape of a derivation of conditional lines. -/
inductive Mirrors : List Guard → List Node → Prop where
  | nil : Mirrors [] []
  | other {guards : List Guard} {node : Node} {nodes : List Node} (noCond : node.isCond = false)
      (rest : Mirrors guards nodes) : Mirrors guards (node :: nodes)
  | cond {opener : Directive} {branch : Branch} {inside guards : List Guard}
      {alternatives : Alternatives} {nodes : List Node} (opens : opener.opens = true)
      (first : Mirrors inside branch.nodes)
      (further : ∀ other ∈ alternatives.others, Mirrors other.2 other.1.nodes)
      (otherwise : ∀ no ∈ alternatives.last, Mirrors no.2 no.1) (rest : Mirrors guards nodes) :
      Mirrors (⟨opener, some branch.test⟩ :: (inside ++ (alternatives.guards ++ guards)))
        (branch.node alternatives.nodes :: nodes)

/-- The directives of a derivation. -/
theorem Alternatives.map_guards (alternatives : Alternatives) (rest : List Directive) :
    alternatives.guards.map Guard.directive ++ rest =
      (alternatives.others.map fun other => other.2.map Guard.directive).flatMap (.elseIf :: ·) ++
        ((alternatives.last.map fun no => no.2.map Guard.directive).elim [] (.otherwise :: ·) ++
          .endIf :: rest) := by
  obtain ⟨others, last⟩ := alternatives
  cases last <;> simp [guards, List.map_flatMap, List.flatMap_map]

theorem Mirrors.balanced {guards : List Guard} {nodes : List Node} (mirrors : Mirrors guards nodes) :
    Directive.Balanced (guards.map Guard.directive) := by
  induction mirrors with
  | nil => exact .nil
  | other _ _ ih => exact ih
  | @cond opener branch inside guards alternatives nodes opens _ _ _ _ first further otherwise
      rest =>
      rw [List.map_cons, List.map_append, List.map_append, alternatives.map_guards]
      refine .cond opens first ?_ ?_ rest
      · intro block member
        obtain ⟨other, among, rfl⟩ := List.mem_map.1 member
        exact further other among
      · intro block member
        obtain ⟨no, isLast, rfl⟩ := Option.map_eq_some_iff.1 member
        exact otherwise no isLast

/-! ## Nodes mirror the lines they are read from -/

/-- The lines after a first branch, and the nodes for the case that its test fails. -/
def MirrorsAlternatives (guards : List Guard) (no : List Node) : Prop :=
  ∃ alternatives : Alternatives, guards = alternatives.guards ∧ no = alternatives.nodes ∧
    (∀ other ∈ alternatives.others, Mirrors other.2 other.1.nodes) ∧
      ∀ no ∈ alternatives.last, Mirrors no.2 no.1

def Part.Mirrors : Part → List Guard → List Node → Prop
  | .block => ScopedMacros.Mirrors
  | .alternatives => MirrorsAlternatives

namespace Item

variable {word stop : Token} {arguments : List Token} {directive : Directive}

theorem guard?_of_conditional (found : Directive.ofWord? word.text = some directive)
    (conditional : directive.isConditional = true) :
    (Item.line word arguments stop).guard? = some ⟨directive, directive.test? arguments stop⟩ := by
  simp [guard?, found, conditional]

theorem filterMap_guard?_texts (tokens : List Token) (rest : List Item) :
    (tokens.map Item.text ++ rest).filterMap guard? = rest.filterMap guard? := by
  rw [List.filterMap_append, List.filterMap_map]
  simp [Function.comp_def, guard?]

end Item

theorem Mirrors.append_others {nodes more : List Node} {guards : List Guard}
    (noCond : ∀ node ∈ nodes, node.isCond = false) (rest : Mirrors guards more) :
    Mirrors guards (nodes ++ more) := by
  induction nodes with
  | nil => exact rest
  | cons node nodes ih =>
      obtain ⟨first, others⟩ := List.forall_mem_cons.1 noCond
      exact .other first (ih others)

theorem isCond_of_plain {node : Node} (plain : node.Plain) : node.isCond = false := by
  cases plain <;> rfl

/-- The nodes that items spell mirror the conditional lines among the items. -/
theorem Spelled.mirrors {part : Part} {items : List Item} {nodes : List Node}
    (spelled : Spelled part items nodes) : part.Mirrors (items.filterMap Item.guard?) nodes := by
  induction spelled with
  | nil => exact Mirrors.nil
  | text text _ ih =>
      rw [Item.filterMap_guard?_texts]
      exact Mirrors.append_others (fun node member => isCond_of_plain (text.plain node member)) ih
  | @line word stop arguments node directive rest more found form alone _ ih =>
      have none : (Item.line word arguments stop).guard? = none := by
        cases node <;> cases form <;> simp [Item.guard?, found] <;> rfl
      rw [List.filterMap_cons_none none]
      exact Mirrors.other (by cases node <;> cases form <;> rfl) ih
  | @cond word stop arguments directive test location yesItems noItems rest yes no more found opens
      tests _ _ _ yes_ih no_ih ih =>
      obtain ⟨alternatives, guards, rfl, further, otherwise⟩ := no_ih
      have conditional : directive.isConditional = true := by simp [Directive.isConditional, opens]
      rw [List.filterMap_cons_some (Item.guard?_of_conditional found conditional), tests,
        List.filterMap_append, List.filterMap_append, guards]
      let branch : Branch := ⟨location, test, yes⟩
      have first : Mirrors (yesItems.filterMap Item.guard?) branch.nodes := yes_ih
      exact Mirrors.cond opens first further otherwise ih
  | @endIf word stop arguments found =>
      refine ⟨⟨[], none⟩, ?_, rfl, by simp, by simp⟩
      rw [List.filterMap_cons_some (Item.guard?_of_conditional found rfl)]
      rfl
  | @otherwise word stop lastWord lastStop arguments lastArguments items no found _ closes ih =>
      refine ⟨⟨[], some (no, items.filterMap Item.guard?)⟩, ?_, rfl, by simp, ?_⟩
      · rw [List.filterMap_cons_some (Item.guard?_of_conditional found rfl), List.filterMap_append,
          List.filterMap_cons_some (Item.guard?_of_conditional closes rfl)]
        rfl
      · rintro _ ⟨⟩
        exact ih
  | @elseIf word stop arguments test location yesItems noItems yes no found tests _ _ yes_ih no_ih =>
      obtain ⟨⟨others, last⟩, guards, rfl, further, otherwise⟩ := no_ih
      refine ⟨⟨(⟨location, test, yes⟩, yesItems.filterMap Item.guard?) :: others, last⟩, ?_, rfl, ?_,
        otherwise⟩
      · rw [List.filterMap_cons_some (Item.guard?_of_conditional found rfl), tests,
          List.filterMap_append, guards]
        simp [Alternatives.guards]
      · exact List.forall_mem_cons.2 ⟨yes_ih, further⟩

/-! ## Balanced lines can be read -/

namespace Item

theorem conditional?_eq_some_iff {item : Item} {directive : Directive} :
    item.conditional? = some directive ↔ ∃ word arguments stop, item = .line word arguments stop ∧
      Directive.ofWord? word.text = some directive ∧ directive.isConditional = true := by
  cases item with
  | text => simp [conditional?]
  | line word arguments stop => simp [conditional?, Option.filter_eq_some_iff]

/-- The line of a conditional directive, and what is before and after it. -/
theorem Sound.exists_line {items : List Item} {left right : List Directive} {directive : Directive}
    (sound : Sound items) (among : items.filterMap conditional? = left ++ directive :: right) :
    ∃ before word arguments stop after, items = before ++ .line word arguments stop :: after ∧
      (Sound before ∧ before.filterMap conditional? = left) ∧
      ((Item.line word arguments stop).Proper ∧ Directive.ofWord? word.text = some directive ∧
        directive.accepts arguments stop = true) ∧
      Sound after ∧ after.filterMap conditional? = right := by
  obtain ⟨first, second, rfl, isLeft, others⟩ := List.filterMap_eq_append_iff.1 among
  obtain ⟨flat, item, after, rfl, none, some, isRight⟩ := List.filterMap_eq_cons_iff.1 others
  obtain ⟨word, arguments, stop, rfl, found, _⟩ := conditional?_eq_some_iff.1 some
  rw [← List.append_assoc] at sound ⊢
  obtain ⟨proper, other, same, accepted⟩ := sound.exists_directive
  obtain rfl := Option.some.inj (same.symm.trans found)
  refine ⟨first ++ flat, word, arguments, stop, after, rfl, ⟨sound.before_line, ?_⟩,
    ⟨proper, found, accepted⟩, sound.after_line, isRight⟩
  rw [List.filterMap_append, isLeft, List.filterMap_eq_nil_iff.2 none, List.append_nil]

end Item

namespace Builder

variable {builder next : Builder} {items left right : List Item}

theorem takes_append_of_ok (taken : builder.takes left = .ok next) :
    builder.takes (left ++ right) = next.takes right := by
  rw [takes_append, taken]
  rfl

theorem takes_cons_of_ok {item : Item} (taken : item.tokens.foldlM step builder = .ok next) :
    builder.takes (item :: right) = next.takes right := by
  rw [takes_cons, taken]
  rfl

theorem purpose?_of_not_conditional {directive : Directive}
    (noConditional : directive.isConditional = false) :
    ∃ purpose, purpose? directive = some purpose := by
  cases directive with
  | define | undef | inclusion | error | warning | line => exact ⟨_, rfl⟩
  | ifTrue | ifDefined | ifUndefined | elseIf | otherwise | endIf => cases noConditional

theorem exists_of_texts {tokens : List Token} (sound : Item.Sound (tokens.map .text))
    (block : AtBlock builder.frames) (noName : builder.call? = none) :
    ∃ nodes, builder.takes (tokens.map .text) = .ok ⟨nodes, builder.frames⟩ := by
  have stretch : tokens ∈ Item.stretches (tokens.map .text) := by
    have all := Item.stretches_texts tokens []
    rw [List.append_nil] at all
    simp [all, Item.stretches]
  rw [takes_texts]
  exact exists_of_callsClosed (readsText_of_atBlock block) noName (sound.text tokens stretch)
    (sound.calls tokens stretch)

/-- Items without a conditional line are read, and leave the block as it is. -/
theorem exists_of_flat (sound : Item.Sound items) (flat : items.filterMap Item.conditional? = [])
    (block : AtBlock builder.frames) (noName : builder.call? = none) :
    ∃ nodes, builder.takes items = .ok ⟨nodes, builder.frames⟩ := by
  induction size : items.length using Nat.strongRecOn generalizing items builder with
  | ind size ih =>
      obtain ⟨tokens, rest, rfl, ends⟩ := exists_texts items
      rcases ends with rfl | ⟨word, arguments, stop, more, rfl⟩
      · rw [List.append_nil] at sound ⊢
        exact exists_of_texts sound block noName
      · obtain ⟨proper, directive, found, accepted⟩ := sound.exists_directive
        rw [List.filterMap_eq_nil_iff] at flat
        have noConditional : directive.isConditional = false := by
          have none := flat (.line word arguments stop) (by simp)
          simpa [Item.conditional?, found] using none
        obtain ⟨purpose, simple⟩ := purpose?_of_not_conditional noConditional
        have body : Token.bodyOf arguments ∈
            Item.stretches (tokens.map .text ++ .line word arguments stop :: more) := by
          simp [Item.stretches_line]
        obtain ⟨nodes, texts⟩ := exists_of_texts sound.before_line block noName
        let here : Builder := ⟨nodes, builder.frames⟩
        have hereBlock : AtBlock here.frames := block
        obtain ⟨node, line, other⟩ := exists_of_line hereBlock proper found simple accepted
          (sound.text _ body) (sound.calls _ body)
        have flatMore : more.filterMap Item.conditional? = [] :=
          List.filterMap_eq_nil_iff.2 fun item member => flat item (by simp [member])
        have shorter : more.length <
            (tokens.map Item.text ++ .line word arguments stop :: more).length := by
          rw [List.length_append, List.length_cons]
          omega
        have nextBlock : AtBlock (here.push node).frames := block
        rw [takes_append_of_ok texts, takes_cons_of_ok line]
        exact ih more.length (size ▸ shorter) sound.after_line flatMore nextBlock
          (call?_push other) rfl

/-- From any block on, items with the given conditional lines are read and leave the block as it
is. -/
def ReadsLines (directives : List Directive) : Prop :=
  ∀ (items : List Item) (builder : Builder), Item.Sound items →
    items.filterMap Item.conditional? = directives → AtBlock builder.frames → builder.call? = none →
    ∃ nodes, builder.takes items = .ok ⟨nodes, builder.frames⟩

theorem chain_ne_ident (branch : Branch) (earlier : List Branch) (no : List Node)
    (location : Location) (name : Bytes) : branch.chain earlier no ≠ .ident location name := by
  obtain ⟨place, test, yes, no, same⟩ := branch.exists_chain_eq_cond earlier no
  rw [same]
  simp

/-- A branch is read up to the conditional line that comes after those inside of it. -/
theorem ReadsLines.entered {inside rest : List Directive} {directive : Directive}
    (reads : ReadsLines inside) (sound : Item.Sound items)
    (lines : items.filterMap Item.conditional? = inside ++ directive :: rest) (outer : Builder)
    (frame : Frame) (block : AtBlock (outer.enter frame).frames) :
    ∃ nodes word arguments stop later, ((Item.line word arguments stop).Proper ∧
        Directive.ofWord? word.text = some directive ∧ directive.accepts arguments stop = true) ∧
      (Item.Sound later ∧ later.filterMap Item.conditional? = rest) ∧
      (outer.enter frame).takes items =
        (Builder.mk nodes ((frame, outer.nodes) :: outer.frames)).takes
          (.line word arguments stop :: later) := by
  obtain ⟨before, word, arguments, stop, later, rfl, ⟨beforeSound, isInside⟩, line, after⟩ :=
    sound.exists_line lines
  obtain ⟨nodes, read⟩ := reads before (outer.enter frame) beforeSound isInside block rfl
  exact ⟨nodes, word, arguments, stop, later, line, after, takes_append_of_ok read⟩

/-- A branch is read with the alternatives to it up to the end of the conditional, which becomes one
node. -/
theorem exists_of_branch {others : List (List Directive)} {last : Option (List Directive)}
    {yes rest : List Directive} {opener : Bytes} {location : Location} {test : Test}
    {earlier : List Branch} (outer : Builder) (first : ReadsLines yes)
    (further : ∀ block ∈ others, ReadsLines block) (otherwise : ∀ block ∈ last, ReadsLines block)
    (sound : Item.Sound items)
    (lines : items.filterMap Item.conditional? = yes ++ (others.flatMap (.elseIf :: ·) ++
      (last.elim [] (.otherwise :: ·) ++ .endIf :: rest))) :
    ∃ node later, (∀ location name, node ≠ .ident location name) ∧
      (Item.Sound later ∧ later.filterMap Item.conditional? = rest) ∧
      (outer.enter (.branch opener location test earlier)).takes items =
        (outer.push node).takes later := by
  induction others generalizing items yes opener location test earlier with
  | nil =>
      let frame := Frame.branch opener location test earlier
      cases last with
      | none =>
          obtain ⟨nodes, word, arguments, stop, later, ⟨proper, found, accepted⟩, after, taken⟩ :=
            first.entered sound lines outer frame trivial
          rw [taken, takes_cons_of_ok (foldlM_endIf_of_branch proper found accepted)]
          exact ⟨_, later, chain_ne_ident _ _ _, after, rfl⟩
      | some block =>
          obtain ⟨nodes, word, arguments, stop, middle, ⟨proper, found, accepted⟩,
            ⟨sound, lines⟩, taken⟩ := first.entered sound lines outer frame trivial
          rw [taken, takes_cons_of_ok (foldlM_otherwise proper found accepted)]
          obtain ⟨nodes, word, arguments, stop, later, ⟨proper, found, accepted⟩, after, taken⟩ :=
            (otherwise block rfl).entered sound lines outer (.otherwise _ _ _) trivial
          rw [taken, takes_cons_of_ok (foldlM_endIf_of_otherwise proper found accepted)]
          exact ⟨_, later, chain_ne_ident _ _ _, after, rfl⟩
  | cons block more ih =>
      let frame := Frame.branch opener location test earlier
      rw [List.flatMap_cons, List.cons_append, List.cons_append, List.append_assoc] at lines
      obtain ⟨nodes, word, arguments, stop, middle, ⟨proper, found, accepted⟩, ⟨sound, lines⟩,
        taken⟩ := first.entered sound lines outer frame trivial
      obtain ⟨reads, further⟩ := List.forall_mem_cons.1 further
      obtain ⟨place, other, entered⟩ := exists_enter_of_elseIf proper found accepted
      rw [taken, takes_cons_of_ok entered]
      exact ih reads further sound lines

/-- Items with balanced conditional lines are read, and leave the block as it is. -/
theorem readsLines_of_balanced {directives : List Directive}
    (balanced : Directive.Balanced directives) : ReadsLines directives := by
  induction balanced with
  | nil =>
      intro items builder sound flat block noName
      exact exists_of_flat sound flat block noName
  | @cond opener yes rest others last opens _ _ _ _ first further otherwise next =>
      intro items builder sound lines block noName
      obtain ⟨flat, word, arguments, stop, inner, rfl, ⟨flatSound, isFlat⟩,
        ⟨proper, found, accepted⟩, innerSound, lines⟩ :=
        sound.exists_line ((List.nil_append _).symm ▸ lines : _ = [] ++ opener :: _)
      obtain ⟨nodes, read⟩ := exists_of_flat flatSound isFlat block noName
      let here : Builder := ⟨nodes, builder.frames⟩
      have hereBlock : AtBlock here.frames := block
      obtain ⟨location, test, entered⟩ :=
        exists_enter_of_opens hereBlock proper found opens accepted
      obtain ⟨node, later, other, ⟨laterSound, isRest⟩, taken⟩ :=
        exists_of_branch here first further otherwise innerSound lines
      rw [takes_append_of_ok read, takes_cons_of_ok entered, taken]
      exact next later (here.push node) laterSound isRest block (call?_push other)

end Builder

namespace Node

variable {file text : Bytes} {tokens : List Token} {nodes : List Node}

/-- Whatever its lines and calls are, the nodes of a source mirror its conditional lines. -/
theorem mirrors_of_ofSource (scanned : Token.scan file text = .ok tokens)
    (read : ofSource file text = .ok nodes) :
    Mirrors ((Item.ofTokens tokens).filterMap Item.guard?) nodes := by
  obtain ⟨stop, whole, ended, laid⟩ := Token.exists_stop_of_scan scanned
  rw [ofSource, scanned] at read
  exact (spelled_of_ofTokens laid.proper ended (whole ▸ read)).mirrors

theorem balanced_of_ofSource (scanned : Token.scan file text = .ok tokens)
    (read : ofSource file text = .ok nodes) :
    Directive.Balanced ((Item.ofTokens tokens).filterMap Item.conditional?) := by
  rw [← Item.map_guard?]
  exact (mirrors_of_ofSource scanned read).balanced

theorem exists_ofSource_of_balanced (scanned : Token.scan file text = .ok tokens)
    (lines : ∀ item ∈ Item.ofTokens tokens, item.isWellFormed = true)
    (calls : ∀ stretch ∈ Item.stretches (Item.ofTokens tokens), Token.callsClosed stretch = true)
    (balanced : Directive.Balanced ((Item.ofTokens tokens).filterMap Item.conditional?)) :
    ∃ nodes, ofSource file text = .ok nodes := by
  obtain ⟨stop, whole, ended, laid⟩ := Token.exists_stop_of_scan scanned
  have sound : Item.Sound (Item.ofTokens tokens) :=
    ⟨laid.proper, lines, Token.isText_of_laid laid, calls⟩
  obtain ⟨nodes, taken⟩ := Builder.readsLines_of_balanced balanced _ .empty sound rfl trivial rfl
  refine ⟨nodes.reverse, ?_⟩
  rw [ofSource, scanned]
  change ofTokens tokens = _
  rw [whole, ofTokens_items laid.proper ended, taken]
  rfl

/-- Once each directive line is well formed and each call is closed, a source is read exactly if its
conditional lines are balanced, and otherwise it has an error of form.  The conditionals among its
nodes have the shape of the derivation: a further branch is the only node for the case that the test
before it fails, and no conditional is inside of a call or of a definition. -/
theorem ofSource_iff_balanced (scanned : Token.scan file text = .ok tokens)
    (lines : ∀ item ∈ Item.ofTokens tokens, item.isWellFormed = true)
    (calls : ∀ stretch ∈ Item.stretches (Item.ofTokens tokens), Token.callsClosed stretch = true) :
    ((∃ nodes, ofSource file text = .ok nodes) ↔
        Directive.Balanced ((Item.ofTokens tokens).filterMap Item.conditional?)) ∧
      (¬ Directive.Balanced ((Item.ofTokens tokens).filterMap Item.conditional?) →
        ∃ error, ofSource file text = .error error ∧ error.kind = .form) ∧
      ∀ nodes, ofSource file text = .ok nodes →
        Mirrors ((Item.ofTokens tokens).filterMap Item.guard?) nodes ∧
          ∀ node ∈ nodes, node.FromSource := by
  refine ⟨⟨?_, exists_ofSource_of_balanced scanned lines calls⟩, ?_, ?_⟩
  · rintro ⟨nodes, read⟩
    exact balanced_of_ofSource scanned read
  · intro unbalanced
    cases result : ofSource file text with
    | ok nodes => exact absurd (balanced_of_ofSource scanned result) unbalanced
    | error error => exact ⟨error, rfl, form_of_ofSource result⟩
  · intro nodes read
    exact ⟨mirrors_of_ofSource scanned read, fromSource_of_ofSource read⟩

end Node

/-- A further branch with the test `true`. -/
def Item.isTrueBranch : Item → Bool
  | .text _ => false
  | .line word arguments stop =>
      Directive.ofWord? word.text == some .elseIf && stop.kind == .lineEnd &&
        arguments.map (fun token => (token.kind, token.text)) == [(.ident, bytes "true")]

theorem Item.isWellFormed_of_isTrueBranch {item : Item} (isTrue : item.isTrueBranch = true) :
    item.isWellFormed = true := by
  cases item with
  | text => rfl
  | line word arguments stop =>
      simp only [isTrueBranch, Bool.and_eq_true, beq_iff_eq] at isTrue
      obtain ⟨⟨found, isEnd⟩, operand⟩ := isTrue
      obtain ⟨token, rest, rfl, isWord, last⟩ := List.map_eq_cons_iff.1 operand
      obtain ⟨kind, text⟩ := Prod.mk.inj isWord
      obtain rfl := List.map_eq_nil_iff.1 last
      have spells : token.Spells (bytes "true") := ⟨text, by rw [kind]; decide⟩
      have written : Test.Written .either (.literal .nowhere true) [bytes "true"] :=
        (Test.Written.literal .nowhere true).ofSingle
      obtain ⟨read, reads, _⟩ := Test.ofTokens_of_written written (.cons spells .nil) isEnd
      simp [isWellFormed, found, Directive.accepts, reads]

/-- A source with a definition, calls, and a conditional in a further branch of another one. -/
def Node.nestedSource : Bytes :=
  bytes "#define F(x) (x)\n#ifdef F\nF( (a), F() )\n#elif true\n" ++
    bytes "#ifndef G\n#endif\n#else\nc\n#endif\n"

theorem Node.ofSource_iff_balanced_nestedSource :
    ∃ tokens nodes, Token.scan (bytes "t") nestedSource = .ok tokens ∧
      (∀ item ∈ Item.ofTokens tokens, item.isWellFormed = true) ∧
      (∀ stretch ∈ Item.stretches (Item.ofTokens tokens), Token.callsClosed stretch = true) ∧
      (Item.ofTokens tokens).filterMap Item.conditional? =
        [.ifDefined, .elseIf, .ifUndefined, .endIf, .otherwise, .endIf] ∧
      ofSource (bytes "t") nestedSource = .ok nodes ∧
      Mirrors ((Item.ofTokens tokens).filterMap Item.guard?) nodes := by
  obtain ⟨tokens, scanned⟩ : ∃ tokens, Token.scan (bytes "t") nestedSource = .ok tokens :=
    exists_eq_ok_of_isOk (by decide +kernel)
  have evaluated :
      let items := Item.ofTokens ((Token.scan (bytes "t") nestedSource).toOption.getD [])
      items.all (fun item => item.isTrueBranch || item.isWellFormed) = true ∧
        (Item.stretches items).all Token.callsClosed = true ∧ items.filterMap Item.conditional? =
          [.ifDefined, .elseIf, .ifUndefined, .endIf, .otherwise, .endIf] := by
    decide +kernel
  rw [scanned] at evaluated
  obtain ⟨lines, calls, among⟩ := evaluated
  have wellFormed : ∀ item ∈ Item.ofTokens tokens, item.isWellFormed = true := by
    intro item member
    rcases Bool.or_eq_true_iff.1 (List.all_eq_true.1 lines item member) with isTrue | formed
    · exact Item.isWellFormed_of_isTrueBranch isTrue
    · exact formed
  have closed := List.all_eq_true.1 calls
  have inner : Directive.Balanced [.ifUndefined, .endIf] :=
    @Directive.Balanced.cond _ [] [] [] none rfl .nil (by simp) (by simp) .nil
  have balanced : Directive.Balanced
      [.ifDefined, .elseIf, .ifUndefined, .endIf, .otherwise, .endIf] :=
    @Directive.Balanced.cond _ [] [] [[.ifUndefined, .endIf]] (some []) rfl .nil
      (by simpa using inner) (by simpa using .nil) .nil
  obtain ⟨accepts, _, mirrors⟩ := ofSource_iff_balanced scanned wellFormed closed
  obtain ⟨nodes, read⟩ := accepts.2 (among ▸ balanced)
  exact ⟨tokens, nodes, scanned, wellFormed, closed, among, read, (mirrors nodes read).1⟩

end ScopedMacros
