import ScopedMacros.Proofs.Text

/-!
# How nodes are spelled

The nodes of a source stand for its items in order: a stretch of text for its tokens, a directive
outside conditionals for its line, and a conditional for all lines from its first to its last and
what is between them.  Whatever the builder accepts is spelled in this way.
-/

namespace ScopedMacros

/-- Where nodes stand: in a block, or among the alternatives to the first branch of a conditional. -/
inductive Part where
  | block
  | alternatives

namespace Directive

/-- Opens a conditional. -/
def opens : Directive → Bool
  | .ifTrue | .ifDefined | .ifUndefined => true
  | _ => false

/-- Ends a branch of a conditional. -/
def endsBranch : Directive → Bool
  | .elseIf | .otherwise | .endIf => true
  | _ => false

/-- The test that a directive line makes. -/
def test? (directive : Directive) (arguments : List Token) (stop : Token) : Option Test :=
  match directive with
  | .ifDefined => arguments.head?.map fun name => .defined name.location name.text
  | .ifUndefined => arguments.head?.map fun name =>
      .not name.location (.defined name.location name.text)
  | .ifTrue | .elseIf => (Test.ofTokens stop arguments).toOption.map (·.1)
  | _ => none

end Directive

/-- The nodes that items stand for.  A directive outside conditionals is what its line is alone; the
alternatives of a conditional go on to the end of the conditional. -/
inductive Spelled : Part → List Item → List Node → Prop where
  | nil : Spelled .block [] []
  | text {tokens : List Token} {nodes more : List Node} {rest : List Item}
      (text : Text tokens nodes) (spelled : Spelled .block rest more) :
      Spelled .block (tokens.map .text ++ rest) (nodes ++ more)
  | line {word stop : Token} {arguments : List Token} {node : Node} {directive : Directive}
      {rest : List Item} {more : List Node}
      (found : Directive.ofWord? word.text = some directive)
      (form : node.directive? = some directive)
      (alone : Node.ofTokens (word :: arguments ++ [stop]) = .ok [node])
      (spelled : Spelled .block rest more) :
      Spelled .block (.line word arguments stop :: rest) (node :: more)
  | cond {word stop : Token} {arguments : List Token} {directive : Directive} {test : Test}
      {location : Location} {yesItems noItems rest : List Item} {yes no more : List Node}
      (found : Directive.ofWord? word.text = some directive) (opens : directive.opens = true)
      (tests : directive.test? arguments stop = some test) (yesSpelled : Spelled .block yesItems yes)
      (noSpelled : Spelled .alternatives noItems no) (spelled : Spelled .block rest more) :
      Spelled .block (.line word arguments stop :: (yesItems ++ (noItems ++ rest)))
        (.cond location test yes no :: more)
  | endIf {word stop : Token} {arguments : List Token}
      (found : Directive.ofWord? word.text = some .endIf) :
      Spelled .alternatives [.line word arguments stop] []
  | otherwise {word stop lastWord lastStop : Token} {arguments lastArguments : List Token}
      {items : List Item} {no : List Node}
      (found : Directive.ofWord? word.text = some .otherwise) (noSpelled : Spelled .block items no)
      (closes : Directive.ofWord? lastWord.text = some .endIf) :
      Spelled .alternatives
        (.line word arguments stop :: (items ++ [.line lastWord lastArguments lastStop])) no
  | elseIf {word stop : Token} {arguments : List Token} {test : Test} {location : Location}
      {yesItems noItems : List Item} {yes no : List Node}
      (found : Directive.ofWord? word.text = some .elseIf)
      (tests : Directive.elseIf.test? arguments stop = some test)
      (yesSpelled : Spelled .block yesItems yes) (noSpelled : Spelled .alternatives noItems no) :
      Spelled .alternatives (.line word arguments stop :: (yesItems ++ noItems))
        [.cond location test yes no]

namespace Builder

/-- Reads items one after the other. -/
def takes (builder : Builder) (items : List Item) : Except Error Builder :=
  (items.flatMap Item.tokens).foldlM step builder

variable {builder base next final : Builder}

theorem takes_append (left right : List Item) :
    builder.takes (left ++ right) = builder.takes left >>= fun middle => middle.takes right := by
  rw [takes, List.flatMap_append, List.foldlM_append]
  rfl

theorem takes_cons (item : Item) (rest : List Item) :
    builder.takes (item :: rest) =
      item.tokens.foldlM step builder >>= fun middle => middle.takes rest := by
  rw [takes, List.flatMap_cons, List.foldlM_append]
  rfl

theorem takes_texts (tokens : List Token) :
    builder.takes (tokens.map .text) = tokens.foldlM step builder := by
  have same : (tokens.map Item.text).flatMap Item.tokens = tokens := by
    rw [List.flatMap_map]
    exact List.flatMap_singleton' tokens
  rw [takes, same]

/-! ## Lines of conditionals -/

/-- A line of a conditional is read to its end before it does anything. -/
theorem foldlM_line {word stop : Token} {arguments tokens : List Token} {purpose : Purpose}
    {nodes before : List Node} {frames : List (Frame × List Node)}
    (stays : ∀ kind, kind ≠ .lineEnd → endsLine purpose kind = false)
    (inside : ∀ token ∈ arguments, token.kind ≠ .lineEnd) (isEnd : stop.kind = .lineEnd) :
    (arguments ++ [stop]).foldlM step ⟨nodes, (.line word purpose tokens, before) :: frames⟩ =
      finishLine ⟨before, frames⟩ word purpose (tokens.reverse ++ arguments) stop := by
  induction arguments generalizing tokens with
  | nil =>
      have ends : endsLine purpose stop.kind = true := by rw [isEnd]; rfl
      simp [step, ends]
  | cons token rest ih =>
      have stay := stays token.kind (inside token (by simp))
      have more : (rest ++ [stop]).foldlM step
          ⟨nodes, (.line word purpose (token :: tokens), before) :: frames⟩ =
          finishLine ⟨before, frames⟩ word purpose ((token :: tokens).reverse ++ rest) stop :=
        ih fun other member => inside other (by simp [member])
      rw [List.cons_append, List.foldlM_cons]
      simp only [step, stay]
      rw [List.reverse_cons, List.append_assoc, List.singleton_append] at more
      exact more

/-- A directive line in a block, whose word leaves the line open with the given purpose. -/
theorem takes_line {word stop : Token} {arguments : List Token} {purpose : Purpose}
    {before : List Node} {frames : List (Frame × List Node)}
    (started : builder.directive word = .ok ⟨[], (.line word purpose [], before) :: frames⟩)
    (block : AtBlock builder.frames) (proper : (Item.line word arguments stop).Proper)
    (stays : ∀ kind, kind ≠ .lineEnd → endsLine purpose kind = false) :
    (Item.line word arguments stop).tokens.foldlM step builder =
      finishLine ⟨before, frames⟩ word purpose arguments stop := by
  obtain ⟨isDirective, inside, isEnd⟩ := proper
  rw [Item.tokens, List.cons_append, List.foldlM_cons, step_directive block isDirective, started]
  exact foldlM_line stays (fun token member => (kind_ne_of_inside (inside token member)).2) isEnd

theorem endsLine_of_ne {purpose : Purpose} (notDefine : purpose ≠ .define) (kind : Token.Kind)
    (inside : kind ≠ .lineEnd) : endsLine purpose kind = false := by
  unfold endsLine
  split
  · contradiction
  · contradiction
  · rfl

theorem head?_of_takeName {stop name : Token} {what : Expectation} {tokens rest : List Token}
    (named : takeName stop what tokens = .ok (name, rest)) : tokens.head? = some name := by
  unfold takeName at named
  split at named
  · split at named
    · cases named
      rfl
    · cases named
  · cases named

/-- What the first line of a conditional does. -/
def purposeOfOpener? : Directive → Option Purpose
  | .ifTrue => some (.ifTrue [])
  | .ifDefined => some (.ifDefined true)
  | .ifUndefined => some (.ifDefined false)
  | _ => none

/-- What a line does that ends a branch of a conditional. -/
def purposeAfter? (last : Branch) (earlier : List Branch) : Directive → Option Purpose
  | .elseIf => some (.ifTrue (last :: earlier))
  | .otherwise => some (.otherwise last earlier)
  | .endIf => some (.endIf last earlier [])
  | _ => none

section

variable {word stop : Token} {arguments : List Token} {nodes before : List Node}
  {frames : List (Frame × List Node)} {opener : Bytes} {location : Location} {test : Test}
  {last : Branch} {earlier : List Branch} {directive : Directive} {purpose : Purpose}

theorem foldlM_opener (block : AtBlock base.frames) (proper : (Item.line word arguments stop).Proper)
    (found : Directive.ofWord? word.text = some directive)
    (opens : purposeOfOpener? directive = some purpose) :
    (Item.line word arguments stop).tokens.foldlM step base =
      finishLine base word purpose arguments stop := by
  have started : base.directive word = .ok (base.enter (.line word purpose [])) := by
    cases directive <;> cases opens <;> simp [Builder.directive, found]
  have noDefinition : purpose ≠ .define := by
    rintro rfl
    cases directive <;> cases opens
  exact takes_line started block proper (endsLine_of_ne noDefinition)

/-- A line that ends a branch does what it does outside of the branch. -/
theorem foldlM_after_branch (proper : (Item.line word arguments stop).Proper)
    (found : Directive.ofWord? word.text = some directive)
    (ends : purposeAfter? ⟨location, test, nodes.reverse⟩ earlier directive = some purpose) :
    (Item.line word arguments stop).tokens.foldlM step
        ⟨nodes, (.branch opener location test earlier, before) :: frames⟩ =
      finishLine ⟨before, frames⟩ word purpose arguments stop := by
  have started : (Builder.mk nodes ((.branch opener location test earlier, before) :: frames)).directive
      word = .ok ⟨[], (.line word purpose [], before) :: frames⟩ := by
    cases directive <;> cases ends <;> simp [Builder.directive, found]
  have noDefinition : purpose ≠ .define := by
    rintro rfl
    cases directive <;> cases ends
  exact takes_line started trivial proper (endsLine_of_ne noDefinition)

theorem foldlM_after_otherwise (proper : (Item.line word arguments stop).Proper)
    (found : Directive.ofWord? word.text = some .endIf) :
    (Item.line word arguments stop).tokens.foldlM step
        ⟨nodes, (.otherwise location last earlier, before) :: frames⟩ =
      finishLine ⟨before, frames⟩ word (.endIf last earlier nodes.reverse) arguments stop := by
  have started : (Builder.mk nodes ((.otherwise location last earlier, before) :: frames)).directive
      word = .ok ⟨[], (.line word (.endIf last earlier nodes.reverse) [], before) :: frames⟩ := by
    simp [Builder.directive, found]
  exact takes_line started trivial proper (endsLine_of_ne (by simp))

/-- The first line of a conditional opens a branch. -/
theorem exists_branch_of_opens (block : AtBlock base.frames)
    (proper : (Item.line word arguments stop).Proper)
    (found : Directive.ofWord? word.text = some directive) (opens : directive.opens = true)
    (taken : (Item.line word arguments stop).tokens.foldlM step base = .ok next) :
    ∃ location test, next = base.enter (.branch word.text location test []) ∧
      directive.test? arguments stop = some test := by
  cases directive <;> cases opens
  · rw [foldlM_opener block proper found rfl] at taken
    obtain ⟨⟨test, rest⟩, tested, taken⟩ := bind_eq_ok_iff.1 taken
    obtain ⟨location, _, taken⟩ := bind_eq_ok_iff.1 taken
    cases taken
    exact ⟨location, test, rfl, by simp [Directive.test?, tested, Except.toOption]⟩
  · rw [foldlM_opener block proper found rfl] at taken
    obtain ⟨⟨name, rest⟩, named, taken⟩ := bind_eq_ok_iff.1 taken
    obtain ⟨location, _, taken⟩ := bind_eq_ok_iff.1 taken
    cases taken
    exact ⟨location, _, rfl, by simp [Directive.test?, head?_of_takeName named]⟩
  · rw [foldlM_opener block proper found rfl] at taken
    obtain ⟨⟨name, rest⟩, named, taken⟩ := bind_eq_ok_iff.1 taken
    obtain ⟨location, _, taken⟩ := bind_eq_ok_iff.1 taken
    cases taken
    exact ⟨location, _, rfl, by simp [Directive.test?, head?_of_takeName named]⟩

/-- Another branch of a conditional. -/
theorem exists_branch_of_elseIf (proper : (Item.line word arguments stop).Proper)
    (found : Directive.ofWord? word.text = some .elseIf)
    (taken : (Item.line word arguments stop).tokens.foldlM step
      ⟨nodes, (.branch opener location test earlier, before) :: frames⟩ = .ok next) :
    ∃ place other, next = (Builder.mk before frames).enter
        (.branch word.text place other (⟨location, test, nodes.reverse⟩ :: earlier)) ∧
      Directive.elseIf.test? arguments stop = some other := by
  rw [foldlM_after_branch proper found rfl] at taken
  obtain ⟨⟨other, rest⟩, tested, taken⟩ := bind_eq_ok_iff.1 taken
  obtain ⟨place, _, taken⟩ := bind_eq_ok_iff.1 taken
  cases taken
  exact ⟨place, other, rfl, by simp [Directive.test?, tested, Except.toOption]⟩

theorem takes_otherwise (proper : (Item.line word arguments stop).Proper)
    (found : Directive.ofWord? word.text = some .otherwise)
    (taken : (Item.line word arguments stop).tokens.foldlM step
      ⟨nodes, (.branch opener location test earlier, before) :: frames⟩ = .ok next) :
    next = (Builder.mk before frames).enter
      (.otherwise word.location ⟨location, test, nodes.reverse⟩ earlier) := by
  rw [foldlM_after_branch proper found rfl] at taken
  obtain ⟨_, _, taken⟩ := bind_eq_ok_iff.1 taken
  cases taken
  rfl

theorem takes_endIf_of_branch (proper : (Item.line word arguments stop).Proper)
    (found : Directive.ofWord? word.text = some .endIf)
    (taken : (Item.line word arguments stop).tokens.foldlM step
      ⟨nodes, (.branch opener location test earlier, before) :: frames⟩ = .ok next) :
    next = (Builder.mk before frames).push
      (Branch.chain ⟨location, test, nodes.reverse⟩ earlier []) := by
  rw [foldlM_after_branch proper found rfl] at taken
  obtain ⟨_, _, taken⟩ := bind_eq_ok_iff.1 taken
  cases taken
  rfl

/-- After the last alternative only the end of the conditional can come. -/
theorem takes_end_of_otherwise (proper : (Item.line word arguments stop).Proper)
    (found : Directive.ofWord? word.text = some directive) (ends : directive.endsBranch = true)
    (taken : (Item.line word arguments stop).tokens.foldlM step
      ⟨nodes, (.otherwise location last earlier, before) :: frames⟩ = .ok next) :
    directive = .endIf ∧
      next = (Builder.mk before frames).push (last.chain earlier nodes.reverse) := by
  have block : AtBlock
      (Builder.mk nodes ((.otherwise location last earlier, before) :: frames)).frames := trivial
  have refused : directive ≠ .endIf → False := by
    intro other
    rw [Item.tokens, List.cons_append, List.foldlM_cons, step_directive block proper.1] at taken
    cases directive <;> cases ends <;> simp [Builder.directive, found] at other taken
    all_goals
      obtain ⟨_, failed, _⟩ := bind_eq_ok_iff.1 taken
      cases failed
  by_cases same : directive = .endIf
  · subst same
    rw [foldlM_after_otherwise proper found] at taken
    obtain ⟨_, _, taken⟩ := bind_eq_ok_iff.1 taken
    cases taken
    exact ⟨rfl, rfl⟩
  · exact (refused same).elim

end

/-- The text at the start of items, and the directive line that follows it. -/
theorem exists_texts (items : List Item) :
    ∃ (tokens : List Token) (rest : List Item), items = tokens.map .text ++ rest ∧
      (rest = [] ∨ ∃ word arguments stop more, rest = .line word arguments stop :: more) := by
  induction items with
  | nil => exact ⟨[], [], rfl, .inl rfl⟩
  | cons item more ih =>
      cases item with
      | text token =>
          obtain ⟨tokens, rest, rfl, ends⟩ := ih
          exact ⟨token :: tokens, rest, rfl, ends⟩
      | line word arguments stop => exact ⟨[], _, rfl, .inr ⟨_, _, _, _, rfl⟩⟩

/-- Text is read into nodes of the block, unless a call is left open. -/
theorem exists_text_of_takes {tokens : List Token} (block : AtBlock base.frames)
    (noName : ∀ location name before, base.nodes ≠ .ident location name :: before)
    (proper : ∀ token ∈ tokens, (Item.text token).Proper)
    (taken : base.takes (tokens.map .text) = .ok next)
    (closed : ∀ location name depth arguments before frames,
      next.frames ≠ (.call location name depth arguments, before) :: frames) :
    ∃ nodes, next = ⟨nodes.reverse ++ base.nodes, base.frames⟩ ∧ Text tokens nodes := by
  rw [takes_texts] at taken
  have start : Inside base [] ⟨[] ++ base.nodes, base.frames⟩ := .flat .nil
  have inside := start.foldlM (readsText_of_atBlock block) noName
    (fun token member => Token.inLine_of_proper (proper token member)) taken
  rw [List.nil_append] at inside
  cases inside with
  | @flat _ nodes text => exact ⟨nodes.reverse, by simp, text⟩
  | call => exact absurd rfl (closed _ _ _ _ _ _)

/-! ## Blocks and conditionals -/

/-- The items end here, or with a line that ends a branch. -/
def Ends (items : List Item) : Prop :=
  items = [] ∨ ∃ word arguments stop more directive, items = .line word arguments stop :: more ∧
    Directive.ofWord? word.text = some directive ∧ directive.endsBranch = true

/-- From any block on, the items up to the end of the block spell nodes of the block. -/
def ReadsBlock (items : List Item) : Prop :=
  ∀ base final : Builder, AtBlock base.frames →
    (∀ location name before, base.nodes ≠ .ident location name :: before) →
    base.takes items = .ok final → final.frames = [] →
    ∃ read rest nodes, items = read ++ rest ∧ Spelled .block read nodes ∧ Ends rest ∧
      (Builder.mk (nodes.reverse ++ base.nodes) base.frames).takes rest = .ok final

/-- After any branch, the items up to the end of the conditional spell the alternatives to it. -/
def ReadsAlternatives (items : List Item) : Prop :=
  ∀ nodes opener location test earlier before frames final, AtBlock frames → items ≠ [] → Ends items →
    (Builder.mk nodes ((.branch opener location test earlier, before) :: frames)).takes items =
      .ok final → final.frames = [] →
    ∃ read rest no, items = read ++ rest ∧ Spelled .alternatives read no ∧
      (Builder.mk (Branch.chain ⟨location, test, nodes.reverse⟩ earlier no :: before) frames).takes
        rest = .ok final

theorem noName_push {builder : Builder} {node : Node}
    (other : ∀ location name, node ≠ .ident location name) :
    ∀ location name before, (builder.push node).nodes ≠ .ident location name :: before := by
  intro location name before same
  injection same with same
  exact other location name same

/-- A source cannot end inside a conditional. -/
theorem ne_nil_of_open {items : List Item} {nodes : List Node} {frame : Frame × List Node}
    {frames : List (Frame × List Node)} (closed : final.frames = [])
    (taken : (Builder.mk nodes (frame :: frames)).takes items = .ok final) : items ≠ [] := by
  rintro rfl
  cases taken
  cases closed

/-- A branch is spelled by the items from the line that opens it up to one that ends it. -/
theorem ReadsBlock.entered {items : List Item} (reads : ReadsBlock items) {outer : Builder}
    {frame : Frame} (taken : (outer.enter frame).takes items = .ok final)
    (block : AtBlock (outer.enter frame).frames) (closed : final.frames = []) :
    ∃ read rest nodes, items = read ++ rest ∧ Spelled .block read nodes ∧ Ends rest ∧ rest ≠ [] ∧
      (Builder.mk nodes.reverse ((frame, outer.nodes) :: outer.frames)).takes rest = .ok final := by
  have noName : ∀ location name before,
      (outer.enter frame).nodes ≠ .ident location name :: before := by
    simp [enter]
  obtain ⟨read, rest, nodes, same, spelled, ends, taken⟩ := reads _ final block noName taken closed
  simp only [enter, List.append_nil] at taken
  exact ⟨read, rest, nodes, same, spelled, ends, ne_nil_of_open closed taken, taken⟩

theorem readsAlternatives_of_smaller {items : List Item}
    (proper : ∀ item ∈ items, item.Proper)
    (ih : ∀ smaller, smaller.length < items.length → smaller <:+ items →
      ReadsBlock smaller ∧ ReadsAlternatives smaller) : ReadsAlternatives items := by
  intro nodes opener location test earlier before frames final block nonempty ends taken closed
  rcases ends with empty | ⟨word, arguments, stop, more, directive, rfl, found, endsBranch⟩
  · exact absurd empty nonempty
  have properLine : (Item.line word arguments stop).Proper := proper _ (by simp)
  rw [takes_cons] at taken
  obtain ⟨middle, line, taken⟩ := bind_eq_ok_iff.1 taken
  obtain ⟨readsMore, _⟩ := ih more (by simp) (List.suffix_cons _ _)
  cases directive <;> cases endsBranch
  · obtain ⟨place, other, rfl, tests⟩ := exists_branch_of_elseIf properLine found line
    obtain ⟨yesItems, rest, yes, rfl, yesSpelled, ends, nonempty, taken⟩ :=
      readsMore.entered taken trivial closed
    have shorter : rest.length < (Item.line word arguments stop :: (yesItems ++ rest)).length := by
      rw [List.length_cons, List.length_append]
      omega
    obtain ⟨_, readsRest⟩ :=
      ih rest shorter ⟨.line word arguments stop :: yesItems, List.cons_append⟩
    obtain ⟨noItems, rest, no, rfl, noSpelled, taken⟩ :=
      readsRest _ _ _ _ _ _ _ final block nonempty ends taken closed
    rw [List.reverse_reverse] at taken
    exact ⟨.line word arguments stop :: (yesItems ++ noItems), rest, [.cond place other yes no],
      by simp, .elseIf found tests yesSpelled noSpelled, taken⟩
  · obtain rfl := takes_otherwise properLine found line
    obtain ⟨noItems, rest, no, rfl, noSpelled, ends, nonempty, taken⟩ :=
      readsMore.entered taken trivial closed
    rcases ends with rfl | ⟨lastWord, lastArguments, lastStop, rest, directive, rfl, closes, ends⟩
    · exact absurd rfl nonempty
    rw [takes_cons] at taken
    obtain ⟨middle, last, taken⟩ := bind_eq_ok_iff.1 taken
    obtain ⟨rfl, rfl⟩ := takes_end_of_otherwise (proper _ (by simp)) closes ends last
    rw [List.reverse_reverse] at taken
    exact ⟨.line word arguments stop :: (noItems ++ [.line lastWord lastArguments lastStop]), rest,
      no, by simp, .otherwise found noSpelled closes, taken⟩
  · obtain rfl := takes_endIf_of_branch properLine found line
    exact ⟨[.line word arguments stop], more, [], rfl, .endIf found, taken⟩

theorem endsBranch_of_not_opens {directive : Directive} (noLine : purpose? directive = none)
    (noOpener : directive.opens = false) : directive.endsBranch = true := by
  cases directive <;> simp_all [purpose?, Directive.opens, Directive.endsBranch]

/-- Items spell a single directive, whatever nodes come after it. -/
def SpellsDirective (items : List Item) (node : Node) : Prop :=
  (∀ location name, node ≠ .ident location name) ∧
    ∀ rest more, Spelled .block rest more → Spelled .block (items ++ rest) (node :: more)

/-- In a block, a directive line ends the block or is the start of a directive of the block. -/
theorem exists_directive (here : Builder) {word stop : Token} {arguments : List Token}
    {more : List Item} (block : AtBlock here.frames)
    (proper : (Item.line word arguments stop).Proper)
    (ih : ∀ smaller, smaller.length ≤ more.length → smaller <:+ more →
      ReadsBlock smaller ∧ ReadsAlternatives smaller)
    (closed : final.frames = [])
    (taken : here.takes (.line word arguments stop :: more) = .ok final) :
    Ends (.line word arguments stop :: more) ∨
      ∃ items node rest, more = items ++ rest ∧
        SpellsDirective (.line word arguments stop :: items) node ∧
        (here.push node).takes rest = .ok final := by
  rw [takes_cons] at taken
  obtain ⟨after, line, taken⟩ := bind_eq_ok_iff.1 taken
  obtain ⟨readsMore, _⟩ := ih more (Nat.le_refl _) (List.suffix_refl _)
  cases found : Directive.ofWord? word.text with
  | none =>
      rw [Item.tokens, List.cons_append, List.foldlM_cons, step_directive block proper.1] at line
      obtain ⟨next, first, _⟩ := bind_eq_ok_iff.1 line
      simp [Builder.directive, found] at first
  | some directive =>
      cases simple : purpose? directive with
      | some purpose =>
          obtain ⟨node, rfl, form, alone⟩ := exists_node_of_line block proper found simple line
          refine .inr ⟨[], node, more, rfl, ⟨?_, ?_⟩, taken⟩
          · rintro location name rfl
            cases form
          · exact fun rest more spelled => .line found form alone spelled
      | none =>
          cases opens : directive.opens with
          | true =>
              obtain ⟨location, test, rfl, tests⟩ :=
                exists_branch_of_opens block proper found opens line
              obtain ⟨yesItems, rest, yes, rfl, yesSpelled, ends, nonempty, taken⟩ :=
                readsMore.entered taken trivial closed
              obtain ⟨_, readsRest⟩ := ih rest (by simp) (List.suffix_append _ _)
              obtain ⟨noItems, rest, no, rfl, noSpelled, taken⟩ :=
                readsRest _ _ _ _ _ _ _ final block nonempty ends taken closed
              rw [List.reverse_reverse] at taken
              refine .inr ⟨yesItems ++ noItems, .cond location test yes no, rest, by simp,
                ⟨by simp, fun rest more spelled => ?_⟩, taken⟩
              have whole : Spelled .block
                  (.line word arguments stop :: (yesItems ++ (noItems ++ rest)))
                  (.cond location test yes no :: more) :=
                .cond found opens tests yesSpelled noSpelled spelled
              simpa using whole
          | false =>
              have endsBranch := endsBranch_of_not_opens simple opens
              exact .inl (.inr ⟨word, arguments, stop, more, directive, rfl, found, endsBranch⟩)

theorem readsBlock_of_smaller {items : List Item} (proper : ∀ item ∈ items, item.Proper)
    (ih : ∀ smaller, smaller.length < items.length → smaller <:+ items →
      ReadsBlock smaller ∧ ReadsAlternatives smaller) : ReadsBlock items := by
  intro base final block noName taken closed
  obtain ⟨tokens, rest, rfl, ends⟩ := exists_texts items
  have properTexts : ∀ token ∈ tokens, (Item.text token).Proper :=
    fun token member => proper _ (by simp [member])
  rw [takes_append] at taken
  obtain ⟨middle, texts, taken⟩ := bind_eq_ok_iff.1 taken
  rcases ends with rfl | ⟨word, arguments, stop, more, rfl⟩
  · cases taken
    obtain ⟨nodes, rfl, text⟩ := exists_text_of_takes block noName properTexts texts (by simp [closed])
    refine ⟨tokens.map .text ++ [], [], nodes ++ [], by simp, .text text .nil, .inl rfl, ?_⟩
    rw [List.append_nil]
    rfl
  have properLine : (Item.line word arguments stop).Proper := proper _ (by simp)
  -- No directive can follow while a call is open.
  have noCall : ∀ location name depth arguments before frames,
      middle.frames ≠ (.call location name depth arguments, before) :: frames := by
    intro location name depth given before frames found
    rw [takes_cons, Item.tokens, List.cons_append, List.foldlM_cons] at taken
    obtain ⟨after, line, _⟩ := bind_eq_ok_iff.1 taken
    obtain ⟨next, first, _⟩ := bind_eq_ok_iff.1 line
    simp [step, found, argument, properLine.1] at first
  obtain ⟨nodes, rfl, text⟩ := exists_text_of_takes block noName properTexts texts noCall
  have suffix : more <:+ tokens.map .text ++ .line word arguments stop :: more :=
    ⟨tokens.map .text ++ [.line word arguments stop], by simp⟩
  have ih : ∀ smaller, smaller.length ≤ more.length → smaller <:+ more →
      ReadsBlock smaller ∧ ReadsAlternatives smaller := by
    intro smaller short ends
    refine ih smaller ?_ (ends.trans suffix)
    rw [List.length_append, List.length_cons]
    omega
  let reached : Builder := ⟨nodes.reverse ++ base.nodes, base.frames⟩
  rcases exists_directive reached block properLine ih closed taken with
    ends | ⟨group, node, rest, rfl, ⟨other, directive⟩, taken⟩
  · exact ⟨tokens.map .text ++ [], _, nodes ++ [], by simp, .text text .nil, ends,
      by rw [List.append_nil]; exact taken⟩
  · obtain ⟨reads, _⟩ := ih rest (by simp) (List.suffix_append _ _)
    obtain ⟨read, last, others, rfl, spelled, ends, taken⟩ :=
      reads ((Builder.mk (nodes.reverse ++ base.nodes) base.frames).push node) final block
        (noName_push other) taken closed
    refine ⟨_, last, _, ?_, .text text (directive read others spelled), ends, ?_⟩
    · simp
    · simpa [push] using taken

theorem readsBlock {items : List Item} (proper : ∀ item ∈ items, item.Proper) :
    ReadsBlock items ∧ ReadsAlternatives items := by
  induction size : items.length using Nat.strongRecOn generalizing items with
  | ind size ih =>
      have smaller : ∀ smaller, smaller.length < items.length → smaller <:+ items →
          ReadsBlock smaller ∧ ReadsAlternatives smaller :=
        fun smaller short ends => ih smaller.length (size ▸ short)
          (fun item member => proper item (ends.subset member)) rfl
      exact ⟨readsBlock_of_smaller proper smaller, readsAlternatives_of_smaller proper smaller⟩

theorem eq_of_finish {stop : Token} {nodes : List Node} (finished : final.finish stop = .ok nodes) :
    final.frames = [] ∧ nodes = final.nodes.reverse := by
  unfold finish at finished
  split at finished
  · cases finished
    exact ⟨‹_›, rfl⟩
  · obtain ⟨_, _, finished⟩ := bind_eq_ok_iff.1 finished
    cases finished
  all_goals cases finished

/-- Outside conditionals no branch can end. -/
theorem eq_nil_of_ends {items : List Item} {nodes : List Node}
    (proper : ∀ item ∈ items, item.Proper) (ends : Ends items)
    (taken : (Builder.mk nodes []).takes items = .ok final) : items = [] := by
  rcases ends with rfl | ⟨word, arguments, stop, more, directive, rfl, found, endsBranch⟩
  · rfl
  have isDirective : word.kind = .directive := (proper (.line word arguments stop) (by simp)).1
  have block : AtBlock (Builder.mk nodes []).frames := trivial
  rw [takes_cons, Item.tokens, List.cons_append, List.foldlM_cons,
    step_directive block isDirective] at taken
  obtain ⟨after, line, _⟩ := bind_eq_ok_iff.1 taken
  obtain ⟨next, first, _⟩ := bind_eq_ok_iff.1 line
  cases directive <;> cases endsBranch <;> simp [Builder.directive, found] at first

end Builder

namespace Item

theorem kind_ne_fileEnd_of_proper {items : List Item} (proper : ∀ item ∈ items, item.Proper) :
    ∀ token ∈ items.flatMap Item.tokens, token.kind ≠ .fileEnd := by
  intro token member
  obtain ⟨item, inItems, member⟩ := List.mem_flatMap.1 member
  have proper := proper item inItems
  cases item with
  | text other =>
      rw [List.mem_singleton.1 member]
      intro kind
      simp [Proper, kind, Token.Kind.isInline] at proper
  | line word arguments stop => exact kind_ne_fileEnd proper token member

end Item

/-- The nodes of a source are read from its items. -/
theorem Node.ofTokens_items {items : List Item} {stop : Token}
    (proper : ∀ item ∈ items, item.Proper) (ended : stop.kind = .fileEnd) :
    Node.ofTokens (items.flatMap Item.tokens ++ [stop]) =
      Builder.empty.takes items >>= fun builder => builder.finish stop := by
  have inside := Item.kind_ne_fileEnd_of_proper proper
  have before : (items.flatMap Item.tokens ++ [stop]).takeWhile (·.kind != .fileEnd) =
      items.flatMap Item.tokens := by
    rw [List.takeWhile_append_of_pos (by simpa using inside)]
    simp [ended]
  have last : (items.flatMap Item.tokens ++ [stop]).find? (·.kind == .fileEnd) = some stop := by
    have none : (items.flatMap Item.tokens).find? (·.kind == .fileEnd) = none :=
      List.find?_eq_none.2 fun token member => by simp [inside token member]
    rw [List.find?_append, none, Option.none_or]
    simp [ended]
  rw [Node.ofTokens, before, last]
  rfl

/-- The nodes of a source are spelled by its items. -/
theorem Node.spelled_of_ofTokens {items : List Item} {stop : Token} {nodes : List Node}
    (proper : ∀ item ∈ items, item.Proper) (ended : stop.kind = .fileEnd)
    (read : Node.ofTokens (items.flatMap Item.tokens ++ [stop]) = .ok nodes) :
    Spelled .block items nodes := by
  rw [Node.ofTokens_items proper ended] at read
  obtain ⟨final, taken, finished⟩ := bind_eq_ok_iff.1 read
  obtain ⟨closed, rfl⟩ := Builder.eq_of_finish finished
  obtain ⟨reads, _⟩ := Builder.readsBlock proper
  obtain ⟨whole, rest, nodes, rfl, spelled, ends, taken⟩ :=
    reads .empty final trivial (by simp [Builder.empty]) taken closed
  obtain rfl := Builder.eq_nil_of_ends (fun item member => proper item (by simp [member])) ends taken
  cases taken
  simpa [Builder.empty] using spelled

end ScopedMacros
