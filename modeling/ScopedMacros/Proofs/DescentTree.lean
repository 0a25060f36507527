import ScopedMacros.Proofs.Contents
import ScopedMacros.Proofs.DescentCall

/-!
# Reading nodes by their places

A descent over any tokens whatever has no fault.  It ends with the nodes of the tokens, or it is
refused for the same error of form as the tokens are.
-/

namespace ScopedMacros

theorem Token.endsBranch_cases {token : Token} (ends : token.endsBranch = true) :
    token.kind = .directive ∧ (token.text = Directive.elseIf.word ∨
      token.text = Directive.otherwise.word ∨ token.text = Directive.endIf.word) := by
  simp only [Token.endsBranch, Token.isDirective, Bool.or_eq_true, Bool.and_eq_true, beq_iff_eq,
    ← and_or_left, or_assoc] at ends
  exact ends

theorem Token.endsBranch_of_ofWord? {token : Token} {directive : Directive}
    (isDirective : token.kind = .directive) (found : Directive.ofWord? token.text = some directive)
    (ends : directive = .elseIf ∨ directive = .otherwise ∨ directive = .endIf) :
    token.endsBranch = true := by
  have word := Directive.word_of_ofWord? found
  rcases ends with rfl | rfl | rfl <;> simp [Token.endsBranch, Token.isDirective, isDirective, word]

namespace Builder

/-! ## Directive lines -/

/-- The kinds that end a line of the given purpose, which the end of the file does as well. -/
def Purpose.ends : Purpose → List Token.Kind
  | .define => Descent.headEnds
  | _ => Descent.lineEnds

theorem Purpose.fileEnd_mem_ends (purpose : Purpose) : .fileEnd ∈ purpose.ends := by
  cases purpose <;> simp [Purpose.ends, Descent.headEnds, Descent.lineEnds]

theorem endsLine_iff {purpose : Purpose} {kind : Token.Kind} (inside : kind ≠ .fileEnd) :
    endsLine purpose kind = true ↔ kind ∈ purpose.ends := by
  cases purpose <;> cases kind <;>
    first
    | exact absurd rfl inside
    | simp [endsLine, Purpose.ends, Descent.headEnds, Descent.lineEnds]

theorem plain_of_text {builder : Builder} {token : Token} (other : token.kind ≠ .directive)
    (ready : token.kind = .leftParen → builder.call? = none) :
    builder.plain token = builder.leaf token := by
  obtain ⟨kind, text, location⟩ := token
  cases kind with
  | directive => exact absurd rfl other
  | leftParen =>
      simp only [plain, ready rfl]
  | _ => rfl

variable {ended word : Token} {purpose : Purpose} {frames : List (Frame × List Node)}
  {nodes before : List Node}

/-- The tokens of a line are collected. -/
theorem complete_append_of_line {collected line items : List Token}
    (free : ∀ token ∈ line, token.kind ∉ purpose.ends) :
    complete ended ⟨nodes, (.line word purpose collected, before) :: frames⟩ (line ++ items) =
      complete ended ⟨nodes, (.line word purpose (line.reverse ++ collected), before) :: frames⟩
        items := by
  induction line generalizing collected with
  | nil => rfl
  | cons token line ih =>
      obtain ⟨first, others⟩ := List.forall_mem_cons.1 free
      have goesOn : token.kind ≠ .fileEnd := fun same => first (same ▸ purpose.fileEnd_mem_ends)
      have taken : step ⟨nodes, (.line word purpose collected, before) :: frames⟩ token =
          .ok ⟨nodes, (.line word purpose (token :: collected), before) :: frames⟩ :=
        if_neg fun ends => first ((endsLine_iff goesOn).1 ends)
      rw [List.cons_append, complete_of_ok taken, ih others, List.reverse_cons, List.append_assoc]
      rfl

section

variable {token : Token} {opener : Bytes} {location : Location} {test : Test}
  {earlier : List Branch} {last : Branch}

theorem step_branch_elseIf (isDirective : token.kind = .directive)
    (same : token.text = Directive.elseIf.word) :
    step ⟨nodes, (.branch opener location test earlier, before) :: frames⟩ token =
      .ok (enter ⟨before, frames⟩
        (.line token (.ifTrue (⟨location, test, nodes.reverse⟩ :: earlier)) [])) := by
  refine (step_directive (by trivial) isDirective).trans ?_
  rw [directive, same, Directive.ofWord?_word]
  rfl

theorem step_branch_otherwise (isDirective : token.kind = .directive)
    (same : token.text = Directive.otherwise.word) :
    step ⟨nodes, (.branch opener location test earlier, before) :: frames⟩ token =
      .ok (enter ⟨before, frames⟩
        (.line token (.otherwise ⟨location, test, nodes.reverse⟩ earlier) [])) := by
  refine (step_directive (by trivial) isDirective).trans ?_
  rw [directive, same, Directive.ofWord?_word]
  rfl

theorem step_branch_endIf (isDirective : token.kind = .directive)
    (same : token.text = Directive.endIf.word) :
    step ⟨nodes, (.branch opener location test earlier, before) :: frames⟩ token =
      .ok (enter ⟨before, frames⟩
        (.line token (.endIf ⟨location, test, nodes.reverse⟩ earlier []) [])) := by
  refine (step_directive (by trivial) isDirective).trans ?_
  rw [directive, same, Directive.ofWord?_word]
  rfl

theorem step_otherwise_endIf (isDirective : token.kind = .directive)
    (same : token.text = Directive.endIf.word) :
    step ⟨nodes, (.otherwise location last earlier, before) :: frames⟩ token =
      .ok (enter ⟨before, frames⟩ (.line token (.endIf last earlier nodes.reverse) [])) := by
  refine (step_directive (by trivial) isDirective).trans ?_
  rw [directive, same, Directive.ofWord?_word]
  rfl

theorem step_otherwise_other (isDirective : token.kind = .directive)
    (same : token.text = Directive.elseIf.word ∨ token.text = Directive.otherwise.word) :
    step ⟨nodes, (.otherwise location last earlier, before) :: frames⟩ token =
      .error ⟨.afterOtherwise token.text, token.location⟩ := by
  refine (step_directive (by trivial) isDirective).trans ?_
  rw [directive]
  rcases same with same | same
  all_goals rw [same, Directive.ofWord?_word]

end

/-- A line that the end of the file breaks off. -/
theorem complete_of_line {outer : Builder} {line : List Token}
    (free : ∀ token ∈ line, token.kind ∉ purpose.ends) :
    (outer.enter (.line word purpose [])).complete ended line = (do
      let _ ← finishLine outer word purpose line ended
      .error ⟨.trailing ended.kind word.text, ended.location⟩) := by
  have collected : (outer.enter (.line word purpose [])).complete ended (line ++ []) =
      complete ended
        ⟨[], (.line word purpose (line.reverse ++ []), outer.nodes) :: outer.frames⟩ [] :=
    complete_append_of_line free
  rw [List.append_nil, List.append_nil] at collected
  rw [collected, complete_nil]
  change (finishLine outer word purpose line.reverse.reverse ended >>= fun _ => _) = _
  rw [List.reverse_reverse]

theorem complete_of_line_cons {outer : Builder} {stop : Token} {line later : List Token}
    (free : ∀ token ∈ line, token.kind ∉ purpose.ends) (stops : stop.kind ∈ purpose.ends)
    (goesOn : stop.kind ≠ .fileEnd) :
    (outer.enter (.line word purpose [])).complete ended (line ++ stop :: later) = (do
      let next ← finishLine outer word purpose line stop
      next.complete ended later) := by
  have finished : step ⟨[], (.line word purpose line.reverse, outer.nodes) :: outer.frames⟩ stop =
      finishLine outer word purpose line.reverse.reverse stop :=
    if_pos ((endsLine_iff goesOn).2 stops)
  rw [enter, complete_append_of_line free, List.append_nil, complete_cons, finished,
    List.reverse_reverse]

end Builder

namespace Descent

variable {tokens : List Token} {whole : Stretch tokens [.fileEnd]}

/-- After a line, the builder goes on with the tokens after it, fewer than the bound. -/
def Stretch.Goes (whole : Stretch tokens [.fileEnd]) (bound : Nat) (after : List Token)
    (next : Builder → Except Error (List Node)) : Prop :=
  ∃ later, after = later ++ whole.stop :: whole.after ∧
    (∀ token ∈ later, token.kind ∉ [Token.Kind.fileEnd]) ∧ later.length < bound ∧
    ∀ builder, next builder = builder.complete whole.stop later

/-- Where a line has been passed, a builder has the tokens after it left. -/
theorem Stretch.Goes.sees {bound place : Nat} {after : List Token}
    {next : Builder → Except Error (List Node)} (goes : whole.Goes bound after next)
    (ahead : tokens.drop place = after) :
    ∃ later, whole.Sees place later ∧ later.length < bound ∧
      ∀ builder, next builder = builder.complete whole.stop later := by
  obtain ⟨later, rfl, free, shorter, same⟩ := goes
  exact ⟨later, ⟨ahead, free⟩, shorter, same⟩

/-- The tokens of a directive line, which is read up to the end of a stretch, and what comes of the
builder once they are read. -/
structure SplitsLine (whole : Stretch tokens [.fileEnd]) (place : Nat) (items : List Token)
    (outer : Builder) (word : Token) (purpose : Builder.Purpose)
    (stretch : Stretch tokens purpose.ends) (line : List Token)
    (next : Builder → Except Error (List Node)) : Prop where
  sees : stretch.Sees place line
  complete_eq : (outer.enter (.line word purpose [])).complete whole.stop items =
    Builder.finishLine outer word purpose line stretch.stop >>= next
  goes : stretch.stop.kind ≠ .fileEnd → whole.Goes items.length stretch.after next

theorem exists_splitsLine {place : Nat} {items : List Token} (sees : whole.Sees place items)
    (outer : Builder) (word : Token) (purpose : Builder.Purpose) :
    ∃ stretch line next, SplitsLine whole place items outer word purpose stretch line next := by
  cases found : items.find? (·.kind ∈ purpose.ends) with
  | none =>
      have free : ∀ token ∈ items, token.kind ∉ purpose.ends := by simpa using found
      have stops : whole.stop.kind ∈ purpose.ends := by
        rw [whole.isEnd]
        exact purpose.fileEnd_mem_ends
      exact ⟨⟨whole.stop, whole.after, stops, whole.more, purpose.fileEnd_mem_ends⟩, items, _,
        ⟨sees.drop_eq, free⟩, Builder.complete_of_line free, absurd whole.isEnd⟩
  | some stop =>
      obtain ⟨ends, line, later, rfl, before⟩ := List.find?_eq_some_iff_append.1 found
      have free : ∀ token ∈ line, token.kind ∉ purpose.ends := by simpa using before
      have stops : stop.kind ∈ purpose.ends := by simpa using ends
      have goesOn : stop.kind ≠ .fileEnd := by
        simpa using sees.free stop (List.mem_append_right _ (.head _))
      refine ⟨⟨stop, later ++ whole.stop :: whole.after, stops, fun _ => by simp,
        purpose.fileEnd_mem_ends⟩, line, _, ⟨?_, free⟩,
        Builder.complete_of_line_cons free stops goesOn,
        fun _ => ⟨later, rfl, fun token mem => ?_, ?_, fun _ => rfl⟩⟩
      · rw [sees.drop_eq, List.append_assoc]
        rfl
      · exact sees.free token (List.mem_append_right _ (.tail _ mem))
      · simp only [List.length_append, List.length_cons]
        omega

/-! ## Nodes -/

/-- The builder after some nodes, with fewer tokens left to it than the bound.  The next token, if
there is one, is one that stops the reading of nodes. -/
structure Stretch.Gathers (whole : Stretch tokens [.fileEnd]) (bound : Nat) (outer : Builder)
    (stops : Token → Prop) (nodes : List Node) (place : Nat) (builder : Builder)
    (items : List Token) : Prop where
  eq_append : builder = ⟨nodes.reverse ++ outer.nodes, outer.frames⟩
  sees : whole.Sees place items
  shorter : items.length < bound
  stops : ∀ token ∈ items.head?, stops token

/-- The nodes of the branches around an inner conditional. -/
def nest (earlier : List Branch) (node : Node) : Node :=
  earlier.foldl (fun inner branch => branch.node [inner]) node

/-- Within the given number of turns, a descent leads to the nodes of a builder.  Four turns for
each token are enough: a block, a node and a directive may start there, and what follows the line of
a directive starts after it. -/
structure TreeLeads (whole : Stretch tokens [.fileEnd]) (turns : Nat) : Prop where
  blocks (builder : Builder) {place : Nat} {items : List Token}
    (atBlock : Builder.AtBlock builder.frames) (ready : builder.Ready items)
    (sees : whole.Sees place items) (enough : 4 * items.length < turns) :
    Leads whole.stop (whole.Gathers (items.length + 1) builder fun token => token.endsBranch = true)
      (block tokens turns place) (builder.complete whole.stop items)
  nodes {builder : Builder} {token : Token} {place : Nat} {items : List Token}
    (reads : Builder.ReadsText builder.frames) (takes : builder.step token = builder.plain token)
    (strays : token.endsBranch = true →
      builder.directive token = .error ⟨.strayDirective token.text, token.location⟩)
    (ready : builder.Ready (token :: items))
    (sees : whole.Sees place (token :: items)) (enough : 4 * items.length + 3 < turns) :
    Leads whole.stop (whole.Reaches (items.length + 1) builder.push)
      (node tokens turns place) (builder.complete whole.stop (token :: items))
  directives {builder : Builder} {token : Token} {place : Nat} {items : List Token}
    (takes : builder.step token = builder.directive token)
    (strays : token.endsBranch = true →
      builder.directive token = .error ⟨.strayDirective token.text, token.location⟩)
    (isDirective : token.kind = .directive)
    (sees : whole.Sees place (token :: items)) (enough : 4 * items.length + 2 < turns) :
    Leads whole.stop (whole.Reaches (items.length + 1) builder.push)
      (directive tokens turns place) (builder.complete whole.stop (token :: items))
  definitions {outer : Builder} {word : Token} {stretch : Stretch tokens headEnds}
    {place bound : Nat} {line : List Token} {next : Builder → Except Error (List Node)}
    (sees : stretch.Sees place line)
    (goes : stretch.stop.kind ≠ .fileEnd → whole.Goes bound stretch.after next)
    (enough : 4 * bound < turns) :
    Leads whole.stop (whole.Reaches bound outer.push) (definition tokens turns word place)
      (do
        let (name, parameters) ← Builder.takeHead stretch.stop line
        next (outer.enter (.define word name parameters)))
  bodies (outer builder : Builder) {word : Token} {name : Bytes}
    {parameters : Option (List Bytes)} {place : Nat} {items : List Token}
    (inBody : builder.frames = (outer.enter (.define word name parameters)).frames)
    (ready : builder.Ready items) (sees : whole.Sees place items)
    (enough : 4 * items.length < turns) :
    Leads whole.stop (whole.Gathers (items.length + 1) builder fun token => token.kind = .lineEnd)
      (definitionBody tokens turns place) (builder.complete whole.stop items)
  conditionals {outer : Builder} {word : Token} {stretch : Stretch tokens lineEnds} {test : Test}
    {earlier : List Branch} {place bound : Nat} {line : List Token}
    {next : Builder → Except Error (List Node)} (sees : stretch.Sees place line)
    (goes : stretch.stop.kind ≠ .fileEnd → whole.Goes bound stretch.after next)
    (enough : 4 * bound < turns) :
    Leads whole.stop (whole.Reaches bound fun node => outer.push (nest earlier node))
      (conditional tokens turns word test place)
      (do
        let location ← Builder.endLine word stretch.stop line
        next (outer.enter (.branch word.text location test earlier)))

namespace TreeLeads

variable {turns place : Nat} {items : List Token} {token : Token} {builder outer : Builder}

/-- One node, and then more of them. -/
theorem gathers_cons {loop : Nat → Except Fault (List Node × Nat)} {stops : Token → Prop}
    {walked : Except Fault (Node × Nat)}
    (first : Leads whole.stop (whole.Reaches (items.length + 1) builder.push) walked
      (builder.complete whole.stop (token :: items)))
    (rest : ∀ node place later, (builder.push node).Ready later →
      whole.Sees place later → later.length < items.length + 1 →
      Leads whole.stop (whole.Gathers (later.length + 1) (builder.push node) stops)
        (loop place) ((builder.push node).complete whole.stop later)) :
    Leads whole.stop (whole.Gathers ((token :: items).length + 1) builder stops)
      (do
        let (first, place) ← walked
        let (nodes, place) ← loop place
        .ok (first :: nodes, place))
      (builder.complete whole.stop (token :: items)) := by
  refine first.bind fun node place _ later reaches => ?_
  obtain ⟨rfl, sees, shorter, ready⟩ := reaches
  refine (rest node place later ready sees shorter).bind fun nodes place _ last gathers => ?_
  obtain ⟨rfl, sees, fewer, stops⟩ := gathers
  refine .done ⟨?_, sees, ?_, stops⟩
  · rw [List.reverse_cons, List.append_assoc]
    rfl
  · simp only [List.length_cons]
    omega

theorem blocks_succ (inner : TreeLeads whole turns)
    (atBlock : Builder.AtBlock builder.frames) (ready : builder.Ready items)
    (sees : whole.Sees place items) (enough : 4 * items.length < turns + 1) :
    Leads whole.stop (whole.Gathers (items.length + 1) builder fun token => token.endsBranch = true)
      (block tokens (turns + 1) place) (builder.complete whole.stop items) := by
  rw [block, sees.look, ok_bind]
  cases items with
  | nil =>
      rw [List.headD_nil, if_pos (by simp [whole.isEnd])]
      exact .done ⟨rfl, sees, Nat.lt_succ_self _, by simp⟩
  | cons token items =>
      have goesOn : token.kind ≠ .fileEnd := sees.head_ne whole.closes
      rw [List.headD_cons]
      by_cases ends : token.endsBranch = true
      · rw [if_pos (by simp [ends])]
        exact .done ⟨rfl, sees, Nat.lt_succ_self _, fun other head => by cases head; exact ends⟩
      · rw [if_neg (by simp [ends, goesOn])]
        simp only [List.length_cons] at enough
        refine gathers_cons (inner.nodes (Builder.readsText_of_atBlock atBlock)
          (Builder.step_of_atBlock atBlock token) (absurd · ends) ready sees (by omega))
          fun node place later ready sees shorter => ?_
        exact inner.blocks (builder.push node) atBlock ready sees (by omega)

theorem nodes_succ (inner : TreeLeads whole turns)
    (reads : Builder.ReadsText builder.frames) (takes : builder.step token = builder.plain token)
    (strays : token.endsBranch = true →
      builder.directive token = .error ⟨.strayDirective token.text, token.location⟩)
    (ready : builder.Ready (token :: items))
    (sees : whole.Sees place (token :: items)) (enough : 4 * items.length + 3 < turns + 1) :
    Leads whole.stop (whole.Reaches (items.length + 1) builder.push)
      (node tokens (turns + 1) place) (builder.complete whole.stop (token :: items)) := by
  rw [node, sees.look, ok_bind, List.headD_cons]
  by_cases isDirective : token.kind = .directive
  · have taken : builder.step token = builder.directive token := by
      rw [takes, Builder.plain, isDirective]
    rw [if_pos isDirective]
    exact inner.directives taken strays isDirective sees (by omega)
  rw [if_neg isDirective]
  by_cases named : token.kind = .ident
  · have bound := sees.place_lt
    rw [if_pos named]
    exact (namesLead _).names (Builder.takesNames_of_readsText reads) named sees (by
      rw [Descent.turns]
      simp only [List.length_cons] at bound
      omega)
  rw [if_neg named, Builder.complete_cons, takes,
    Builder.plain_of_text isDirective (ready token rfl)]
  refine (text_matches sees named).arrives ?_
  rintro found next ⟨made, there, closed⟩
  exact ⟨next, items, rfl, made, there ▸ sees.succ, Nat.lt_succ_self _, .of_none closed⟩

/-! ## Definitions -/

theorem directive_of_define {outer : Builder} {word : Token} {name : Bytes}
    {parameters : Option (List Bytes)}
    (inBody : builder.frames = (outer.enter (.define word name parameters)).frames)
    (ends : token.endsBranch = true) :
    builder.directive token = .error ⟨.strayDirective token.text, token.location⟩ := by
  obtain ⟨nodes, frames⟩ := builder
  subst inBody
  rcases (Token.endsBranch_cases ends).2 with same | same | same
  all_goals
    rw [Builder.directive, same, Directive.ofWord?_word]
    rfl

theorem bodies_succ (inner : TreeLeads whole turns)
    {word : Token} {name : Bytes} {parameters : Option (List Bytes)}
    (inBody : builder.frames = (outer.enter (.define word name parameters)).frames)
    (ready : builder.Ready items) (sees : whole.Sees place items)
    (enough : 4 * items.length < turns + 1) :
    Leads whole.stop (whole.Gathers (items.length + 1) builder fun token => token.kind = .lineEnd)
      (definitionBody tokens (turns + 1) place) (builder.complete whole.stop items) := by
  rw [definitionBody, sees.look, ok_bind]
  cases items with
  | nil =>
      rw [List.headD_nil, if_pos (by simp [whole.isEnd])]
      exact .done ⟨rfl, sees, Nat.lt_succ_self _, by simp⟩
  | cons token items =>
      have goesOn : token.kind ≠ .fileEnd := sees.head_ne whole.closes
      rw [List.headD_cons]
      by_cases ends : token.kind = .lineEnd
      · rw [if_pos (by simp [ends])]
        exact .done ⟨rfl, sees, Nat.lt_succ_self _, fun other head => by cases head; exact ends⟩
      · rw [if_neg (by simp [ends, goesOn])]
        simp only [List.length_cons] at enough
        have reads : Builder.ReadsText builder.frames :=
          inBody ▸ Builder.readsText_define word name parameters outer.nodes outer.frames
        refine gathers_cons (inner.nodes reads (reads builder.nodes token ends)
          (directive_of_define inBody) ready sees (by omega))
          fun node place later ready sees shorter => ?_
        exact inner.bodies outer (builder.push node) inBody ready sees (by omega)

theorem definitions_succ (inner : TreeLeads whole turns)
    {stretch : Stretch tokens headEnds} {word : Token} {bound : Nat} {line : List Token}
    {next : Builder → Except Error (List Node)} (sees : stretch.Sees place line)
    (goes : stretch.stop.kind ≠ .fileEnd → whole.Goes bound stretch.after next)
    (enough : 4 * bound < turns + 1) :
    Leads whole.stop (whole.Reaches bound outer.push)
      (definition tokens (turns + 1) word place)
      (do
        let (name, parameters) ← Builder.takeHead stretch.stop line
        next (outer.enter (.define word name parameters))) := by
  rw [definition]
  refine (head_matches sees).leads ?_
  rintro ⟨⟨name, parameters⟩, place⟩ _ ⟨same, left, goesOn⟩
  subst same
  obtain ⟨later, sees, shorter, complete⟩ := (goes goesOn).sees left
  dsimp only
  rw [complete]
  refine (inner.bodies outer _ rfl (.of_none rfl) sees (by omega)).bind
    fun body place _ items gathers => ?_
  obtain ⟨rfl, sees, fewer, stops⟩ := gathers
  dsimp only
  rw [endLine, sees.look, ok_bind]
  cases items with
  | nil =>
      have other : whole.stop.kind ≠ .lineEnd := by simp [whole.isEnd]
      rw [List.headD_nil, if_neg other]
      exact .refused _
  | cons token items =>
      have ends : token.kind = .lineEnd := stops token rfl
      have taken : Builder.step
          ⟨body.reverse ++ [], (.define word name parameters, outer.nodes) :: outer.frames⟩ token =
            .ok (outer.push (.define (word.location.span token.location) name parameters
              (Node.trim body))) := by
        refine (if_pos ends).trans ?_
        rw [List.append_nil, List.reverse_reverse]
        rfl
      simp only [List.length_cons] at fewer
      rw [List.headD_cons, if_pos ends, sees.consume, Builder.enter,
        Builder.complete_of_ok taken]
      exact .done ⟨rfl, sees.succ, by omega, .of_none rfl⟩

/-! ## Conditionals -/

theorem call?_nest (earlier : List Branch) {node : Node} {location : Location} {test : Test}
    {yes no : List Node} (isCond : node = .cond location test yes no) :
    (outer.push (nest earlier node)).call? = none := by
  induction earlier generalizing node location test yes no with
  | nil =>
      subst isCond
      rfl
  | cons branch earlier ih => exact ih rfl

/-- The last line of a conditional. -/
theorem closes_leads (outer : Builder) (last : Branch)
    (earlier : List Branch) (no : List Node) {bound : Nat} (sees : whole.Sees place items)
    (small : items.length < bound) :
    Leads whole.stop (whole.Reaches bound fun node => outer.push (nest earlier node))
      (do
        let (_, place) ← endLine tokens token place
        .ok (last.node no, place))
      ((outer.enter (.line token (.endIf last earlier no) [])).complete whole.stop items) := by
  obtain ⟨stretch, line, next, splits⟩ :=
    exists_splitsLine sees outer token (.endIf last earlier no)
  rw [splits.complete_eq, Builder.finishLine, bind_assoc]
  refine (endLine_matches token splits.sees).leads ?_
  rintro ⟨_, place⟩ _ ⟨_, left, goesOn⟩
  obtain ⟨later, sees, shorter, complete⟩ := (splits.goes goesOn).sees left
  rw [ok_bind, complete]
  exact .done ⟨rfl, sees, by omega, .of_none (call?_nest earlier rfl)⟩

/-- The branch for the case that no test holds. -/
theorem otherwise_leads (inner : TreeLeads whole turns)
    (outer : Builder) (last : Branch) (earlier : List Branch) {bound : Nat}
    (sees : whole.Sees place items) (small : items.length < bound)
    (enough : 4 * bound < turns + 1) :
    Leads whole.stop (whole.Reaches bound fun node => outer.push (nest earlier node))
      (do
        let (_, place) ← endLine tokens token place
        let (no, place) ← block tokens turns place
        let ending ← look tokens place
        if ending.kind = .fileEnd then
          refuse (.unterminatedConditional Directive.otherwise.word) token.location
        else if ending.isDirective .endIf then do
          let (ending, place) ← consume tokens place
          let (_, place) ← endLine tokens ending place
          .ok (last.node no, place)
        else
          refuse (.afterOtherwise ending.text) ending.location)
      ((outer.enter (.line token (.otherwise last earlier) [])).complete whole.stop items) := by
  obtain ⟨stretch, line, next, splits⟩ :=
    exists_splitsLine sees outer token (.otherwise last earlier)
  rw [splits.complete_eq, Builder.finishLine, bind_assoc]
  refine (endLine_matches token splits.sees).leads ?_
  rintro ⟨_, place⟩ _ ⟨_, left, goesOn⟩
  obtain ⟨later, sees, shorter, complete⟩ := (splits.goes goesOn).sees left
  rw [ok_bind, complete]
  refine (inner.blocks (outer.enter (.otherwise token.location last earlier)) trivial (.of_none rfl)
    sees (by omega)).bind fun no place _ items gathers => ?_
  obtain ⟨rfl, sees, fewer, stops⟩ := gathers
  simp only [sees.look, ok_bind]
  cases items with
  | nil =>
      rw [List.headD_nil, if_pos whole.isEnd]
      exact .refused _
  | cons ending items =>
      have goesOn : ending.kind ≠ .fileEnd := sees.head_ne whole.closes
      obtain ⟨isDirective, words⟩ := Token.endsBranch_cases (stops ending rfl)
      simp only [List.length_cons] at fewer
      rw [List.headD_cons, if_neg goesOn]
      by_cases closes : ending.text = Directive.endIf.word
      · have taken : Builder.step
            ⟨no.reverse ++ [],
              (.otherwise token.location last earlier, outer.nodes) :: outer.frames⟩
            ending = .ok (outer.enter (.line ending (.endIf last earlier no) [])) := by
          refine (Builder.step_otherwise_endIf isDirective closes).trans ?_
          rw [List.append_nil, List.reverse_reverse]
        rw [if_pos (by simp [Token.isDirective, isDirective, closes]), sees.consume,
          ok_bind, Builder.enter, Builder.complete_of_ok taken]
        exact closes_leads outer last earlier no sees.succ (by omega)
      · rw [if_neg (by simp [Token.isDirective, closes]), Builder.enter,
          Builder.complete_of_error (Builder.step_otherwise_other isDirective
            (words.imp_right (Or.resolve_right · closes)))]
        exact .refused _

theorem finishLine_ifTrue {word stop : Token} {line : List Token} {earlier : List Branch}
    (next : Builder → Except Error (List Node)) :
    (Builder.finishLine outer word (.ifTrue earlier) line stop >>= next) = (do
      let (test, rest) ← Test.ofTokens stop line
      let location ← Builder.endLine word stop rest
      next (outer.enter (.branch word.text location test earlier))) := by
  simp only [Builder.finishLine, bind_assoc]
  rfl

/-- A further branch, which is a conditional of its own inside the first one. -/
theorem elseIf_leads (inner : TreeLeads whole turns)
    (outer : Builder) (last : Branch) (earlier : List Branch) {bound : Nat}
    (sees : whole.Sees place items) (small : items.length < bound)
    (enough : 4 * bound < turns + 1) :
    Leads whole.stop (whole.Reaches bound fun node => outer.push (nest earlier node))
      (do
        let (test, place) ← expression tokens place
        let (no, place) ← conditional tokens turns token test place
        .ok (last.node [no], place))
      ((outer.enter (.line token (.ifTrue (last :: earlier)) [])).complete whole.stop items) := by
  obtain ⟨stretch, line, next, splits⟩ :=
    exists_splitsLine sees outer token (.ifTrue (last :: earlier))
  rw [splits.complete_eq, finishLine_ifTrue]
  refine (expression_matches splits.sees).leads ?_
  rintro ⟨test, place⟩ ⟨_, rest⟩ ⟨same, sees⟩
  subst same
  refine (inner.conditionals sees splits.goes (by omega)).bind fun no place _ items reaches => ?_
  obtain ⟨rfl, sees, shorter, ready⟩ := reaches
  exact .done ⟨rfl, sees, by omega, ready⟩

theorem conditionals_succ (inner : TreeLeads whole turns) {stretch : Stretch tokens lineEnds}
    {word : Token} {test : Test} {earlier : List Branch} {bound : Nat} {line : List Token}
    {next : Builder → Except Error (List Node)} (sees : stretch.Sees place line)
    (goes : stretch.stop.kind ≠ .fileEnd → whole.Goes bound stretch.after next)
    (enough : 4 * bound < turns + 1) :
    Leads whole.stop (whole.Reaches bound fun node => outer.push (nest earlier node))
      (conditional tokens (turns + 1) word test place)
      (do
        let location ← Builder.endLine word stretch.stop line
        next (outer.enter (.branch word.text location test earlier))) := by
  rw [conditional]
  refine (endLine_matches word sees).leads ?_
  rintro ⟨location, place⟩ _ ⟨same, left, goesOn⟩
  subst same
  obtain ⟨later, sees, shorter, complete⟩ := (goes goesOn).sees left
  dsimp only
  rw [complete]
  refine (inner.blocks (outer.enter (.branch word.text location test earlier)) trivial
    (.of_none rfl) sees (by omega)).bind fun yes place _ items gathers => ?_
  obtain ⟨rfl, sees, fewer, stops⟩ := gathers
  dsimp only
  rw [sees.look, ok_bind]
  cases items with
  | nil =>
      rw [List.headD_nil, if_pos whole.isEnd]
      exact .refused _
  | cons next items =>
      have goesOn : next.kind ≠ .fileEnd := sees.head_ne whole.closes
      simp only [List.length_cons] at fewer
      rw [List.headD_cons, if_neg goesOn, sees.consume, ok_bind]
      obtain ⟨isDirective, words⟩ := Token.endsBranch_cases (stops next rfl)
      have all : (yes.reverse ++ []).reverse = yes := by simp
      dsimp only [Builder.enter]
      by_cases goesOn : next.text = Directive.elseIf.word
      · rw [if_pos goesOn, Builder.complete_of_ok (Builder.step_branch_elseIf isDirective goesOn),
          all]
        exact inner.elseIf_leads outer ⟨location, test, yes⟩ earlier sees.succ (by omega) enough
      rw [if_neg goesOn]
      by_cases other : next.text = Directive.otherwise.word
      · rw [if_pos other, Builder.complete_of_ok (Builder.step_branch_otherwise isDirective other),
          all]
        exact inner.otherwise_leads outer ⟨location, test, yes⟩ earlier sees.succ (by omega) enough
      · have closes := (words.resolve_left goesOn).resolve_left other
        rw [if_neg other, Builder.complete_of_ok (Builder.step_branch_endIf isDirective closes),
          all]
        exact closes_leads outer ⟨location, test, yes⟩ earlier [] sees.succ (by omega)

/-! ## Directives -/

/-- A line that is a node by itself. -/
theorem line_leads {purpose : Builder.Purpose} {walked : Except Fault (Node × Nat)}
    (sees : whole.Sees place items)
    (outcome : ∀ (stretch : Stretch tokens purpose.ends) line, stretch.Sees place line →
      Matches (stretch.Adds builder) walked
        (Builder.finishLine builder token purpose line stretch.stop)) :
    Leads whole.stop (whole.Reaches (items.length + 1) builder.push) walked
      ((builder.enter (.line token purpose [])).complete whole.stop items) := by
  obtain ⟨stretch, line, next, splits⟩ := exists_splitsLine sees builder token purpose
  rw [splits.complete_eq]
  refine (outcome stretch line splits.sees).arrives fun found read adds => ?_
  obtain ⟨later, sees, shorter, complete⟩ := (splits.goes adds.goesOn).sees adds.drop_eq
  exact ⟨read, later, complete read, adds.eq_push, sees, by omega, .of_none adds.closed⟩

/-- A conditional, once its test is read from the line that opens it. -/
theorem opens_leads (inner : TreeLeads whole turns) {stretch : Stretch tokens lineEnds}
    {rest : List Token} {test : Test} {next : Builder → Except Error (List Node)} {there : Nat}
    (goes : stretch.stop.kind ≠ .fileEnd → whole.Goes items.length stretch.after next)
    (sees : stretch.Sees there rest) (enough : 4 * items.length + 2 < turns + 1) :
    Leads whole.stop (whole.Reaches (items.length + 1) builder.push)
      (conditional tokens turns token test there)
      (do
        let location ← Builder.endLine token stretch.stop rest
        next (builder.enter (.branch token.text location test []))) :=
  (inner.conditionals sees goes (by omega)).mono fun _ _ _ _ reaches =>
    reaches.mono (Nat.le_succ _)

theorem finishLine_ifDefined {word stop : Token} {line : List Token} {positive : Bool}
    (next : Builder → Except Error (List Node)) :
    (Builder.finishLine outer word (.ifDefined positive) line stop >>= next) = (do
      let (name, rest) ← Builder.takeName stop (.nameAfter word.text) line
      let location ← Builder.endLine word stop rest
      let test := Test.defined name.location name.text
      next (outer.enter (.branch word.text location
        (if positive then test else .not name.location test) []))) := by
  simp only [Builder.finishLine, bind_assoc]
  rfl

theorem ifDefined_leads (inner : TreeLeads whole turns)
    (positive : Bool) (sees : whole.Sees place items) (enough : 4 * items.length + 2 < turns + 1) :
    Leads whole.stop (whole.Reaches (items.length + 1) builder.push)
      (do
        let (test, place) ← nameTest tokens token positive place
        conditional tokens turns token test place)
      ((builder.enter (.line token (.ifDefined positive) [])).complete whole.stop items) := by
  obtain ⟨stretch, line, next, splits⟩ :=
    exists_splitsLine sees builder token (.ifDefined positive)
  rw [splits.complete_eq, finishLine_ifDefined, nameTest, bind_assoc]
  refine (expect_name_matches (by decide : .ident ∉ lineEnds) splits.sees).leads ?_
  rintro ⟨name, there⟩ ⟨_, rest⟩ ⟨same, sees⟩
  subst same
  exact inner.opens_leads splits.goes sees enough

theorem ifTrue_leads (inner : TreeLeads whole turns) (sees : whole.Sees place items)
    (enough : 4 * items.length + 2 < turns + 1) :
    Leads whole.stop (whole.Reaches (items.length + 1) builder.push)
      (do
        let (test, place) ← expression tokens place
        conditional tokens turns token test place)
      ((builder.enter (.line token (.ifTrue []) [])).complete whole.stop items) := by
  obtain ⟨stretch, line, next, splits⟩ :=
    exists_splitsLine sees builder token (.ifTrue [])
  rw [splits.complete_eq, finishLine_ifTrue]
  refine (expression_matches splits.sees).leads ?_
  rintro ⟨test, there⟩ ⟨_, rest⟩ ⟨same, sees⟩
  subst same
  exact inner.opens_leads splits.goes sees enough

theorem define_leads (inner : TreeLeads whole turns) (sees : whole.Sees place items)
    (enough : 4 * items.length + 2 < turns + 1) :
    Leads whole.stop (whole.Reaches (items.length + 1) builder.push)
      (definition tokens turns token place)
      ((builder.enter (.line token .define [])).complete whole.stop items) := by
  obtain ⟨stretch, line, next, splits⟩ := exists_splitsLine sees builder token .define
  have finished : (Builder.finishLine builder token .define line stretch.stop >>= next) = (do
      let (name, parameters) ← Builder.takeHead stretch.stop line
      next (builder.enter (.define token name parameters))) := by
    rw [Builder.finishLine, bind_assoc]
    rfl
  rw [splits.complete_eq, finished]
  exact (inner.definitions splits.sees splits.goes (by omega)).mono
    fun _ _ _ _ reaches => reaches.mono (Nat.le_succ _)

theorem directives_succ (inner : TreeLeads whole turns)
    (takes : builder.step token = builder.directive token)
    (strays : token.endsBranch = true →
      builder.directive token = .error ⟨.strayDirective token.text, token.location⟩)
    (isDirective : token.kind = .directive)
    (sees : whole.Sees place (token :: items)) (enough : 4 * items.length + 2 < turns + 1) :
    Leads whole.stop (whole.Reaches (items.length + 1) builder.push)
      (directive tokens (turns + 1) place) (builder.complete whole.stop (token :: items)) := by
  rw [directive, sees.consume, ok_bind]
  dsimp only
  have starts (purpose : Builder.Purpose)
      (started : builder.directive token = .ok (builder.enter (.line token purpose []))) :
      builder.complete whole.stop (token :: items) =
        (builder.enter (.line token purpose [])).complete whole.stop items :=
    Builder.complete_of_ok (takes.trans started)
  have refused (stray : builder.directive token =
      .error ⟨.strayDirective token.text, token.location⟩) :
      Leads whole.stop (whole.Reaches (items.length + 1) builder.push)
        (refuse (.strayDirective token.text) token.location)
        (builder.complete whole.stop (token :: items)) := by
    rw [Builder.complete_of_error (takes.trans stray)]
    exact .refused _
  cases found : Directive.ofWord? token.text with
  | none => exact refused (by rw [Builder.directive, found])
  | some directive =>
      cases directive with
      | define =>
          rw [starts .define (by rw [Builder.directive, found])]
          exact inner.define_leads sees.succ enough
      | ifTrue =>
          rw [starts (.ifTrue []) (by rw [Builder.directive, found])]
          exact inner.ifTrue_leads sees.succ enough
      | ifDefined =>
          rw [starts (.ifDefined true) (by rw [Builder.directive, found])]
          exact inner.ifDefined_leads true sees.succ enough
      | ifUndefined =>
          rw [starts (.ifDefined false) (by rw [Builder.directive, found])]
          exact inner.ifDefined_leads false sees.succ enough
      | undef =>
          rw [starts .undef (by rw [Builder.directive, found])]
          exact line_leads sees.succ fun _ _ => undefLine_matches
      | inclusion =>
          rw [starts .inclusion (by rw [Builder.directive, found])]
          exact line_leads sees.succ fun _ _ =>
            stringLine_matches _ fun _ _ => rfl
      | error =>
          rw [starts .error (by rw [Builder.directive, found])]
          exact line_leads sees.succ fun _ _ =>
            stringLine_matches _ fun _ _ => rfl
      | warning =>
          rw [starts .warning (by rw [Builder.directive, found])]
          exact line_leads sees.succ fun _ _ =>
            stringLine_matches _ fun _ _ => rfl
      | line =>
          rw [starts .line (by rw [Builder.directive, found])]
          exact line_leads sees.succ fun _ _ => numberLine_matches
      | elseIf => exact refused (strays (Token.endsBranch_of_ofWord? isDirective found (by simp)))
      | otherwise =>
          exact refused (strays (Token.endsBranch_of_ofWord? isDirective found (by simp)))
      | endIf => exact refused (strays (Token.endsBranch_of_ofWord? isDirective found (by simp)))

theorem succ (inner : TreeLeads whole turns) : TreeLeads whole (turns + 1) where
  blocks _ _ _ atBlock ready sees enough := inner.blocks_succ atBlock ready sees enough
  nodes reads takes strays ready sees enough :=
    inner.nodes_succ reads takes strays ready sees enough
  directives takes strays isDirective sees enough :=
    inner.directives_succ takes strays isDirective sees enough
  definitions sees goes enough := inner.definitions_succ sees goes enough
  bodies _ _ _ _ _ _ _ inBody ready sees enough := inner.bodies_succ inBody ready sees enough
  conditionals sees goes enough := inner.conditionals_succ sees goes enough

end TreeLeads

theorem treeLeads (turns : Nat) : TreeLeads whole turns := by
  induction turns with
  | zero =>
      constructor
      all_goals
        intros
        exact absurd ‹_ < 0› (Nat.not_lt_zero _)
  | succ turns inner => exact inner.succ

/-! ## Whole files -/

theorem takeWhile_of_fileEnd {line : List Token} {stop : Token}
    (before : ∀ token ∈ line, token.kind ≠ .fileEnd) (isEnd : stop.kind = .fileEnd)
    (rest : List Token) : (line ++ stop :: rest).takeWhile (·.kind != .fileEnd) = line := by
  rw [List.takeWhile_append_of_pos (by simpa using before),
    List.takeWhile_cons_of_neg (by simp [isEnd])]
  exact List.append_nil line

/-- The tokens before the first end of a file, and that end, which is added if there is none. -/
theorem exists_closed_eq (tokens : List Token) :
    ∃ more, Token.closed tokens = tokens.takeWhile (·.kind != .fileEnd) ++
      (tokens.find? (·.kind == .fileEnd)).getD ⟨.fileEnd, [], .nowhere⟩ :: more := by
  cases found : tokens.find? (·.kind == .fileEnd) with
  | none =>
      have free : ∀ token ∈ tokens, token.kind ≠ .fileEnd := by simpa using found
      have all : tokens.takeWhile (·.kind != .fileEnd) = tokens :=
        List.takeWhile_eq_self_iff.2 fun token mem => by simpa using free token mem
      have unended : ¬ tokens.getLast?.any (·.kind == .fileEnd) = true := by
        intro ends
        obtain ⟨last, isLast, isEnd⟩ := (Option.any_eq_true _ _).1 ends
        exact free last (List.mem_of_getLast? isLast) (by simpa using isEnd)
      rw [all, Token.closed, if_neg unended]
      exact ⟨[], rfl⟩
  | some stop =>
      obtain ⟨ends, line, later, rfl, before⟩ := List.find?_eq_some_iff_append.1 found
      have first := takeWhile_of_fileEnd (by simpa using before) (by simpa using ends) later
      rw [first, Token.closed]
      split
      · exact ⟨later, rfl⟩
      · exact ⟨later ++ [⟨.fileEnd, [], .nowhere⟩], by simp⟩

theorem directive_of_empty {nodes : List Node} {token : Token} (ends : token.endsBranch = true) :
    Builder.step ⟨nodes, []⟩ token = .error ⟨.strayDirective token.text, token.location⟩ := by
  obtain ⟨isDirective, words⟩ := Token.endsBranch_cases ends
  refine (Builder.step_directive (by trivial) isDirective).trans ?_
  rw [Builder.directive]
  rcases words with same | same | same
  all_goals rw [same, Directive.ofWord?_word]

theorem block_matches {items : List Token} {turns : Nat}
    (sees : whole.Sees 0 items) (enough : 4 * items.length < turns) :
    Matches Eq
      (do
        let (nodes, place) ← block tokens turns 0
        let token ← look tokens place
        if token.kind = .fileEnd then .ok nodes
        else refuse (.strayDirective token.text) token.location)
      (Builder.empty.complete whole.stop items) := by
  refine ((treeLeads turns).blocks .empty trivial (.of_none rfl) sees enough).matches
    fun nodes place _ items gathers => ?_
  obtain ⟨rfl, sees, -, stops⟩ := gathers
  dsimp only
  rw [sees.look, ok_bind]
  cases items with
  | nil =>
      have finished : (Builder.mk (nodes.reverse ++ []) []).complete whole.stop [] = .ok nodes := by
        rw [List.append_nil]
        exact congrArg Except.ok (List.reverse_reverse nodes)
      rw [List.headD_nil, if_pos whole.isEnd, Builder.empty, finished]
      exact .done rfl
  | cons token items =>
      have goesOn : token.kind ≠ .fileEnd := sees.head_ne whole.closes
      rw [List.headD_cons, if_neg goesOn, Builder.empty,
        Builder.complete_of_error (directive_of_empty (stops token rfl))]
      exact .refused _

theorem file_matches (tokens : List Token) : Matches Eq (file tokens) (Node.ofTokens tokens) := by
  obtain ⟨more, closed⟩ := exists_closed_eq tokens
  have free : ∀ token ∈ tokens.takeWhile (·.kind != .fileEnd), token.kind ∉ [Token.Kind.fileEnd] :=
    fun token mem => by simpa using List.mem_takeWhile_imp mem
  have isEnd : ((tokens.find? (·.kind == .fileEnd)).getD ⟨.fileEnd, [], .nowhere⟩).kind =
      .fileEnd := by
    cases found : tokens.find? (·.kind == .fileEnd) with
    | none => rfl
    | some stop => simpa using List.find?_some found
  let whole : Stretch (Token.closed tokens) [.fileEnd] :=
    ⟨_, more, List.mem_singleton.2 isEnd, absurd isEnd, List.mem_singleton_self _⟩
  have sees : whole.Sees 0 _ := ⟨closed, free⟩
  have bound := sees.place_lt
  exact block_matches sees (by rw [turns]; omega)

/-- Reading tokens by their places is reading them one by one. -/
theorem file_eq (tokens : List Token) :
    file tokens = (Node.ofTokens tokens).mapError .refused := by
  have outcome := file_matches tokens
  generalize file tokens = walked at outcome
  generalize Node.ofTokens tokens = listed at outcome
  cases outcome with
  | refused error => rfl
  | done same => exact congrArg Except.ok same

/-- What stands after an end of the file is not read. -/
theorem ofTokens_append {tokens : List Token} (ends : ∃ token ∈ tokens, token.kind = .fileEnd)
    (more : List Token) : Node.ofTokens (tokens ++ more) = Node.ofTokens tokens := by
  obtain ⟨stop, found⟩ : ∃ stop, tokens.find? (·.kind == .fileEnd) = some stop := by
    simpa [Option.isSome_iff_exists.symm] using ends
  obtain ⟨isEnd, line, later, rfl, before⟩ := List.find?_eq_some_iff_append.1 found
  have first := takeWhile_of_fileEnd (by simpa using before) (by simpa using isEnd)
  rw [Node.ofTokens, Node.ofTokens, List.find?_append, found, List.append_assoc, List.cons_append,
    first, first]
  rfl

/-- A descent over any tokens looks at no place outside of them, steps over no end of a file, and
ends.  It has the nodes of the tokens, or it is refused for the error of form that they have.  What
stands after an end of the file makes no difference. -/
theorem file_without_fault (tokens : List Token) :
    ((∃ nodes, file tokens = .ok nodes ∧ Node.ofTokens tokens = .ok nodes) ∨
      ∃ error, file tokens = .error (.refused error) ∧ Node.ofTokens tokens = .error error ∧
        error.kind = .form) ∧
      ∀ text location more, file (tokens ++ ⟨.fileEnd, text, location⟩ :: more) =
        file (tokens ++ [⟨.fileEnd, text, location⟩]) := by
  have well : WellRead (fun nodes => ∀ node ∈ nodes, node.MadeFrom ⟨fun _ => True, fun _ => True⟩)
      (Node.ofTokens tokens) :=
    Node.wellRead_ofTokens fun _ _ => ⟨fun _ => trivial, fun _ => trivial⟩
  refine ⟨?_, fun text location more => ?_⟩
  · rw [file_eq]
    cases read : Node.ofTokens tokens with
    | ok nodes => exact .inl ⟨nodes, rfl, rfl⟩
    | error error =>
        rw [read] at well
        exact .inr ⟨error, rfl, rfl, well⟩
  · rw [file_eq, file_eq, ← List.singleton_append, ← List.append_assoc,
      ofTokens_append ⟨_, List.mem_append_right _ (List.mem_singleton_self _), rfl⟩]

end Descent

end ScopedMacros
