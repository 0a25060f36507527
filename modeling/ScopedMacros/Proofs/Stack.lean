import Mathlib.Control.Monad.Basic
import Mathlib.Data.List.TakeWhile
import ScopedMacros.Node.Form
import ScopedMacros.Proofs.Item

/-!
# Reading on top of other constructs

What a builder makes of the tokens of a construct does not depend on the constructs around it.  So a
directive line is read in a source as it is read alone.
-/

namespace ScopedMacros

namespace Builder

/-- The constructs of a builder on top of those of another one. -/
def onto (base : Builder) (nodes : List Node) : List (Frame × List Node) → Builder
  | [] => ⟨nodes ++ base.nodes, base.frames⟩
  | (frame, before) :: rest =>
      ⟨nodes, (frame, (base.onto before rest).nodes) :: (base.onto before rest).frames⟩

def stack (base builder : Builder) : Builder :=
  base.onto builder.nodes builder.frames

variable (base : Builder)

@[simp]
theorem stack_push (builder : Builder) (node : Node) :
    base.stack (builder.push node) = (base.stack builder).push node := by
  obtain ⟨nodes, frames⟩ := builder
  cases frames <;> rfl

@[simp]
theorem stack_enter (builder : Builder) (frame : Frame) :
    base.stack (builder.enter frame) = (base.stack builder).enter frame := rfl

theorem stack_cons (nodes before : List Node) (frame : Frame) (rest : List (Frame × List Node)) :
    base.stack ⟨nodes, (frame, before) :: rest⟩ =
      ⟨nodes, (frame, (base.stack ⟨before, rest⟩).nodes) :: (base.stack ⟨before, rest⟩).frames⟩ :=
  rfl

theorem leaf_stack (builder : Builder) (token : Token) :
    (base.stack builder).leaf token = base.stack <$> builder.leaf token := by
  unfold leaf
  split <;> simp

theorem finishLine_stack (outer : Builder) (word : Token) (purpose : Purpose) (tokens : List Token)
    (stop : Token) :
    finishLine (base.stack outer) word purpose tokens stop =
      base.stack <$> finishLine outer word purpose tokens stop := by
  cases purpose <;> simp only [finishLine, map_bind, Except.map_ok, stack_push, stack_enter]

/-- A call is opened by the last node, which is the same unless there is none on top. -/
theorem call?_stack (nodes : List Node) (frame : Frame × List Node)
    (rest : List (Frame × List Node)) :
    (base.stack ⟨nodes, frame :: rest⟩).call? =
      (Builder.mk nodes (frame :: rest)).call?.map base.stack := by
  cases nodes with
  | nil => rfl
  | cons node rest => cases node <;> rfl

theorem argument_stack (nodes : List Node) (outer : Builder) (location : Location) (name : Bytes)
    (depth : Nat) (arguments : List (List Node)) (token : Token) :
    argument nodes (base.stack outer) location name depth arguments token =
      base.stack <$> argument nodes outer location name depth arguments token := by
  let inside (depth : Nat) : Builder :=
    ⟨nodes, (.call location name depth arguments, outer.nodes) :: outer.frames⟩
  have opened (depth : Nat) : (Builder.mk nodes ((.call location name depth arguments,
      (base.stack outer).nodes) :: (base.stack outer).frames)).call? =
      (inside depth).call?.map base.stack :=
    call?_stack base nodes (.call location name depth arguments, outer.nodes) outer.frames
  unfold argument
  dsimp only
  split
  · rfl
  · rfl
  · rfl
  · simp
  · exact leaf_stack base (inside _) token
  · rename_i depth _ _ _
    rw [opened depth]
    cases (inside depth).call? with
    | none => exact leaf_stack base (inside (depth + 1)) token
    | some inner => rfl
  · exact leaf_stack base (inside _) token

/-- A directive line of a conditional ends the branch on top. -/
theorem directive_stack (nodes : List Node) (frame : Frame × List Node)
    (rest : List (Frame × List Node)) (word : Token) :
    (base.stack ⟨nodes, frame :: rest⟩).directive word =
      base.stack <$> (Builder.mk nodes (frame :: rest)).directive word := by
  obtain ⟨frame, before⟩ := frame
  unfold directive
  cases Directive.ofWord? word.text with
  | none => rfl
  | some directive => cases directive <;> cases frame <;> rfl

theorem plain_stack (nodes : List Node) (frame : Frame × List Node)
    (rest : List (Frame × List Node)) (token : Token) :
    (base.stack ⟨nodes, frame :: rest⟩).plain token =
      base.stack <$> (Builder.mk nodes (frame :: rest)).plain token := by
  unfold plain
  split
  · exact directive_stack base nodes frame rest token
  · rw [call?_stack]
    cases (Builder.mk nodes (frame :: rest)).call? with
    | none => exact leaf_stack base _ token
    | some inner => rfl
  · exact leaf_stack base _ token

/-- Inside a construct, a token is read as it is without the constructs around it. -/
theorem step_stack (nodes : List Node) (frame : Frame × List Node)
    (rest : List (Frame × List Node)) (token : Token) :
    (base.stack ⟨nodes, frame :: rest⟩).step token =
      base.stack <$> (Builder.mk nodes (frame :: rest)).step token := by
  obtain ⟨frame, before⟩ := frame
  have plain := plain_stack base nodes (frame, before) rest token
  cases frame with
  | line word purpose tokens =>
      simp only [step, stack_cons]
      split
      · exact finishLine_stack base ⟨before, rest⟩ word purpose tokens.reverse token
      · rfl
  | call location name depth arguments =>
      exact argument_stack base nodes ⟨before, rest⟩ location name depth arguments token
  | define word name parameters =>
      simp only [step, stack_cons]
      split
      · exact congrArg Except.ok (stack_push base ⟨before, rest⟩ _).symm
      · exact plain
  | branch word location test earlier => exact plain
  | otherwise location last earlier => exact plain

end Builder

/-! ## Directive lines -/

/-- The directive that a node is made by, if that is a single line. -/
def Node.directive? : Node → Option Directive
  | .define _ _ _ _ => some .define
  | .undef _ _ => some .undef
  | .inclusion _ _ => some .inclusion
  | .error _ _ => some .error
  | .warning _ _ => some .warning
  | .line _ _ _ => some .line
  | _ => none

namespace Builder

/-- What a directive line does that is not part of a conditional. -/
def purpose? : Directive → Option Purpose
  | .define => some .define
  | .undef => some .undef
  | .inclusion => some .inclusion
  | .error => some .error
  | .warning => some .warning
  | .line => some .line
  | _ => none

/-- The constructs that are open inside a single directive line. -/
def Lining (directive : Directive) : List (Frame × List Node) → Prop
  | [(.line _ purpose _, before)] => purpose? directive = some purpose ∧ before = []
  | [(.define _ _ _, before)] => directive = .define ∧ before = []
  | (.call _ _ _ _, _) :: rest => Lining directive rest
  | _ => False

variable {directive : Directive} {builder next : Builder} {token : Token}

theorem frames_leaf (taken : builder.leaf token = .ok next) : next.frames = builder.frames := by
  unfold leaf at taken
  split at taken
  case h_9 => cases taken
  all_goals
    cases taken
    rfl

theorem frames_call? (opened : builder.call? = some next) :
    ∃ location name before, next.frames = (.call location name 0 [], before) :: builder.frames := by
  unfold call? at opened
  split at opened
  · cases opened
    exact ⟨_, _, _, rfl⟩
  · cases opened

/-- A token of an argument stays in the call, opens another one in it, or ends it. -/
theorem lining_argument {nodes : List Node} (outer : Builder) {location : Location} {name : Bytes}
    {depth : Nat} {arguments : List (List Node)} (lining : Lining directive outer.frames)
    (taken : argument nodes outer location name depth arguments token = .ok next) :
    Lining directive next.frames := by
  unfold argument at taken
  dsimp only at taken
  split at taken
  · cases taken
  · cases taken
  · cases taken
    exact lining
  · cases taken
    exact lining
  · rw [frames_leaf taken]
    exact lining
  · split at taken
    · rename_i opened
      cases taken
      obtain ⟨_, _, _, frames⟩ := frames_call? opened
      rw [frames]
      exact lining
    · rw [frames_leaf taken]
      exact lining
  · rw [frames_leaf taken]
    exact lining

theorem frames_plain (inLine : token.kind ≠ .directive) (taken : builder.plain token = .ok next) :
    next.frames = builder.frames ∨ ∃ location name before,
      next.frames = (.call location name 0 [], before) :: builder.frames := by
  unfold plain at taken
  split at taken
  · contradiction
  · split at taken
    · rename_i opened
      cases taken
      exact .inr (frames_call? opened)
    · exact .inl (frames_leaf taken)
  · exact .inl (frames_leaf taken)

theorem kind_ne_of_inside {kind : Token.Kind} (inside : kind.isInline = true ∨ kind = .body) :
    kind ≠ .directive ∧ kind ≠ .lineEnd := by
  constructor
  · rintro rfl
    simp [Token.Kind.isInline] at inside
  · rintro rfl
    simp [Token.Kind.isInline] at inside

/-- The tokens of a directive line keep the builder in the line. -/
theorem lining_step (lining : Lining directive builder.frames)
    (inside : token.kind.isInline = true ∨ token.kind = .body)
    (taken : builder.step token = .ok next) : Lining directive next.frames := by
  obtain ⟨inLine, notEnd⟩ := kind_ne_of_inside inside
  obtain ⟨nodes, frames⟩ := builder
  change Lining directive frames at lining
  unfold Lining at lining
  split at lining
  · rename_i word purpose tokens before
    obtain ⟨found, rfl⟩ := lining
    dsimp only [step] at taken
    split at taken
    · rename_i ends
      unfold endsLine at ends
      split at ends
      · contradiction
      · -- The head of a definition ends where its body starts.
        obtain ⟨head, _, taken⟩ := bind_eq_ok_iff.1 taken
        cases taken
        cases directive <;> cases found
        exact ⟨rfl, rfl⟩
      · cases ends
    · cases taken
      exact ⟨found, rfl⟩
  · rename_i word name parameters before
    obtain ⟨rfl, rfl⟩ := lining
    simp only [step, if_neg notEnd] at taken
    rcases frames_plain inLine taken with same | ⟨_, _, _, frames⟩
    · rw [same]
      exact ⟨rfl, rfl⟩
    · rw [frames]
      exact ⟨rfl, rfl⟩
  · exact lining_argument ⟨_, _⟩ lining taken
  · cases lining

/-- The end of a directive line makes one node of it. -/
theorem step_lineEnd (lining : Lining directive builder.frames) (isEnd : token.kind = .lineEnd)
    (taken : builder.step token = .ok next) :
    ∃ node, next = ⟨[node], []⟩ ∧ node.directive? = some directive := by
  obtain ⟨nodes, frames⟩ := builder
  change Lining directive frames at lining
  unfold Lining at lining
  split at lining
  · rename_i word purpose tokens before
    obtain ⟨found, rfl⟩ := lining
    simp only [step, isEnd, endsLine, if_true] at taken
    cases directive <;> cases found
    · -- A definition without a body is no definition.
      obtain ⟨head, taken, _⟩ := bind_eq_ok_iff.1 taken
      obtain ⟨name, _, taken⟩ := bind_eq_ok_iff.1 taken
      obtain ⟨parameters, _, taken⟩ := bind_eq_ok_iff.1 taken
      simp [isEnd] at taken
    all_goals
      obtain ⟨_, _, taken⟩ := bind_eq_ok_iff.1 taken
      obtain ⟨_, _, taken⟩ := bind_eq_ok_iff.1 taken
      cases taken
      exact ⟨_, rfl, rfl⟩
  · obtain ⟨rfl, rfl⟩ := lining
    simp only [step, isEnd, if_true] at taken
    cases taken
    exact ⟨_, rfl, rfl⟩
  · simp [step, argument, isEnd] at taken
  · cases lining

theorem step_stack_of_lining (base : Builder) (lining : Lining directive builder.frames) :
    (base.stack builder).step token = base.stack <$> builder.step token := by
  obtain ⟨nodes, frames⟩ := builder
  cases frames with
  | nil => cases lining
  | cons frame rest => exact step_stack base nodes frame rest token

/-- The tokens of a directive line are read in a source as they are read alone. -/
theorem foldlM_stack (base : Builder) {tokens : List Token}
    (lining : Lining directive builder.frames)
    (inside : ∀ token ∈ tokens, token.kind.isInline = true ∨ token.kind = .body)
    (taken : tokens.foldlM step (base.stack builder) = .ok next) :
    ∃ alone, tokens.foldlM step builder = .ok alone ∧ next = base.stack alone ∧
      Lining directive alone.frames := by
  induction tokens generalizing builder with
  | nil =>
      cases taken
      exact ⟨builder, rfl, rfl, lining⟩
  | cons token rest ih =>
      have here := inside token (by simp)
      rw [List.foldlM_cons, step_stack_of_lining base lining] at taken
      rw [List.foldlM_cons]
      cases stepped : builder.step token with
      | error error =>
          rw [stepped] at taken
          cases taken
      | ok middle =>
          rw [stepped] at taken
          exact ih (lining_step lining here stepped)
            (fun other member => inside other (by simp [member])) taken

theorem directive_of_purpose? {purpose : Purpose} {word : Token}
    (found : Directive.ofWord? word.text = some directive) (simple : purpose? directive = some purpose)
    (builder : Builder) : builder.directive word = .ok (builder.enter (.line word purpose [])) := by
  unfold Builder.directive
  rw [found]
  cases directive <;> cases simple <;> rfl

theorem step_of_atBlock (block : AtBlock builder.frames) (token : Token) :
    builder.step token = builder.plain token := by
  obtain ⟨nodes, frames⟩ := builder
  cases frames with
  | nil => rfl
  | cons entry outer =>
      obtain ⟨frame, before⟩ := entry
      cases frame with
      | branch => rfl
      | otherwise => rfl
      | _ => cases block

theorem step_directive {word : Token} (block : AtBlock builder.frames)
    (isDirective : word.kind = .directive) : builder.step word = builder.directive word := by
  rw [step_of_atBlock block]
  unfold plain
  rw [isDirective]

/-! ## Whole sources -/

theorem call?_stack_of_closed {base : Builder} (closed : base.call? = none) (builder : Builder) :
    (base.stack builder).call? = builder.call?.map base.stack := by
  obtain ⟨nodes, frames⟩ := builder
  cases frames with
  | cons frame rest => exact call?_stack base nodes frame rest
  | nil =>
      cases nodes with
      | nil => exact closed
      | cons node rest => cases node <;> rfl

/-- What can be read in a source can be read in a block whose last node opens no call. -/
theorem step_stack_of_ok {base : Builder} (block : AtBlock base.frames) (closed : base.call? = none)
    (taken : builder.step token = .ok next) :
    (base.stack builder).step token = .ok (base.stack next) := by
  obtain ⟨nodes, frames⟩ := builder
  cases frames with
  | cons frame rest =>
      rw [step_stack, taken]
      rfl
  | nil =>
      have onLeaf : (Builder.mk nodes []).leaf token = .ok next →
          (base.stack ⟨nodes, []⟩).leaf token = .ok (base.stack next) := by
        intro taken
        rw [leaf_stack, taken]
        rfl
      have alone : AtBlock (Builder.mk nodes []).frames := trivial
      have onTop : AtBlock (base.stack ⟨nodes, []⟩).frames := block
      rw [step_of_atBlock alone] at taken
      rw [step_of_atBlock onTop]
      unfold plain at taken ⊢
      split at taken
      · -- A directive that closes a branch would be stray.
        unfold Builder.directive at taken ⊢
        dsimp only at taken ⊢
        cases found : Directive.ofWord? token.text with
        | none =>
            rw [found] at taken
            cases taken
        | some directive =>
            rw [found] at taken
            cases directive <;> cases taken <;> rfl
      · rw [call?_stack_of_closed closed]
        split at taken
        · next opened =>
            cases taken
            rw [opened]
            rfl
        · next unopened =>
            rw [unopened]
            exact onLeaf taken
      · exact onLeaf taken

theorem foldlM_stack_of_ok {base : Builder} (block : AtBlock base.frames)
    (closed : base.call? = none) {tokens : List Token}
    (taken : tokens.foldlM step builder = .ok next) :
    tokens.foldlM step (base.stack builder) = .ok (base.stack next) := by
  induction tokens generalizing builder with
  | nil =>
      cases taken
      rfl
  | cons token rest ih =>
      rw [List.foldlM_cons] at taken ⊢
      obtain ⟨middle, first, taken⟩ := bind_eq_ok_iff.1 taken
      rw [step_stack_of_ok block closed first]
      exact ih taken

end Builder

/-- A directive line stands before the end of its file. -/
theorem Item.kind_ne_fileEnd {word stop : Token} {arguments : List Token}
    (proper : (Item.line word arguments stop).Proper) :
    ∀ token ∈ word :: arguments ++ [stop], token.kind ≠ .fileEnd := by
  obtain ⟨directive, inside, isEnd⟩ := proper
  intro token member kind
  rcases List.mem_append.1 member with member | member
  · rcases List.mem_cons.1 member with rfl | member
    · simp [directive] at kind
    · rcases inside token member with inline | body
      · simp [kind, Token.Kind.isInline] at inline
      · simp [kind] at body
  · simp [List.mem_singleton.1 member, isEnd] at kind

namespace Node

/-- The nodes of tokens that hold no end of a file. -/
theorem ofTokens_eq {tokens : List Token} (inside : ∀ token ∈ tokens, token.kind ≠ .fileEnd) :
    ofTokens tokens = tokens.foldlM Builder.step .empty >>= fun builder =>
      builder.finish ⟨.fileEnd, [], .nowhere⟩ := by
  have none : tokens.find? (·.kind == .fileEnd) = none := by
    simpa using inside
  have all : tokens.takeWhile (·.kind != .fileEnd) = tokens :=
    List.takeWhile_eq_self_iff.2 (by simpa using inside)
  rw [ofTokens, none, all]
  rfl

end Node

namespace Builder

variable {directive : Directive} {next : Builder}

/-- A directive line outside conditionals adds one node to a block, the node that it is alone. -/
theorem exists_node_of_line {base : Builder} {word stop : Token} {arguments : List Token}
    {purpose : Purpose} (block : AtBlock base.frames)
    (proper : (Item.line word arguments stop).Proper)
    (found : Directive.ofWord? word.text = some directive)
    (simple : purpose? directive = some purpose)
    (taken : (word :: arguments ++ [stop]).foldlM step base = .ok next) :
    ∃ node, next = base.push node ∧ node.directive? = some directive ∧
      Node.ofTokens (word :: arguments ++ [stop]) = .ok [node] := by
  obtain ⟨isDirective, inside, isEnd⟩ := id proper
  let start := empty.enter (.line word purpose [])
  have lining : Lining directive start.frames := ⟨simple, rfl⟩
  have opened : ∀ builder : Builder, AtBlock builder.frames →
      builder.step word = .ok (builder.stack start) :=
    fun builder block => (step_directive block isDirective).trans
      (directive_of_purpose? found simple builder)
  rw [List.cons_append, List.foldlM_cons, opened base block] at taken
  obtain ⟨middle, line, ended⟩ := bind_eq_ok_iff.1 (List.foldlM_append.symm.trans taken)
  obtain ⟨alone, readAlone, rfl, lining⟩ := foldlM_stack base lining inside line
  have last : (base.stack alone).step stop = base.stack <$> alone.step stop :=
    step_stack_of_lining base lining
  rw [List.foldlM_cons, last] at ended
  cases closed : alone.step stop with
  | error error =>
      rw [closed] at ended
      cases ended
  | ok whole =>
      obtain ⟨node, rfl, form⟩ := step_lineEnd lining isEnd closed
      rw [closed] at ended
      have pushed : Except.ok (base.push node) = Except.ok next := ended
      have fold : (word :: arguments ++ [stop]).foldlM step empty = .ok ⟨[node], []⟩ := by
        have first : empty.step word = .ok start := opened empty trivial
        rw [List.cons_append, List.foldlM_cons, first]
        change (arguments ++ [stop]).foldlM step start = _
        rw [List.foldlM_append, readAlone]
        change [stop].foldlM step alone = _
        rw [List.foldlM_cons, closed]
        rfl
      refine ⟨node, (Except.ok.inj pushed).symm, form, ?_⟩
      rw [Node.ofTokens_eq (Item.kind_ne_fileEnd proper), fold]
      rfl

end Builder

end ScopedMacros
