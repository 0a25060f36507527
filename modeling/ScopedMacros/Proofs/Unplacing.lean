import ScopedMacros.Proofs.Rebuilding
import ScopedMacros.Proofs.Relocation

/-!
# Building without places

A builder never looks at a place.  One that has forgotten all places, of its nodes and of its open
constructs, takes a token without a place whenever the builder itself takes the token, and the
results are again the same up to places.
-/

namespace ScopedMacros

/-! ## Answers -/

/-- Both fail, or both succeed with related answers. -/
structure Agrees {α β : Type} (related : α → β → Prop) (first : Except Error α)
    (second : Except Error β) : Prop where
  forth : FollowsWith related first second
  back : FollowsWith (fun other answer => related answer other) second first

namespace Agrees

variable {α β γ δ : Type} {related : α → β → Prop} {after : γ → δ → Prop}

theorem ok {answer : α} {other : β} (holds : related answer other) :
    Agrees related (.ok answer) (.ok other) :=
  ⟨.ok holds, .ok holds⟩

theorem error (failure other : Error) : Agrees related (.error failure) (.error other) :=
  ⟨.error _ _, .error _ _⟩

theorem bind {first : Except Error α} {second : Except Error β} {next : α → Except Error γ}
    {other : β → Except Error δ} (agrees : Agrees related first second)
    (further : ∀ answer twin, related answer twin → Agrees after (next answer) (other twin)) :
    Agrees after (first >>= next) (second >>= other) where
  forth := agrees.forth.bind fun answer twin holds => (further answer twin holds).forth
  back := agrees.back.bind fun twin answer holds => (further answer twin holds).back

theorem of_follows {related : α → α → Prop} {first second : Except Error α}
    (symm : ∀ answer other, related answer other → related other answer)
    (forth : FollowsWith related first second) (back : FollowsWith related second first) :
    Agrees related first second where
  forth := forth
  back := fun other done => by
    obtain ⟨answer, answered, holds⟩ := back other done
    exact ⟨answer, answered, symm _ _ holds⟩

end Agrees

/-! ## Tokens -/

namespace Token

theorem Same.symm {token other : Token} (same : token.Same other) : other.Same token :=
  ⟨same.kind.symm, same.text.symm⟩

theorem AllSame.symm {tokens others : List Token} (same : AllSame tokens others) :
    AllSame others tokens :=
  same.flip.imp fun _ _ => Same.symm

theorem same_unplaced (token : Token) : token.Same token.unplaced :=
  ⟨rfl, rfl⟩

theorem allSame_unplaced (tokens : List Token) : AllSame tokens (tokens.map unplaced) :=
  List.forall₂_map_right_iff.2 (List.forall₂_same.2 fun token _ => token.same_unplaced)

end Token

/-! ## Nodes -/

theorem Arith.unplaced_unplaced (tree : Arith) : tree.unplaced.unplaced = tree.unplaced := by
  induction tree with
  | int | ident => rfl
  | neg _ operand ih | complement _ operand ih => simp only [unplaced, ih]
  | binary _ operation left right ihLeft ihRight => simp only [unplaced, ihLeft, ihRight]

@[simp]
theorem Test.unplaced_unplaced (test : Test) : test.unplaced.unplaced = test.unplaced := by
  induction test with
  | literal | defined => rfl
  | not _ operand ih => simp only [unplaced, ih]
  | both _ left right ihLeft ihRight | either _ left right ihLeft ihRight =>
      simp only [unplaced, ihLeft, ihRight]
  | compare _ relation left right => simp only [unplaced, Arith.unplaced_unplaced]

namespace Node

mutual

/-- The node with no part at any place. -/
def unplaced : Node → Node
  | .ident _ name => .ident .nowhere name
  | .call _ name arguments => .call .nowhere name (unplacedArguments arguments)
  | .define _ name parameters body => .define .nowhere name parameters (unplacedAll body)
  | .undef _ name => .undef .nowhere name
  | .inclusion _ path => .inclusion .nowhere path
  | .cond _ test yes no => .cond .nowhere test.unplaced (unplacedAll yes) (unplacedAll no)
  | .error _ message => .error .nowhere message
  | .warning _ message => .warning .nowhere message
  | .space _ content => .space .nowhere content
  | .text _ content => .text .nowhere content
  | .seq _ nodes => .seq .nowhere (unplacedAll nodes)
  | .line _ file number => .line .nowhere file number
  | .currentLine _ => .currentLine .nowhere
  | .currentFile _ => .currentFile .nowhere

def unplacedAll : List Node → List Node
  | [] => []
  | node :: rest => unplaced node :: unplacedAll rest

def unplacedArguments : List (List Node) → List (List Node)
  | [] => []
  | argument :: rest => unplacedAll argument :: unplacedArguments rest

end

@[simp]
theorem unplacedAll_eq_map (nodes : List Node) : unplacedAll nodes = nodes.map unplaced := by
  induction nodes with
  | nil => rfl
  | cons node rest ih => rw [unplacedAll, ih, List.map_cons]

@[simp]
theorem unplacedArguments_eq_map (arguments : List (List Node)) :
    unplacedArguments arguments = arguments.map (List.map unplaced) := by
  induction arguments with
  | nil => rfl
  | cons argument rest ih => rw [unplacedArguments, ih, unplacedAll_eq_map, List.map_cons]

mutual

@[simp]
theorem unplaced_unplaced : ∀ node : Node, node.unplaced.unplaced = node.unplaced
  | .call _ name arguments => by
      rw [unplaced, unplaced, unplacedArguments_unplaced]
  | .define _ name parameters body => by rw [unplaced, unplaced, unplacedAll_unplaced]
  | .cond _ test yes no => by
      rw [unplaced, unplaced, unplacedAll_unplaced, unplacedAll_unplaced, Test.unplaced_unplaced]
  | .seq _ nodes => by rw [unplaced, unplaced, unplacedAll_unplaced]
  | .ident _ _ | .undef _ _ | .inclusion _ _ | .error _ _ | .warning _ _ | .space _ _ | .text _ _
  | .line _ _ _ | .currentLine _ | .currentFile _ => rfl

theorem unplacedAll_unplaced :
    ∀ nodes : List Node, unplacedAll (unplacedAll nodes) = unplacedAll nodes
  | [] => rfl
  | node :: rest => by
      rw [unplacedAll, unplacedAll, unplaced_unplaced, unplacedAll_unplaced]

theorem unplacedArguments_unplaced : ∀ arguments : List (List Node),
    unplacedArguments (unplacedArguments arguments) = unplacedArguments arguments
  | [] => rfl
  | argument :: rest => by
      rw [unplacedArguments, unplacedArguments, unplacedAll_unplaced, unplacedArguments_unplaced]

end

@[simp]
theorem unplaced_comp_unplaced : unplaced ∘ unplaced = unplaced :=
  funext unplaced_unplaced

@[simp]
theorem isSpace_unplaced (node : Node) : node.unplaced.isSpace = node.isSpace := by
  cases node <;> rfl

@[simp]
theorem trim_map_unplaced (nodes : List Node) :
    trim (nodes.map unplaced) = (trim nodes).map unplaced := by
  have same : isSpace ∘ unplaced = isSpace := funext isSpace_unplaced
  simp [trim, List.dropWhile_map, same, ← List.map_reverse]

end Node

/-! ## Builders -/

/-- The branch with no part at any place. -/
def Branch.unplaced (branch : Branch) : Branch :=
  ⟨.nowhere, branch.test.unplaced, branch.nodes.map Node.unplaced⟩

@[simp]
theorem Branch.unplaced_unplaced (branch : Branch) : branch.unplaced.unplaced = branch.unplaced := by
  simp [unplaced]

@[simp]
theorem Branch.unplaced_comp_unplaced : unplaced ∘ unplaced = unplaced :=
  funext unplaced_unplaced

theorem Branch.unplaced_chain (last : Branch) (earlier : List Branch) (no : List Node) :
    (last.chain earlier no).unplaced =
      (last.unplaced.chain (earlier.map unplaced) (no.map Node.unplaced)).unplaced := by
  have first : (last.node no).unplaced = (last.unplaced.node (no.map Node.unplaced)).unplaced := by
    simp [node, Node.unplaced, unplaced]
  unfold chain
  generalize last.node no = inner at first
  generalize last.unplaced.node (no.map Node.unplaced) = other at first
  induction earlier generalizing inner other with
  | nil => exact first
  | cons branch _ ih => exact ih _ _ (by simp [node, Node.unplaced, unplaced, first])

namespace Builder

/-- The purpose with no part at any place. -/
def Purpose.unplaced : Purpose → Purpose
  | .ifTrue earlier => .ifTrue (earlier.map Branch.unplaced)
  | .otherwise last earlier => .otherwise last.unplaced (earlier.map Branch.unplaced)
  | .endIf last earlier no =>
      .endIf last.unplaced (earlier.map Branch.unplaced) (no.map Node.unplaced)
  | purpose => purpose

/-- The open construct with no part at any place. -/
def Frame.unplaced : Frame → Frame
  | .call _ name depth arguments => .call .nowhere name depth (arguments.map (List.map Node.unplaced))
  | .define word name parameters => .define word.unplaced name parameters
  | .line word purpose tokens => .line word.unplaced purpose.unplaced (tokens.map Token.unplaced)
  | .branch word _ test earlier =>
      .branch word .nowhere test.unplaced (earlier.map Branch.unplaced)
  | .otherwise _ last earlier =>
      .otherwise .nowhere last.unplaced (earlier.map Branch.unplaced)

/-- Open constructs, and the nodes before each, with no part at any place. -/
def unplacedFrames (frames : List (Frame × List Node)) : List (Frame × List Node) :=
  frames.map (Prod.map Frame.unplaced (List.map Node.unplaced))

/-- The builder with no part at any place. -/
def unplaced (builder : Builder) : Builder :=
  ⟨builder.nodes.map Node.unplaced, unplacedFrames builder.frames⟩

@[simp]
theorem Purpose.unplaced_unplaced (purpose : Purpose) :
    purpose.unplaced.unplaced = purpose.unplaced := by
  cases purpose <;> simp [unplaced]

@[simp]
theorem Frame.unplaced_unplaced (frame : Frame) : frame.unplaced.unplaced = frame.unplaced := by
  cases frame <;> simp [unplaced, Token.unplaced]

@[simp]
theorem unplacedFrames_unplaced (frames : List (Frame × List Node)) :
    unplacedFrames (unplacedFrames frames) = unplacedFrames frames := by
  simp [unplacedFrames]

@[simp]
theorem unplaced_unplaced (builder : Builder) : builder.unplaced.unplaced = builder.unplaced := by
  simp [unplaced]

/-! ## Tokens outside directive lines -/

/-- Both fail, or both succeed with the same builder up to places. -/
abbrev Agree (first second : Except Error Builder) : Prop :=
  Agrees (fun builder other => builder.unplaced = other.unplaced) first second

variable (builder : Builder) (token : Token)

theorem unplaced_push {node other : Node} (same : node.unplaced = other.unplaced) :
    (builder.push node).unplaced = (builder.unplaced.push other).unplaced := by
  simp [push, unplaced, same]

theorem unplaced_cons_eq (nodes before : List Node) (frame : Frame)
    (frames : List (Frame × List Node)) :
    (Builder.mk nodes ((frame, before) :: frames)).unplaced =
      ⟨nodes.map Node.unplaced,
        (frame.unplaced, before.map Node.unplaced) :: unplacedFrames frames⟩ := rfl

theorem unplaced_cons {frame other : Frame} (same : frame.unplaced = other.unplaced)
    (nodes before : List Node) (frames : List (Frame × List Node)) :
    (Builder.mk nodes ((frame, before) :: frames)).unplaced =
      (Builder.mk (nodes.map Node.unplaced)
        ((other, before.map Node.unplaced) :: unplacedFrames frames)).unplaced := by
  simp [unplaced_cons_eq, same]

theorem unplaced_ofName : (ofName token).unplaced = (ofName token.unplaced).unplaced := by
  obtain ⟨kind, text, location⟩ := token
  change (ofName ⟨kind, text, location⟩).unplaced = (ofName ⟨kind, text, .nowhere⟩).unplaced
  simp only [ofName, apply_ite Node.unplaced, Node.unplaced]

theorem leaf_agree : Agree (builder.leaf token) (builder.unplaced.leaf token.unplaced) := by
  simp only [leaf, Token.unplaced]
  split
  · exact .ok (builder.unplaced_push (unplaced_ofName token))
  · exact .ok (builder.unplaced_push rfl)
  all_goals first
    | exact .ok (builder.unplaced_push rfl)
    | exact .error _ _

theorem call?_unplaced : builder.unplaced.call? = builder.call?.map unplaced := by
  obtain ⟨nodes, frames⟩ := builder
  cases nodes with
  | nil => rfl
  | cons node before => cases node <;> rfl

/-- A parenthesis starts a call in both builders, or is taken otherwise in both. -/
theorem callOr_agree {first second : Except Error Builder} (otherwise : Agree first second) :
    Agree
      (match builder.call? with
      | some inner => .ok inner
      | none => first)
      (match builder.unplaced.call? with
      | some inner => .ok inner
      | none => second) := by
  rw [call?_unplaced]
  cases builder.call? with
  | none => exact otherwise
  | some inner => exact .ok inner.unplaced_unplaced.symm

theorem argument_agree (nodes : List Node) (outer : Builder) (location : Location) (name : Bytes)
    (depth : Nat) (arguments : List (List Node)) :
    Agree (argument nodes outer location name depth arguments token)
      (argument (nodes.map Node.unplaced) outer.unplaced .nowhere name depth
        (arguments.map (List.map Node.unplaced)) token.unplaced) := by
  have inside : ∀ depth,
      (Builder.mk nodes ((.call location name depth arguments, outer.nodes) :: outer.frames)).unplaced =
        ⟨nodes.map Node.unplaced, (.call .nowhere name depth (arguments.map (List.map Node.unplaced)),
          outer.unplaced.nodes) :: outer.unplaced.frames⟩ := fun depth => rfl
  unfold argument
  dsimp only
  simp only [← inside, show token.unplaced.kind = token.kind from rfl]
  split
  · exact .error _ _
  · exact .error _ _
  · exact .ok (unplaced_cons (by simp [Frame.unplaced]) _ _ _)
  · refine .ok (outer.unplaced_push ?_)
    simp only [Node.unplaced, List.isEmpty_map]
    split <;> simp
  · exact leaf_agree _ _
  · exact callOr_agree _ (leaf_agree _ _)
  · exact leaf_agree _ _

/-! ## Directive lines -/

section

variable {stop halt word twin : Token} {tokens others : List Token}

theorem takeName_agree (what : Expectation) (same : Token.AllSame tokens others) :
    Agrees (fun taken twin => taken.1.Same twin.1 ∧ Token.AllSame taken.2 twin.2)
      (takeName stop what tokens) (takeName halt what others) :=
  .of_follows (fun _ _ holds => ⟨holds.1.symm, holds.2.symm⟩) (takeName_follows what same)
    (takeName_follows what same.symm)

theorem takeString_agree (what : Expectation) (same : Token.AllSame tokens others) :
    Agrees (fun taken twin => taken.1 = twin.1 ∧ Token.AllSame taken.2 twin.2)
      (takeString stop what tokens) (takeString halt what others) :=
  .of_follows (fun _ _ holds => ⟨holds.1.symm, holds.2.symm⟩) (takeString_follows what same)
    (takeString_follows what same.symm)

theorem takeLine_agree (same : Token.AllSame tokens others) :
    Agrees (fun taken twin => taken.1 = twin.1 ∧ taken.2.1 = twin.2.1 ∧
        Token.AllSame taken.2.2 twin.2.2)
      (takeLine stop tokens) (takeLine halt others) :=
  .of_follows (fun _ _ holds => ⟨holds.1.symm, holds.2.1.symm, holds.2.2.symm⟩)
    (takeLine_follows same) (takeLine_follows same.symm)

theorem takeHead_agree (stops : stop.Same halt) (same : Token.AllSame tokens others) :
    Agrees Eq (takeHead stop tokens) (takeHead halt others) :=
  .of_follows (fun _ _ => Eq.symm) (takeHead_follows stops same)
    (takeHead_follows stops.symm same.symm)

theorem endLine_agree (stops : stop.Same halt) (same : Token.AllSame tokens others) :
    Agrees (fun _ _ => True) (endLine word stop tokens) (endLine twin halt others) :=
  .of_follows (fun _ _ _ => trivial) (endLine_follows stops same)
    (endLine_follows stops.symm same.symm)

theorem ofTokens_agree (stops : stop.Same halt) (same : Token.AllSame tokens others) :
    Agrees (fun read twin => read.1.unplaced = twin.1.unplaced ∧ Token.AllSame read.2 twin.2)
      (Test.ofTokens stop tokens) (Test.ofTokens halt others) :=
  .of_follows (fun _ _ holds => ⟨holds.1.symm, holds.2.symm⟩) (Test.ofTokens_follows stops same)
    (Test.ofTokens_follows stops.symm same.symm)

end

theorem finishLine_agree (outer : Builder) (word : Token) (purpose : Purpose) (tokens : List Token)
    (stop : Token) :
    Agree (finishLine outer word purpose tokens stop)
      (finishLine outer.unplaced word.unplaced purpose.unplaced (tokens.map Token.unplaced)
        stop.unplaced) := by
  have same := Token.allSame_unplaced tokens
  have stops := stop.same_unplaced
  have enter : ∀ {frame other : Frame}, frame.unplaced = other.unplaced →
      Agree (.ok (outer.enter frame)) (.ok (outer.unplaced.enter other)) :=
    fun alike => .ok (unplaced_cons alike _ _ _)
  have push : ∀ {node other : Node}, node.unplaced = other.unplaced →
      Agree (.ok (outer.push node)) (.ok (outer.unplaced.push other)) :=
    fun alike => .ok (outer.unplaced_push alike)
  cases purpose with
  | define =>
      refine (takeHead_agree stops same).bind fun head _ heads => ?_
      subst heads
      exact enter rfl
  | undef =>
      refine (takeName_agree _ same).bind fun taken twin names => ?_
      refine (endLine_agree stops names.2).bind fun _ _ _ => push ?_
      simp only [Node.unplaced, names.1.text]
  | inclusion =>
      refine (takeString_agree _ same).bind fun taken twin paths => ?_
      refine (endLine_agree stops paths.2).bind fun _ _ _ => push ?_
      simp only [Node.unplaced, paths.1]
  | error =>
      refine (takeString_agree _ same).bind fun taken twin messages => ?_
      refine (endLine_agree stops messages.2).bind fun _ _ _ => push ?_
      simp only [Node.unplaced, messages.1]
  | warning =>
      refine (takeString_agree _ same).bind fun taken twin messages => ?_
      refine (endLine_agree stops messages.2).bind fun _ _ _ => push ?_
      simp only [Node.unplaced, messages.1]
  | line =>
      refine (takeLine_agree same).bind fun taken twin lines => ?_
      refine (endLine_agree stops lines.2.2).bind fun _ _ _ => push ?_
      simp only [Node.unplaced, lines.1, lines.2.1]
  | ifDefined positive =>
      refine (takeName_agree _ same).bind fun taken twin names => ?_
      refine (endLine_agree stops names.2).bind fun _ _ _ => enter ?_
      cases positive <;> simp [Frame.unplaced, Test.unplaced, names.1.text, Token.unplaced]
  | ifTrue earlier =>
      refine (ofTokens_agree stops same).bind fun taken twin tests => ?_
      refine (endLine_agree stops tests.2).bind fun _ _ _ => enter ?_
      simp [Frame.unplaced, tests.1, Token.unplaced]
  | otherwise last earlier =>
      refine (endLine_agree stops same).bind fun _ _ _ => enter ?_
      simp [Frame.unplaced]
  | endIf last earlier no =>
      exact (endLine_agree stops same).bind fun _ _ _ => push (Branch.unplaced_chain _ _ _)

theorem directive_agree :
    Agree (builder.directive token) (builder.unplaced.directive token.unplaced) := by
  have start : ∀ purpose : Purpose, Agree (.ok (builder.enter (.line token purpose [])))
      (.ok (builder.unplaced.enter (.line token.unplaced purpose.unplaced []))) :=
    fun purpose => .ok (unplaced_cons (by simp [Frame.unplaced, Token.unplaced]) _ _ _)
  obtain ⟨nodes, frames⟩ := builder
  unfold directive
  rw [show token.unplaced.text = token.text from rfl]
  dsimp only
  split
  · exact .error _ _
  · exact start .define
  · exact start .undef
  · exact start .inclusion
  · exact start .error
  · exact start .warning
  · exact start .line
  · exact start (.ifTrue [])
  · exact start (.ifDefined true)
  · exact start (.ifDefined false)
  all_goals
    cases frames with
    | nil => exact .error _ _
    | cons entry frames =>
        obtain ⟨frame, before⟩ := entry
        cases frame with
        | branch word location test earlier =>
            refine .ok (unplaced_cons ?_ _ _ _)
            simp [Frame.unplaced, Purpose.unplaced, Branch.unplaced, Token.unplaced, unplaced]
        | otherwise location last earlier =>
            first
              | exact .error _ _
              | refine .ok (unplaced_cons ?_ _ _ _)
                simp [Frame.unplaced, Purpose.unplaced, Token.unplaced, unplaced]
        | _ => exact .error _ _

theorem plain_agree : Agree (builder.plain token) (builder.unplaced.plain token.unplaced) := by
  have leaf := leaf_agree builder token
  unfold plain
  rw [show token.unplaced.kind = token.kind from rfl]
  split
  · exact directive_agree builder token
  · exact callOr_agree builder leaf
  · exact leaf

/-- A builder takes a token as one without places does. -/
theorem step_agree : Agree (builder.step token) (builder.unplaced.step token.unplaced) := by
  have plain := plain_agree builder token
  obtain ⟨nodes, frames⟩ := builder
  cases frames with
  | nil => exact plain
  | cons entry frames =>
      obtain ⟨frame, before⟩ := entry
      cases frame with
      | line word purpose tokens =>
          have ends : endsLine purpose.unplaced token.unplaced.kind = endsLine purpose token.kind := by
            rw [show token.unplaced.kind = token.kind from rfl]
            cases purpose <;> cases token.kind <;> rfl
          have finished := finishLine_agree ⟨before, frames⟩ word purpose tokens.reverse token
          rw [List.map_reverse] at finished
          simp only [step, unplaced_cons_eq, Frame.unplaced, ends]
          split
          · exact finished
          · exact .ok (unplaced_cons (by simp [Frame.unplaced, Token.unplaced]) _ _ _)
      | call location name depth arguments =>
          exact argument_agree token nodes ⟨before, frames⟩ location name depth arguments
      | define word name parameters =>
          simp only [step, unplaced_cons_eq, Frame.unplaced,
            show token.unplaced.kind = token.kind from rfl]
          split
          · refine .ok (unplaced_push ⟨before, frames⟩ ?_)
            simp [Node.unplaced, ← List.map_reverse]
          · exact plain
      | branch => exact plain
      | otherwise => exact plain

/-- Builders that are the same up to places take the same tokens up to places, and stay the same up
to places. -/
theorem foldlM_unplaced {builder other : Builder} {tokens others : List Token}
    (same : builder.unplaced = other.unplaced)
    (tokensSame : tokens.map Token.unplaced = others.map Token.unplaced) :
    FollowsWith (fun builder other => builder.unplaced = other.unplaced)
      (tokens.foldlM step builder) (others.foldlM step other) := by
  induction tokens generalizing builder other others with
  | nil =>
      obtain rfl := List.map_eq_nil_iff.1 tokensSame.symm
      exact .ok same
  | cons token tokens ih =>
      obtain ⟨twin, others, rfl, twins, rest⟩ := List.map_eq_cons_iff.1 tokensSame.symm
      rw [List.foldlM_cons, List.foldlM_cons]
      have stepped : FollowsWith (fun builder other => builder.unplaced = other.unplaced)
          (builder.step token) (other.step twin) := by
        intro next taken
        -- The two builders meet in the one without places.
        obtain ⟨middle, met, first⟩ := (step_agree builder token).forth next taken
        rw [same, ← twins] at met
        obtain ⟨last, takenLast, second⟩ := (step_agree other twin).back middle met
        exact ⟨last, takenLast, first.trans second.symm⟩
      exact stepped.bind fun next last same => ih same rest.symm

end Builder

end ScopedMacros
