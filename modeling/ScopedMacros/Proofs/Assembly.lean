import ScopedMacros.Proofs.DefinedValue

/-!
# What all tokens and all nodes have in common

A property of tokens holds of all tokens of a source once it holds of those that lexemes make.  A
property of nodes holds of all that a builder makes once every way to make a node keeps it; the
builder carries the property through all that is still open.
-/

namespace ScopedMacros

namespace Token

open Cursor

/-- A property that the tokens have which lexemes make, and those that stand for no bytes. -/
structure Common (good : Token → Prop) : Prop where
  inSource : ∀ (cursor : Cursor) {first : Byte} {rest : Bytes} {lexeme : Lexeme},
    Lexeme.inSource first rest = .ok lexeme → good (cursor.token first lexeme)
  inBody : ∀ (cursor : Cursor) {first : Byte} {rest : Bytes} {lexeme : Lexeme},
    first ≠ Byte.newline → Lexeme.inBody first rest = .ok lexeme → good (cursor.token first lexeme)
  inLine : ∀ (cursor : Cursor) {first : Byte} {rest : Bytes} {lexeme : Lexeme},
    Lexeme.inLine first rest = .ok lexeme → good (cursor.token first lexeme)
  other : ∀ token : Token, token.kind.isInline = false → good token

namespace Common

variable {good : Token → Prop} {cursor stop next : Cursor} {tokens : List Token}

theorem trail (common : Common good) {inBody : Bool} (trail : Trail inBody cursor tokens stop) :
    ∀ token ∈ tokens, good token := by
  induction trail with
  | stop => simp
  | skip _ ih => exact ih
  | inLine _ lexed _ ih => exact List.forall_mem_cons.2 ⟨common.inLine _ lexed, ih⟩
  | opens _ ih => exact List.forall_mem_cons.2 ⟨common.other _ rfl, ih⟩
  | inBody found lexed _ ih =>
      exact List.forall_mem_cons.2 ⟨common.inBody _ (rest_of_inLine? found).2 lexed, ih⟩

theorem ofDirective (common : Common good) {head : Head}
    (read : ofDirective head cursor = .ok (tokens, next)) : ∀ token ∈ tokens, good token := by
  obtain ⟨inner, stop, line, rfl⟩ := line_of_ofDirective read
  have each := common.trail line.trail
  refine List.forall_mem_append.2 ⟨List.forall_mem_cons.2 ⟨common.other _ rfl, each⟩, ?_⟩
  exact List.forall_mem_cons.2 ⟨common.other _ rfl, by simp⟩

theorem ofSource (common : Common good) {fresh : Bool}
    (read : ofSource fresh cursor = .ok tokens) : ∀ token ∈ tokens, good token := by
  fun_induction Token.ofSource fresh cursor generalizing tokens with
  | case1 => cases read
  | case2 => cases read
  | case3 fresh cursor head found lineTokens next line rest source ih =>
      cases read
      exact List.forall_mem_append.2 ⟨common.ofDirective line, ih source⟩
  | case4 =>
      cases read
      exact List.forall_mem_cons.2 ⟨common.other _ rfl, by simp⟩
  | case5 => cases read
  | case6 => cases read
  | case7 fresh cursor noHead first rest left lexeme lexed tail source ih =>
      cases read
      exact List.forall_mem_cons.2 ⟨common.inSource _ lexed, ih source⟩

end Common

end Token

namespace Builder

/-- A property that every way to make a node of admitted tokens and of good nodes keeps. -/
structure Common (admits : Token → Prop) (good : Node → Prop) : Prop where
  name : ∀ {token : Token}, admits token → token.kind = .ident → good (ofName token)
  space : ∀ {token : Token}, admits token → token.kind = .space →
    good (.space token.location token.text)
  text : ∀ {token : Token}, admits token → token.kind.isSolid = true →
    good (.text token.location token.text)
  call : ∀ {location : Location} (whole : Location) {name : Bytes} {arguments : List (List Node)},
    good (.ident location name) → (∀ argument ∈ arguments, ∀ node ∈ argument, good node) →
    good (.call whole name arguments)
  define : ∀ {stop : Token} {head : List Token} {name : Bytes} {parameters : Option (List Bytes)}
    (location : Location) {nodes : List Node}, takeHead stop head = .ok (name, parameters) →
    (∀ node ∈ nodes, good node) → good (.define location name parameters (Node.trim nodes))
  single : ∀ {node : Node} {directive : Directive}, node.directive? = some directive →
    directive ≠ .define → good node
  cond : ∀ (location : Location) (test : Test) {yes no : List Node}, (∀ node ∈ yes, good node) →
    (∀ node ∈ no, good node) → good (.cond location test yes no)

/-- The nodes of all branches are good. -/
def HoldBranches (good : Node → Prop) (branches : List Branch) : Prop :=
  ∀ branch ∈ branches, ∀ node ∈ branch.nodes, good node

def Purpose.Holds (good : Node → Prop) : Purpose → Prop
  | .ifTrue earlier => HoldBranches good earlier
  | .otherwise last earlier => HoldBranches good (last :: earlier)
  | .endIf last earlier no => HoldBranches good (last :: earlier) ∧ ∀ node ∈ no, good node
  | _ => True

def Frame.Holds (good : Node → Prop) : Frame → Prop
  | .call location name _ arguments =>
      good (.ident location name) ∧ ∀ argument ∈ arguments, ∀ node ∈ argument, good node
  | .define _ name parameters => ∃ stop head, takeHead stop head = .ok (name, parameters)
  | .line _ purpose _ => purpose.Holds good
  | .branch _ _ _ earlier => HoldBranches good earlier
  | .otherwise _ last earlier => HoldBranches good (last :: earlier)

/-- All nodes that the builder holds are good. -/
structure Holds (good : Node → Prop) (builder : Builder) : Prop where
  nodes : ∀ node ∈ builder.nodes, good node
  frames : ∀ entry ∈ builder.frames, entry.1.Holds good ∧ ∀ node ∈ entry.2, good node

variable {admits : Token → Prop} {good : Node → Prop} {builder next outer : Builder} {token : Token}

namespace Holds

theorem push {node : Node} (holds : builder.Holds good) (made : good node) :
    (builder.push node).Holds good :=
  ⟨List.forall_mem_cons.2 ⟨made, holds.nodes⟩, holds.frames⟩

theorem enter {frame : Frame} (holds : builder.Holds good) (opened : frame.Holds good) :
    (builder.enter frame).Holds good :=
  ⟨by simp [Builder.enter], List.forall_mem_cons.2 ⟨⟨opened, holds.nodes⟩, holds.frames⟩⟩

/-- The innermost open construct, and the builder below it. -/
theorem below {frame : Frame} {before : List Node} {frames : List (Frame × List Node)}
    (holds : builder.Holds good) (isTop : builder.frames = (frame, before) :: frames) :
    frame.Holds good ∧ (Builder.mk before frames).Holds good := by
  have all := holds.frames
  rw [isTop] at all
  obtain ⟨⟨top, beforeHolds⟩, others⟩ := List.forall_mem_cons.1 all
  exact ⟨top, beforeHolds, others⟩

theorem reverse (holds : builder.Holds good) : ∀ node ∈ builder.nodes.reverse, good node :=
  fun node member => holds.nodes node (List.mem_reverse.1 member)

end Holds

namespace Common

theorem leaf (common : Common admits good) (holds : builder.Holds good) (admitted : admits token)
    (taken : builder.leaf token = .ok next) : next.Holds good := by
  unfold Builder.leaf at taken
  split at taken
  case h_1 kind =>
      cases taken
      exact holds.push (common.name admitted kind)
  case h_2 kind =>
      cases taken
      exact holds.push (common.space admitted kind)
  case h_9 => cases taken
  all_goals
    next kind =>
      cases taken
      exact holds.push (common.text admitted (by rw [kind]; rfl))

theorem call? (holds : builder.Holds good) (opened : builder.call? = some next) :
    next.Holds good := by
  unfold Builder.call? at opened
  split at opened
  · next location name before isLast =>
      cases opened
      have each := holds.nodes
      rw [isLast] at each
      obtain ⟨named, others⟩ := List.forall_mem_cons.1 each
      have below : (Builder.mk before builder.frames).Holds good := ⟨others, holds.frames⟩
      exact below.enter ⟨named, by simp⟩
  · cases opened

theorem argument (common : Common admits good) {nodes : List Node} {location : Location}
    {name : Bytes} {depth : Nat} {arguments : List (List Node)} (holds : outer.Holds good)
    (opened : (Frame.call location name depth arguments).Holds good)
    (each : ∀ node ∈ nodes, good node) (admitted : admits token)
    (taken : argument nodes outer location name depth arguments token = .ok next) :
    next.Holds good := by
  obtain ⟨named, earlier⟩ := opened
  have inside : ∀ depth, Holds good
      ⟨nodes, (.call location name depth arguments, outer.nodes) :: outer.frames⟩ :=
    fun depth => ⟨each, List.forall_mem_cons.2 ⟨⟨⟨named, earlier⟩, holds.nodes⟩, holds.frames⟩⟩
  have more : ∀ argument ∈ nodes.reverse :: arguments, ∀ node ∈ argument, good node :=
    List.forall_mem_cons.2 ⟨fun node member => each node (List.mem_reverse.1 member), earlier⟩
  unfold Builder.argument at taken
  dsimp only at taken
  split at taken
  · cases taken
  · cases taken
  · cases taken
    exact holds.enter ⟨named, more⟩
  · cases taken
    refine holds.push (common.call _ named fun argument member => ?_)
    rw [List.mem_reverse] at member
    split at member
    · cases member
    · exact more argument member
  · exact common.leaf (inside _) admitted taken
  · split at taken
    · next opened =>
        cases taken
        exact call? (inside _) opened
    · exact common.leaf (inside _) admitted taken
  · exact common.leaf (inside _) admitted taken

/-- A conditional is good if all that its branches hold is. -/
theorem chain (common : Common admits good) {last : Branch} {earlier : List Branch}
    {no : List Node} (each : HoldBranches good (last :: earlier)) (noEach : ∀ node ∈ no, good node) :
    good (last.chain earlier no) := by
  obtain ⟨lastEach, earlierEach⟩ := List.forall_mem_cons.1 each
  unfold Branch.chain
  have start : good (last.node no) := common.cond _ _ lastEach noEach
  generalize last.node no = inner at start
  induction earlier generalizing inner with
  | nil => exact start
  | cons branch rest ih =>
      obtain ⟨here, others⟩ := List.forall_mem_cons.1 earlierEach
      refine ih (List.forall_mem_cons.2 ⟨lastEach, others⟩) others _ (common.cond _ _ here ?_)
      simpa using start

theorem finishLine (common : Common admits good) {word stop : Token} {purpose : Purpose}
    {tokens : List Token} (holds : outer.Holds good) (purposeHolds : purpose.Holds good)
    (finished : finishLine outer word purpose tokens stop = .ok next) : next.Holds good := by
  unfold Builder.finishLine at finished
  split at finished
  · obtain ⟨⟨name, parameters⟩, head, finished⟩ := bind_eq_ok_iff.1 finished
    cases finished
    exact holds.enter ⟨stop, tokens, head⟩
  iterate 5
    obtain ⟨taken, _, finished⟩ := bind_eq_ok_iff.1 finished
    obtain ⟨location, _, finished⟩ := bind_eq_ok_iff.1 finished
    cases finished
    exact holds.push (common.single rfl (by simp))
  · obtain ⟨taken, _, finished⟩ := bind_eq_ok_iff.1 finished
    obtain ⟨location, _, finished⟩ := bind_eq_ok_iff.1 finished
    cases finished
    exact holds.enter (by simp [Frame.Holds, HoldBranches])
  · obtain ⟨taken, _, finished⟩ := bind_eq_ok_iff.1 finished
    obtain ⟨location, _, finished⟩ := bind_eq_ok_iff.1 finished
    cases finished
    exact holds.enter purposeHolds
  · obtain ⟨location, _, finished⟩ := bind_eq_ok_iff.1 finished
    cases finished
    exact holds.enter purposeHolds
  · obtain ⟨location, _, finished⟩ := bind_eq_ok_iff.1 finished
    cases finished
    exact holds.push (common.chain purposeHolds.1 purposeHolds.2)

theorem directive {word : Token} (holds : builder.Holds good)
    (started : builder.directive word = .ok next) : next.Holds good := by
  have start : ∀ purpose : Purpose, purpose.Holds good →
      (builder.enter (.line word purpose [])).Holds good :=
    fun purpose opened => holds.enter opened
  -- A word that ends a branch makes the branch a part of the purpose of its line.
  have close : ∀ {purpose : Purpose} {frame : Frame} {before : List Node}
      {frames : List (Frame × List Node)}, builder.frames = (frame, before) :: frames →
      purpose.Holds good → Holds good ⟨[], (.line word purpose [], before) :: frames⟩ :=
    fun isTop opened => (holds.below isTop).2.enter opened
  unfold Builder.directive at started
  dsimp only at started
  split at started
  · cases started
  iterate 9
    cases started
    exact start _ (by simp [Purpose.Holds, HoldBranches])
  · split at started
    · next isTop =>
        cases started
        exact close isTop (List.forall_mem_cons.2 ⟨holds.reverse, (holds.below isTop).1⟩)
    · cases started
    · cases started
  · split at started
    · next isTop =>
        cases started
        exact close isTop (List.forall_mem_cons.2 ⟨holds.reverse, (holds.below isTop).1⟩)
    · cases started
    · cases started
  · split at started
    · next isTop =>
        cases started
        exact close isTop
          ⟨List.forall_mem_cons.2 ⟨holds.reverse, (holds.below isTop).1⟩, by simp⟩
    · next isTop =>
        cases started
        exact close isTop ⟨(holds.below isTop).1, holds.reverse⟩
    · cases started

theorem plain (common : Common admits good) (holds : builder.Holds good) (admitted : admits token)
    (taken : builder.plain token = .ok next) : next.Holds good := by
  unfold Builder.plain at taken
  split at taken
  · exact directive holds taken
  · split at taken
    · next opened =>
        cases taken
        exact call? holds opened
    · exact common.leaf holds admitted taken
  · exact common.leaf holds admitted taken

/-- One more token keeps all nodes good. -/
theorem step (common : Common admits good) (holds : builder.Holds good) (admitted : admits token)
    (taken : builder.step token = .ok next) : next.Holds good := by
  unfold Builder.step at taken
  split at taken
  · next word purpose tokens before frames isTop =>
      obtain ⟨purposeHolds, below⟩ := holds.below isTop
      split at taken
      · exact common.finishLine below purposeHolds taken
      · cases taken
        exact ⟨holds.nodes, List.forall_mem_cons.2 ⟨⟨purposeHolds, below.nodes⟩, below.frames⟩⟩
  · next isTop =>
      obtain ⟨opened, below⟩ := holds.below isTop
      exact common.argument below opened holds.nodes admitted taken
  · next isTop =>
      obtain ⟨⟨stop, tokens, head⟩, below⟩ := holds.below isTop
      split at taken
      · cases taken
        exact below.push (common.define _ head holds.reverse)
      · exact common.plain holds admitted taken
  · exact common.plain holds admitted taken

theorem foldlM (common : Common admits good) {tokens : List Token} (holds : builder.Holds good)
    (admitted : ∀ token ∈ tokens, admits token)
    (taken : tokens.foldlM Builder.step builder = .ok next) : next.Holds good := by
  induction tokens generalizing builder with
  | nil =>
      cases taken
      exact holds
  | cons token rest ih =>
      obtain ⟨first, others⟩ := List.forall_mem_cons.1 admitted
      rw [List.foldlM_cons] at taken
      obtain ⟨middle, stepped, taken⟩ := bind_eq_ok_iff.1 taken
      exact ih (common.step holds first stepped) others taken

theorem finish {stop : Token} {nodes : List Node} (holds : builder.Holds good)
    (finished : builder.finish stop = .ok nodes) : ∀ node ∈ nodes, good node := by
  unfold Builder.finish at finished
  split at finished
  · cases finished
    exact holds.reverse
  · obtain ⟨_, _, finished⟩ := bind_eq_ok_iff.1 finished
    cases finished
  all_goals cases finished

/-- All nodes of a source are good if its tokens are admitted. -/
theorem ofSource (common : Common admits good) (admitted : Token.Common admits)
    {file text : Bytes} {nodes : List Node} (read : Node.ofSource file text = .ok nodes) :
    ∀ node ∈ nodes, good node := by
  obtain ⟨tokens, scanned, read⟩ := bind_eq_ok_iff.1 read
  obtain ⟨builder, taken, finished⟩ := bind_eq_ok_iff.1 read
  have start : Builder.empty.Holds good := ⟨by simp [Builder.empty], by simp [Builder.empty]⟩
  refine finish (common.foldlM start (fun token member => ?_) taken) finished
  exact admitted.ofSource scanned token ((List.takeWhile_prefix _).subset member)

end Common

end Builder

end ScopedMacros
