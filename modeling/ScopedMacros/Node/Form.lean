import ScopedMacros.Node.Builder
import ScopedMacros.Token.Orderly

/-!
# The form of nodes read from sources

In a source a macro body and an argument hold only text and uses of macros, never directives.  The
builder keeps this form token by token, because scanned tokens start no directive inside a body.
-/

namespace ScopedMacros

namespace Node

/-- Text, markers, and uses of macros. -/
inductive Plain : Node → Prop where
  | ident (location : Location) (name : Bytes) : Plain (.ident location name)
  | call (location : Location) (name : Bytes) (arguments : List (List Node))
      (plain : ∀ argument ∈ arguments, ∀ node ∈ argument, Plain node) :
      Plain (.call location name arguments)
  | space (location : Location) (text : Bytes) : Plain (.space location text)
  | text (location : Location) (text : Bytes) : Plain (.text location text)
  | currentLine (location : Location) : Plain (.currentLine location)
  | currentFile (location : Location) : Plain (.currentFile location)

/-- A plain node, or a directive whose macro bodies are plain. -/
inductive FromSource : Node → Prop where
  | plain {node : Node} (plain : Plain node) : FromSource node
  | define (location : Location) (name : Bytes) (parameters : Option (List Bytes))
      (body : List Node) (plain : ∀ node ∈ body, Plain node) :
      FromSource (.define location name parameters body)
  | undef (location : Location) (name : Bytes) : FromSource (.undef location name)
  | inclusion (location : Location) (path : Bytes) : FromSource (.inclusion location path)
  | cond (location : Location) (test : Test) (yes no : List Node)
      (yesForm : ∀ node ∈ yes, FromSource node) (noForm : ∀ node ∈ no, FromSource node) :
      FromSource (.cond location test yes no)
  | error (location : Location) (message : Bytes) : FromSource (.error location message)
  | warning (location : Location) (message : Bytes) : FromSource (.warning location message)
  | line (location : Location) (file : Option Bytes) (number : Int64) :
      FromSource (.line location file number)

theorem mem_of_mem_trim {nodes : List Node} {node : Node} (member : node ∈ trim nodes) :
    node ∈ nodes := by
  rw [trim, List.mem_reverse] at member
  have := (List.dropWhile_sublist _).subset member
  rw [List.mem_reverse] at this
  exact (List.dropWhile_sublist _).subset this

end Node

/-- All nodes of a branch have the form of a source. -/
def Branch.Formed (branch : Branch) : Prop :=
  ∀ node ∈ branch.nodes, node.FromSource

namespace Branch

theorem fromSource_node {branch : Branch} {no : List Node} (formed : branch.Formed)
    (noForm : ∀ node ∈ no, node.FromSource) : (branch.node no).FromSource :=
  .cond _ _ _ _ formed noForm

theorem fromSource_chain {last : Branch} {earlier : List Branch} {no : List Node}
    (formed : last.Formed) (earlierFormed : ∀ branch ∈ earlier, branch.Formed)
    (noForm : ∀ node ∈ no, node.FromSource) : (last.chain earlier no).FromSource := by
  unfold chain
  suffices ∀ node : Node, node.FromSource →
      (earlier.foldl (fun inner branch => branch.node [inner]) node).FromSource from
    this _ (fromSource_node formed noForm)
  induction earlier with
  | nil => exact fun _ form => form
  | cons branch rest ih =>
      intro node form
      refine ih (fun other member => earlierFormed other (by simp [member])) _ ?_
      refine fromSource_node (earlierFormed branch (by simp)) fun other member => ?_
      rw [List.mem_singleton.1 member]
      exact form

end Branch

namespace Builder

/-- Whether directives can follow: the innermost open construct is a branch, or there is none. -/
def AtBlock : List (Frame × List Node) → Prop
  | [] => True
  | (.branch _ _ _ _, _) :: _ => True
  | (.otherwise _ _ _, _) :: _ => True
  | _ => False

/-- The form that the nodes of the innermost open construct must have. -/
def NodeForm : List (Frame × List Node) → Node → Prop
  | (.call _ _ _ _, _) :: _ => Node.Plain
  | (.define _ _ _, _) :: _ => Node.Plain
  | _ => Node.FromSource

theorem nodeForm_of_plain {frames : List (Frame × List Node)} {node : Node} (plain : node.Plain) :
    NodeForm frames node := by
  unfold NodeForm
  split
  · exact plain
  · exact plain
  · exact .plain plain

theorem nodeForm_of_atBlock {frames : List (Frame × List Node)} (block : AtBlock frames) :
    NodeForm frames = Node.FromSource := by
  unfold AtBlock at block
  split at block
  · rfl
  · rfl
  · rfl
  · cases block

def Purpose.Formed : Purpose → Prop
  | .ifTrue earlier => ∀ branch ∈ earlier, branch.Formed
  | .otherwise last earlier => last.Formed ∧ ∀ branch ∈ earlier, branch.Formed
  | .endIf last earlier no =>
      last.Formed ∧ (∀ branch ∈ earlier, branch.Formed) ∧ ∀ node ∈ no, node.FromSource
  | _ => True

/-- What an open construct holds is well formed, and it stands where it may; `inBody` tells whether
the token before was read in a body. -/
def FramesFormed (inBody : Bool) : List (Frame × List Node) → Prop
  | [] => inBody = false
  | (frame, before) :: rest =>
      (∀ node ∈ before, NodeForm rest node) ∧
      match frame with
      | .call _ _ _ arguments =>
          (∀ argument ∈ arguments, ∀ node ∈ argument, node.Plain) ∧ FramesFormed inBody rest
      | .define _ _ _ => inBody = true ∧ AtBlock rest ∧ FramesFormed false rest
      | .line _ purpose _ => purpose.Formed ∧ AtBlock rest ∧ FramesFormed false rest
      | .branch _ _ _ earlier =>
          inBody = false ∧ (∀ branch ∈ earlier, branch.Formed) ∧ AtBlock rest ∧
            FramesFormed false rest
      | .otherwise _ last earlier =>
          inBody = false ∧ last.Formed ∧ (∀ branch ∈ earlier, branch.Formed) ∧ AtBlock rest ∧
            FramesFormed false rest

/-- Everything that a builder holds is well formed. -/
structure Formed (inBody : Bool) (builder : Builder) : Prop where
  frames : FramesFormed inBody builder.frames
  nodes : ∀ node ∈ builder.nodes, NodeForm builder.frames node

theorem Formed.push {inBody : Bool} {builder : Builder} {node : Node}
    (formed : builder.Formed inBody) (form : NodeForm builder.frames node) :
    (builder.push node).Formed inBody where
  frames := formed.frames
  nodes := by
    intro other member
    rcases List.mem_cons.1 member with rfl | member
    · exact form
    · exact formed.nodes other member

/-- Adds a directive's node to a block. -/
theorem Formed.pushBlock {inBody : Bool} {builder : Builder} {node : Node}
    (formed : builder.Formed inBody) (block : AtBlock builder.frames) (form : node.FromSource) :
    (builder.push node).Formed inBody :=
  formed.push (by rw [nodeForm_of_atBlock block]; exact form)

theorem formed_leaf {inBody : Bool} {builder next : Builder} {token : Token}
    (formed : builder.Formed inBody) (added : builder.leaf token = .ok next) :
    next.Formed inBody ∧ token.kind.isInline = true := by
  unfold leaf at added
  split at added
  case h_1 =>
      cases added
      refine ⟨formed.push (nodeForm_of_plain ?_), by simp [*, Token.Kind.isInline]⟩
      unfold ofName
      split
      · exact .currentLine _
      split
      · exact .currentFile _
      · exact .ident _ _
  case h_2 =>
      cases added
      exact ⟨formed.push (nodeForm_of_plain (.space _ _)), by simp [*, Token.Kind.isInline]⟩
  case h_9 => cases added
  all_goals
    cases added
    exact ⟨formed.push (nodeForm_of_plain (.text _ _)), by simp [*, Token.Kind.isInline]⟩

theorem formed_call {inBody : Bool} {builder next : Builder} (formed : builder.Formed inBody)
    (opened : builder.call? = some next) : next.Formed inBody := by
  unfold call? at opened
  split at opened
  · rename_i location name before nodes
    cases opened
    refine ⟨⟨fun node member => formed.nodes node (by simp [nodes, member]), by simp, ?_⟩, by simp⟩
    exact formed.frames
  · cases opened

theorem formed_argument {inBody : Bool} {nodes : List Node} {outer next : Builder}
    {location : Location} {name : Bytes} {depth : Nat} {arguments : List (List Node)}
    {token : Token} (formed : outer.Formed inBody) (plain : ∀ node ∈ nodes, node.Plain)
    (argumentsPlain : ∀ argument ∈ arguments, ∀ node ∈ argument, node.Plain)
    (added : argument nodes outer location name depth arguments token = .ok next) :
    next.Formed inBody ∧ token.kind.isInline = true := by
  have inside : ∀ depth, Formed inBody
      ⟨nodes, (.call location name depth arguments, outer.nodes) :: outer.frames⟩ :=
    fun depth => ⟨⟨formed.nodes, argumentsPlain, formed.frames⟩, plain⟩
  have reversed : ∀ node ∈ nodes.reverse, node.Plain :=
    fun node member => plain node (List.mem_reverse.1 member)
  have more : ∀ argument ∈ nodes.reverse :: arguments, ∀ node ∈ argument, node.Plain := by
    intro argument member
    rcases List.mem_cons.1 member with rfl | member
    · exact reversed
    · exact argumentsPlain argument member
  unfold argument at added
  dsimp only at added
  split at added
  · cases added
  · cases added
  · rename_i kind
    cases added
    exact ⟨⟨⟨formed.nodes, more, formed.frames⟩, by simp⟩, by simp [kind, Token.Kind.isInline]⟩
  · rename_i kind
    cases added
    refine ⟨formed.push (nodeForm_of_plain (.call _ _ _ ?_)), by simp [kind, Token.Kind.isInline]⟩
    intro argument member
    rw [List.mem_reverse] at member
    split at member
    · cases member
    · exact more argument member
  · exact formed_leaf (inside _) added
  · rename_i kind
    split at added
    · rename_i opened
      cases added
      exact ⟨formed_call (inside _) opened, by simp [kind, Token.Kind.isInline]⟩
    · exact formed_leaf (inside _) added
  · exact formed_leaf (inside _) added

/-- A branch opened by a line of a block. -/
theorem formed_enter_branch {outer : Builder} {word : Bytes} {location : Location} {test : Test}
    {earlier : List Branch} (formed : outer.Formed false) (block : AtBlock outer.frames)
    (earlierFormed : ∀ branch ∈ earlier, branch.Formed) :
    (outer.enter (.branch word location test earlier)).Formed false :=
  ⟨⟨formed.nodes, rfl, earlierFormed, block, formed.frames⟩, by simp [enter]⟩

theorem formed_finishLine_lineEnd {outer next : Builder} {word : Token} {purpose : Purpose}
    {tokens : List Token} {stop : Token} (isEnd : stop.kind = .lineEnd)
    (formed : outer.Formed false) (block : AtBlock outer.frames) (purposeFormed : purpose.Formed)
    (finished : finishLine outer word purpose tokens stop = .ok next) : next.Formed false := by
  unfold finishLine at finished
  split at finished
  · obtain ⟨head, taken, finished⟩ := bind_eq_ok_iff.1 finished
    obtain ⟨name, _, taken⟩ := bind_eq_ok_iff.1 taken
    obtain ⟨parameters, _, taken⟩ := bind_eq_ok_iff.1 taken
    simp [isEnd] at taken
  · obtain ⟨name, _, finished⟩ := bind_eq_ok_iff.1 finished
    obtain ⟨location, _, finished⟩ := bind_eq_ok_iff.1 finished
    cases finished
    exact formed.pushBlock block (.undef _ _)
  · obtain ⟨path, _, finished⟩ := bind_eq_ok_iff.1 finished
    obtain ⟨location, _, finished⟩ := bind_eq_ok_iff.1 finished
    cases finished
    exact formed.pushBlock block (.inclusion _ _)
  · obtain ⟨message, _, finished⟩ := bind_eq_ok_iff.1 finished
    obtain ⟨location, _, finished⟩ := bind_eq_ok_iff.1 finished
    cases finished
    exact formed.pushBlock block (.error _ _)
  · obtain ⟨message, _, finished⟩ := bind_eq_ok_iff.1 finished
    obtain ⟨location, _, finished⟩ := bind_eq_ok_iff.1 finished
    cases finished
    exact formed.pushBlock block (.warning _ _)
  · obtain ⟨number, _, finished⟩ := bind_eq_ok_iff.1 finished
    obtain ⟨location, _, finished⟩ := bind_eq_ok_iff.1 finished
    cases finished
    exact formed.pushBlock block (.line _ _ _)
  · obtain ⟨name, _, finished⟩ := bind_eq_ok_iff.1 finished
    obtain ⟨location, _, finished⟩ := bind_eq_ok_iff.1 finished
    cases finished
    exact formed_enter_branch formed block (by simp)
  · obtain ⟨test, _, finished⟩ := bind_eq_ok_iff.1 finished
    obtain ⟨location, _, finished⟩ := bind_eq_ok_iff.1 finished
    cases finished
    exact formed_enter_branch formed block purposeFormed
  · obtain ⟨location, _, finished⟩ := bind_eq_ok_iff.1 finished
    cases finished
    exact ⟨⟨formed.nodes, rfl, purposeFormed.1, purposeFormed.2, block, formed.frames⟩,
      by simp [enter]⟩
  · obtain ⟨location, _, finished⟩ := bind_eq_ok_iff.1 finished
    cases finished
    exact formed.pushBlock block
      (Branch.fromSource_chain purposeFormed.1 purposeFormed.2.1 purposeFormed.2.2)

theorem formed_finishLine_body {outer next : Builder} {word : Token} {tokens : List Token}
    {stop : Token} (formed : outer.Formed false) (block : AtBlock outer.frames)
    (finished : finishLine outer word .define tokens stop = .ok next) : next.Formed true := by
  obtain ⟨head, _, finished⟩ := bind_eq_ok_iff.1 finished
  cases finished
  exact ⟨⟨formed.nodes, rfl, block, formed.frames⟩, by simp [enter]⟩

/-- The branch that the innermost open construct makes once all its nodes are read. -/
theorem formed_branch {builder : Builder} {word : Bytes} {location : Location} {test : Test}
    {earlier : List Branch} {before : List Node} {rest : List (Frame × List Node)}
    (formed : builder.Formed false)
    (frames : builder.frames = (.branch word location test earlier, before) :: rest) :
    Branch.Formed ⟨location, test, builder.nodes.reverse⟩ := by
  intro node member
  have := formed.nodes node (List.mem_reverse.1 member)
  rwa [frames] at this

/-- A directive starts where directives can stand, in a block that is not a body. -/
theorem formed_directive {builder next : Builder} {word : Token} (formed : builder.Formed false)
    (block : AtBlock builder.frames) (started : builder.directive word = .ok next) :
    next.Formed false := by
  have start : ∀ purpose : Purpose, purpose.Formed →
      (builder.enter (.line word purpose [])).Formed false :=
    fun purpose purposeFormed =>
      ⟨⟨formed.nodes, purposeFormed, block, formed.frames⟩, by simp [enter]⟩
  unfold directive at started
  dsimp only at started
  split at started
  · cases started
  iterate 9
    cases started
    exact start _ (by simp [Purpose.Formed])
  · split at started
    · rename_i location test earlier before rest frames
      have below := formed.frames
      rw [frames] at below
      cases started
      refine ⟨⟨below.1, ?_, below.2.2.2.1, below.2.2.2.2⟩, by simp⟩
      intro branch member
      rcases List.mem_cons.1 member with rfl | member
      · exact formed_branch formed frames
      · exact below.2.2.1 branch member
    · cases started
    · cases started
  · split at started
    · rename_i location test earlier before rest frames
      have below := formed.frames
      rw [frames] at below
      cases started
      exact ⟨⟨below.1, ⟨formed_branch formed frames, below.2.2.1⟩, below.2.2.2.1, below.2.2.2.2⟩,
        by simp⟩
    · cases started
    · cases started
  · split at started
    · rename_i location test earlier before rest frames
      have below := formed.frames
      rw [frames] at below
      cases started
      exact ⟨⟨below.1, ⟨formed_branch formed frames, below.2.2.1, by simp⟩, below.2.2.2.1,
        below.2.2.2.2⟩, by simp⟩
    · rename_i location last earlier before rest frames
      have below := formed.frames
      rw [frames] at below
      cases started
      refine ⟨⟨below.1, ⟨below.2.2.1, below.2.2.2.1, fun node member => ?_⟩, below.2.2.2.2.1,
        below.2.2.2.2.2⟩, by simp⟩
      have := formed.nodes node (List.mem_reverse.1 member)
      rwa [frames] at this
    · cases started

/-- Outside directives and calls, a token keeps the form if it starts no directive in a body. -/
theorem formed_plain {inBody : Bool} {builder next : Builder} {token : Token}
    (formed : builder.Formed inBody) (orderly : token.kind = .directive → inBody = false)
    (place : token.kind = .directive → AtBlock builder.frames)
    (taken : builder.plain token = .ok next) :
    next.Formed (Token.bodyAfter inBody token.kind) := by
  unfold plain at taken
  split at taken
  · rename_i kind
    have outside := orderly kind
    subst outside
    rw [kind]
    exact formed_directive formed (place kind) taken
  · rename_i kind
    rw [kind]
    split at taken
    · rename_i opened
      cases taken
      exact formed_call formed opened
    · exact (formed_leaf formed taken).1
  · obtain ⟨result, inline⟩ := formed_leaf formed taken
    rw [Token.bodyAfter_inline inline]
    exact result

/-- A token keeps the form if it starts no directive in a body. -/
theorem formed_step {inBody : Bool} {builder next : Builder} {token : Token}
    (formed : builder.Formed inBody) (orderly : token.kind = .directive → inBody = false)
    (taken : builder.step token = .ok next) : next.Formed (Token.bodyAfter inBody token.kind) := by
  have framesFormed := formed.frames
  have nodesFormed := formed.nodes
  unfold step at taken
  split at taken
  · rename_i word purpose tokens before rest frames
    rw [frames] at framesFormed nodesFormed
    obtain ⟨beforeFormed, purposeFormed, block, restFormed⟩ := framesFormed
    split at taken
    · rename_i ends
      unfold endsLine at ends
      split at ends
      · rename_i kind
        rw [kind]
        exact formed_finishLine_lineEnd kind ⟨restFormed, beforeFormed⟩ block purposeFormed taken
      · rename_i kind
        rw [kind]
        exact formed_finishLine_body ⟨restFormed, beforeFormed⟩ block taken
      · cases ends
    · cases taken
      exact ⟨⟨beforeFormed, purposeFormed, block, restFormed⟩, nodesFormed⟩
  · rename_i location name depth arguments before rest frames
    rw [frames] at framesFormed nodesFormed
    obtain ⟨beforeFormed, argumentsPlain, restFormed⟩ := framesFormed
    obtain ⟨result, inline⟩ :=
      formed_argument ⟨restFormed, beforeFormed⟩ nodesFormed argumentsPlain taken
    rw [Token.bodyAfter_inline inline]
    exact result
  · rename_i word name parameters before rest frames
    rw [frames] at framesFormed nodesFormed
    obtain ⟨beforeFormed, body, block, restFormed⟩ := framesFormed
    split at taken
    · rename_i kind
      cases taken
      rw [kind]
      have outer : Formed false ⟨before, rest⟩ := ⟨restFormed, beforeFormed⟩
      refine outer.pushBlock block (.define _ _ _ _ fun node member => ?_)
      exact nodesFormed node (List.mem_reverse.1 (Node.mem_of_mem_trim member))
    · exact formed_plain formed orderly
        (fun directive => by simp [orderly directive] at body) taken
  · rename_i notLine notCall notDefine
    refine formed_plain formed orderly (fun _ => ?_) taken
    unfold AtBlock
    split
    · trivial
    · trivial
    · trivial
    · rename_i frames nonempty notBranch notOtherwise
      match found : builder.frames with
      | [] => exact nonempty found
      | (.line .., _) :: _ => exact notLine _ _ _ _ _ found
      | (.call .., _) :: _ => exact notCall _ _ _ _ _ _ found
      | (.define .., _) :: _ => exact notDefine _ _ _ _ _ found
      | (.branch .., _) :: _ => exact notBranch _ _ _ _ _ _ found
      | (.otherwise .., _) :: _ => exact notOtherwise _ _ _ _ _ found

theorem formed_foldlM {inBody : Bool} {builder next : Builder} {tokens : List Token}
    (formed : builder.Formed inBody) (orderly : Token.Orderly inBody tokens)
    (taken : tokens.foldlM step builder = .ok next) : ∃ inBody, next.Formed inBody := by
  induction tokens generalizing inBody builder with
  | nil =>
      cases taken
      exact ⟨inBody, formed⟩
  | cons token rest ih =>
      rw [List.foldlM_cons] at taken
      obtain ⟨middle, first, taken⟩ := bind_eq_ok_iff.1 taken
      exact ih (formed_step formed orderly.1 first) orderly.2 taken

theorem fromSource_finish {inBody : Bool} {builder : Builder} {stop : Token} {nodes : List Node}
    (formed : builder.Formed inBody) (finished : builder.finish stop = .ok nodes) :
    ∀ node ∈ nodes, node.FromSource := by
  unfold finish at finished
  split at finished
  · rename_i frames
    cases finished
    intro node member
    have := formed.nodes node (List.mem_reverse.1 member)
    rwa [frames] at this
  · obtain ⟨_, _, finished⟩ := bind_eq_ok_iff.1 finished
    cases finished
  all_goals cases finished

end Builder

/-- The nodes of a source have the form of a source: no macro body and no argument holds a
directive. -/
theorem Node.fromSource_of_ofSource {file text : Bytes} {nodes : List Node}
    (read : Node.ofSource file text = .ok nodes) : ∀ node ∈ nodes, node.FromSource := by
  obtain ⟨tokens, scanned, read⟩ := bind_eq_ok_iff.1 read
  obtain ⟨builder, taken, finished⟩ := bind_eq_ok_iff.1 read
  have orderly : Token.Orderly false (tokens.takeWhile (·.kind != .fileEnd)) := by
    have := Token.orderly_scan scanned
    rw [← List.takeWhile_append_dropWhile (p := (·.kind != .fileEnd)) (l := tokens)] at this
    exact this.of_append
  have start : Builder.empty.Formed false := ⟨rfl, by simp [Builder.empty]⟩
  obtain ⟨inBody, formed⟩ := Builder.formed_foldlM start orderly taken
  exact Builder.fromSource_finish formed finished

end ScopedMacros
