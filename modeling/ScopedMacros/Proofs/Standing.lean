import ScopedMacros.Proofs.Names
import ScopedMacros.Proofs.Rebuilding
import ScopedMacros.Proofs.Relocation
import ScopedMacros.Proofs.Stack

/-!
# Where the next token stands

After some tokens of a source the next one stands in a directive line, right after a name, or apart
from both.  After whole lines it stands apart.  There a builder is in a block or in a call, and in a
block no parenthesis opens a call.
-/

namespace ScopedMacros

inductive Standing where
  | apart
  | name
  | line
  deriving DecidableEq, Repr

namespace Standing

/-- Where a token stands that follows one of the given class. -/
def after : Standing → Token.Kind → Standing
  | _, .directive => .line
  | .line, .lineEnd => .apart
  | .line, _ => .line
  | _, .ident => .name
  | _, _ => .apart

def afterAll (standing : Standing) (tokens : List Token) : Standing :=
  (tokens.map Token.kind).foldl after standing

variable {standing : Standing}

theorem afterAll_cons (standing : Standing) (token : Token) (rest : List Token) :
    standing.afterAll (token :: rest) = (standing.after token.kind).afterAll rest := rfl

theorem afterAll_append (standing : Standing) (tokens rest : List Token) :
    standing.afterAll (tokens ++ rest) = (standing.afterAll tokens).afterAll rest := by
  rw [afterAll, List.map_append, List.foldl_append]
  rfl

theorem after_ne_line (text : standing ≠ .line) {kind : Token.Kind} (inside : kind ≠ .directive) :
    standing.after kind ≠ .line := by
  unfold after
  split
  · contradiction
  · exact nofun
  · contradiction
  · exact nofun
  · exact nofun

theorem after_line {kind : Token.Kind} (inside : kind ≠ .lineEnd) :
    Standing.line.after kind = .line := by
  cases kind with
  | lineEnd => contradiction
  | _ => rfl

theorem afterAll_line {tokens : List Token}
    (inside : ∀ token ∈ tokens, token.kind ≠ .lineEnd) : Standing.line.afterAll tokens = .line := by
  induction tokens with
  | nil => rfl
  | cons token rest ih =>
      rw [afterAll_cons, after_line (inside token (by simp)),
        ih fun other member => inside other (by simp [member])]

/-- After a directive line the next token stands apart. -/
theorem afterAll_item {word stop : Token} {arguments : List Token} (standing : Standing)
    (proper : (Item.line word arguments stop).Proper) :
    standing.afterAll (Item.line word arguments stop).tokens = .apart := by
  obtain ⟨directive, inside, isEnd⟩ := proper
  have opened : standing.after word.kind = .line := by
    rw [directive]
    cases standing <;> rfl
  have stays := afterAll_line fun token member =>
    (Builder.kind_ne_of_inside (inside token member)).2
  rw [Item.tokens, List.cons_append, afterAll_cons, opened, afterAll_append, stays, afterAll_cons,
    isEnd]
  rfl

end Standing

/-! ## Whole lines -/

namespace Token

theorem afterAll_of_laid {fresh : Bool} {cursor : Cursor} {items : List Item}
    (laid : Laid fresh cursor items) (whole : Bytes.WholeLines cursor.rest) {standing : Standing}
    (text : standing ≠ .line) (starts : cursor.rest = [] → standing = .apart) :
    standing.afterAll (items.flatMap Item.tokens) = .apart := by
  induction laid generalizing standing with
  | stop fresh ended => exact starts ended
  | @text fresh cursor first rest lexeme items noHead left lexed laid ih =>
      rw [List.flatMap_cons, Standing.afterAll_append]
      refine ih (whole.of_suffix (List.drop_suffix _ _)) ?_ ?_
      · refine Standing.after_ne_line text fun directive => ?_
        have inline := Lexeme.isInline_inSource lexed
        have same : lexeme.kind = .directive := directive
        rw [same] at inline
        cases inline
      · intro ended
        have ends := endsLine_of_ended whole left lexed ended
        have space : (cursor.token first lexeme).kind = .space := Lexeme.kind_of_endsLine lexed ends
        rw [Item.tokens, Standing.afterAll_cons, space]
        cases standing with
        | line => exact absurd rfl text
        | _ => rfl
  | line _ line _ ih =>
      rw [List.flatMap_cons, Standing.afterAll_append, Standing.afterAll_item standing line.proper]
      exact ih (whole.of_suffix line.suffix) (by decide) fun _ => rfl

end Token

/-! ## Builders -/

namespace Builder

/-- Whether the innermost open construct that is no call is a block. -/
def AtText : List (Frame × List Node) → Prop
  | (.call _ _ _ _, _) :: rest => AtText rest
  | frames => AtBlock frames

theorem atText_of_atBlock {frames : List (Frame × List Node)} (block : AtBlock frames) :
    AtText frames := by
  unfold AtText
  split
  · cases block
  · exact block

/-- What holds of a builder where the next token stands. -/
structure Stands (standing : Standing) (builder : Builder) : Prop where
  text : standing ≠ .line → AtText builder.frames
  closed : standing = .apart → AtBlock builder.frames → builder.call? = none

theorem stands_empty : Stands .apart empty where
  text := fun _ => trivial
  closed := fun _ _ => rfl

variable {builder next : Builder} {token : Token} {inBody : Bool}

theorem call?_push {node : Node} (other : ∀ location name, node ≠ .ident location name) :
    (builder.push node).call? = none := by
  unfold call?
  split
  · next same =>
      injection same with same
      exact absurd same (other _ _)
  · rfl

theorem call?_leaf (taken : builder.leaf token = .ok next) (noName : token.kind ≠ .ident) :
    next.call? = none := by
  unfold leaf at taken
  split at taken
  · contradiction
  case h_9 => cases taken
  all_goals
    cases taken
    exact call?_push nofun

/-- A token of text leaves the builder in the block or in a call. -/
theorem stands_plain (block : AtBlock builder.frames) (inside : token.kind ≠ .directive)
    (taken : builder.plain token = .ok next) :
    AtText next.frames ∧ (token.kind ≠ .ident → AtBlock next.frames → next.call? = none) := by
  have ofLeaf : builder.leaf token = .ok next →
      AtText next.frames ∧ (token.kind ≠ .ident → AtBlock next.frames → next.call? = none) := by
    intro taken
    rw [frames_leaf taken]
    exact ⟨atText_of_atBlock block, fun noName _ => call?_leaf taken noName⟩
  unfold plain at taken
  split at taken
  · contradiction
  · split at taken
    · next opened =>
        cases taken
        obtain ⟨location, name, before, frames⟩ := frames_call? opened
        have text : AtText next.frames := by
          rw [frames]
          show AtText builder.frames
          exact atText_of_atBlock block
        exact ⟨text, fun _ inCall => by rw [frames] at inCall; exact inCall.elim⟩
    · exact ofLeaf taken
  · exact ofLeaf taken

theorem stands_argument {nodes : List Node} {outer : Builder} {location : Location} {name : Bytes}
    {depth : Nat} {arguments : List (List Node)} (text : AtText outer.frames)
    (taken : argument nodes outer location name depth arguments token = .ok next) :
    AtText next.frames ∧ (AtBlock next.frames → next.call? = none) := by
  have ofLeaf : ∀ depth, (Builder.mk nodes
      ((.call location name depth arguments, outer.nodes) :: outer.frames)).leaf token = .ok next →
      AtText next.frames ∧ (AtBlock next.frames → next.call? = none) := by
    intro depth taken
    rw [frames_leaf taken]
    exact ⟨text, fun inCall => inCall.elim⟩
  unfold argument at taken
  dsimp only at taken
  split at taken
  · cases taken
  · cases taken
  · cases taken
    exact ⟨text, fun inCall => inCall.elim⟩
  · cases taken
    exact ⟨text, fun _ => call?_push nofun⟩
  · exact ofLeaf _ taken
  · split at taken
    · next opened =>
        cases taken
        obtain ⟨_, _, _, frames⟩ := frames_call? opened
        rw [frames]
        exact ⟨text, fun inCall => inCall.elim⟩
    · exact ofLeaf _ taken
  · exact ofLeaf _ taken

/-- The end of a directive line leads back to a block. -/
theorem stands_finishLine {outer : Builder} {word stop : Token} {purpose : Purpose}
    {tokens : List Token} (isEnd : stop.kind = .lineEnd) (block : AtBlock outer.frames)
    (finished : finishLine outer word purpose tokens stop = .ok next) :
    AtBlock next.frames ∧ next.call? = none := by
  cases purpose with
  | define =>
      obtain ⟨head, taken, _⟩ := bind_eq_ok_iff.1 finished
      obtain ⟨name, _, taken⟩ := bind_eq_ok_iff.1 taken
      obtain ⟨parameters, _, taken⟩ := bind_eq_ok_iff.1 taken
      simp [isEnd] at taken
  | ifDefined positive =>
      obtain ⟨_, _, finished⟩ := bind_eq_ok_iff.1 finished
      obtain ⟨_, _, finished⟩ := bind_eq_ok_iff.1 finished
      cases finished
      exact ⟨trivial, rfl⟩
  | ifTrue earlier =>
      obtain ⟨_, _, finished⟩ := bind_eq_ok_iff.1 finished
      obtain ⟨_, _, finished⟩ := bind_eq_ok_iff.1 finished
      cases finished
      exact ⟨trivial, rfl⟩
  | otherwise last earlier =>
      obtain ⟨_, _, finished⟩ := bind_eq_ok_iff.1 finished
      cases finished
      exact ⟨trivial, rfl⟩
  | endIf last earlier no =>
      obtain ⟨_, _, finished⟩ := bind_eq_ok_iff.1 finished
      cases finished
      refine ⟨block, call?_push fun location name same => ?_⟩
      obtain ⟨_, _, _, _, isCond⟩ := Branch.exists_chain_eq_cond last earlier no
      rw [isCond] at same
      cases same
  | _ =>
      obtain ⟨_, _, finished⟩ := bind_eq_ok_iff.1 finished
      obtain ⟨_, _, finished⟩ := bind_eq_ok_iff.1 finished
      cases finished
      exact ⟨block, call?_push nofun⟩

/-- The last token of a directive line leads back to a block. -/
theorem atBlock_of_lineEnd (formed : builder.Formed inBody) (isEnd : token.kind = .lineEnd)
    (taken : builder.step token = .ok next) : AtBlock next.frames ∧ next.call? = none := by
  obtain ⟨nodes, frames⟩ := builder
  have block : AtBlock frames → AtBlock next.frames ∧ next.call? = none := by
    intro block
    rw [step_of_atBlock block] at taken
    simp [plain, leaf, isEnd] at taken
  have framesFormed := formed.frames
  cases frames with
  | nil => exact block trivial
  | cons entry rest =>
      obtain ⟨frame, before⟩ := entry
      cases frame with
      | line word purpose tokens =>
          simp only [step, isEnd, endsLine, if_true] at taken
          exact stands_finishLine isEnd framesFormed.2.2.1 taken
      | call => simp [step, argument, isEnd] at taken
      | define =>
          simp only [step, isEnd, if_true] at taken
          cases taken
          exact ⟨framesFormed.2.2.1, rfl⟩
      | branch => exact block trivial
      | otherwise => exact block trivial

/-- Outside directive lines, a token that starts none leaves the builder there. -/
theorem stands_text (text : AtText builder.frames) (inside : token.kind ≠ .directive)
    (taken : builder.step token = .ok next) :
    AtText next.frames ∧ (token.kind ≠ .ident → AtBlock next.frames → next.call? = none) := by
  obtain ⟨nodes, frames⟩ := builder
  change AtText frames at text
  unfold AtText at text
  split at text
  · obtain ⟨stays, closed⟩ := stands_argument text taken
    exact ⟨stays, fun _ => closed⟩
  · rw [step_of_atBlock text] at taken
    exact stands_plain text inside taken

theorem stands_step {standing : Standing} (formed : builder.Formed inBody)
    (stands : Stands standing builder) (taken : builder.step token = .ok next) :
    Stands (standing.after token.kind) next := by
  by_cases isDirective : token.kind = .directive
  · have inLine : standing.after token.kind = .line := by
      rw [isDirective]
      cases standing <;> rfl
    rw [inLine]
    exact ⟨fun text => absurd rfl text, nofun⟩
  by_cases inLine : standing = .line
  · subst inLine
    by_cases isEnd : token.kind = .lineEnd
    · obtain ⟨block, closed⟩ := atBlock_of_lineEnd formed isEnd taken
      exact ⟨fun _ => atText_of_atBlock block, fun _ _ => closed⟩
    · rw [Standing.after_line isEnd]
      exact ⟨fun text => absurd rfl text, nofun⟩
  · obtain ⟨text, closed⟩ := stands_text (stands.text inLine) isDirective taken
    refine ⟨fun _ => text, fun apart => closed fun name => ?_⟩
    rw [name] at apart
    cases standing with
    | line => exact inLine rfl
    | apart => cases apart
    | name => cases apart

theorem stands_foldlM {standing : Standing} {tokens : List Token} (formed : builder.Formed inBody)
    (orderly : Token.Orderly inBody tokens) (stands : Stands standing builder)
    (taken : tokens.foldlM step builder = .ok next) : Stands (standing.afterAll tokens) next := by
  induction tokens generalizing inBody builder standing with
  | nil =>
      cases taken
      exact stands
  | cons token rest ih =>
      rw [List.foldlM_cons] at taken
      obtain ⟨middle, first, taken⟩ := bind_eq_ok_iff.1 taken
      exact ih (formed_step formed orderly.1 first) orderly.2 (stands_step formed stands first) taken

/-- A directive line can start only in a block. -/
theorem atBlock_of_directive (text : AtText builder.frames) (isDirective : token.kind = .directive)
    (taken : builder.step token = .ok next) : AtBlock builder.frames := by
  obtain ⟨nodes, frames⟩ := builder
  change AtText frames at text
  unfold AtText at text
  split at text
  · simp [step, argument, isDirective] at taken
  · exact text

end Builder

end ScopedMacros
