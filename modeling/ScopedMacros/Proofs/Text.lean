import ScopedMacros.Proofs.Stack

/-!
# The text of nodes

A stretch of text is read into nodes that have the words of its tokens.  The nodes keep less than the
tokens: of a call, only the place where it starts is left.
-/

namespace ScopedMacros

/-- A token of text without its place. -/
inductive Word where
  | name (text : Bytes)
  | space (text : Bytes)
  | other (text : Bytes)
  deriving DecidableEq, Repr

namespace Word

def leftParen : Word := .other [Byte.leftParen]
def rightParen : Word := .other [Byte.rightParen]
def comma : Word := .other [Byte.comma]

end Word

def Token.word (token : Token) : Word :=
  match token.kind with
  | .ident => .name token.text
  | .space => .space token.text
  | _ => .other token.text

namespace Node

mutual

/-- The words that a node of text is written with. -/
def words : Node → List Word
  | .ident _ name => [.name name]
  | .call _ name arguments =>
      .name name :: .leftParen :: wordsOfArguments arguments ++ [.rightParen]
  | .space _ content => [.space content]
  | .text _ content => [.other content]
  | .currentLine _ => [.name (bytes "__LINE__")]
  | .currentFile _ => [.name (bytes "__FILE__")]
  | _ => []

def wordsOf : List Node → List Word
  | [] => []
  | node :: rest => words node ++ wordsOf rest

def wordsOfArguments : List (List Node) → List Word
  | [] => []
  | [last] => wordsOf last
  | first :: second :: rest => wordsOf first ++ .comma :: wordsOfArguments (second :: rest)

end

theorem wordsOf_append (left right : List Node) :
    wordsOf (left ++ right) = wordsOf left ++ wordsOf right := by
  induction left with
  | nil => rfl
  | cons node rest ih => rw [List.cons_append, wordsOf, ih, wordsOf, List.append_assoc]

/-- The words of arguments that are followed by another one. -/
theorem wordsOfArguments_append (arguments : List (List Node)) (last : List Node) :
    wordsOfArguments (arguments ++ [last]) =
      arguments.flatMap (fun argument => wordsOf argument ++ [.comma]) ++ wordsOf last := by
  induction arguments with
  | nil => rfl
  | cons first rest ih =>
      cases rest with
      | nil => simp [wordsOfArguments]
      | cons second others =>
          rw [List.cons_append, List.cons_append, wordsOfArguments, ← List.cons_append, ih]
          simp

/-- The words of the arguments of a call when its parenthesis is closed. -/
theorem wordsOfArguments_closed (arguments : List (List Node)) (nodes : List Node) :
    wordsOfArguments
        (if arguments.isEmpty && nodes.isEmpty then [] else nodes.reverse :: arguments).reverse =
      arguments.reverse.flatMap (fun argument => wordsOf argument ++ [.comma]) ++
        wordsOf nodes.reverse := by
  split
  · rename_i empty
    simp only [Bool.and_eq_true, List.isEmpty_iff] at empty
    rw [empty.1, empty.2]
    rfl
  · rw [List.reverse_cons, wordsOfArguments_append]

/-- Where the first node other than space starts. -/
def start? (nodes : List Node) : Option Position :=
  (nodes.find? (!·.isSpace)).map (·.location.start)

end Node

/-- A token that neither starts nor ends a line, and is a mark only if it is written as one. -/
structure Token.InLine (token : Token) : Prop where
  noDirective : token.kind ≠ .directive
  noEnd : token.kind ≠ .lineEnd
  mark : ∀ mark ∈ token.kind.mark?, token.text = mark

theorem Token.inLine_of_proper {token : Token} (proper : (Item.text token).Proper) :
    token.InLine := by
  obtain ⟨noDirective, noEnd⟩ := Builder.kind_ne_of_inside (.inl proper.1)
  exact ⟨noDirective, noEnd, proper.2⟩

/-- Where the first token other than space starts. -/
def Token.start? (tokens : List Token) : Option Position :=
  (tokens.find? (·.kind != .space)).map (·.location.start)

/-- Nodes of text are spelled by tokens: they have the same words and start at the same place. -/
structure Text (tokens : List Token) (nodes : List Node) : Prop where
  words : Node.wordsOf nodes = tokens.map Token.word
  start : Node.start? nodes = Token.start? tokens
  plain : ∀ node ∈ nodes, node.Plain

/-- A node is spelled by a single token. -/
structure Leaf (token : Token) (node : Node) : Prop where
  words : node.words = [token.word]
  space : node.isSpace = (token.kind == .space)
  location : node.location = token.location
  plain : node.Plain

theorem Node.start?_append (left right : List Node) :
    Node.start? (left ++ right) = (Node.start? left).or (Node.start? right) := by
  rw [Node.start?, List.find?_append, Option.map_or]
  rfl

theorem Token.start?_append (left right : List Token) :
    Token.start? (left ++ right) = (Token.start? left).or (Token.start? right) := by
  rw [Token.start?, List.find?_append, Option.map_or]
  rfl

namespace Text

theorem nil : Text [] [] :=
  ⟨rfl, rfl, by simp⟩

variable {tokens : List Token} {nodes : List Node}

/-- One more token spells one more node. -/
theorem snoc {token : Token} {node : Node} (text : Text tokens nodes) (leaf : Leaf token node) :
    Text (tokens ++ [token]) (nodes ++ [node]) where
  words := by
    simp [Node.wordsOf_append, Node.wordsOf, text.words, leaf.words]
  start := by
    have same : Node.start? [node] = Token.start? [token] := by
      cases space : token.kind == .space with
      | true => simp [Node.start?, Token.start?, leaf.space, space, bne]
      | false => simp [Node.start?, Token.start?, leaf.space, space, bne, leaf.location]
    rw [Node.start?_append, Token.start?_append, text.start, same]
  plain := by
    intro other member
    rcases List.mem_append.1 member with member | member
    · exact text.plain other member
    · rw [List.mem_singleton.1 member]
      exact leaf.plain

/-- The tokens of a call go on where its name ends. -/
theorem call {group : List Token} {location whole : Location} {name : Bytes}
    {arguments : List (List Node)} (text : Text tokens (nodes ++ [.ident location name]))
    (start : whole.start = location.start)
    (words : .leftParen :: Node.wordsOfArguments arguments ++ [.rightParen] = group.map Token.word)
    (plain : ∀ argument ∈ arguments, ∀ node ∈ argument, node.Plain) :
    Text (tokens ++ group) (nodes ++ [.call whole name arguments]) where
  words := by
    rw [List.map_append, ← text.words, ← words]
    simp [Node.wordsOf_append, Node.wordsOf, Node.words]
  start := by
    have here : Node.start? [.call whole name arguments] = some location.start :=
      congrArg some start
    have before : (Node.start? nodes).or (some location.start) = Token.start? tokens := by
      rw [← text.start, Node.start?_append]
      rfl
    rw [Node.start?_append, Token.start?_append, here, ← before]
    cases Node.start? nodes <;> rfl
  plain := by
    intro node member
    rcases List.mem_append.1 member with member | member
    · exact text.plain node (List.mem_append_left _ member)
    · rw [List.mem_singleton.1 member]
      exact .call _ _ _ plain

end Text

namespace Builder

theorem leaf_of_ok {builder next : Builder} {token : Token}
    (taken : builder.leaf token = .ok next) : ∃ node, next = builder.push node ∧ Leaf token node := by
  unfold leaf at taken
  split at taken
  case h_1 kind =>
    cases taken
    refine ⟨_, rfl, ?_⟩
    unfold ofName
    split
    · rename_i same
      exact ⟨by simp [Node.words, Token.word, kind, same], by simp [Node.isSpace, kind], rfl,
        .currentLine _⟩
    split
    · rename_i same
      exact ⟨by simp [Node.words, Token.word, kind, same], by simp [Node.isSpace, kind], rfl,
        .currentFile _⟩
    · exact ⟨by simp [Node.words, Token.word, kind], by simp [Node.isSpace, kind], rfl,
        .ident _ _⟩
  case h_2 kind =>
    cases taken
    exact ⟨_, rfl, by simp [Node.words, Token.word, kind], by simp [Node.isSpace, kind], rfl,
      .space _ _⟩
  case h_9 => cases taken
  all_goals
    rename_i kind
    cases taken
    exact ⟨_, rfl, by simp [Node.words, Token.word, kind], by simp [Node.isSpace, kind], rfl,
      .text _ _⟩

/-- What is open after the tokens of a text that began with a builder: calls, one in the other, each
spelled so far by the tokens after its name. -/
inductive Inside (base : Builder) : List Token → Builder → Prop where
  | flat {tokens : List Token} {nodes : List Node} (text : Text tokens nodes.reverse) :
      Inside base tokens ⟨nodes ++ base.nodes, base.frames⟩
  | call {tokens inner : List Token} {paren : Token} {nodes before : List Node}
      {frames : List (Frame × List Node)} {location : Location} {name : Bytes} {depth : Nat}
      {arguments : List (List Node)}
      (outer : Inside base tokens ⟨.ident location name :: before, frames⟩)
      (opens : paren.word = .leftParen)
      (words : arguments.reverse.flatMap (fun argument => Node.wordsOf argument ++ [.comma]) ++
        Node.wordsOf nodes.reverse = inner.map Token.word)
      (plain : ∀ argument ∈ nodes :: arguments, ∀ node ∈ argument, node.Plain) :
      Inside base (tokens ++ paren :: inner)
        ⟨nodes, (.call location name depth arguments, before) :: frames⟩

/-- The innermost construct takes tokens as text, up to the end of a line. -/
def ReadsText (frames : List (Frame × List Node)) : Prop :=
  ∀ nodes token, token.kind ≠ .lineEnd →
    (Builder.mk nodes frames).step token = (Builder.mk nodes frames).plain token

theorem readsText_of_atBlock {frames : List (Frame × List Node)} (block : AtBlock frames) :
    ReadsText frames :=
  fun nodes token _ => step_of_atBlock (show AtBlock (Builder.mk nodes frames).frames from block) token

theorem readsText_define (word : Token) (name : Bytes) (parameters : Option (List Bytes))
    (before : List Node) (frames : List (Frame × List Node)) :
    ReadsText ((.define word name parameters, before) :: frames) :=
  fun _ _ noEnd => if_neg noEnd

namespace Inside

variable {base : Builder} {tokens : List Token}

theorem push {builder : Builder} {token : Token} {node : Node}
    (inside : Inside base tokens builder) (leaf : Leaf token node) :
    Inside base (tokens ++ [token]) (builder.push node) := by
  cases inside with
  | @flat tokens nodes text =>
      have longer : Text (tokens ++ [token]) (node :: nodes).reverse := by
        rw [List.reverse_cons]
        exact text.snoc leaf
      exact .flat longer
  | @call _ inner paren nodes _ _ _ _ _ arguments outer opens words plain =>
      rw [List.append_assoc, List.cons_append]
      refine .call outer opens ?_ ?_
      · rw [List.map_append, ← words]
        simp [Node.wordsOf_append, Node.wordsOf, leaf.words]
      · intro argument member other inner
        rcases List.mem_cons.1 member with rfl | member
        · rcases List.mem_cons.1 inner with rfl | inner
          · exact leaf.plain
          · exact plain _ (by simp) other inner
        · exact plain argument (by simp [member]) other inner

/-- The name of a call becomes the call once all its tokens are read. -/
theorem close {before : List Node} {frames : List (Frame × List Node)} {location whole : Location}
    {name : Bytes} {arguments : List (List Node)} {group : List Token}
    (noName : ∀ location name before, base.nodes ≠ .ident location name :: before)
    (inside : Inside base tokens ⟨.ident location name :: before, frames⟩)
    (start : whole.start = location.start)
    (words : .leftParen :: Node.wordsOfArguments arguments ++ [.rightParen] = group.map Token.word)
    (plain : ∀ argument ∈ arguments, ∀ node ∈ argument, node.Plain) :
    Inside base (tokens ++ group) ⟨.call whole name arguments :: before, frames⟩ := by
  generalize reached : Builder.mk (.ident location name :: before) frames = builder at inside
  cases inside with
  | @flat tokens nodes text =>
      injection reached with nodes_eq frames_eq
      subst frames_eq
      cases nodes with
      | nil => exact absurd nodes_eq.symm (noName _ _ _)
      | cons node rest =>
          injection nodes_eq with same others
          subst same others
          rw [List.reverse_cons] at text
          have longer : Text (tokens ++ group) (.call whole name arguments :: rest).reverse := by
            rw [List.reverse_cons]
            exact text.call start words plain
          exact .flat longer
  | @call _ inner paren nodes _ _ _ _ _ earlier outer opens inside earlierPlain =>
      injection reached with nodes_eq frames_eq
      subst nodes_eq frames_eq
      rw [List.append_assoc, List.cons_append]
      refine .call outer opens ?_ ?_
      · rw [List.map_append, ← inside, ← words]
        simp [Node.wordsOf_append, Node.wordsOf, Node.words]
      · intro argument member node inner
        rcases List.mem_cons.1 member with rfl | member
        · rcases List.mem_cons.1 inner with rfl | inner
          · exact .call _ _ _ plain
          · exact earlierPlain _ List.mem_cons_self node (List.mem_cons_of_mem _ inner)
        · exact earlierPlain argument (by simp [member]) node inner

/-- A parenthesis after a name opens a call. -/
theorem open_call {builder next : Builder} {token : Token} (inside : Inside base tokens builder)
    (opens : token.word = .leftParen) (opened : builder.call? = some next) :
    Inside base (tokens ++ [token]) next := by
  obtain ⟨nodes, frames⟩ := builder
  unfold call? at opened
  split at opened
  · rename_i location name before found
    cases opened
    change nodes = _ at found
    subst found
    exact .call inside opens rfl (by simp)
  · cases opened

/-- One more token of text keeps to the spelling. -/
theorem step {builder next : Builder} {token : Token} (reads : ReadsText base.frames)
    (noName : ∀ location name before, base.nodes ≠ .ident location name :: before)
    (inLine : token.InLine) (inside : Inside base tokens builder)
    (taken : builder.step token = .ok next) : Inside base (tokens ++ [token]) next := by
  obtain ⟨noDirective, noEnd, mark⟩ := inLine
  have opens : token.kind = .leftParen → token.word = .leftParen := by
    intro kind
    have text := mark [Byte.leftParen] (by simp [kind, Token.Kind.mark?])
    simp [Token.word, kind, text, Word.leftParen]
  have leafCase : ∀ {builder}, Inside base tokens builder → builder.leaf token = .ok next →
      Inside base (tokens ++ [token]) next := by
    intro builder inside taken
    obtain ⟨node, rfl, leaf⟩ := leaf_of_ok taken
    exact inside.push leaf
  generalize reached : builder = given at inside
  cases inside with
  | @flat _ nodes text =>
      subst reached
      rw [reads _ token noEnd] at taken
      unfold plain at taken
      split at taken
      · contradiction
      · rename_i kind
        split at taken
        · rename_i opened
          cases taken
          exact open_call (.flat text) (opens kind) opened
        · exact leafCase (.flat text) taken
      · exact leafCase (.flat text) taken
  | @call before inner paren nodes outerNodes frames location name depth arguments outer parenWord
      words plain =>
      subst reached
      have reversed : ∀ argument ∈ nodes.reverse :: arguments, ∀ node ∈ argument, node.Plain := by
        simpa using plain
      have inside : ∀ depth, Inside base (before ++ paren :: inner)
          ⟨nodes, (.call location name depth arguments, outerNodes) :: frames⟩ :=
        fun depth => .call outer parenWord words plain
      change argument nodes ⟨outerNodes, frames⟩ location name depth arguments token = _ at taken
      unfold argument at taken
      dsimp only at taken
      split at taken
      · contradiction
      · contradiction
      · rename_i kind
        cases taken
        have text := mark [Byte.comma] (by simp [kind, Token.Kind.mark?])
        have comma : token.word = .comma := by simp [Token.word, kind, text, Word.comma]
        rw [List.append_assoc, List.cons_append]
        refine .call outer parenWord ?_ ?_
        · rw [List.map_append, ← words]
          simp [Node.wordsOf, comma]
        · exact List.forall_mem_cons.2 ⟨by simp, reversed⟩
      · rename_i kind
        cases taken
        have text := mark [Byte.rightParen] (by simp [kind, Token.Kind.mark?])
        have closes : token.word = .rightParen := by
          simp [Token.word, kind, text, Word.rightParen]
        rw [List.append_assoc]
        refine outer.close noName rfl ?_ ?_
        · rw [Node.wordsOfArguments_closed, words]
          simp [parenWord, closes]
        · intro argument member
          rw [List.mem_reverse] at member
          split at member
          · cases member
          · exact reversed argument member
      · exact leafCase (inside _) taken
      · rename_i kind
        split at taken
        · rename_i opened
          cases taken
          exact open_call (inside _) (opens kind) opened
        · exact leafCase (inside _) taken
      · exact leafCase (inside _) taken

theorem foldlM {builder next : Builder} {more : List Token} (reads : ReadsText base.frames)
    (noName : ∀ location name before, base.nodes ≠ .ident location name :: before)
    (inLine : ∀ token ∈ more, token.InLine) (inside : Inside base tokens builder)
    (taken : more.foldlM Builder.step builder = .ok next) : Inside base (tokens ++ more) next := by
  induction more generalizing tokens builder with
  | nil =>
      cases taken
      rw [List.append_nil]
      exact inside
  | cons token rest ih =>
      rw [List.foldlM_cons] at taken
      obtain ⟨middle, first, taken⟩ := bind_eq_ok_iff.1 taken
      have stepped := inside.step reads noName (inLine token (by simp)) first
      rw [List.append_cons]
      exact ih (fun other member => inLine other (by simp [member])) stepped taken

end Inside

end Builder

end ScopedMacros
