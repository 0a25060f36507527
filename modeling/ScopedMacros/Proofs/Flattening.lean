import Mathlib.Data.List.DropRight
import ScopedMacros.Proofs.Rendering
import ScopedMacros.Proofs.Scanned
import ScopedMacros.Proofs.Spelling

/-!
# Reading keeps the text

The texts in the nodes of a source, from left to right, are the texts of its tokens outside directive
lines and in the bodies of its definitions, except for the space at the two ends of a body.  None of
them is dropped, repeated or moved.
-/

namespace ScopedMacros

/-! ## The texts of nodes -/

namespace Node

mutual

/-- The texts that a node holds, from left to right. -/
def texts : Node → List Bytes
  | .ident _ name => [name]
  | .call _ name arguments =>
      name :: [Byte.leftParen] :: textsOfArguments arguments ++ [[Byte.rightParen]]
  | .define _ _ _ body => textsOf body
  | .cond _ _ yes no => textsOf yes ++ textsOf no
  | .space _ content => [content]
  | .text _ content => [content]
  | .currentLine _ => [bytes "__LINE__"]
  | .currentFile _ => [bytes "__FILE__"]
  | _ => []

def textsOf : List Node → List Bytes
  | [] => []
  | node :: rest => texts node ++ textsOf rest

/-- The texts of arguments, with commas between them. -/
def textsOfArguments : List (List Node) → List Bytes
  | [] => []
  | [last] => textsOf last
  | first :: second :: rest => textsOf first ++ [Byte.comma] :: textsOfArguments (second :: rest)

end

theorem textsOf_append (left right : List Node) :
    textsOf (left ++ right) = textsOf left ++ textsOf right := by
  induction left with
  | nil => rfl
  | cons node rest ih => rw [List.cons_append, textsOf, ih, textsOf, List.append_assoc]

theorem textsOf_eq_words {nodes : List Node}
    (each : ∀ node ∈ nodes, node.texts = node.words.map Word.text) :
    textsOf nodes = (wordsOf nodes).map Word.text := by
  induction nodes with
  | nil => rfl
  | cons node rest ih =>
      obtain ⟨first, others⟩ := List.forall_mem_cons.1 each
      rw [textsOf, wordsOf, List.map_append, first, ih others]

theorem textsOfArguments_eq_words {arguments : List (List Node)}
    (each : ∀ argument ∈ arguments, ∀ node ∈ argument, node.texts = node.words.map Word.text) :
    textsOfArguments arguments = (wordsOfArguments arguments).map Word.text := by
  induction arguments with
  | nil => rfl
  | cons first rest ih =>
      obtain ⟨here, others⟩ := List.forall_mem_cons.1 each
      cases rest with
      | nil => rw [textsOfArguments, wordsOfArguments, textsOf_eq_words here]
      | cons second more =>
          rw [textsOfArguments, wordsOfArguments, List.map_append, List.map_cons,
            textsOf_eq_words here, ih others]
          rfl

/-- The texts of a node of text are its words. -/
theorem Plain.texts_eq_words {node : Node} (plain : node.Plain) :
    node.texts = node.words.map Word.text := by
  induction plain with
  | call location name arguments _ ih =>
      rw [texts, words, textsOfArguments_eq_words ih]
      simp [Word.text, Word.leftParen, Word.rightParen]
  | ident | space | text | currentLine | currentFile => rfl

end Node

/-! ## Space at the ends -/

namespace Token

theorem text_word (token : Token) : token.word.text = token.text := by
  unfold word
  split <;> rfl

theorem isSpace_word (token : Token) : token.word.isSpace = (token.kind == .space) := by
  rw [word.eq_def]
  cases token.kind <;> rfl

/-- The tokens without the space at the two ends. -/
def trim (tokens : List Token) : List Token :=
  ((tokens.dropWhile (·.kind == .space)).reverse.dropWhile (·.kind == .space)).reverse

end Token

/-- The words without the space at the two ends. -/
def Word.trim (words : List Word) : List Word :=
  (words.dropWhile isSpace).rdropWhile isSpace

theorem Word.trim_map_word (tokens : List Token) :
    Word.trim (tokens.map Token.word) = (Token.trim tokens).map Token.word := by
  have same : isSpace ∘ Token.word = fun token => token.kind == .space :=
    funext Token.isSpace_word
  rw [trim, Token.trim, List.dropWhile_map, same, List.rdropWhile, ← List.map_reverse,
    List.dropWhile_map, same, List.map_reverse]

namespace Node

/-- A node of text other than space begins and ends with a word other than space. -/
theorem Plain.exists_words {node : Node} (plain : node.Plain) (solid : node.isSpace = false) :
    (∃ first rest, node.words = first :: rest ∧ first.isSpace = false) ∧
      ∃ init last, node.words = init ++ [last] ∧ last.isSpace = false := by
  cases plain with
  | call location name arguments _ =>
      rw [words]
      exact ⟨⟨_, _, rfl, rfl⟩, _, _, rfl, rfl⟩
  | space => cases solid
  | ident | text | currentLine | currentFile => exact ⟨⟨_, [], rfl, rfl⟩, [], _, rfl, rfl⟩

theorem Plain.words_of_isSpace {node : Node} (plain : node.Plain) (space : node.isSpace = true) :
    ∃ content, node.words = [.space content] := by
  cases plain with
  | space location content => exact ⟨content, rfl⟩
  | ident | call | text | currentLine | currentFile => cases space

theorem wordsOf_dropWhile {nodes : List Node} (plain : ∀ node ∈ nodes, node.Plain) :
    wordsOf (nodes.dropWhile isSpace) = (wordsOf nodes).dropWhile Word.isSpace := by
  induction nodes with
  | nil => rfl
  | cons node rest ih =>
      obtain ⟨here, others⟩ := List.forall_mem_cons.1 plain
      cases space : node.isSpace with
      | true =>
          obtain ⟨content, same⟩ := here.words_of_isSpace space
          rw [List.dropWhile_cons_of_pos space, ih others, wordsOf, same]
          rfl
      | false =>
          obtain ⟨⟨first, more, same, solid⟩, _⟩ := here.exists_words space
          rw [List.dropWhile_cons_of_neg (by simp [space]), wordsOf, same, List.cons_append,
            List.dropWhile_cons_of_neg (by simp [solid])]

theorem wordsOf_rdropWhile {nodes : List Node} (plain : ∀ node ∈ nodes, node.Plain) :
    wordsOf (nodes.rdropWhile isSpace) = (wordsOf nodes).rdropWhile Word.isSpace := by
  induction nodes using List.reverseRecOn with
  | nil => rfl
  | append_singleton rest node ih =>
      have here : node.Plain := plain node (by simp)
      have others : ∀ other ∈ rest, other.Plain := fun other member => plain other (by simp [member])
      have last : wordsOf [node] = node.words := List.append_nil _
      rw [wordsOf_append, last]
      cases space : node.isSpace with
      | true =>
          obtain ⟨content, same⟩ := here.words_of_isSpace space
          rw [List.rdropWhile_concat_pos _ _ _ space, ih others, same,
            List.rdropWhile_concat_pos _ _ _ rfl]
      | false =>
          obtain ⟨_, init, final, same, solid⟩ := here.exists_words space
          rw [List.rdropWhile_concat_neg _ _ _ (by simp [space]), wordsOf_append, last, same,
            ← List.append_assoc, List.rdropWhile_concat_neg _ _ _ (by simp [solid])]

/-- The words of trimmed nodes are the trimmed words. -/
theorem wordsOf_trim {nodes : List Node} (plain : ∀ node ∈ nodes, node.Plain) :
    wordsOf (trim nodes) = Word.trim (wordsOf nodes) := by
  have inner : ∀ node ∈ nodes.dropWhile isSpace, node.Plain :=
    fun node member => plain node ((List.dropWhile_sublist _).subset member)
  rw [Word.trim, ← wordsOf_dropWhile plain, ← wordsOf_rdropWhile inner]
  rfl

end Node

namespace Text

variable {tokens : List Token} {nodes : List Node}

/-- Nodes of text hold the texts of the tokens that spell them. -/
theorem texts (text : Text tokens nodes) : Node.textsOf nodes = tokens.map Token.text := by
  rw [Node.textsOf_eq_words fun node member => (text.plain node member).texts_eq_words, text.words,
    List.map_map]
  exact List.map_congr_left fun token _ => token.text_word

/-- The trimmed nodes hold the texts of the trimmed tokens. -/
theorem texts_trim (text : Text tokens nodes) :
    Node.textsOf (Node.trim nodes) = (Token.trim tokens).map Token.text := by
  have plain : ∀ node ∈ Node.trim nodes, node.Plain :=
    fun node member => text.plain node (Node.mem_of_mem_trim member)
  rw [Node.textsOf_eq_words fun node member => (plain node member).texts_eq_words,
    Node.wordsOf_trim text.plain, text.words, Word.trim_map_word, List.map_map]
  exact List.map_congr_left fun token _ => token.text_word

end Text

/-! ## Bodies of definitions -/

/-- The tokens of a directive line that stand in the body of a definition. -/
def Token.bodyOf (arguments : List Token) : List Token :=
  (arguments.dropWhile (·.kind != .body)).drop 1

namespace Builder

variable {word stop : Token} {arguments : List Token}

/-- The head of a definition is collected up to the body. -/
theorem foldlM_head {tokens head : List Token} {nodes before : List Node}
    {frames : List (Frame × List Node)}
    (inside : ∀ token ∈ head, token.kind ≠ .lineEnd ∧ token.kind ≠ .body) :
    head.foldlM step ⟨nodes, (.line word .define tokens, before) :: frames⟩ =
      .ok ⟨nodes, (.line word .define (head.reverse ++ tokens), before) :: frames⟩ := by
  induction head generalizing tokens with
  | nil => rfl
  | cons token rest ih =>
      obtain ⟨⟨noEnd, noBody⟩, others⟩ := List.forall_mem_cons.1 inside
      have stays : endsLine .define token.kind = false := by
        unfold endsLine
        split
        · contradiction
        · contradiction
        · rfl
      rw [List.foldlM_cons]
      simp only [step, stays]
      rw [List.reverse_cons, List.append_assoc, List.singleton_append]
      exact ih others

/-- The head of a definition goes on neither past its body nor past its line. -/
theorem kind_ne_of_mem_head (inside : ∀ token ∈ arguments, token.kind.isInline = true ∨
      token.kind = .body) :
    ∀ token ∈ arguments.takeWhile (·.kind != .body), token.kind ≠ .lineEnd ∧ token.kind ≠ .body := by
  intro token member
  refine ⟨?_, by simpa using List.mem_takeWhile_imp member⟩
  exact (kind_ne_of_inside (inside token ((List.takeWhile_sublist _).subset member))).2

theorem kind_of_opener {opener : Token} {body : List Token}
    (rest : arguments.dropWhile (·.kind != .body) = opener :: body) : opener.kind = .body := by
  have := List.head?_dropWhile_not (·.kind != .body) arguments
  rw [rest] at this
  simpa using this

/-- Tokens that can stand in a line, with marks that are written as such. -/
theorem inLine_of_genuine {token : Token} (inside : token.kind.isInline = true ∨ token.kind = .body)
    (genuine : token.Genuine) : token.InLine :=
  ⟨(kind_ne_of_inside inside).1, (kind_ne_of_inside inside).2, genuine.mark⟩

/-- The body of a definition is read as text up to the end of its line. -/
theorem exists_body_of_foldlM {name : Bytes} {parameters : Option (List Bytes)} {body : List Token}
    {final : Builder} (inLine : ∀ token ∈ body, token.InLine) (isEnd : stop.kind = .lineEnd)
    (taken : (body ++ [stop]).foldlM step ⟨[], [(.define word name parameters, [])]⟩ = .ok final) :
    ∃ location nodes, final = ⟨[.define location name parameters (Node.trim nodes)], []⟩ ∧
      Text body nodes := by
  let base : Builder := ⟨[], [(.define word name parameters, [])]⟩
  rw [List.foldlM_append] at taken
  obtain ⟨middle, read, ended⟩ := bind_eq_ok_iff.1 taken
  have start : Inside base [] ⟨[] ++ base.nodes, base.frames⟩ := .flat .nil
  have inside : Inside base ([] ++ body) middle :=
    start.foldlM (readsText_define _ _ _ _ _) (by simp [base]) inLine read
  rw [List.nil_append] at inside
  rw [List.foldlM_cons] at ended
  obtain ⟨whole, last, ended⟩ := bind_eq_ok_iff.1 ended
  cases ended
  cases inside with
  | @flat _ nodes text =>
      simp only [base, step, isEnd, if_true, List.append_nil] at last
      cases last
      exact ⟨_, nodes.reverse, rfl, text⟩
  | call => simp [step, argument, isEnd] at last

/-- A line that defines a macro is read into the definition with the text of its body, trimmed. -/
theorem exists_body_of_define {node : Node} (proper : (Item.line word arguments stop).Proper)
    (genuine : ∀ token ∈ arguments, token.Genuine)
    (found : Directive.ofWord? word.text = some .define)
    (alone : Node.ofTokens (word :: arguments ++ [stop]) = .ok [node]) :
    ∃ location name parameters nodes, node = .define location name parameters (Node.trim nodes) ∧
      Text (Token.bodyOf arguments) nodes := by
  obtain ⟨isDirective, inside, isEnd⟩ := id proper
  rw [Node.ofTokens_eq (Item.kind_ne_fileEnd proper)] at alone
  obtain ⟨final, taken, finished⟩ := bind_eq_ok_iff.1 alone
  obtain ⟨_, whole⟩ := eq_of_finish finished
  have block : AtBlock empty.frames := trivial
  have first : empty.step word = .ok ⟨[], [(.line word .define [], [])]⟩ :=
    (step_directive block isDirective).trans (directive_of_purpose? found rfl _)
  rw [List.cons_append, List.foldlM_cons, first] at taken
  change (arguments ++ [stop]).foldlM step _ = _ at taken
  have split : arguments = arguments.takeWhile (·.kind != .body) ++
      arguments.dropWhile (·.kind != .body) := List.takeWhile_append_dropWhile.symm
  rw [split, List.append_assoc, List.foldlM_append,
    foldlM_head (kind_ne_of_mem_head inside)] at taken
  change (_ ++ [stop]).foldlM step _ = _ at taken
  cases rest : arguments.dropWhile (·.kind != .body) with
  | nil =>
      -- A definition without a body is no definition.
      rw [rest, List.nil_append, List.foldlM_cons] at taken
      obtain ⟨_, last, _⟩ := bind_eq_ok_iff.1 taken
      simp only [step, isEnd, endsLine, if_true] at last
      obtain ⟨_, head, _⟩ := bind_eq_ok_iff.1 last
      obtain ⟨_, _, head⟩ := bind_eq_ok_iff.1 head
      obtain ⟨_, _, head⟩ := bind_eq_ok_iff.1 head
      simp [isEnd] at head
  | cons opener body =>
      have isBody := kind_of_opener rest
      have inLine : ∀ token ∈ body, token.InLine := by
        intro token member
        have among : token ∈ arguments :=
          (List.dropWhile_sublist _).subset (rest ▸ List.mem_cons_of_mem _ member)
        exact inLine_of_genuine (inside token among) (genuine token among)
      rw [rest, List.cons_append, List.foldlM_cons] at taken
      obtain ⟨opened, entered, taken⟩ := bind_eq_ok_iff.1 taken
      simp only [step, isBody, endsLine, if_true] at entered
      obtain ⟨⟨name, parameters⟩, _, entered⟩ := bind_eq_ok_iff.1 entered
      cases entered
      obtain ⟨location, nodes, rfl, text⟩ := exists_body_of_foldlM inLine isEnd taken
      refine ⟨location, name, parameters, nodes, by simpa using whole, ?_⟩
      rw [Token.bodyOf, rest]
      exact text

end Builder

/-! ## The texts of a source -/

/-- The tokens of an item that stand for text: a token of text itself, and those of the body of a
definition without the space at the two ends. -/
def Item.kept : Item → List Token
  | .text token => [token]
  | .line word arguments _ =>
      if Directive.ofWord? word.text = some .define then Token.trim (Token.bodyOf arguments) else []

theorem Item.kept_of_ne {word stop : Token} {arguments : List Token} {directive : Directive}
    (found : Directive.ofWord? word.text = some directive) (other : directive ≠ .define) :
    (Item.line word arguments stop).kept = [] := by
  rw [kept, if_neg]
  rw [found]
  simpa using other

theorem Item.flatMap_kept_texts (tokens : List Token) :
    (tokens.map Item.text).flatMap Item.kept = tokens := by
  rw [List.flatMap_map]
  exact List.flatMap_singleton' tokens

/-- A directive outside conditionals holds the text of its line. -/
theorem Node.texts_of_line {word stop : Token} {arguments : List Token} {directive : Directive}
    {node : Node} (proper : (Item.line word arguments stop).Proper)
    (genuine : ∀ token ∈ arguments, token.Genuine)
    (found : Directive.ofWord? word.text = some directive) (form : node.directive? = some directive)
    (alone : Node.ofTokens (word :: arguments ++ [stop]) = .ok [node]) :
    node.texts = (Item.line word arguments stop).kept.map Token.text := by
  by_cases defines : directive = .define
  · subst defines
    obtain ⟨location, name, parameters, nodes, rfl, text⟩ :=
      Builder.exists_body_of_define proper genuine found alone
    rw [Node.texts, text.texts_trim, Item.kept, if_pos found]
  · rw [Item.kept_of_ne found defines]
    cases node with
    | define =>
        cases form
        exact absurd rfl defines
    | undef | inclusion | error | warning | line => rfl
    | ident | call | cond | space | text | seq | currentLine | currentFile => cases form

/-- Nodes hold the texts of the items that spell them. -/
theorem Spelled.texts {part : Part} {items : List Item} {nodes : List Node}
    (spelled : Spelled part items nodes) (proper : ∀ item ∈ items, item.Proper)
    (genuine : ∀ item ∈ items, ∀ token ∈ item.tokens, token.Genuine) :
    Node.textsOf nodes = (items.flatMap Item.kept).map Token.text := by
  induction spelled with
  | nil => rfl
  | text text _ ih =>
      obtain ⟨_, properRest⟩ := List.forall_mem_append.1 proper
      obtain ⟨_, genuineRest⟩ := List.forall_mem_append.1 genuine
      rw [Node.textsOf_append, text.texts, ih properRest genuineRest, List.flatMap_append,
        List.map_append, Item.flatMap_kept_texts]
  | @line word stop arguments node directive rest more found form alone _ ih =>
      obtain ⟨properLine, properRest⟩ := List.forall_mem_cons.1 proper
      obtain ⟨genuineLine, genuineRest⟩ := List.forall_mem_cons.1 genuine
      have genuineArguments : ∀ token ∈ arguments, token.Genuine :=
        fun token member => genuineLine token (by simp [Item.tokens, member])
      rw [Node.textsOf, Node.texts_of_line properLine genuineArguments found form alone,
        ih properRest genuineRest, List.flatMap_cons, List.map_append]
  | @cond word stop arguments directive test location yesItems noItems rest yes no more found opens
      _ _ _ _ yes_ih no_ih ih =>
      have other : directive ≠ .define := by
        rintro rfl
        cases opens
      obtain ⟨_, proper⟩ := List.forall_mem_cons.1 proper
      obtain ⟨properYes, proper⟩ := List.forall_mem_append.1 proper
      obtain ⟨properNo, properRest⟩ := List.forall_mem_append.1 proper
      obtain ⟨_, genuine⟩ := List.forall_mem_cons.1 genuine
      obtain ⟨genuineYes, genuine⟩ := List.forall_mem_append.1 genuine
      obtain ⟨genuineNo, genuineRest⟩ := List.forall_mem_append.1 genuine
      rw [Node.textsOf, Node.texts, yes_ih properYes genuineYes, no_ih properNo genuineNo,
        ih properRest genuineRest, List.flatMap_cons, Item.kept_of_ne found other]
      simp
  | endIf found =>
      rw [List.flatMap_cons, Item.kept_of_ne found (by simp)]
      rfl
  | otherwise found _ closes ih =>
      obtain ⟨_, proper⟩ := List.forall_mem_cons.1 proper
      obtain ⟨properNo, _⟩ := List.forall_mem_append.1 proper
      obtain ⟨_, genuine⟩ := List.forall_mem_cons.1 genuine
      obtain ⟨genuineNo, _⟩ := List.forall_mem_append.1 genuine
      rw [ih properNo genuineNo, List.flatMap_cons, Item.kept_of_ne found (by simp),
        List.flatMap_append, List.flatMap_cons, Item.kept_of_ne closes (by simp)]
      simp
  | elseIf found _ _ _ yes_ih no_ih =>
      obtain ⟨_, proper⟩ := List.forall_mem_cons.1 proper
      obtain ⟨properYes, properNo⟩ := List.forall_mem_append.1 proper
      obtain ⟨_, genuine⟩ := List.forall_mem_cons.1 genuine
      obtain ⟨genuineYes, genuineNo⟩ := List.forall_mem_append.1 genuine
      rw [Node.textsOf, Node.texts, yes_ih properYes genuineYes, no_ih properNo genuineNo,
        List.flatMap_cons, Item.kept_of_ne found (by simp)]
      simp [Node.textsOf]

/-- Reading neither drops, repeats nor moves text.  A source that can be read is scanned into text and
directive lines, and a last token for its end; its nodes hold, from left to right, exactly the texts
of the tokens that stand outside directive lines or in the body of a definition, without the space at
the two ends of a body. -/
theorem Node.textsOf_ofSource {file text : Bytes} {nodes : List Node}
    (read : Node.ofSource file text = .ok nodes) :
    ∃ tokens stop, Token.scan file text = .ok tokens ∧
      tokens = (Item.ofTokens tokens).flatMap Item.tokens ++ [stop] ∧ stop.kind = .fileEnd ∧
      Node.textsOf nodes = ((Item.ofTokens tokens).flatMap Item.kept).map Token.text := by
  obtain ⟨tokens, scanned, read⟩ := bind_eq_ok_iff.1 read
  obtain ⟨stop, whole, ended, laid⟩ := Token.exists_stop_of_scan scanned
  have genuine := Token.wellRead_scan file text
  rw [scanned] at genuine
  rw [whole] at read
  refine ⟨tokens, stop, scanned, whole, ended, ?_⟩
  refine (Node.spelled_of_ofTokens laid.proper ended read).texts laid.proper ?_
  intro item member token among
  refine genuine token ?_
  rw [whole]
  exact List.mem_append_left _ (List.mem_flatMap.2 ⟨item, member, among⟩)

/-- A source with a trimmed body, calls in calls, empty arguments and a conditional. -/
def Node.mixedSource : Bytes :=
  bytes "#define F(x) ( x, F(1) ) \nF( a,(b), )\n#ifdef F\n__LINE__\n#else\nd()\n#endif\n"

theorem Node.textsOf_mixedSource :
    ∃ nodes tokens stop, Node.ofSource (bytes "t") mixedSource = .ok nodes ∧
      Token.scan (bytes "t") mixedSource = .ok tokens ∧
      tokens = (Item.ofTokens tokens).flatMap Item.tokens ++ [stop] ∧ stop.kind = .fileEnd ∧
      Node.textsOf nodes = ((Item.ofTokens tokens).flatMap Item.kept).map Token.text ∧
      Node.textsOf nodes =
        ["(", " ", "x", ",", " ", "F", "(", "1", ")", " ", ")", "F", "(", " ", "a", ",", "(", "b",
          ")", ",", " ", ")", "\n", "__LINE__", "\n", "d", "(", ")", "\n"].map bytes := by
  obtain ⟨nodes, read⟩ : ∃ nodes, Node.ofSource (bytes "t") mixedSource = .ok nodes :=
    exists_eq_ok_of_isOk (by decide +kernel)
  obtain ⟨tokens, stop, scanned, whole, ended, same⟩ := Node.textsOf_ofSource read
  refine ⟨nodes, tokens, stop, read, scanned, whole, ended, same, same.trans ?_⟩
  have evaluated : ((Item.ofTokens
      ((Token.scan (bytes "t") mixedSource).toOption.getD [])).flatMap Item.kept).map Token.text =
        ["(", " ", "x", ",", " ", "F", "(", "1", ")", " ", ")", "F", "(", " ", "a", ",", "(", "b",
          ")", ",", " ", ")", "\n", "__LINE__", "\n", "d", "(", ")", "\n"].map bytes := by
    decide +kernel
  rw [scanned] at evaluated
  exact evaluated

end ScopedMacros
