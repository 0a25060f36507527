import ScopedMacros.Node.Form

/-!
# What nodes are made of

The names in the nodes of a source are the texts of its name tokens, and the space in them is that
of its space tokens.  Where the tokens cannot be read, the error is one of form.
-/

namespace ScopedMacros

/-! ## Answers -/

/-- The answer is good, or it is an error of form. -/
def WellRead {α : Type} (good : α → Prop) : Except Error α → Prop
  | .ok answer => good answer
  | .error error => error.kind = .form

theorem WellRead.bind {α β : Type} {good : α → Prop} {better : β → Prop} {answer : Except Error α}
    {next : α → Except Error β} (well : WellRead good answer)
    (further : ∀ value, good value → WellRead better (next value)) :
    WellRead better (answer >>= next) := by
  cases answer with
  | error error => exact well
  | ok value => exact further value well

/-! ## Vocabularies -/

/-- The names and the space that may occur. -/
structure Vocabulary where
  name : Bytes → Prop
  space : Bytes → Prop

/-- A token that is no name and no space that may not occur. -/
structure Token.MadeFrom (vocabulary : Vocabulary) (token : Token) : Prop where
  name : token.kind = .ident → vocabulary.name token.text
  space : token.kind = .space → vocabulary.space token.text

/-- All names in the expression may occur. -/
def Arith.MadeFrom (vocabulary : Vocabulary) : Arith → Prop
  | .int _ _ => True
  | .ident _ name => vocabulary.name name
  | .neg _ operand | .complement _ operand => operand.MadeFrom vocabulary
  | .binary _ _ left right => left.MadeFrom vocabulary ∧ right.MadeFrom vocabulary

/-- All names in the test may occur. -/
def Test.MadeFrom (vocabulary : Vocabulary) : Test → Prop
  | .literal _ _ => True
  | .defined _ name => vocabulary.name name
  | .not _ operand => operand.MadeFrom vocabulary
  | .both _ left right | .either _ left right =>
      left.MadeFrom vocabulary ∧ right.MadeFrom vocabulary
  | .compare _ _ left right => left.MadeFrom vocabulary ∧ right.MadeFrom vocabulary

/-- All names and all space in the node may occur. -/
inductive Node.MadeFrom (vocabulary : Vocabulary) : Node → Prop where
  | ident (location : Location) {name : Bytes} (allowed : vocabulary.name name) :
      MadeFrom vocabulary (.ident location name)
  | call (location : Location) {name : Bytes} {arguments : List (List Node)}
      (allowed : vocabulary.name name)
      (each : ∀ argument ∈ arguments, ∀ node ∈ argument, MadeFrom vocabulary node) :
      MadeFrom vocabulary (.call location name arguments)
  | define (location : Location) {name : Bytes} {parameters : Option (List Bytes)}
      {body : List Node} (allowed : vocabulary.name name)
      (parametersAllowed : ∀ list ∈ parameters, ∀ parameter ∈ list, vocabulary.name parameter)
      (each : ∀ node ∈ body, MadeFrom vocabulary node) :
      MadeFrom vocabulary (.define location name parameters body)
  | undef (location : Location) {name : Bytes} (allowed : vocabulary.name name) :
      MadeFrom vocabulary (.undef location name)
  | inclusion (location : Location) (path : Bytes) : MadeFrom vocabulary (.inclusion location path)
  | cond (location : Location) {test : Test} {yes no : List Node}
      (allowed : test.MadeFrom vocabulary) (yesEach : ∀ node ∈ yes, MadeFrom vocabulary node)
      (noEach : ∀ node ∈ no, MadeFrom vocabulary node) :
      MadeFrom vocabulary (.cond location test yes no)
  | error (location : Location) (message : Bytes) : MadeFrom vocabulary (.error location message)
  | warning (location : Location) (message : Bytes) :
      MadeFrom vocabulary (.warning location message)
  | space (location : Location) {text : Bytes} (allowed : vocabulary.space text) :
      MadeFrom vocabulary (.space location text)
  | text (location : Location) (text : Bytes) : MadeFrom vocabulary (.text location text)
  | line (location : Location) (file : Option Bytes) (number : Int64) :
      MadeFrom vocabulary (.line location file number)
  | currentLine (location : Location) : MadeFrom vocabulary (.currentLine location)
  | currentFile (location : Location) : MadeFrom vocabulary (.currentFile location)

variable {vocabulary : Vocabulary}

/-! ## Expressions -/

/-- A good value, with tokens left that may occur. -/
structure Reading.MadeFrom {α : Type} {bound : Nat} (vocabulary : Vocabulary) (good : α → Prop)
    (reading : Reading α bound) : Prop where
  value : good reading.value
  rest : ∀ token ∈ reading.rest, token.MadeFrom vocabulary

theorem Reading.wellRead_close {α : Type} {bound : Nat} {good : α → Prop}
    {reading : Reading α bound} (made : reading.MadeFrom vocabulary good) (stop : Token)
    (what : Expectation) :
    WellRead (fun closed => closed.2.MadeFrom vocabulary good) (reading.close stop what) := by
  obtain ⟨value, rest, shorter⟩ := reading
  obtain ⟨holds, left⟩ := made
  cases rest with
  | nil => exact rfl
  | cons token rest =>
      simp only [Reading.close]
      split
      · exact ⟨holds, (List.forall_mem_cons.1 left).2⟩
      · exact rfl

namespace Arith

theorem madeFrom_relocate (location : Location) {tree : Arith} (made : tree.MadeFrom vocabulary) :
    (tree.relocate location).MadeFrom vocabulary := by
  cases tree <;> exact made

theorem madeFrom_ofToken? {token : Token} {tree : Arith} (made : token.MadeFrom vocabulary)
    (read : ofToken? token = some tree) : tree.MadeFrom vocabulary := by
  unfold ofToken? at read
  cases kind : token.kind with
  | integer value =>
      rw [kind] at read
      cases read
      trivial
  | ident =>
      rw [kind] at read
      cases read
      exact made.name kind
  | _ =>
      rw [kind] at read
      cases read

/-- An expression from tokens that may occur. -/
abbrev ReadFrom (vocabulary : Vocabulary) {bound : Nat} (answer : Except Error (Reading Arith bound)) :
    Prop :=
  WellRead (·.MadeFrom vocabulary (Arith.MadeFrom vocabulary)) answer

/-- Lists shorter than the bound are read well. -/
def ReadsWell (vocabulary : Vocabulary) (stop : Token) (bound : Nat) : Prop :=
  ∀ level tokens, tokens.length < bound → (∀ token ∈ tokens, token.MadeFrom vocabulary) →
    ReadFrom vocabulary (read stop level tokens)

variable {stop : Token} {tokens : List Token}

theorem wellRead_operand (shorter : ReadsWell vocabulary stop tokens.length)
    (made : ∀ token ∈ tokens, token.MadeFrom vocabulary) :
    ReadFrom vocabulary (read stop .operand tokens) := by
  cases tokens with
  | nil =>
      rw [read]
      exact rfl
  | cons token rest =>
      obtain ⟨first, others⟩ := List.forall_mem_cons.1 made
      have inner : ∀ level, ReadFrom vocabulary (read stop level rest) :=
        fun level => shorter level rest (Nat.lt_succ_self _) others
      rw [read.eq_def]
      dsimp only
      split
      · exact (inner .operand).bind fun operand holds => ⟨holds.value, holds.rest⟩
      split
      · exact (inner .operand).bind fun operand holds => ⟨holds.value, holds.rest⟩
      split
      · exact (inner .operand).bind fun operand holds => ⟨holds.value, holds.rest⟩
      split
      · refine (inner .sum).bind fun operand holds => ?_
        refine (Reading.wellRead_close holds stop .rightParen).bind fun closed holds => ?_
        exact ⟨madeFrom_relocate _ holds.value, holds.rest⟩
      split
      · next found => exact ⟨madeFrom_ofToken? first found, others⟩
      · exact rfl

theorem wellRead_shift (shorter : ReadsWell vocabulary stop tokens.length)
    (made : ∀ token ∈ tokens, token.MadeFrom vocabulary) :
    ReadFrom vocabulary (read stop .shift tokens) := by
  rw [read.eq_def]
  refine (wellRead_operand shorter made).bind fun left holds => ?_
  obtain ⟨value, rest, bound⟩ := left
  obtain ⟨holds, others⟩ := holds
  cases rest with
  | nil => exact ⟨holds, others⟩
  | cons token rest =>
      dsimp only
      split
      · exact ⟨holds, others⟩
      · refine (shorter .shift rest (Nat.lt_of_succ_lt bound)
          (List.forall_mem_cons.1 others).2).bind fun right more => ?_
        exact ⟨⟨holds, more.value⟩, more.rest⟩

theorem wellRead_chain (level : Level) {bound : Nat} {left : Reading Arith bound}
    (shorter : ReadsWell vocabulary stop bound)
    (made : left.MadeFrom vocabulary (Arith.MadeFrom vocabulary)) :
    ReadFrom vocabulary (readChain stop level left) := by
  induction measured : left.rest.length using Nat.strongRecOn generalizing left with
  | ind size ih =>
      obtain ⟨value, rest, bound⟩ := left
      obtain ⟨holds, others⟩ := id made
      rw [readChain.eq_def]
      cases rest with
      | nil => exact made
      | cons token rest =>
          dsimp only
          split
          · exact made
          · refine (shorter level.tighter rest (Nat.lt_of_succ_lt bound)
              (List.forall_mem_cons.1 others).2).bind fun right more => ?_
            have fewer : right.rest.length < size := by
              have := right.shorter
              simp only [List.length_cons] at measured
              omega
            exact ih _ fewer ⟨⟨holds, more.value⟩, more.rest⟩ rfl

theorem readsWell (stop : Token) (bound : Nat) : ReadsWell vocabulary stop bound := by
  induction bound with
  | zero =>
      intro level tokens less
      cases less
  | succ bound ih =>
      intro level tokens less made
      have shorter : ReadsWell vocabulary stop tokens.length :=
        fun level rest fewer => ih level rest (by omega)
      have product : ReadFrom vocabulary (read stop .product tokens) := by
        rw [read.eq_def]
        exact (wellRead_shift shorter made).bind fun left => wellRead_chain .product shorter
      cases level with
      | sum =>
          rw [read.eq_def]
          exact product.bind fun left => wellRead_chain .sum shorter
      | product => exact product
      | shift => exact wellRead_shift shorter made
      | operand => exact wellRead_operand shorter made

theorem wellRead_read (stop : Token) (level : Level)
    (made : ∀ token ∈ tokens, token.MadeFrom vocabulary) :
    ReadFrom vocabulary (read stop level tokens) :=
  readsWell stop (tokens.length + 1) level tokens (Nat.lt_succ_self _) made

end Arith

namespace Test

theorem madeFrom_relocate (location : Location) {test : Test} (made : test.MadeFrom vocabulary) :
    (test.relocate location).MadeFrom vocabulary := by
  cases test <;> exact made

theorem madeFrom_join (level : Level) {left right : Test} (first : left.MadeFrom vocabulary)
    (second : right.MadeFrom vocabulary) : (join level left right).MadeFrom vocabulary := by
  cases level <;> exact ⟨first, second⟩

theorem madeFrom_comparison (comparison : Comparison) (location : Location) {left right : Arith}
    (first : left.MadeFrom vocabulary) (second : right.MadeFrom vocabulary) :
    (comparison.test location left right).MadeFrom vocabulary := by
  cases comparison <;> exact ⟨first, second⟩

/-- A test from tokens that may occur. -/
abbrev ReadFrom (vocabulary : Vocabulary) {bound : Nat} (answer : Except Error (Reading Test bound)) :
    Prop :=
  WellRead (·.MadeFrom vocabulary (Test.MadeFrom vocabulary)) answer

variable {stop : Token} {tokens : List Token}

theorem wellRead_comparison (made : ∀ token ∈ tokens, token.MadeFrom vocabulary) :
    ReadFrom vocabulary (readComparison stop tokens) := by
  unfold readComparison
  refine (Arith.wellRead_read stop .sum made).bind fun left holds => ?_
  obtain ⟨value, rest, bound⟩ := left
  obtain ⟨holds, others⟩ := holds
  have bare : (nonzero value).MadeFrom vocabulary := ⟨holds, trivial⟩
  cases rest with
  | nil => exact ⟨bare, others⟩
  | cons token rest =>
      dsimp only
      split
      · exact ⟨bare, others⟩
      · refine (Arith.wellRead_read stop .sum (List.forall_mem_cons.1 others).2).bind
          fun right more => ?_
        exact ⟨madeFrom_comparison _ _ holds more.value, more.rest⟩

theorem wellRead_defined (word : Token) (made : ∀ token ∈ tokens, token.MadeFrom vocabulary) :
    ReadFrom vocabulary (readDefined stop word tokens) := by
  unfold readDefined
  split
  · next name rest =>
      obtain ⟨_, inner⟩ := List.forall_mem_cons.1 made
      obtain ⟨first, others⟩ := List.forall_mem_cons.1 inner
      split
      · next kind =>
          have reading : (Reading.mk name.text rest (by omega) :
              Reading Bytes (rest.length + 1 + 1 + 1)).MadeFrom vocabulary vocabulary.name :=
            ⟨first.name kind, others⟩
          exact (Reading.wellRead_close reading stop .endOfDefined).bind fun closed holds =>
            ⟨holds.value, holds.rest⟩
      · exact rfl
  · exact rfl
  · next name rest _ _ =>
      obtain ⟨first, others⟩ := List.forall_mem_cons.1 made
      split
      · next kind => exact ⟨first.name kind, others⟩
      · exact rfl
  · exact rfl

/-- Lists shorter than the bound are read well. -/
def ReadsWell (vocabulary : Vocabulary) (stop : Token) (bound : Nat) : Prop :=
  ∀ level tokens, tokens.length < bound → (∀ token ∈ tokens, token.MadeFrom vocabulary) →
    ReadFrom vocabulary (read stop level tokens)

theorem wellRead_single (shorter : ReadsWell vocabulary stop tokens.length)
    (made : ∀ token ∈ tokens, token.MadeFrom vocabulary) :
    ReadFrom vocabulary (read stop .single tokens) := by
  have comparison : ReadFrom vocabulary (readComparison stop tokens) := wellRead_comparison made
  rw [read.eq_def]
  cases tokens with
  | nil => exact comparison
  | cons token rest =>
      obtain ⟨_, others⟩ := List.forall_mem_cons.1 made
      have inner : ∀ level, ReadFrom vocabulary (read stop level rest) :=
        fun level => shorter level rest (Nat.lt_succ_self _) others
      dsimp only
      split
      · exact (inner .single).bind fun operand holds => ⟨holds.value, holds.rest⟩
      split
      · exact ⟨trivial, others⟩
      split
      · exact ⟨trivial, others⟩
      split
      · exact wellRead_defined token others
      split
      · split
        · exact rfl
        split
        · exact comparison
        · refine (inner .either).bind fun operand holds => ?_
          refine (Reading.wellRead_close holds stop .rightParen).bind fun closed holds => ?_
          exact ⟨madeFrom_relocate _ holds.value, holds.rest⟩
      · exact comparison

theorem wellRead_chain (level : Level) {bound : Nat} {left : Reading Test bound}
    (shorter : ReadsWell vocabulary stop bound)
    (made : left.MadeFrom vocabulary (Test.MadeFrom vocabulary)) :
    ReadFrom vocabulary (readChain stop level left) := by
  induction measured : left.rest.length using Nat.strongRecOn generalizing left with
  | ind size ih =>
      obtain ⟨value, rest, bound⟩ := left
      obtain ⟨holds, others⟩ := id made
      rw [readChain.eq_def]
      cases rest with
      | nil => exact made
      | cons token rest =>
          dsimp only
          split
          · refine (shorter level.tighter rest (Nat.lt_of_succ_lt bound)
              (List.forall_mem_cons.1 others).2).bind fun right more => ?_
            have fewer : right.rest.length < size := by
              have := right.shorter
              simp only [List.length_cons] at measured
              omega
            exact ih _ fewer ⟨madeFrom_join level holds more.value, more.rest⟩ rfl
          · exact made

theorem readsWell (stop : Token) (bound : Nat) : ReadsWell vocabulary stop bound := by
  induction bound with
  | zero =>
      intro level tokens less
      cases less
  | succ bound ih =>
      intro level tokens less made
      have shorter : ReadsWell vocabulary stop tokens.length :=
        fun level rest fewer => ih level rest (by omega)
      have both : ReadFrom vocabulary (read stop .both tokens) := by
        rw [read.eq_def]
        exact (wellRead_single shorter made).bind fun left => wellRead_chain .both shorter
      cases level with
      | either =>
          rw [read.eq_def]
          exact both.bind fun left => wellRead_chain .either shorter
      | both => exact both
      | single => exact wellRead_single shorter made

/-- The test of a conditional has the names of its tokens. -/
theorem wellRead_ofTokens (stop : Token) (made : ∀ token ∈ tokens, token.MadeFrom vocabulary) :
    WellRead (fun read => read.1.MadeFrom vocabulary) (ofTokens stop tokens) := by
  unfold ofTokens
  split
  · exact rfl
  · exact (readsWell stop (tokens.length + 1) .either tokens (Nat.lt_succ_self _) made).bind
      fun reading holds => holds.value

end Test

/-! ## Builders -/

/-- A branch whose test and nodes may occur. -/
structure Branch.MadeFrom (vocabulary : Vocabulary) (branch : Branch) : Prop where
  test : branch.test.MadeFrom vocabulary
  nodes : ∀ node ∈ branch.nodes, node.MadeFrom vocabulary

theorem Branch.madeFrom_chain {last : Branch} {earlier : List Branch} {no : List Node}
    (made : last.MadeFrom vocabulary) (each : ∀ branch ∈ earlier, branch.MadeFrom vocabulary)
    (noMade : ∀ node ∈ no, node.MadeFrom vocabulary) : (last.chain earlier no).MadeFrom vocabulary := by
  have around : ∀ {branch : Branch} {no : List Node}, branch.MadeFrom vocabulary →
      (∀ node ∈ no, node.MadeFrom vocabulary) → (branch.node no).MadeFrom vocabulary :=
    fun made noMade => .cond _ made.test made.nodes noMade
  unfold chain
  have start := around made noMade
  generalize last.node no = inner at start
  induction earlier generalizing inner with
  | nil => exact start
  | cons branch rest ih =>
      obtain ⟨first, others⟩ := List.forall_mem_cons.1 each
      refine ih others _ (around first fun node member => ?_)
      rw [List.mem_singleton.1 member]
      exact start

namespace Builder

def Purpose.MadeFrom (vocabulary : Vocabulary) : Purpose → Prop
  | .ifTrue earlier => ∀ branch ∈ earlier, branch.MadeFrom vocabulary
  | .otherwise last earlier =>
      last.MadeFrom vocabulary ∧ ∀ branch ∈ earlier, branch.MadeFrom vocabulary
  | .endIf last earlier no =>
      last.MadeFrom vocabulary ∧ (∀ branch ∈ earlier, branch.MadeFrom vocabulary) ∧
        ∀ node ∈ no, node.MadeFrom vocabulary
  | _ => True

def Frame.MadeFrom (vocabulary : Vocabulary) : Frame → Prop
  | .call _ name _ arguments =>
      vocabulary.name name ∧ ∀ argument ∈ arguments, ∀ node ∈ argument, node.MadeFrom vocabulary
  | .define _ name parameters =>
      vocabulary.name name ∧ ∀ list ∈ parameters, ∀ parameter ∈ list, vocabulary.name parameter
  | .line _ purpose tokens =>
      purpose.MadeFrom vocabulary ∧ ∀ token ∈ tokens, token.MadeFrom vocabulary
  | .branch _ _ test earlier =>
      test.MadeFrom vocabulary ∧ ∀ branch ∈ earlier, branch.MadeFrom vocabulary
  | .otherwise _ last earlier =>
      last.MadeFrom vocabulary ∧ ∀ branch ∈ earlier, branch.MadeFrom vocabulary

/-- All that the builder holds may occur. -/
structure MadeFrom (vocabulary : Vocabulary) (builder : Builder) : Prop where
  nodes : ∀ node ∈ builder.nodes, node.MadeFrom vocabulary
  frames : ∀ entry ∈ builder.frames,
    entry.1.MadeFrom vocabulary ∧ ∀ node ∈ entry.2, node.MadeFrom vocabulary

variable {builder : Builder} {token stop : Token} {tokens : List Token}

theorem madeFrom_empty : empty.MadeFrom vocabulary :=
  ⟨by simp [empty], by simp [empty]⟩

theorem MadeFrom.push {node : Node} (made : builder.MadeFrom vocabulary)
    (allowed : node.MadeFrom vocabulary) : (builder.push node).MadeFrom vocabulary :=
  ⟨List.forall_mem_cons.2 ⟨allowed, made.nodes⟩, made.frames⟩

theorem MadeFrom.enter {frame : Frame} (made : builder.MadeFrom vocabulary)
    (allowed : frame.MadeFrom vocabulary) : (builder.enter frame).MadeFrom vocabulary :=
  ⟨by simp [Builder.enter], List.forall_mem_cons.2 ⟨⟨allowed, made.nodes⟩, made.frames⟩⟩

/-- The builder below the innermost open construct. -/
theorem MadeFrom.outer {frame : Frame} {before : List Node} {frames : List (Frame × List Node)}
    (made : builder.MadeFrom vocabulary) (isTop : builder.frames = (frame, before) :: frames) :
    frame.MadeFrom vocabulary ∧ (Builder.mk before frames).MadeFrom vocabulary := by
  have framesMade := made.frames
  rw [isTop] at framesMade
  obtain ⟨⟨frameMade, beforeMade⟩, others⟩ := List.forall_mem_cons.1 framesMade
  exact ⟨frameMade, beforeMade, others⟩

theorem MadeFrom.reverse (made : builder.MadeFrom vocabulary) :
    ∀ node ∈ builder.nodes.reverse, node.MadeFrom vocabulary :=
  fun node member => made.nodes node (List.mem_reverse.1 member)

/-! ### Directive lines -/

theorem wellRead_takeName (what : Expectation)
    (made : ∀ token ∈ tokens, token.MadeFrom vocabulary) :
    WellRead (fun taken => vocabulary.name taken.1.text ∧ ∀ token ∈ taken.2, token.MadeFrom vocabulary)
      (takeName stop what tokens) := by
  unfold takeName
  split
  · obtain ⟨first, others⟩ := List.forall_mem_cons.1 made
    split
    · next kind => exact ⟨first.name kind, others⟩
    · exact rfl
  · exact rfl

theorem wellRead_takeString (what : Expectation) :
    WellRead (fun _ => True) (takeString stop what tokens) := by
  unfold takeString
  split
  · split
    · trivial
    · exact rfl
  · exact rfl

theorem wellRead_takeLine : WellRead (fun _ => True) (takeLine stop tokens) := by
  unfold takeLine
  split
  · split
    · trivial
    · trivial
    · exact rfl
  · exact rfl

theorem wellRead_takeParameters (name : Bytes) {seen : List Bytes}
    (made : ∀ token ∈ tokens, token.MadeFrom vocabulary)
    (seenMade : ∀ parameter ∈ seen, vocabulary.name parameter) :
    WellRead (fun taken => ∀ parameter ∈ taken.1, vocabulary.name parameter)
      (takeParameters stop name seen tokens) := by
  fun_induction takeParameters stop name seen tokens with
  | case1 => exact rfl
  | case2 => exact rfl
  | case3 => exact rfl
  | case4 seen token isName fresh =>
      have kind := Decidable.not_not.1 isName
      have first := (made token (by simp)).name kind
      exact List.forall_mem_append.2 ⟨seenMade, by simpa using first⟩
  | case5 seen token isName fresh next rest comma ih =>
      have kind := Decidable.not_not.1 isName
      have first := (made token (by simp)).name kind
      refine ih (fun other member => made other (by simp [member])) ?_
      exact List.forall_mem_append.2 ⟨seenMade, by simpa using first⟩
  | case6 seen token isName fresh next rest notComma =>
      have kind := Decidable.not_not.1 isName
      have first := (made token (by simp)).name kind
      exact List.forall_mem_append.2 ⟨seenMade, by simpa using first⟩

theorem wellRead_takeParameterList (name : Bytes)
    (made : ∀ token ∈ tokens, token.MadeFrom vocabulary) :
    WellRead (fun taken => ∀ list ∈ taken.1, ∀ parameter ∈ list, vocabulary.name parameter)
      (takeParameterList stop name tokens) := by
  unfold takeParameterList
  split
  · intro list same
    cases same
    simp
  · next rest _ =>
      refine (wellRead_takeParameters name (List.forall_mem_cons.1 made).2 (by simp)).bind
        fun taken allowed => ?_
      obtain ⟨parameters, rest⟩ := taken
      dsimp only
      split
      · intro list same
        cases same
        exact allowed
      · exact rfl
  · intro list same
    cases same

theorem wellRead_takeHead (made : ∀ token ∈ tokens, token.MadeFrom vocabulary) :
    WellRead (fun head => vocabulary.name head.1 ∧
        ∀ list ∈ head.2, ∀ parameter ∈ list, vocabulary.name parameter)
      (takeHead stop tokens) := by
  unfold takeHead
  refine (wellRead_takeName _ made).bind fun taken named => ?_
  obtain ⟨name, rest⟩ := taken
  obtain ⟨allowed, others⟩ := named
  refine (wellRead_takeParameterList name.text others).bind fun taken parametersAllowed => ?_
  obtain ⟨parameters, rest⟩ := taken
  dsimp only
  split
  · exact ⟨allowed, parametersAllowed⟩
  · exact rfl

theorem wellRead_endLine (word : Token) (rest : List Token) :
    WellRead (fun _ => True) (endLine word stop rest) := by
  unfold endLine
  dsimp only
  split
  · trivial
  · exact rfl

theorem wellRead_finishLine (word : Token) {purpose : Purpose} (made : builder.MadeFrom vocabulary)
    (purposeMade : purpose.MadeFrom vocabulary)
    (tokensMade : ∀ token ∈ tokens, token.MadeFrom vocabulary) :
    WellRead (MadeFrom vocabulary) (finishLine builder word purpose tokens stop) := by
  cases purpose with
  | define =>
      refine (wellRead_takeHead tokensMade).bind fun head allowed => ?_
      exact made.enter allowed
  | undef =>
      refine (wellRead_takeName _ tokensMade).bind fun taken named => ?_
      exact (wellRead_endLine word taken.2).bind fun _ _ => made.push (.undef _ named.1)
  | inclusion =>
      refine (wellRead_takeString _).bind fun taken _ => ?_
      exact (wellRead_endLine word taken.2).bind fun _ _ => made.push (.inclusion _ _)
  | error =>
      refine (wellRead_takeString _).bind fun taken _ => ?_
      exact (wellRead_endLine word taken.2).bind fun _ _ => made.push (.error _ _)
  | warning =>
      refine (wellRead_takeString _).bind fun taken _ => ?_
      exact (wellRead_endLine word taken.2).bind fun _ _ => made.push (.warning _ _)
  | line =>
      refine wellRead_takeLine.bind fun taken _ => ?_
      exact (wellRead_endLine word taken.2.2).bind fun _ _ => made.push (.line _ _ _)
  | ifDefined positive =>
      refine (wellRead_takeName _ tokensMade).bind fun taken named => ?_
      refine (wellRead_endLine word taken.2).bind fun _ _ => made.enter ⟨?_, by simp⟩
      cases positive <;> exact named.1
  | ifTrue earlier =>
      refine (Test.wellRead_ofTokens stop tokensMade).bind fun read tested => ?_
      exact (wellRead_endLine word read.2).bind fun _ _ => made.enter ⟨tested, purposeMade⟩
  | otherwise last earlier =>
      exact (wellRead_endLine word tokens).bind fun _ _ => made.enter purposeMade
  | endIf last earlier no =>
      refine (wellRead_endLine word tokens).bind fun _ _ => made.push ?_
      exact Branch.madeFrom_chain purposeMade.1 purposeMade.2.1 purposeMade.2.2

/-! ### Tokens outside directive lines -/

theorem wellRead_directive (word : Token) (made : builder.MadeFrom vocabulary) :
    WellRead (MadeFrom vocabulary) (builder.directive word) := by
  have start : ∀ purpose : Purpose, purpose.MadeFrom vocabulary →
      (builder.enter (.line word purpose [])).MadeFrom vocabulary :=
    fun purpose allowed => made.enter ⟨allowed, by simp⟩
  -- A word that ends a branch turns the branch into a part of the purpose of its line.
  have close : ∀ {purpose : Purpose} {frame : Frame} {before : List Node}
      {frames : List (Frame × List Node)}, builder.frames = (frame, before) :: frames →
      purpose.MadeFrom vocabulary →
      MadeFrom vocabulary ⟨[], (.line word purpose [], before) :: frames⟩ :=
    fun isTop allowed => (made.outer isTop).2.enter ⟨allowed, by simp⟩
  unfold directive
  dsimp only
  split
  · exact rfl
  iterate 9 exact start _ (by simp [Purpose.MadeFrom])
  · split
    · next isTop =>
        obtain ⟨test, earlier⟩ := (made.outer isTop).1
        exact close isTop (List.forall_mem_cons.2 ⟨⟨test, made.reverse⟩, earlier⟩)
    · exact rfl
    · exact rfl
  · split
    · next isTop =>
        obtain ⟨test, earlier⟩ := (made.outer isTop).1
        exact close isTop ⟨⟨test, made.reverse⟩, earlier⟩
    · exact rfl
    · exact rfl
  · split
    · next isTop =>
        obtain ⟨test, earlier⟩ := (made.outer isTop).1
        exact close isTop ⟨⟨test, made.reverse⟩, earlier, by simp⟩
    · next isTop =>
        obtain ⟨last, earlier⟩ := (made.outer isTop).1
        exact close isTop ⟨last, earlier, made.reverse⟩
    · exact rfl

theorem madeFrom_ofName (allowed : vocabulary.name token.text) :
    (ofName token).MadeFrom vocabulary := by
  unfold ofName
  split
  · exact .currentLine _
  split
  · exact .currentFile _
  · exact .ident _ allowed

theorem wellRead_leaf (made : builder.MadeFrom vocabulary) (allowed : token.MadeFrom vocabulary) :
    WellRead (MadeFrom vocabulary) (builder.leaf token) := by
  unfold leaf
  split
  case h_1 kind => exact made.push (madeFrom_ofName (allowed.name kind))
  case h_2 kind => exact made.push (.space _ (allowed.space kind))
  case h_9 => exact rfl
  all_goals exact made.push (.text _ _)

theorem madeFrom_call? {inner : Builder} (made : builder.MadeFrom vocabulary)
    (opened : builder.call? = some inner) : inner.MadeFrom vocabulary := by
  unfold call? at opened
  split at opened
  · next name before isLast =>
      cases opened
      have nodesMade := made.nodes
      rw [isLast] at nodesMade
      obtain ⟨first, others⟩ := List.forall_mem_cons.1 nodesMade
      cases first with
      | ident _ allowed =>
          have outer : (Builder.mk before builder.frames).MadeFrom vocabulary := ⟨others, made.frames⟩
          exact outer.enter ⟨allowed, by simp⟩
  · cases opened

theorem wellRead_plain (made : builder.MadeFrom vocabulary) (allowed : token.MadeFrom vocabulary) :
    WellRead (MadeFrom vocabulary) (builder.plain token) := by
  unfold plain
  split
  · exact wellRead_directive token made
  · split
    · next opened => exact madeFrom_call? made opened
    · exact wellRead_leaf made allowed
  · exact wellRead_leaf made allowed

theorem wellRead_argument {nodes : List Node} {outer : Builder} {location : Location} {name : Bytes}
    {depth : Nat} {arguments : List (List Node)} (made : outer.MadeFrom vocabulary)
    (frameMade : (Frame.call location name depth arguments).MadeFrom vocabulary)
    (nodesMade : ∀ node ∈ nodes, node.MadeFrom vocabulary) (allowed : token.MadeFrom vocabulary) :
    WellRead (MadeFrom vocabulary) (argument nodes outer location name depth arguments token) := by
  have inside : ∀ depth, MadeFrom vocabulary
      ⟨nodes, (.call location name depth arguments, outer.nodes) :: outer.frames⟩ :=
    fun depth => ⟨nodesMade, List.forall_mem_cons.2 ⟨⟨frameMade, made.nodes⟩, made.frames⟩⟩
  have more : ∀ argument ∈ nodes.reverse :: arguments, ∀ node ∈ argument,
      node.MadeFrom vocabulary :=
    List.forall_mem_cons.2 ⟨fun node member => nodesMade node (List.mem_reverse.1 member),
      frameMade.2⟩
  unfold argument
  dsimp only
  split
  · exact rfl
  · exact rfl
  · exact made.enter ⟨frameMade.1, more⟩
  · refine made.push (.call _ frameMade.1 fun argument member => ?_)
    rw [List.mem_reverse] at member
    split at member
    · cases member
    · exact more argument member
  · exact wellRead_leaf (inside _) allowed
  · split
    · next opened => exact madeFrom_call? (inside _) opened
    · exact wellRead_leaf (inside _) allowed
  · exact wellRead_leaf (inside _) allowed

/-- One more token adds nothing but what it is itself. -/
theorem wellRead_step (made : builder.MadeFrom vocabulary) (allowed : token.MadeFrom vocabulary) :
    WellRead (MadeFrom vocabulary) (builder.step token) := by
  unfold step
  split
  · next word purpose tokens before frames isTop =>
      obtain ⟨⟨purposeMade, tokensMade⟩, outer⟩ := made.outer isTop
      split
      · exact wellRead_finishLine word outer purposeMade fun token member =>
          tokensMade token (List.mem_reverse.1 member)
      · refine ⟨made.nodes, List.forall_mem_cons.2 ⟨⟨⟨purposeMade, ?_⟩, outer.nodes⟩, outer.frames⟩⟩
        exact List.forall_mem_cons.2 ⟨allowed, tokensMade⟩
  · next isTop =>
      obtain ⟨frameMade, outer⟩ := made.outer isTop
      exact wellRead_argument outer frameMade made.nodes allowed
  · next isTop =>
      obtain ⟨⟨named, parameters⟩, outer⟩ := made.outer isTop
      split
      · refine outer.push (.define _ named parameters fun node member => ?_)
        exact made.reverse node (Node.mem_of_mem_trim member)
      · exact wellRead_plain made allowed
  · exact wellRead_plain made allowed

theorem wellRead_foldlM (made : builder.MadeFrom vocabulary)
    (allowed : ∀ token ∈ tokens, token.MadeFrom vocabulary) :
    WellRead (MadeFrom vocabulary) (tokens.foldlM step builder) := by
  induction tokens generalizing builder with
  | nil => exact made
  | cons token rest ih =>
      obtain ⟨first, others⟩ := List.forall_mem_cons.1 allowed
      rw [List.foldlM_cons]
      exact (wellRead_step made first).bind fun next made => ih made others

theorem wellRead_finish (made : builder.MadeFrom vocabulary) :
    WellRead (fun nodes => ∀ node ∈ nodes, node.MadeFrom vocabulary) (builder.finish stop) := by
  unfold finish
  split
  · exact made.reverse
  · next isTop =>
      obtain ⟨⟨purposeMade, tokensMade⟩, outer⟩ := made.outer isTop
      refine (wellRead_finishLine _ outer purposeMade fun token member =>
        tokensMade token (List.mem_reverse.1 member)).bind fun _ _ => ?_
      exact rfl
  all_goals exact rfl

end Builder

/-- Nodes are made from what their tokens are, and tokens that cannot be read give an error of
form. -/
theorem Node.wellRead_ofTokens {tokens : List Token}
    (allowed : ∀ token ∈ tokens, token.MadeFrom vocabulary) :
    WellRead (fun nodes => ∀ node ∈ nodes, node.MadeFrom vocabulary) (Node.ofTokens tokens) := by
  unfold Node.ofTokens
  refine (Builder.wellRead_foldlM Builder.madeFrom_empty fun token member => ?_).bind
    fun builder made => Builder.wellRead_finish made
  exact allowed token ((List.takeWhile_sublist _).subset member)

end ScopedMacros
