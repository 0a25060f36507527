import ScopedMacros.Proofs.NoMacro
import ScopedMacros.Proofs.Spelling

/-!
# Reading sources line by line

A reader goes through the items of a source in order and keeps track of the conditionals around the
current line and of the macros that are bound.  It passes over the branches that are not taken and
goes into included files.  The text that it comes upon is what the expansion gives out, as long as no
macro is used.
-/

namespace ScopedMacros

/-- What a reader does in a conditional: it reads the branch that is taken, it has not come to that
branch yet, or no further branch is taken. -/
inductive Gate where
  | reading
  | waiting
  | closed
  deriving DecidableEq, Repr

namespace Gate

/-- Whether a line inside these conditionals is read. -/
def live (gates : List Gate) : Bool :=
  gates.all (· == .reading)

def ofTest (holds : Bool) : Gate :=
  if holds then .reading else .waiting

/-- At another branch of the innermost conditional. -/
def turn (holds : Bool) : List Gate → List Gate
  | [] => []
  | .waiting :: outer => ofTest holds :: outer
  | _ :: outer => .closed :: outer

/-- The conditionals around the line after a directive line whose test has the given value. -/
def after (gates : List Gate) (holds : Bool) : Directive → List Gate
  | .ifTrue | .ifDefined | .ifUndefined =>
      (if live gates then ofTest holds else .closed) :: gates
  | .elseIf => turn holds gates
  | .otherwise => turn true gates
  | .endIf => gates.tail
  | _ => gates

theorem after_of_opens (gates : List Gate) (holds : Bool) {directive : Directive}
    (opens : directive.opens = true) :
    after gates holds directive = (if live gates then ofTest holds else .closed) :: gates := by
  cases directive <;> first | rfl | cases opens

/-- Directives outside conditionals leave the conditionals as they are. -/
theorem after_of_directive? (gates : List Gate) (holds : Bool) {node : Node} {directive : Directive}
    (form : node.directive? = some directive) : after gates holds directive = gates := by
  cases node <;> cases form <;> rfl

theorem turn_of_ne_waiting {gate : Gate} (passed : gate ≠ .waiting) (holds : Bool)
    (outer : List Gate) : turn holds (gate :: outer) = .closed :: outer := by
  cases gate with
  | waiting => exact absurd rfl passed
  | reading => rfl
  | closed => rfl

end Gate

/-- Whether the test of a directive line holds. -/
def Directive.holds (directive : Directive) (arguments : List Token) (stop : Token) (env : Env) :
    Bool :=
  match (directive.test? arguments stop).map (Test.eval env) with
  | some (.ok value) => value
  | _ => false

theorem Directive.holds_of_test? {directive : Directive} {arguments : List Token} {stop : Token}
    {env : Env} {test : Test} {value : Bool} (tests : directive.test? arguments stop = some test)
    (evaluates : test.eval env = .ok value) : directive.holds arguments stop env = value := by
  simp [Directive.holds, tests, evaluates]

/-- What a reader comes upon: a token of text, or a place where the text does not go on as in the
source, at a directive line or at the end of an included file. -/
inductive Mark where
  | text (token : Token)
  | gap
  deriving DecidableEq, Repr

/-- What a reader came upon, and the bindings at the end. -/
structure Passage where
  marks : List Mark
  env : Env

/-- Puts marks in front of those of a passage. -/
def Passage.after (marks : List Mark) (passage : Passage) : Passage :=
  { passage with marks := marks ++ passage.marks }

/-- The bindings after a directive. -/
def Node.rebind (env : Env) : Node → Env
  | .define location name parameters body => env.bind ⟨name, parameters, body, env, location⟩
  | .undef _ name => env.unbind name
  | _ => env

/-- The name and the items of the file that a directive includes. -/
def Node.included? (files : FileSet) (ancestry : List Bytes) : Node → Option (Bytes × List Item)
  | .inclusion _ path =>
      if path ∈ ancestry then none
      else
        match (files.contents? path).map (Token.scan path) with
        | some (.ok tokens) => some (path, Item.ofTokens tokens)
        | _ => none
  | _ => none

namespace Item

/-- The directive of a line, if the line is read and belongs to no conditional. -/
def node? (gates : List Gate) (word : Token) (arguments : List Token) (stop : Token) :
    Option Node :=
  match Directive.ofWord? word.text, Node.ofTokens (word :: arguments ++ [stop]) with
  | some directive, .ok [node] =>
      if Gate.live gates && !directive.opens && !directive.endsBranch then some node else none
  | _, _ => none

/-- The conditionals around the line after a directive line. -/
def gatesAfter (gates : List Gate) (env : Env) (word : Token) (arguments : List Token)
    (stop : Token) : List Gate :=
  match Directive.ofWord? word.text with
  | some directive => Gate.after gates (directive.holds arguments stop env) directive
  | none => gates

theorem exists_contents_of_included? {files : FileSet} {ancestry : List Bytes} {node : Node}
    {path : Bytes} {items : List Item} (found : node.included? files ancestry = some (path, items)) :
    path ∉ ancestry ∧ ∃ text tokens, files.contents? path = some text ∧
      Token.scan path text = .ok tokens ∧ items = ofTokens tokens := by
  cases node with
  | inclusion location wanted =>
      simp only [Node.included?] at found
      split at found
      · cases found
      · rename_i new
        split at found
        · rename_i tokens read
          obtain ⟨text, contents, scanned⟩ := Option.map_eq_some_iff.1 read
          cases found
          exact ⟨new, text, tokens, contents, scanned, rfl⟩
        · cases found
  | _ => cases found

/-- Reads items, inside conditionals and with macros bound, and included files with `inner`. -/
def readWith (files : FileSet) (ancestry : List Bytes) (inner : Bytes → Env → List Item → Passage)
    (gates : List Gate) (env : Env) : List Item → Passage
  | [] => ⟨[], env⟩
  | .text token :: rest =>
      (readWith files ancestry inner gates env rest).after
        (if Gate.live gates then [.text token] else [])
  | .line word arguments stop :: rest =>
      match node? gates word arguments stop with
      | none =>
          (readWith files ancestry inner (gatesAfter gates env word arguments stop) env rest).after
            [.gap]
      | some node =>
          match node.included? files ancestry with
          | none => (readWith files ancestry inner gates (node.rebind env) rest).after [.gap]
          | some (path, items) =>
              let file := inner path env items
              (readWith files ancestry inner gates file.env rest).after
                (.gap :: file.marks ++ [.gap])

/-- Reads items, inside conditionals and with macros bound.  No file is read within itself. -/
def read (files : FileSet) (ancestry : List Bytes) (gates : List Gate) (env : Env)
    (items : List Item) : Passage :=
  readWith files ancestry
    (fun path env items =>
      if _new : path ∈ files.names ∧ path ∉ ancestry then read files (path :: ancestry) [] env items
      else ⟨[], env⟩)
    gates env items
termination_by (Bytes.unseen files.names ancestry).length
decreasing_by exact Bytes.length_unseen_lt _new.1 _new.2

section

variable (files : FileSet) (ancestry : List Bytes) (gates : List Gate) (env : Env)

theorem read_nil : read files ancestry gates env [] = ⟨[], env⟩ := by
  rw [read, readWith]

theorem read_text (token : Token) (rest : List Item) :
    read files ancestry gates env (.text token :: rest) =
      (read files ancestry gates env rest).after (if Gate.live gates then [.text token] else []) := by
  rw [read, readWith, ← read]

theorem read_line (word stop : Token) (arguments : List Token) (rest : List Item) :
    read files ancestry gates env (.line word arguments stop :: rest) =
      match node? gates word arguments stop with
      | none =>
          (read files ancestry (gatesAfter gates env word arguments stop) env rest).after [.gap]
      | some node =>
          match node.included? files ancestry with
          | none => (read files ancestry gates (node.rebind env) rest).after [.gap]
          | some (path, items) =>
              let file := read files (path :: ancestry) [] env items
              (read files ancestry gates file.env rest).after (.gap :: file.marks ++ [.gap]) := by
  have unfolded := fun gates env => read.eq_def files ancestry gates env rest
  rw [read, readWith]
  split
  · rw [← unfolded]
  split
  · rw [← unfolded]
  · rename_i path items included
    obtain ⟨new, _, _, contents, _⟩ := exists_contents_of_included? included
    dsimp only
    rw [dif_pos ⟨FileSet.mem_names_of_contents? contents, new⟩, ← unfolded]

end

/-- Whatever follows, items are read with the given marks, up to the given conditionals and
bindings. -/
def Reads (files : FileSet) (ancestry : List Bytes) (gates : List Gate) (env : Env)
    (items : List Item) (marks : List Mark) (gates' : List Gate) (env' : Env) : Prop :=
  ∀ rest, read files ancestry gates env (items ++ rest) =
    (read files ancestry gates' env' rest).after marks

variable {files : FileSet} {ancestry : List Bytes} {gates middle final : List Gate}
  {env env' env'' : Env} {items others : List Item} {marks more : List Mark}

namespace Reads

theorem nil : Reads files ancestry gates env [] [] gates env :=
  fun _ => rfl

theorem append (first : Reads files ancestry gates env items marks middle env')
    (second : Reads files ancestry middle env' others more final env'') :
    Reads files ancestry gates env (items ++ others) (marks ++ more) final env'' := by
  intro rest
  rw [List.append_assoc, first, second]
  simp [Passage.after]

theorem cons {item : Item} (first : Reads files ancestry gates env [item] marks middle env')
    (second : Reads files ancestry middle env' others more final env'') :
    Reads files ancestry gates env (item :: others) (marks ++ more) final env'' :=
  first.append second

/-- Text that is read is come upon token by token. -/
theorem text (live : Gate.live gates = true) (tokens : List Token) :
    Reads files ancestry gates env (tokens.map .text) (tokens.map .text) gates env := by
  induction tokens with
  | nil => exact .nil
  | cons token rest ih =>
      have first : Reads files ancestry gates env [.text token] [.text token] gates env := by
        intro rest
        rw [List.singleton_append, read_text, if_pos live]
      exact first.cons ih

theorem skipped_text (idle : Gate.live gates = false) (tokens : List Token) :
    Reads files ancestry gates env (tokens.map .text) [] gates env := by
  induction tokens with
  | nil => exact .nil
  | cons token rest ih =>
      have first : Reads files ancestry gates env [.text token] [] gates env := by
        intro rest
        rw [List.singleton_append, read_text, if_neg (by simp [idle])]
      exact first.cons ih

variable {word stop : Token} {arguments : List Token} {directive : Directive}

/-- A line that has no effect of its own may still lead to another branch. -/
theorem gate (found : Directive.ofWord? word.text = some directive)
    (idle : node? gates word arguments stop = none)
    (turned : Gate.after gates (directive.holds arguments stop env) directive = final) :
    Reads files ancestry gates env [.line word arguments stop] [.gap] final env := by
  intro rest
  rw [List.singleton_append, read_line, idle]
  simp only [gatesAfter, found, turned]

/-- A directive other than an inclusion changes the bindings. -/
theorem effect {node : Node} (found : node? gates word arguments stop = some node)
    (alone : node.included? files ancestry = none) :
    Reads files ancestry gates env [.line word arguments stop] [.gap] gates (node.rebind env) := by
  intro rest
  rw [List.singleton_append, read_line, found]
  dsimp only
  rw [alone]

/-- An included file is read in place of the line that includes it. -/
theorem inclusion {node : Node} {path : Bytes} (found : node? gates word arguments stop = some node)
    (included : node.included? files ancestry = some (path, items))
    (inner : Reads files (path :: ancestry) [] env items marks [] env') :
    Reads files ancestry gates env [.line word arguments stop] (.gap :: marks ++ [.gap]) gates
      env' := by
  have file : read files (path :: ancestry) [] env items = ⟨marks, env'⟩ := by
    have whole := inner []
    rw [List.append_nil, read_nil] at whole
    simpa [Passage.after] using whole
  intro rest
  rw [List.singleton_append, read_line, found]
  dsimp only
  rw [included]
  dsimp only
  rw [file]

end Reads

variable {word stop : Token} {arguments : List Token} {directive : Directive} {node : Node}

theorem node?_of_idle (idle : Gate.live gates = false) : node? gates word arguments stop = none := by
  unfold node?
  split
  · rw [idle]
    rfl
  · rfl

theorem node?_of_conditional (found : Directive.ofWord? word.text = some directive)
    (conditional : directive.opens = true ∨ directive.endsBranch = true) :
    node? gates word arguments stop = none := by
  unfold node?
  split
  · rename_i other node same _
    obtain rfl : directive = other := Option.some.inj (found.symm.trans same)
    rcases conditional with opens | ends
    · simp [opens]
    · simp [ends]
  · rfl

theorem node?_of_alone (live : Gate.live gates = true)
    (found : Directive.ofWord? word.text = some directive)
    (form : node.directive? = some directive)
    (alone : Node.ofTokens (word :: arguments ++ [stop]) = .ok [node]) :
    node? gates word arguments stop = some node := by
  have simple : directive.opens = false ∧ directive.endsBranch = false := by
    cases node <;> cases form <;> exact ⟨rfl, rfl⟩
  unfold node?
  rw [found, alone]
  simp [live, simple]

/-- The last line of a conditional. -/
theorem Reads.endIf (found : Directive.ofWord? word.text = some .endIf) (gate : Gate)
    (outer : List Gate) :
    Reads files ancestry (gate :: outer) env [.line word arguments stop] [.gap] outer env :=
  .gate found (node?_of_conditional found (.inr rfl)) rfl

/-! ## Branches that are not taken -/

/-- Only gaps are come upon: in a block that is not read, and in the alternatives to a branch that
was taken. -/
def Skips (files : FileSet) (ancestry : List Bytes) (env : Env) : Part → List Item → Prop
  | .block, items => ∀ gates, Gate.live gates = false →
      ∃ count, Reads files ancestry gates env items (List.replicate count .gap) gates env
  | .alternatives, items => ∀ gate outer, gate ≠ .waiting →
      ∃ count, Reads files ancestry (gate :: outer) env items (List.replicate (count + 1) .gap)
        outer env

/-- A line that is not read, in front of items of which only gaps are come upon. -/
theorem Reads.gap_cons {item : Item} {count : Nat}
    (first : Reads files ancestry gates env [item] [.gap] middle env)
    (second : Reads files ancestry middle env others (List.replicate count .gap) final env) :
    Reads files ancestry gates env (item :: others) (List.replicate (count + 1) .gap) final env :=
  first.cons second

theorem Reads.gaps_append {count next : Nat}
    (first : Reads files ancestry gates env items (List.replicate count .gap) middle env)
    (second : Reads files ancestry middle env others (List.replicate next .gap) final env) :
    Reads files ancestry gates env (items ++ others) (List.replicate (count + next) .gap) final
      env := by
  rw [← List.replicate_append_replicate]
  exact first.append second

theorem skips_of_spelled {part : Part} {nodes : List Node} (spelled : Spelled part items nodes) :
    Skips files ancestry env part items := by
  induction spelled with
  | nil => exact fun gates idle => ⟨0, .nil⟩
  | text text spelled ih =>
      intro gates idle
      obtain ⟨count, rest⟩ := ih gates idle
      exact ⟨count, (Reads.skipped_text idle _).append rest⟩
  | line found form alone spelled ih =>
      intro gates idle
      obtain ⟨count, rest⟩ := ih gates idle
      refine ⟨count + 1, Reads.gap_cons (.gate found (node?_of_idle idle) ?_) rest⟩
      exact Gate.after_of_directive? gates _ form
  | cond found opens tests yesSpelled noSpelled spelled yesIh noIh ih =>
      intro gates idle
      obtain ⟨yesCount, yes⟩ := yesIh (.closed :: gates) rfl
      obtain ⟨noCount, no⟩ := noIh .closed gates (by decide)
      obtain ⟨count, rest⟩ := ih gates idle
      refine ⟨_, Reads.gap_cons (.gate found (node?_of_idle idle) ?_)
        (yes.gaps_append (no.gaps_append rest))⟩
      rw [Gate.after_of_opens gates _ opens, if_neg (by simp [idle])]
  | endIf found =>
      intro gate outer passed
      exact ⟨0, .endIf found gate outer⟩
  | @otherwise _ _ lastWord lastStop _ lastArguments _ _ found noSpelled closes noIh =>
      intro gate outer passed
      obtain ⟨count, no⟩ := noIh (.closed :: outer) rfl
      have ended : Reads files ancestry (.closed :: outer) env [.line lastWord lastArguments lastStop]
          (List.replicate 1 .gap) outer env := .endIf closes .closed outer
      refine ⟨_, Reads.gap_cons (.gate found (node?_of_conditional found (.inr rfl)) ?_)
        (no.gaps_append ended)⟩
      exact Gate.turn_of_ne_waiting passed true outer
  | elseIf found tests yesSpelled noSpelled yesIh noIh =>
      intro gate outer passed
      obtain ⟨yesCount, yes⟩ := yesIh (.closed :: outer) rfl
      obtain ⟨noCount, no⟩ := noIh .closed outer (by decide)
      refine ⟨_, Reads.gap_cons (.gate found (node?_of_conditional found (.inr rfl)) ?_)
        (yes.gaps_append no)⟩
      exact Gate.turn_of_ne_waiting passed _ outer

end Item

/-! ## What the expansion gives out -/

/-- What the expansion gives out at a mark. -/
def Mark.events : Mark → List Event
  | .text token => [token.event]
  | .gap => [.jump]

/-- Gaps in a row ask for one marker. -/
theorem Layout.same_gaps (count : Nat) :
    Same [.jump] ((List.replicate (count + 1) Mark.gap).flatMap Mark.events) := by
  induction count with
  | zero => exact .refl _
  | succ count ih => exact same_jump_jump.symm.trans (ih.cons .jump)

/-- Neither a line directive, which moves what follows it to another place, nor a warning, which asks
for no marker, nor the current line or file, which are no text of the source. -/
def Item.isTraceable : Item → Bool
  | .text token => token.word.isFixed
  | .line word _ _ =>
      Directive.ofWord? word.text != some .line && Directive.ofWord? word.text != some .warning

/-- All items of a source are traceable. -/
def Token.Traceable (file text : Bytes) : Prop :=
  ∀ tokens, scan file text = .ok tokens → ∀ item ∈ Item.ofTokens tokens, item.isTraceable = true

instance Token.decidableTraceable (file text : Bytes) : Decidable (Traceable file text) :=
  match read : scan file text with
  | .ok tokens =>
      decidable_of_iff (∀ item ∈ Item.ofTokens tokens, item.isTraceable = true)
        ⟨fun all _ same => Except.ok.inj (read.symm.trans same) ▸ all, fun all => all tokens read⟩
  | .error _ => .isTrue fun _ same => nomatch read.symm.trans same

namespace Expansion

open Step Item

/-- If an expansion succeeds and uses no macro, a reader of the items comes upon what the expansion
gives out.  The alternatives of a conditional come after a branch that was not taken, so that a
marker is owed. -/
def Tracks (files : FileSet) (context : Context) : Part → List Item → List Node → Prop
  | .block, items, nodes => ∀ gates env said final, Gate.live gates = true →
      run files context nodes env = ⟨said, .ok final⟩ → UsesNoMacro files context nodes env →
      ∃ marks, Reads files context.ancestry gates env items marks gates final ∧
        Layout.Same said (marks.flatMap Mark.events)
  | .alternatives, items, nodes => ∀ outer env said final, Gate.live outer = true →
      run files context nodes env = ⟨said, .ok final⟩ → UsesNoMacro files context nodes env →
      ∃ marks, Reads files context.ancestry (.waiting :: outer) env items marks outer final ∧
        Layout.Same (.jump :: said ++ [.jump]) (.jump :: marks.flatMap Mark.events)

variable {files : FileSet} {context : Context} {env final : Env} {said : List Event}

/-- A conditional whose test has been made goes on with one of its two sides. -/
theorem exists_marks_of_branches {yesItems noItems : List Item} {yes no : List Node}
    {outer : List Gate} (yesSpelled : Spelled .block yesItems yes)
    (noSpelled : Spelled .alternatives noItems no)
    (yesTracks : Tracks files context .block yesItems yes)
    (noTracks : Tracks files context .alternatives noItems no) (holds : Bool)
    (live : Gate.live outer = true)
    (ran : run files context (if holds then yes else no) env = ⟨said, .ok final⟩)
    (free : UsesNoMacro files context (if holds then yes else no) env) :
    ∃ marks, Reads files context.ancestry (Gate.ofTest holds :: outer) env (yesItems ++ noItems)
        marks outer final ∧
      Layout.Same (.jump :: said ++ [.jump]) (.jump :: marks.flatMap Mark.events) := by
  cases holds with
  | true =>
      obtain ⟨marks, reads, same⟩ := yesTracks (.reading :: outer) env said final live ran free
      obtain ⟨count, skips⟩ := skips_of_spelled noSpelled .reading outer (by decide)
      refine ⟨_, reads.append skips, ?_⟩
      rw [List.flatMap_append]
      exact (same.cons .jump).append (Layout.same_gaps count)
  | false =>
      obtain ⟨count, skips⟩ := skips_of_spelled yesSpelled (.waiting :: outer) rfl
      obtain ⟨marks, reads, same⟩ := noTracks outer env said final live ran free
      refine ⟨_, skips.append reads, ?_⟩
      rw [List.flatMap_append]
      exact same.trans ((Layout.same_gaps count).append (.refl _))

/-- The items of a source spell the nodes that it can be read into. -/
theorem exists_items_of_ofSource {file text : Bytes} {nodes : List Node}
    (read : Node.ofSource file text = .ok nodes) :
    ∃ tokens, Token.scan file text = .ok tokens ∧ Spelled .block (Item.ofTokens tokens) nodes := by
  obtain ⟨tokens, scanned, read⟩ := bind_eq_ok_iff.1 read
  obtain ⟨stop, whole, ended, laid⟩ := Token.exists_stop_of_scan scanned
  rw [whole] at read
  exact ⟨tokens, scanned, Node.spelled_of_ofTokens laid.proper ended read⟩

/-- A directive outside conditionals. -/
theorem exists_marks_of_line {word stop : Token} {arguments : List Token} {node : Node}
    {directive : Directive} {gates : List Gate}
    (traceable : ∀ path text, files.contents? path = some text → Token.Traceable path text)
    (deeper : ∀ path ∈ files.names, path ∉ context.ancestry → ∀ items nodes,
      Spelled .block items nodes → (∀ item ∈ items, item.isTraceable = true) →
        Tracks files (context.forFile path) .block items nodes)
    (found : Directive.ofWord? word.text = some directive)
    (form : node.directive? = some directive)
    (alone : Node.ofTokens (word :: arguments ++ [stop]) = .ok [node])
    (traced : (Item.line word arguments stop).isTraceable = true) (live : Gate.live gates = true)
    (ran : run files context [node] env = ⟨said, .ok final⟩)
    (free : UsesNoMacro files context [node] env) :
    ∃ marks, Reads files context.ancestry gates env [.line word arguments stop] marks gates final ∧
      Layout.Same said (marks.flatMap Mark.events) := by
  have effect := node?_of_alone live found form alone
  cases node with
  | define location name parameters body =>
      have answered := ofNode_eq_some files context (.define location name parameters body) env
      rw [ran] at answered
      simp only [ofNode] at answered
      split at answered
      · cases answered
      · cases answered
        exact ⟨_, .effect effect rfl, .refl _⟩
  | undef location name =>
      have answered := ofNode_eq_some files context (.undef location name) env
      rw [ran] at answered
      cases answered
      exact ⟨_, .effect effect rfl, .refl _⟩
  | inclusion location path =>
      obtain ⟨text, nodes, inner, new, contents, read, rfl, inside⟩ := exists_file_of_run ran
      have freeInside := (usesNoMacro_cons_iff.1 free).2.1 _ _ _ _ (.file new contents read)
      obtain ⟨tokens, scanned, spelled⟩ := exists_items_of_ofSource read
      have included : (Node.inclusion location path).included? files context.ancestry =
          some (path, Item.ofTokens tokens) := by
        simp [Node.included?, new, contents, scanned]
      obtain ⟨marks, reads, same⟩ := deeper path (FileSet.mem_names_of_contents? contents) new _ _
        spelled (traceable path text contents tokens scanned) [] env inner final rfl inside freeInside
      refine ⟨_, .inclusion effect included reads, ?_⟩
      rw [List.flatMap_append]
      exact ((Layout.same_jump_load path).append same).append (.refl [.jump])
  | error location message =>
      have answered := ofNode_eq_some files context (.error location message) env
      rw [ran] at answered
      cases answered
  | warning location message =>
      cases form
      simp [isTraceable, found] at traced
  | line location file number =>
      cases form
      simp [isTraceable, found] at traced
  | _ => cases form

/-- One level of inclusion: what holds of included files holds of the file that includes them. -/
theorem tracks_of_deeper
    (traceable : ∀ path text, files.contents? path = some text → Token.Traceable path text)
    (deeper : ∀ path ∈ files.names, path ∉ context.ancestry → ∀ items nodes,
      Spelled .block items nodes → (∀ item ∈ items, item.isTraceable = true) →
        Tracks files (context.forFile path) .block items nodes)
    {part : Part} {items : List Item} {nodes : List Node} (spelled : Spelled part items nodes)
    (traced : ∀ item ∈ items, item.isTraceable = true) : Tracks files context part items nodes := by
  induction spelled with
  | nil =>
      intro gates env said final live ran free
      rw [run_nil] at ran
      cases ran
      exact ⟨[], .nil, .refl []⟩
  | @text tokens nodes more rest text spelled ih =>
      intro gates env said final live ran free
      have fixed : ∀ token ∈ tokens, token.word.isFixed = true := fun token member =>
        traced (.text token) (by simp [member])
      obtain ⟨begun, first, same⟩ := same_of_text text fixed free.append_left
      obtain ⟨before, middle, later, begins, others, rfl⟩ := exists_middle_of_run_append ran
      rw [first] at begins
      cases begins
      obtain ⟨marks, reads, sameLater⟩ := ih (fun item member => traced item (by simp [member]))
        gates env later final live others (free.append_right first)
      refine ⟨_, (Reads.text live tokens).append reads, ?_⟩
      have marked : (tokens.map Mark.text).flatMap Mark.events = tokens.map Token.event := by
        rw [List.flatMap_map, List.map_eq_flatMap]
        rfl
      rw [List.flatMap_append, marked]
      exact same.append sameLater
  | @line word stop arguments node directive rest more found form alone spelled ih =>
      intro gates env said final live ran free
      rw [← List.singleton_append] at ran free
      obtain ⟨before, middle, later, first, others, rfl⟩ := exists_middle_of_run_append ran
      obtain ⟨marks, reads, same⟩ := exists_marks_of_line traceable deeper found form alone
        (traced _ (by simp)) live first free.append_left
      obtain ⟨further, readsRest, sameRest⟩ := ih (fun item member => traced item (by simp [member]))
        gates middle later final live others (free.append_right first)
      refine ⟨_, reads.cons readsRest, ?_⟩
      rw [List.flatMap_append]
      exact same.append sameRest
  | @cond word stop arguments directive test location yesItems noItems rest yes no more found opens
      tests yesSpelled noSpelled spelled yesIh noIh ih =>
      intro gates env said final live ran free
      rw [← List.singleton_append] at ran free
      obtain ⟨before, middle, later, first, others, rfl⟩ := exists_middle_of_run_append ran
      obtain ⟨holds, inner, value, rfl, branch⟩ := exists_branch_of_run first
      have freeBranch := (usesNoMacro_cons_iff.1 free).2.1 _ _ _ _ (.branch value)
      obtain ⟨marks, reads, same⟩ := exists_marks_of_branches yesSpelled noSpelled
        (yesIh fun item member => traced item (by simp [member]))
        (noIh fun item member => traced item (by simp [member])) holds live branch freeBranch
      obtain ⟨further, readsRest, sameRest⟩ := ih (fun item member => traced item (by simp [member]))
        gates middle later final live others (free.append_right first)
      have turned : Gate.after gates (directive.holds arguments stop env) directive =
          Gate.ofTest holds :: gates := by
        rw [Gate.after_of_opens gates _ opens, if_pos live, Directive.holds_of_test? tests value]
      have opened : Reads files context.ancestry gates env [.line word arguments stop] [.gap]
          (Gate.ofTest holds :: gates) env :=
        .gate found (node?_of_conditional found (.inl opens)) turned
      have whole := opened.cons (reads.append readsRest)
      rw [List.append_assoc] at whole
      refine ⟨_, whole, ?_⟩
      rw [← List.append_assoc, List.flatMap_append]
      exact same.append sameRest
  | endIf found =>
      intro outer env said final live ran free
      rw [run_nil] at ran
      cases ran
      exact ⟨_, .endIf found .waiting outer, .refl _⟩
  | @otherwise word stop lastWord lastStop arguments lastArguments items no found noSpelled closes
      noIh =>
      intro outer env said final live ran free
      obtain ⟨marks, reads, same⟩ := noIh (fun item member => traced item (by simp [member]))
        (.reading :: outer) env said final live ran free
      have turned : Reads files context.ancestry (.waiting :: outer) env [.line word arguments stop]
          [.gap] (.reading :: outer) env :=
        .gate found (node?_of_conditional found (.inr rfl)) rfl
      have ended : Reads files context.ancestry (.reading :: outer) final
          [.line lastWord lastArguments lastStop] [.gap] outer final := .endIf closes .reading outer
      refine ⟨_, turned.cons (reads.append ended), ?_⟩
      rw [List.flatMap_append, List.flatMap_append]
      exact Layout.same_jump_jump.symm.append (same.append (.refl [.jump]))
  | @elseIf word stop arguments test location yesItems noItems yes no found tests yesSpelled
      noSpelled yesIh noIh =>
      intro outer env said final live ran free
      obtain ⟨holds, inner, value, rfl, branch⟩ := exists_branch_of_run ran
      have freeBranch := (usesNoMacro_cons_iff.1 free).2.1 _ _ _ _ (.branch value)
      obtain ⟨marks, reads, same⟩ := exists_marks_of_branches yesSpelled noSpelled
        (yesIh fun item member => traced item (by simp [member]))
        (noIh fun item member => traced item (by simp [member])) holds live branch freeBranch
      have turned : Gate.after (.waiting :: outer) (Directive.elseIf.holds arguments stop env) .elseIf =
          Gate.ofTest holds :: outer := by
        rw [Directive.holds_of_test? tests value]
        rfl
      have opened : Reads files context.ancestry (.waiting :: outer) env [.line word arguments stop]
          [.gap] (Gate.ofTest holds :: outer) env :=
        .gate found (node?_of_conditional found (.inr rfl)) turned
      refine ⟨_, opened.cons reads, ?_⟩
      have once : Layout.Same (.jump :: (.jump :: inner ++ [.jump]) ++ [.jump])
          (.jump :: (.jump :: inner ++ [.jump])) := by
        have last := (Layout.Same.refl (.jump :: .jump :: inner)).append Layout.same_jump_jump
        simpa using last
      exact once.trans (same.cons .jump)

/-- A reader comes upon what a successful expansion gives out that uses no macro. -/
theorem tracks_of_spelled
    (traceable : ∀ path text, files.contents? path = some text → Token.Traceable path text)
    (context : Context) {part : Part} {items : List Item} {nodes : List Node}
    (spelled : Spelled part items nodes) (traced : ∀ item ∈ items, item.isTraceable = true) :
    Tracks files context part items nodes := by
  refine tracks_of_deeper traceable ?_ spelled traced
  intro path known new items nodes spelled traced
  exact tracks_of_spelled traceable (context.forFile path) spelled traced
termination_by (Bytes.unseen files.names context.ancestry).length
decreasing_by exact Bytes.length_unseen_lt known new

end Expansion

end ScopedMacros
