import Mathlib.Data.List.Forall2
import ScopedMacros.Proofs.Scanned
import ScopedMacros.Proofs.Termination
import ScopedMacros.Session

/-!
# Definitions that nothing uses

If no source mentions a name, then a definition of it changes nothing.  Every macro that is defined
after it is closed over an environment that holds it, so the two expansions are related by
environments that differ in the name, in all scopes.
-/

namespace ScopedMacros

/-! ## Environments that differ in a name -/

namespace Env

theorem names_eq_map_macros (env : Env) : env.names = env.macros.map Macro.name := by
  induction env with
  | empty => rfl
  | cons name parameters body scope location rest _ ih => simp [names, macros, ih]

theorem mem_names_bind {env : Env} {definition : Macro} {name : Bytes}
    (member : name ∈ (env.bind definition).names) : name = definition.name ∨ name ∈ env.names := by
  rw [names_eq_map_macros] at member ⊢
  obtain ⟨other, among, rfl⟩ := List.mem_map.1 member
  rcases mem_macros_bind among with rfl | among
  · exact .inl rfl
  · exact .inr (List.mem_map_of_mem among)

theorem mem_names_unbind {env : Env} {unwanted name : Bytes}
    (member : name ∈ (env.unbind unwanted).names) : name ∈ env.names := by
  rw [names_eq_map_macros] at member ⊢
  obtain ⟨other, among, rfl⟩ := List.mem_map.1 member
  exact List.mem_map_of_mem (mem_macros_unbind among)

/-- A macro whose name comes before all others is bound in front of them. -/
theorem bind_of_lt {env : Env} {definition : Macro}
    (first : ∀ name ∈ env.names, definition.name < name) :
    env.bind definition = add definition env := by
  cases env with
  | empty => rfl
  | cons name parameters body scope location rest =>
      have less := first name List.mem_cons_self
      have different : definition.name ≠ name := by
        intro same
        rw [same] at less
        exact List.lt_irrefl _ less
      rw [bind, if_neg different, if_pos less]

end Env

/-- The text does not mention the name. -/
abbrev Node.Spares (unused : Bytes) : Node → Prop :=
  Node.MadeFrom (.named (· ≠ unused))

/-- The first environment is the second one without the name, in all scopes.  The names are in
order, and no macro but those that are left out mentions the name. -/
inductive Env.Lacks (unused : Bytes) : Env → Env → Prop where
  | empty : Lacks unused .empty .empty
  | cons {name : Bytes} {parameters : Option (List Bytes)} {body : List Node}
      {scope outer rest others : Env} (location : Location) (different : name ≠ unused)
      (parametersSpare : ∀ list ∈ parameters, ∀ parameter ∈ list, parameter ≠ unused)
      (bodySpares : ∀ node ∈ body, node.Spares unused) (scopes : Lacks unused scope outer)
      (inOrder : ∀ later ∈ others.names, name < later) (lacks : Lacks unused rest others) :
      Lacks unused (.cons name parameters body scope location rest)
        (.cons name parameters body outer location others)
  | leaveOut (parameters : Option (List Bytes)) (body : List Node) (scope : Env)
      (location : Location) {rest others : Env} (inOrder : ∀ later ∈ others.names, unused < later)
      (lacks : Lacks unused rest others) :
      Lacks unused rest (.cons unused parameters body scope location others)

/-- The same macro in a scope without the name, which it does not mention. -/
structure Macro.Lacks (unused : Bytes) (definition twin : Macro) : Prop where
  name : twin.name = definition.name
  parameters : twin.parameters = definition.parameters
  body : twin.body = definition.body
  location : twin.location = definition.location
  different : definition.name ≠ unused
  parametersSpare : ∀ list ∈ definition.parameters, ∀ parameter ∈ list, parameter ≠ unused
  bodySpares : ∀ node ∈ definition.body, node.Spares unused
  scope : Env.Lacks unused definition.scope twin.scope

namespace Env.Lacks

variable {unused : Bytes} {env other : Env} {definition twin : Macro}

theorem add (new : definition.Lacks unused twin)
    (inOrder : ∀ later ∈ other.names, definition.name < later) (lacks : Lacks unused env other) :
    Lacks unused (env.add definition) (other.add twin) := by
  rw [Env.add, Env.add, new.name, new.parameters, new.body, new.location]
  exact .cons _ new.different new.parametersSpare new.bodySpares new.scope inOrder lacks

theorem names_subset (lacks : Lacks unused env other) : env.names ⊆ other.names := by
  induction lacks with
  | empty => exact List.Subset.refl _
  | cons _ _ _ _ _ _ _ _ ih => exact List.cons_subset_cons _ ih
  | leaveOut _ _ _ _ _ _ ih => exact List.subset_cons_of_subset _ ih

theorem lookup {name : Bytes} (lacks : Lacks unused env other) (different : name ≠ unused) :
    Option.Rel (Macro.Lacks unused) (env.lookup name) (other.lookup name) := by
  induction lacks with
  | empty => exact .none
  | cons location boundDifferent parametersSpare bodySpares scopes _ _ _ ih =>
      unfold Env.lookup
      split
      · exact .some ⟨rfl, rfl, rfl, rfl, boundDifferent, parametersSpare, bodySpares, scopes⟩
      · exact ih
  | @leaveOut parameters body scope location rest others _ _ ih =>
      have passed : (Env.cons unused parameters body scope location others).lookup name =
          others.lookup name := if_neg different.symm
      rw [passed]
      exact ih

theorem lookup_cases {name : Bytes} (lacks : Lacks unused env other) (different : name ≠ unused) :
    env.lookup name = none ∧ other.lookup name = none ∨
      ∃ definition twin, env.lookup name = some definition ∧ other.lookup name = some twin ∧
        definition.Lacks unused twin := by
  have found := lacks.lookup different
  generalize env.lookup name = left at found
  generalize other.lookup name = right at found
  cases found with
  | none => exact .inl ⟨rfl, rfl⟩
  | some same => exact .inr ⟨_, _, rfl, rfl, same⟩

theorem contains {name : Bytes} (lacks : Lacks unused env other) (different : name ≠ unused) :
    other.contains name = env.contains name := by
  unfold Env.contains
  rcases lacks.lookup_cases different with ⟨free, otherFree⟩ | ⟨_, _, found, otherFound, _⟩
  · rw [free, otherFree]
  · rw [found, otherFound]
    rfl

/-- Where the new name comes before the one that is left out, the names in between are compared with
it in one environment only; that they are in order makes up for it. -/
theorem bind (lacks : Lacks unused env other) (new : definition.Lacks unused twin) :
    Lacks unused (env.bind definition) (other.bind twin) := by
  induction lacks with
  | empty => exact .add new (by simp [Env.names]) .empty
  | @cons name parameters body scope outer rest others location different parametersSpare bodySpares
      scopes inOrder lacks _ ih =>
      unfold Env.bind
      rw [new.name]
      split
      · next same => exact .add new (same ▸ inOrder) lacks
      next unlike =>
      split
      · next less =>
          refine .add new (fun later among => ?_)
            (.cons location different parametersSpare bodySpares scopes inOrder lacks)
          rcases List.mem_cons.1 among with rfl | among
          · exact less
          · exact List.lt_trans less (inOrder later among)
      · next notLess =>
          refine .cons location different parametersSpare bodySpares scopes (fun later among => ?_) ih
          rcases mem_names_bind among with rfl | among
          · rw [new.name]
            refine Decidable.byContradiction fun notMore => unlike ?_
            exact List.le_antisymm (List.not_lt.1 notMore) (List.not_lt.1 notLess)
          · exact inOrder later among
  | @leaveOut parameters body scope location rest others inOrder lacks ih =>
      have left : Lacks unused rest (.cons unused parameters body scope location others) :=
        .leaveOut parameters body scope location inOrder lacks
      have twinDifferent : twin.name ≠ unused := new.name ▸ new.different
      rw [Env.bind.eq_2, if_neg twinDifferent, new.name]
      split
      · next less =>
          have first : ∀ later ∈ unused :: others.names, definition.name < later := by
            intro later among
            rcases List.mem_cons.1 among with rfl | among
            · exact less
            · exact List.lt_trans less (inOrder later among)
          rw [Env.bind_of_lt fun later among =>
            first later (List.mem_cons_of_mem _ (lacks.names_subset among))]
          exact .add new first left
      · next notLess =>
          refine .leaveOut parameters body scope location (fun later among => ?_) ih
          rcases mem_names_bind among with rfl | among
          · rw [new.name]
            refine Decidable.byContradiction fun notMore => new.different ?_
            exact List.le_antisymm (List.not_lt.1 notMore) (List.not_lt.1 notLess)
          · exact inOrder later among

theorem unbind {name : Bytes} (lacks : Lacks unused env other) (different : name ≠ unused) :
    Lacks unused (env.unbind name) (other.unbind name) := by
  induction lacks with
  | empty => exact .empty
  | cons location boundDifferent parametersSpare bodySpares scopes inOrder lacks _ ih =>
      unfold Env.unbind
      split
      · exact lacks
      · exact .cons location boundDifferent parametersSpare bodySpares scopes
          (fun later among => inOrder later (mem_names_unbind among)) ih
  | @leaveOut parameters body scope location rest others inOrder _ ih =>
      have passed : (Env.cons unused parameters body scope location others).unbind name =
          .cons unused parameters body scope location (others.unbind name) := if_neg different.symm
      rw [passed]
      exact .leaveOut parameters body scope location
        (fun later among => inOrder later (mem_names_unbind among)) ih

theorem bindAll {definitions twins : List Macro}
    (each : List.Forall₂ (Macro.Lacks unused) definitions twins) (lacks : Lacks unused env other) :
    Lacks unused (env.bindAll definitions) (other.bindAll twins) := by
  induction each generalizing env other with
  | nil => exact lacks
  | cons new _ ih => exact ih (lacks.bind new)

end Env.Lacks

/-! ## Values -/

section

variable {unused : Bytes} {env other : Env}

theorem Macro.spares_alias? {body : List Node} {place : Location} {target : Bytes}
    (spares : ∀ node ∈ body, node.Spares unused) (consists : alias? body = some (place, target)) :
    target ≠ unused := by
  unfold alias? at consists
  split at consists
  · next location name only =>
      cases consists
      have member : Node.ident place target ∈ body.filter (!·.isSpace) := by simp [only]
      cases spares _ (List.mem_filter.1 member).1 with
      | ident _ allowed => exact allowed
  · cases consists

theorem Env.Lacks.value (lacks : Lacks unused env other) {name : Bytes} (different : name ≠ unused)
    (followed : List Bytes) (location : Location) :
    other.value followed location name = env.value followed location name := by
  induction left : (Bytes.unseen env.names followed).length using Nat.strongRecOn
    generalizing followed location name with
  | ind count ih =>
      rcases lacks.lookup_cases different with ⟨free, otherFree⟩ | ⟨definition, twin, found, other⟩
      · rw [value_of_lookup_eq_none free, value_of_lookup_eq_none otherFree]
      · obtain ⟨otherFound, same⟩ := other
        rw [value_of_lookup found, value_of_lookup otherFound, same.parameters, same.body]
        cases consists : Macro.alias? definition.body with
        | none => rfl
        | some target =>
            dsimp only [Option.elim]
            by_cases seen : name ∈ followed
            · rw [if_pos seen, if_pos seen]
            · have fewer := Bytes.length_unseen_lt (mem_names_of_lookup found) seen
              rw [if_neg seen, if_neg seen, ih _ (left ▸ fewer)
                (Macro.spares_alias? same.bodySpares consists) _ _ rfl]

theorem Arith.eval_of_lacks {tree : Arith} (made : tree.MadeFrom (.named (· ≠ unused)))
    (lacks : Env.Lacks unused env other) : tree.eval other = tree.eval env := by
  induction tree with
  | int => rfl
  | ident location name => exact lacks.value made [] location
  | neg location operand ih => rw [eval, eval, ih made]
  | complement location operand ih => rw [eval, eval, ih made]
  | binary location operation left right ihLeft ihRight =>
      rw [eval, eval, ihLeft made.1, ihRight made.2]

theorem Test.eval_of_lacks {test : Test} (made : test.MadeFrom (.named (· ≠ unused)))
    (lacks : Env.Lacks unused env other) : test.eval other = test.eval env := by
  induction test with
  | literal => rfl
  | defined location name => rw [eval, eval, lacks.contains made]
  | not location operand ih => rw [eval, eval, ih made]
  | both location left right ihLeft ihRight | either location left right ihLeft ihRight =>
      rw [eval, eval, ihLeft made.1, ihRight made.2]
  | compare location relation left right =>
      rw [eval, eval, Arith.eval_of_lacks made.1 lacks, Arith.eval_of_lacks made.2 lacks]

end

/-! ## Expansions from related environments -/

/-- The same events, and the same error or environments that are related. -/
inductive Outcome.Related (related : Env → Env → Prop) : Outcome → Outcome → Prop where
  | ok (events : List Event) {env other : Env} (final : related env other) :
      Related related ⟨events, .ok env⟩ ⟨events, .ok other⟩
  | error (events : List Event) (error : Error) :
      Related related ⟨events, .error error⟩ ⟨events, .error error⟩

/-- From related environments the two steps have related outcomes. -/
def Step.Related (related : Env → Env → Prop) (first second : Step) : Prop :=
  ∀ env other, related env other →
    Option.Rel (Outcome.Related related) (first env) (second other)

namespace Step.Related

variable {related : Env → Env → Prop} {first second third fourth : Step}

theorem say (events : List Event) : Related related (.say events) (.say events) := by
  intro env other start
  exact .some (.ok events start)

theorem fail (error : Error) : Related related (.fail error) (.fail error) := by
  intro env other start
  exact .some (.error [] error)

theorem andThen (left : Related related first second) (right : Related related third fourth) :
    Related related (first.andThen third) (second.andThen fourth) := by
  intro env other start
  have outcomes := left env other start
  unfold Step.andThen
  generalize first env = answer at outcomes
  generalize second other = twin at outcomes
  cases outcomes with
  | none => exact .none
  | some outcome =>
      cases outcome with
      | error events error => exact .some (.error events error)
      | @ok events middle otherMiddle final =>
          have outcomes := right middle otherMiddle final
          dsimp only
          generalize third middle = answer at outcomes
          generalize fourth otherMiddle = twin at outcomes
          cases outcomes with
          | none => exact .none
          | some outcome =>
              cases outcome with
              | ok more final => exact .some (.ok (events ++ more) final)
              | error more error => exact .some (.error (events ++ more) error)

theorem inside {scope outer : Env} (scopes : related scope outer)
    (steps : Related related first second) :
    Related related (first.inside scope) (second.inside outer) := by
  intro env other start
  have outcomes := steps scope outer scopes
  unfold Step.inside
  generalize first scope = answer at outcomes
  generalize second outer = twin at outcomes
  cases outcomes with
  | none => exact .none
  | some outcome =>
      cases outcome with
      | ok events _ => exact .some (.ok events start)
      | error events error => exact .some (.error events error)

theorem all_map {α : Type} {parts : List α} {one two : α → Step}
    (each : ∀ part ∈ parts, Related related (one part) (two part)) :
    Related related (.all (parts.map one)) (.all (parts.map two)) := by
  induction parts with
  | nil => exact .say []
  | cons part rest ih =>
      obtain ⟨head, tail⟩ := List.forall_mem_cons.1 each
      exact head.andThen (ih tail)

theorem between (said later : List Event) (steps : Related related first second) :
    Related related (.all [.say said, first, .say later]) (.all [.say said, second, .say later]) :=
  (Related.say said).andThen (steps.andThen ((Related.say later).andThen (.say [])))

end Step.Related

namespace Expansion

open Step

/-- No file mentions the name. -/
def FilesSpare (files : FileSet) (unused : Bytes) : Prop :=
  ∀ path text nodes, files.contents? path = some text → Node.ofSource path text = .ok nodes →
    ∀ node ∈ nodes, node.Spares unused

section

variable {files : FileSet} {expand : Context → List Node → Step} {context : Context}
  {unused : Bytes}

variable (deeper : ∀ context nodes, (∀ node ∈ nodes, node.Spares unused) →
    Related (Env.Lacks unused) (expand context nodes) (expand context nodes))

include deeper

theorem related_useMacro (location : Location) {definition twin : Macro}
    (same : definition.Lacks unused twin) :
    Related (Env.Lacks unused) (useMacro expand context location definition)
      (useMacro expand context location twin) := by
  unfold useMacro
  rw [same.parameters, same.body, same.name]
  cases definition.parameters with
  | some parameters => exact .fail _
  | none => exact .inside same.scope (deeper _ _ same.bodySpares)

theorem related_callMacro (location : Location) {definition twin : Macro}
    {given : List (List Node)} (same : definition.Lacks unused twin)
    (givenSpare : ∀ argument ∈ given, ∀ node ∈ argument, node.Spares unused) :
    Related (Env.Lacks unused) (callMacro expand context location definition given)
      (callMacro expand context location twin given) := by
  unfold callMacro
  rw [same.parameters, same.body, same.name]
  cases takes : definition.parameters with
  | none => exact .fail _
  | some parameters =>
      have argumentsSpare : ∀ argument ∈ Macro.arguments parameters given,
          ∀ node ∈ argument, node.Spares unused := by
        unfold Macro.arguments
        split
        · simp
        · exact givenSpare
      intro env other start
      dsimp only
      split
      · refine Related.inside (.bindAll ?_ same.scope) (deeper _ _ same.bodySpares) env other start
        rw [List.forall₂_map_left_iff, List.forall₂_map_right_iff, List.forall₂_same]
        intro ⟨name, body⟩ member
        obtain ⟨nameMember, bodyMember⟩ := List.of_mem_zip member
        exact ⟨rfl, rfl, rfl, rfl, same.parametersSpare _ takes _ nameMember, by simp,
          argumentsSpare _ bodyMember, start⟩
      · exact Related.fail _ env other start

theorem related_callUnbound (location : Location) (name : Bytes) {given : List (List Node)}
    (givenSpare : ∀ argument ∈ given, ∀ node ∈ argument, node.Spares unused) :
    Related (Env.Lacks unused) (callUnbound expand context location name given)
      (callUnbound expand context location name given) := by
  refine .between _ _ ?_
  cases given with
  | nil => exact .say []
  | cons first rest =>
      obtain ⟨firstSpares, restSpares⟩ := List.forall_mem_cons.1 givenSpare
      exact (deeper _ _ firstSpares).andThen (.all_map fun argument among =>
        (Related.say _).andThen (deeper _ _ (restSpares argument among)))

theorem related_includeFile (filesSpare : FilesSpare files unused) (location : Location)
    (path : Bytes) :
    Related (Env.Lacks unused) (includeFile files expand context location path)
      (includeFile files expand context location path) := by
  unfold includeFile
  split
  · exact .fail _
  cases found : files.contents? path with
  | none => exact .fail _
  | some text =>
      cases read : Node.ofSource path text with
      | error error =>
          simp only [read]
          exact .fail _
      | ok nodes =>
          simp only [read]
          exact .between _ _ (deeper _ _ (filesSpare path text nodes found read))

theorem related_ofNode (filesSpare : FilesSpare files unused) {node : Node}
    (spares : node.Spares unused) :
    Related (Env.Lacks unused) (ofNode files expand context node)
      (ofNode files expand context node) := by
  intro env other start
  cases spares with
  | @ident location name different =>
      rcases start.lookup_cases different with ⟨free, otherFree⟩ | ⟨_, _, found, otherFound, same⟩
      · simp only [ofNode, free, otherFree]
        exact Related.say _ env other start
      · simp only [ofNode, found, otherFound]
        exact (Related.say _).andThen (related_useMacro deeper location same) env other start
  | @call location name given different givenSpare =>
      rcases start.lookup_cases different with ⟨free, otherFree⟩ | ⟨_, _, found, otherFound, same⟩
      · simp only [ofNode, free, otherFree]
        exact related_callUnbound deeper location name givenSpare env other start
      · simp only [ofNode, found, otherFound]
        exact (Related.say _).andThen (related_callMacro deeper location same givenSpare)
          env other start
  | @define location name parameters body different parametersSpare bodySpares =>
      simp only [ofNode]
      rw [start.contains different]
      split
      · exact Related.fail _ env other start
      · exact .some (.ok _ (start.bind
          ⟨rfl, rfl, rfl, rfl, different, parametersSpare, bodySpares, start⟩))
  | undef location different => exact .some (.ok _ (start.unbind different))
  | inclusion location path => exact related_includeFile deeper filesSpare location path env other start
  | @cond location test yes no testSpares yesSpares noSpares =>
      simp only [ofNode]
      rw [Test.eval_of_lacks testSpares start]
      cases test.eval env with
      | error error => exact Related.fail _ env other start
      | ok holds =>
          have branch : ∀ node ∈ (if holds then yes else no), node.Spares unused := by
            cases holds with
            | true => exact yesSpares
            | false => exact noSpares
          exact Related.between _ _ (deeper _ _ branch) env other start
  | error location message => exact Related.fail _ env other start
  | warning | space | text | line | currentLine | currentFile =>
      exact Related.say _ env other start

end

theorem related_within {files : FileSet} {unused : Bytes} (filesSpare : FilesSpare files unused)
    (depth : Nat) (context : Context) (nodes : List Node)
    (spares : ∀ node ∈ nodes, node.Spares unused) :
    Related (Env.Lacks unused) (within files depth context nodes)
      (within files depth context nodes) := by
  induction depth generalizing context nodes with
  | zero => exact fun _ _ _ => .none
  | succ depth ih => exact .all_map fun node among => related_ofNode ih filesSpare (spares node among)

theorem related_run {files : FileSet} {unused : Bytes} (filesSpare : FilesSpare files unused)
    (context : Context) {nodes : List Node} (spares : ∀ node ∈ nodes, node.Spares unused)
    {env other : Env} (start : Env.Lacks unused env other) :
    Outcome.Related (Env.Lacks unused) (run files context nodes env)
      (run files context nodes other) := by
  obtain ⟨depth, answered⟩ := exists_within_eq_run files context nodes env
  have outcomes := related_within filesSpare depth context nodes spares env other start
  rw [answered] at outcomes
  cases otherAnswered : within files depth context nodes other with
  | none =>
      rw [otherAnswered] at outcomes
      cases outcomes
  | some outcome =>
      rw [otherAnswered] at outcomes
      rw [run_eq_of_within otherAnswered]
      cases outcomes with
      | some same => exact same

end Expansion

/-! ## Sources that do not mention a name -/

/-- The name is not the text of a name token of the source. -/
def Token.NeverNames (unused file text : Bytes) : Prop :=
  ∀ tokens, scan file text = .ok tokens →
    ∀ token ∈ tokens, token.kind = .ident → token.text ≠ unused

/-- The name is not the text of a name token of a file. -/
def FileSet.NeverNames (files : FileSet) (unused : Bytes) : Prop :=
  ∀ path text, files.contents? path = some text → Token.NeverNames unused path text

/-- The same macro, apart from its scope. -/
structure Macro.SameText (definition twin : Macro) : Prop where
  parameters : definition.parameters = twin.parameters
  body : definition.body = twin.body
  location : definition.location = twin.location

/-- The environments bind the same names apart from one, to macros with the same text. -/
def Env.SameApartFrom (unused : Bytes) (env other : Env) : Prop :=
  ∀ name, name ≠ unused → Option.Rel Macro.SameText (env.lookup name) (other.lookup name)

theorem Env.Lacks.sameApartFrom {unused : Bytes} {env other : Env}
    (lacks : Env.Lacks unused env other) : env.SameApartFrom unused other := by
  intro name different
  rcases lacks.lookup_cases different with ⟨free, otherFree⟩ | ⟨_, _, found, otherFound, same⟩
  · rw [free, otherFree]
    exact .none
  · rw [found, otherFound]
    exact .some ⟨same.parameters.symm, same.body.symm, same.location.symm⟩

theorem Expansion.related_ofSource {files : FileSet} {name text unused : Bytes}
    (inSource : Token.NeverNames unused name text) (inFiles : files.NeverNames unused)
    {env other : Env} (start : Env.Lacks unused env other) :
    Outcome.Related (Env.Lacks unused) (ofSource files name text env)
      (ofSource files name text other) := by
  have filesSpare : FilesSpare files unused := by
    intro path contents nodes found read
    have well := Node.wellRead_ofSource (· ≠ unused) path contents (inFiles path contents found)
    rw [read] at well
    exact well
  have well := Node.wellRead_ofSource (· ≠ unused) name text inSource
  unfold ofSource
  cases read : Node.ofSource name text with
  | error error => exact .error [] error
  | ok nodes =>
      rw [read] at well
      exact related_run filesSpare _ well start

namespace Session

/-- A definition that nothing uses changes nothing.  If a name is not the text of a name token of the
source or of a file, then expanding the source with no macros and with only that name bound shows the
same output, the same diagnostics and the same error, also as to what is written before the error.
If it succeeds, the environments bind the same names apart from that one, to the same text. -/
theorem expand_with_unused_definition (session : Session) (name text : Bytes) (definition : Macro)
    (inSource : Token.NeverNames definition.name name text)
    (inFiles : session.files.NeverNames definition.name) :
    let plain := { session with env := .empty }.expand name text
    let extended := { session with env := Env.empty.bind definition }.expand name text
    plain.2 = extended.2 ∧ plain.1.log = extended.1.log ∧ plain.1.loads = extended.1.loads ∧
      (∀ markers,
        Layout.output markers (Expansion.ofSource session.files name text .empty).events =
          Layout.output markers
            (Expansion.ofSource session.files name text (Env.empty.bind definition)).events) ∧
      ∀ output, plain.2.result = .ok output →
        plain.1.env.SameApartFrom definition.name extended.1.env := by
  have start : Env.Lacks definition.name .empty (Env.empty.bind definition) :=
    .leaveOut _ _ _ _ (by simp [Env.names]) .empty
  have outcomes := Expansion.related_ofSource inSource inFiles start
  dsimp only [expand]
  generalize Expansion.ofSource session.files name text .empty = outcome at outcomes
  generalize Expansion.ofSource session.files name text (Env.empty.bind definition) = other
    at outcomes
  cases outcomes with
  | ok events final =>
      exact ⟨rfl, rfl, rfl, fun markers => rfl, fun output _ => final.sameApartFrom⟩
  | error events error =>
      refine ⟨rfl, rfl, rfl, fun markers => rfl, fun output succeeded => ?_⟩
      cases succeeded

/-- A session with a file that defines macros. -/
def holdsLayer : Session :=
  ⟨false, ⟨[(bytes "i", bytes "#define B 2\n#define C(x) (x A)\n")]⟩, .empty, .empty, []⟩

/-- A source that uses the macros of the file, in a condition and in its text. -/
def layeredUse : Bytes :=
  bytes "#define A B\n#include \"i\"\n#ifdef C\nC(A)\n#endif\n"

/-- A macro that stands for one of the macros of the source. -/
def bystander : Macro :=
  ⟨bytes "AA", none, [.ident .nowhere (bytes "A")], .empty, .nowhere⟩

theorem expand_layeredUse_with_bystander :
    ∃ plain extended,
      { holdsLayer with env := .empty }.expand (bytes "t") layeredUse =
        (plain, ⟨.ok (bytes "(B B)\n"), []⟩) ∧
      { holdsLayer with env := Env.empty.bind bystander }.expand (bytes "t") layeredUse =
        (extended, ⟨.ok (bytes "(B B)\n"), []⟩) ∧
      plain.env.SameApartFrom (bytes "AA") extended.env := by
  have spared : ∀ file text, ((Token.scan file text).toOption.getD []).all
      (fun token => token.kind != .ident || token.text != bytes "AA") = true →
      Token.NeverNames (bytes "AA") file text := by
    intro file text check tokens scanned token member kind
    rw [scanned] at check
    simpa [kind] using List.all_eq_true.1 check token member
  have inSource : Token.NeverNames (bytes "AA") (bytes "t") layeredUse :=
    spared _ _ (by decide +kernel)
  have inFiles : holdsLayer.files.NeverNames (bytes "AA") := by
    intro path text found
    simp only [holdsLayer, FileSet.contents?, List.lookup_cons, List.lookup_nil] at found
    split at found
    · next same =>
        cases found
        rw [eq_of_beq same]
        exact spared _ _ (by decide +kernel)
    · cases found
  have evaluated : (({ holdsLayer with env := .empty }.expand (bytes "t") layeredUse).2.result.toOption,
      ({ holdsLayer with env := .empty }.expand (bytes "t") layeredUse).2.diagnostics) =
        (some (bytes "(B B)\n"), []) :=
    Expansion.view_ofSource_of_within
      (fun outcome => ((holdsLayer.take outcome true).2.result.toOption,
        (holdsLayer.take outcome true).2.diagnostics))
      (show ((Node.ofSource (bytes "t") layeredUse).toOption.bind fun nodes =>
        Expansion.within holdsLayer.files 5 ⟨[bytes "t"], none⟩ nodes .empty).map _ = some _ by
        decide +kernel)
  obtain ⟨report, _, _, _, same⟩ :=
    expand_with_unused_definition holdsLayer (bytes "t") layeredUse bystander inSource inFiles
  generalize { holdsLayer with env := .empty }.expand (bytes "t") layeredUse = plain
    at evaluated report same
  generalize { holdsLayer with env := Env.empty.bind bystander }.expand (bytes "t") layeredUse =
    extended at report same
  obtain ⟨plain, result, diagnostics⟩ := plain
  obtain ⟨extended, _⟩ := extended
  cases report
  cases result with
  | error error => cases evaluated
  | ok output =>
      cases evaluated
      exact ⟨plain, extended, rfl, rfl, same _ rfl⟩

end Session

end ScopedMacros
