import Mathlib.Data.List.Nodup
import ScopedMacros.Proofs.PlainScopes
import ScopedMacros.Proofs.Simulation
import ScopedMacros.Proofs.Substitution
import ScopedMacros.Proofs.Unused

/-!
# Macros with a new name for a parameter

A parameter can be given a new name, in the list of parameters and in the body.  In a call the two
macros then bind different names, and what they pass on to other macros is closed over environments
that differ in this.  Here such environments and their macros are related.

Outside of calls tests have the same answers in related environments.  Inside of a call, a test can
follow a parameter to the name that it was given; this name is looked up where the test is made, and
not where the argument stands.
-/

namespace ScopedMacros

/-! ## Renaming -/

/-- The new name in place of the old one. -/
def Bytes.rename (old new name : Bytes) : Bytes :=
  if name = old then new else name

mutual

/-- The text with the new name in place of the old one where it is used, also in arguments. -/
def Node.rename (old new : Bytes) : Node → Node
  | .ident location name => .ident location (Bytes.rename old new name)
  | .call location name given =>
      .call location (Bytes.rename old new name) (renameArguments old new given)
  | node => node

def Node.renameAll (old new : Bytes) : List Node → List Node
  | [] => []
  | node :: rest => node.rename old new :: renameAll old new rest

def Node.renameArguments (old new : Bytes) : List (List Node) → List (List Node)
  | [] => []
  | argument :: rest => renameAll old new argument :: renameArguments old new rest

end

/-- A body that sources make, with a parameter, among different ones, that can be given a name that
is not in use. -/
structure Macro.Renamable (old new : Bytes) (parameters : List Bytes) (body : List Node) :
    Prop where
  parameter : old ∈ parameters
  distinct : parameters.Nodup
  fresh : new ∉ parameters
  plain : ∀ node ∈ body, node.Plain
  spares : ∀ node ∈ body, node.Spares new

/-- The macro with a new name for a parameter. -/
def Macro.rename (old new : Bytes) (definition : Macro) : Macro :=
  { definition with
    parameters := definition.parameters.map (List.map (Bytes.rename old new))
    body := Node.renameAll old new definition.body }

/-- The same environment, up to the new name for a parameter of any of the macros in it, also in
scopes. -/
inductive Env.Renamed (old new : Bytes) : Env → Env → Prop where
  | empty : Renamed old new .empty .empty
  | keep (name : Bytes) (parameters : Option (List Bytes)) (body : List Node) (location : Location)
      {scope outer rest others : Env} (scopes : Renamed old new scope outer)
      (renamed : Renamed old new rest others) :
      Renamed old new (.cons name parameters body scope location rest)
        (.cons name parameters body outer location others)
  | rename (name : Bytes) (location : Location) {parameters : List Bytes} {body : List Node}
      {scope outer rest others : Env} (renamable : Macro.Renamable old new parameters body)
      (scopes : Renamed old new scope outer) (renamed : Renamed old new rest others) :
      Renamed old new (.cons name (some parameters) body scope location rest)
        (.cons name (some (parameters.map (Bytes.rename old new))) (Node.renameAll old new body)
          outer location others)

/-! ## Tests inside of calls -/

/-- A name occurs in the expression. -/
def Arith.HasName : Arith → Prop
  | .int _ _ => False
  | .ident _ _ => True
  | .neg _ operand | .complement _ operand => operand.HasName
  | .binary _ _ left right => left.HasName ∨ right.HasName

/-- The value of a name is compared with something. -/
def Test.ComparesName : Test → Prop
  | .literal _ _ | .defined _ _ => False
  | .not _ operand => operand.ComparesName
  | .both _ left right | .either _ left right => left.ComparesName ∨ right.ComparesName
  | .compare _ _ left right => left.HasName ∨ right.HasName

/-- Somewhere in the node, or in a file that it includes, the value of a name is compared in the
body of a macro that takes arguments.  If `called`, the node is itself part of such a body. -/
inductive Node.Compares (files : FileSet) : Bool → Node → Prop where
  | test (location : Location) {test : Test} (yes no : List Node)
      (compares : test.ComparesName) : Compares files true (.cond location test yes no)
  | yes (location : Location) (test : Test) (no : List Node) {called : Bool} {yes : List Node}
      {node : Node} (member : node ∈ yes) (compares : Compares files called node) :
      Compares files called (.cond location test yes no)
  | no (location : Location) (test : Test) (yes : List Node) {called : Bool} {no : List Node}
      {node : Node} (member : node ∈ no) (compares : Compares files called node) :
      Compares files called (.cond location test yes no)
  | argument (location : Location) (name : Bytes) {called : Bool} {given : List (List Node)}
      {argument : List Node} {node : Node} (among : argument ∈ given) (member : node ∈ argument)
      (compares : Compares files called node) : Compares files called (.call location name given)
  | object (location : Location) (name : Bytes) {called : Bool} {body : List Node} {node : Node}
      (member : node ∈ body) (compares : Compares files called node) :
      Compares files called (.define location name none body)
  | function (location : Location) (name : Bytes) (parameters : List Bytes) (called : Bool)
      {body : List Node} {node : Node} (member : node ∈ body)
      (compares : Compares files true node) :
      Compares files called (.define location name (some parameters) body)
  | seq (location : Location) {called : Bool} {nodes : List Node} {node : Node}
      (member : node ∈ nodes) (compares : Compares files called node) :
      Compares files called (.seq location nodes)
  | file (location : Location) {called : Bool} {path text : Bytes} {nodes : List Node} {node : Node}
      (found : files.contents? path = some text) (read : Node.ofSource path text = .ok nodes)
      (member : node ∈ nodes) (compares : Compares files called node) :
      Compares files called (.inclusion location path)

/-- The value of a name is compared in the body of a macro that takes arguments: of one that is
bound here or in a scope, or that a body there defines. -/
inductive Env.Compares (files : FileSet) : Env → Prop where
  | object (name : Bytes) (scope : Env) (location : Location) (rest : Env) {body : List Node}
      {node : Node} (member : node ∈ body) (compares : node.Compares files false) :
      Compares files (.cons name none body scope location rest)
  | function (name : Bytes) (parameters : List Bytes) (scope : Env) (location : Location)
      (rest : Env) {body : List Node} {node : Node} (member : node ∈ body)
      (compares : node.Compares files true) :
      Compares files (.cons name (some parameters) body scope location rest)
  | scope (name : Bytes) (parameters : Option (List Bytes)) (body : List Node)
      (location : Location) (rest : Env) {scope : Env} (compares : Compares files scope) :
      Compares files (.cons name parameters body scope location rest)
  | rest (name : Bytes) (parameters : Option (List Bytes)) (body : List Node) (scope : Env)
      (location : Location) {rest : Env} (compares : Compares files rest) :
      Compares files (.cons name parameters body scope location rest)

/-- In what sources make, there are no tests in bodies. -/
theorem Node.Compares.not_fromSource {files : FileSet} {called : Bool} {node : Node}
    (compares : node.Compares files called) :
    ¬node.Plain ∧ (called = false → ¬node.FromSource) := by
  induction compares with
  | test location yes no compares => exact ⟨by rintro ⟨⟩, by rintro ⟨⟩⟩
  | yes location test no member _ ih =>
      refine ⟨by rintro ⟨⟩, fun outside form => ?_⟩
      cases form with
      | plain plain => cases plain
      | cond _ _ _ _ yesForm _ => exact ih.2 outside (yesForm _ member)
  | no location test yes member _ ih =>
      refine ⟨by rintro ⟨⟩, fun outside form => ?_⟩
      cases form with
      | plain plain => cases plain
      | cond _ _ _ _ _ noForm => exact ih.2 outside (noForm _ member)
  | @argument location name _ given argument node among member _ ih =>
      have notPlain : ¬(Node.call location name given).Plain := by
        intro plain
        cases plain with
        | call _ _ _ givenPlain => exact ih.1 (givenPlain argument among node member)
      refine ⟨notPlain, fun _ form => ?_⟩
      cases form with
      | plain plain => exact notPlain plain
  | object _ _ member _ ih | function _ _ _ _ member _ ih =>
      refine ⟨by rintro ⟨⟩, fun _ form => ?_⟩
      cases form with
      | plain plain => cases plain
      | define _ _ _ _ bodyPlain => exact ih.1 (bodyPlain _ member)
  | seq location member _ ih =>
      refine ⟨by rintro ⟨⟩, fun _ form => ?_⟩
      cases form with
      | plain plain => cases plain
  | file location found read member _ ih =>
      refine ⟨by rintro ⟨⟩, fun outside _ => ?_⟩
      exact ih.2 outside (Node.fromSource_of_ofSource read _ member)

theorem Env.Plain.not_compares {files : FileSet} {env : Env} (plain : env.Plain) :
    ¬env.Compares files := by
  intro compares
  induction compares with
  | object _ _ _ _ member compares | function _ _ _ _ _ member compares =>
      cases plain with
      | cons _ _ _ bodyPlain _ _ => exact compares.not_fromSource.1 (bodyPlain _ member)
  | scope name parameters body location rest _ ih =>
      cases plain with
      | cons _ _ _ _ scopePlain _ => exact ih scopePlain
  | rest name parameters body scope location _ ih =>
      cases plain with
      | cons _ _ _ _ _ restPlain => exact ih restPlain

/-- An expression depends on the values of names only if a name occurs in it. -/
theorem Arith.eval_congr {tree : Arith} {env other : Env}
    (same : tree.HasName → ∀ location name,
      other.value [] location name = env.value [] location name) :
    tree.eval other = tree.eval env := by
  induction tree with
  | int => rfl
  | ident location name => exact same trivial location name
  | neg location operand ih => rw [eval, eval, ih same]
  | complement location operand ih => rw [eval, eval, ih same]
  | binary location operation left right ihLeft ihRight =>
      rw [eval, eval, ihLeft fun named => same (.inl named), ihRight fun named => same (.inr named)]

theorem Test.eval_congr {test : Test} {env other : Env}
    (bound : ∀ name, other.contains name = env.contains name)
    (same : test.ComparesName → ∀ location name,
      other.value [] location name = env.value [] location name) :
    test.eval other = test.eval env := by
  induction test with
  | literal => rfl
  | defined location name => rw [eval, eval, bound]
  | not location operand ih => rw [eval, eval, ih same]
  | both location left right ihLeft ihRight | either location left right ihLeft ihRight =>
      rw [eval, eval, ihLeft fun named => same (.inl named), ihRight fun named => same (.inr named)]
  | compare location relation left right =>
      rw [eval, eval, Arith.eval_congr fun named => same (.inl named),
        Arith.eval_congr fun named => same (.inr named)]

/-! ## Environments of calls -/

/-- The second environment has the macros of the first one, of which one has the new name in place
of the old one. -/
def Env.Shifts (old new : Bytes) (env other : Env) : Prop :=
  ∀ name, name ≠ new → other.lookup (Bytes.rename old new name) =
    (env.lookup name).map fun definition =>
      { definition with name := Bytes.rename old new name }

mutual

/-- Environments that come about in step.  If `called`, they may be those of the body of a macro
with arguments. -/
inductive Env.Twins (files : FileSet) (old new : Bytes) : Bool → Env → Env → Prop where
  | empty (called : Bool) : Env.Twins files old new called .empty .empty
  | cons {called : Bool} {name : Bytes} {parameters others : Option (List Bytes)}
      {body twin : List Node} {scope outer rest more : Env} {location : Location}
      (head : Macro.Twins files old new called ⟨name, parameters, body, scope, location⟩
        ⟨name, others, twin, outer, location⟩)
      (tail : Env.Twins files old new called rest more) :
      Env.Twins files old new called (.cons name parameters body scope location rest)
        (.cons name others twin outer location more)

/-- Macros that come about in step: with the same text, with a new name for a parameter, or, in a
call, arguments that stand in the body of a macro whose parameter has the new name. -/
inductive Macro.Twins (files : FileSet) (old new : Bytes) : Bool → Macro → Macro → Prop where
  | object (name other : Bytes) (location : Location) {called inner : Bool} {body : List Node}
      {scope outer : Env} (nested : inner = true → called = true)
      (quiet : ∀ node ∈ body, ¬node.Compares files inner)
      (scopes : Env.Twins files old new inner scope outer) :
      Macro.Twins files old new called ⟨name, none, body, scope, location⟩
        ⟨other, none, body, outer, location⟩
  | function (name other : Bytes) (parameters : List Bytes) (location : Location)
      {called inner : Bool} {body : List Node} {scope outer : Env}
      (nested : inner = true → called = true)
      (quiet : ∀ node ∈ body, ¬node.Compares files true)
      (scopes : Env.Twins files old new inner scope outer) :
      Macro.Twins files old new called ⟨name, some parameters, body, scope, location⟩
        ⟨other, some parameters, body, outer, location⟩
  | renamed (name other : Bytes) (location : Location) {called inner : Bool}
      {parameters : List Bytes} {body : List Node} {scope outer : Env}
      (nested : inner = true → called = true)
      (renamable : Macro.Renamable old new parameters body)
      (scopes : Env.Twins files old new inner scope outer) :
      Macro.Twins files old new called ⟨name, some parameters, body, scope, location⟩
        ⟨other, some (parameters.map (Bytes.rename old new)), Node.renameAll old new body, outer,
          location⟩
  | argument (name other : Bytes) (location : Location) {body : List Node}
      {scope middle outer : Env} (plain : ∀ node ∈ body, node.Plain)
      (spares : ∀ node ∈ body, node.Spares new) (scopes : Env.Twins files old new true scope middle)
      (bound : (scope.lookup old).isSome = true) (shifts : Env.Shifts old new middle outer) :
      Macro.Twins files old new true ⟨name, none, body, scope, location⟩
        ⟨other, none, Node.renameAll old new body, outer, location⟩

end

/-- The environments of the body of a macro in two calls, where a parameter has the new name in the
second one. -/
def Env.Shifted (files : FileSet) (old new : Bytes) (env other : Env) : Prop :=
  ∃ middle, Env.Twins files old new true env middle ∧ (env.lookup old).isSome = true ∧
    Env.Shifts old new middle other

section

variable {files : FileSet} {old new : Bytes} {called : Bool} {env other : Env}
  {definition twin : Macro}

theorem Macro.Twins.toCalled (twins : Macro.Twins files old new called definition twin) :
    Macro.Twins files old new true definition twin := by
  cases twins with
  | object name other location nested quiet scopes =>
      exact .object name other location (fun _ => rfl) quiet scopes
  | function name other parameters location nested quiet scopes =>
      exact .function name other parameters location (fun _ => rfl) quiet scopes
  | renamed name other location nested renamable scopes =>
      exact .renamed name other location (fun _ => rfl) renamable scopes
  | argument name other location plain spares scopes bound shifts =>
      exact .argument name other location plain spares scopes bound shifts

/-- It does not matter which names the macros are bound to. -/
theorem Macro.Twins.withName (twins : Macro.Twins files old new called definition twin)
    (name : Bytes) :
    Macro.Twins files old new called definition { twin with name := name } := by
  cases twins with
  | object first _ location nested quiet scopes =>
      exact .object first name location nested quiet scopes
  | function first _ parameters location nested quiet scopes =>
      exact .function first name parameters location nested quiet scopes
  | renamed first _ location nested renamable scopes =>
      exact .renamed first name location nested renamable scopes
  | argument first _ location plain spares scopes bound shifts =>
      exact .argument first name location plain spares scopes bound shifts

namespace Env.Twins

theorem toCalled (twins : Env.Twins files old new called env other) :
    Env.Twins files old new true env other := by
  induction env generalizing other with
  | empty =>
      cases twins
      exact .empty true
  | cons name parameters body scope location rest _ ih =>
      cases twins with
      | cons head tail => exact .cons head.toCalled (ih tail)

theorem lookup (twins : Env.Twins files old new called env other) (name : Bytes) :
    Option.Rel (Macro.Twins files old new called) (env.lookup name) (other.lookup name) := by
  induction env generalizing other with
  | empty =>
      cases twins
      exact .none
  | cons bound parameters body scope location rest _ ih =>
      cases twins with
      | cons head tail =>
          unfold Env.lookup
          split
          · exact .some head
          · exact ih tail

theorem lookup_cases (twins : Env.Twins files old new called env other) (name : Bytes) :
    env.lookup name = none ∧ other.lookup name = none ∨
      ∃ definition twin, env.lookup name = some definition ∧ other.lookup name = some twin ∧
        Macro.Twins files old new called definition twin := by
  have found := twins.lookup name
  generalize env.lookup name = left at found
  generalize other.lookup name = right at found
  cases found with
  | none => exact .inl ⟨rfl, rfl⟩
  | some same => exact .inr ⟨_, _, rfl, rfl, same⟩

theorem contains (twins : Env.Twins files old new called env other) (name : Bytes) :
    other.contains name = env.contains name := by
  unfold Env.contains
  rcases twins.lookup_cases name with ⟨free, otherFree⟩ | ⟨_, _, found, otherFound, _⟩
  · rw [free, otherFree]
  · rw [found, otherFound]
    rfl

theorem add (twins : Env.Twins files old new called env other)
    (pair : Macro.Twins files old new called definition twin)
    (named : twin.name = definition.name) :
    Env.Twins files old new called (env.add definition) (other.add twin) := by
  have located : twin.location = definition.location := by cases pair <;> rfl
  obtain ⟨name, parameters, body, scope, location⟩ := definition
  obtain ⟨_, others, more, outer, _⟩ := twin
  cases named
  cases located
  exact .cons pair twins

theorem bind (twins : Env.Twins files old new called env other)
    (pair : Macro.Twins files old new called definition twin)
    (named : twin.name = definition.name) :
    Env.Twins files old new called (env.bind definition) (other.bind twin) := by
  induction env generalizing other with
  | empty =>
      cases twins
      exact .add (.empty called) pair named
  | cons name parameters body scope location rest _ ih =>
      cases twins with
      | cons head tail =>
          unfold Env.bind
          rw [named]
          split
          · exact .add tail pair named
          split
          · exact .add (.cons head tail) pair named
          · exact .cons head (ih tail)

theorem unbind (twins : Env.Twins files old new called env other) (name : Bytes) :
    Env.Twins files old new called (env.unbind name) (other.unbind name) := by
  induction env generalizing other with
  | empty =>
      cases twins
      exact .empty called
  | cons bound parameters body scope location rest _ ih =>
      cases twins with
      | cons head tail =>
          unfold Env.unbind
          split
          · exact tail
          · exact .cons head (ih tail)

theorem bindAll {definitions twins : List Macro}
    (each : List.Forall₂ (fun definition twin =>
      Macro.Twins files old new called definition twin ∧ twin.name = definition.name)
      definitions twins)
    (start : Env.Twins files old new called env other) :
    Env.Twins files old new called (env.bindAll definitions) (other.bindAll twins) := by
  induction each generalizing env other with
  | nil => exact start
  | cons first _ ih => exact ih (start.bind first.1 first.2)

/-- Outside of calls, the macros without parameters have the same bodies. -/
theorem value (twins : Env.Twins files old new false env other) (followed : List Bytes)
    (location : Location) (name : Bytes) :
    other.value followed location name = env.value followed location name := by
  induction left : (Bytes.unseen env.names followed).length using Nat.strongRecOn
    generalizing followed location name with
  | ind count ih =>
      rcases twins.lookup_cases name with ⟨free, otherFree⟩ |
        ⟨definition, twin, found, otherFound, same⟩
      · rw [value_of_lookup_eq_none free, value_of_lookup_eq_none otherFree]
      · rw [value_of_lookup found, value_of_lookup otherFound]
        cases same with
        | function | renamed => rfl
        | @object _ _ _ _ _ body _ _ nested quiet scopes =>
            dsimp only
            cases consists : Macro.alias? body with
            | none => rfl
            | some target =>
                dsimp only [Option.elim]
                by_cases seen : name ∈ followed
                · rw [if_pos seen, if_pos seen]
                · have fewer := Bytes.length_unseen_lt (mem_names_of_lookup found) seen
                  rw [if_neg seen, if_neg seen, ih _ (left ▸ fewer) _ _ _ rfl]

end Env.Twins

end

/-- A test has the same answer, unless it is made in a call and compares a name. -/
theorem Test.eval_of_twins {files : FileSet} {old new : Bytes} {called : Bool} {env other : Env}
    (twins : Env.Twins files old new called env other) {test : Test}
    (quiet : called = true → ¬test.ComparesName) : test.eval other = test.eval env := by
  refine eval_congr twins.contains fun compares => ?_
  cases called with
  | true => exact absurd compares (quiet rfl)
  | false => exact twins.value []

/-! ## Calls -/

section

variable {old new : Bytes}

theorem Bytes.rename_of_ne {name : Bytes} (different : name ≠ old) :
    Bytes.rename old new name = name :=
  if_neg different

theorem Bytes.rename_inj {name other : Bytes} (first : name ≠ new) (second : other ≠ new)
    (same : Bytes.rename old new name = Bytes.rename old new other) : name = other := by
  unfold Bytes.rename at same
  split at same <;> split at same
  · next left right => rw [left, right]
  · exact absurd same.symm second
  · exact absurd same first
  · exact same

/-- In the two bodies a name stands for the same; if it is not bound, it is the same name. -/
theorem Env.Shifted.lookup_cases {files : FileSet} {env other : Env} {name : Bytes}
    (shifted : Env.Shifted files old new env other) (different : name ≠ new) :
    env.lookup name = none ∧ other.lookup (Bytes.rename old new name) = none ∧
        Bytes.rename old new name = name ∨
      ∃ definition twin, env.lookup name = some definition ∧
        other.lookup (Bytes.rename old new name) = some twin ∧
        Macro.Twins files old new true definition twin := by
  obtain ⟨middle, twins, bound, shifts⟩ := shifted
  rw [shifts name different]
  rcases twins.lookup_cases name with ⟨free, otherFree⟩ |
    ⟨definition, twin, found, otherFound, same⟩
  · refine .inl ⟨free, by rw [otherFree]; rfl, Bytes.rename_of_ne ?_⟩
    rintro rfl
    rw [free] at bound
    cases bound
  · exact .inr ⟨definition, _, found, by rw [otherFound]; rfl, same.withName _⟩

theorem Node.renameAll_eq_map (nodes : List Node) :
    renameAll old new nodes = nodes.map (rename old new) := by
  induction nodes with
  | nil => rfl
  | cons node rest ih => rw [renameAll, ih, List.map_cons]

theorem Node.renameArguments_eq_map (given : List (List Node)) :
    renameArguments old new given = given.map (renameAll old new) := by
  induction given with
  | nil => rfl
  | cons argument rest ih => rw [renameArguments, ih, List.map_cons]

/-- A parameter and its new name stand for the same argument. -/
theorem Macro.lookup_zip_rename {parameters : List Bytes} (fresh : new ∉ parameters)
    (given : List (List Node)) {name : Bytes} (different : name ≠ new) :
    ((parameters.map (Bytes.rename old new)).zip given).lookup (Bytes.rename old new name) =
      (parameters.zip given).lookup name := by
  induction parameters generalizing given with
  | nil => rfl
  | cons parameter rest ih =>
      obtain ⟨parameterFresh, restFresh⟩ := not_or.1 (mt List.mem_cons.2 fresh)
      cases given with
      | nil => rfl
      | cons argument others =>
          rw [List.map_cons, List.zip_cons_cons, List.zip_cons_cons, List.lookup_cons,
            List.lookup_cons, ih restFresh]
          by_cases same : name = parameter
          · rw [same, beq_self_eq_true, beq_self_eq_true]
          · have apart : Bytes.rename old new name ≠ Bytes.rename old new parameter :=
              fun equal => same (Bytes.rename_inj different (Ne.symm parameterFresh) equal)
            rw [beq_eq_false_iff_ne.2 same, beq_eq_false_iff_ne.2 apart]

/-- The names of the parameters of a renamed macro are different again. -/
theorem Macro.Renamable.distinct_rename {parameters : List Bytes} {body : List Node}
    (renamable : Macro.Renamable old new parameters body) :
    (parameters.map (Bytes.rename old new)).Nodup := by
  refine List.Nodup.map_on (fun first firstMember second secondMember same => ?_) renamable.distinct
  refine Bytes.rename_inj ?_ ?_ same
  · exact fun equal => renamable.fresh (equal ▸ firstMember)
  · exact fun equal => renamable.fresh (equal ▸ secondMember)

end

namespace Env

variable {files : FileSet} {old new : Bytes} {env other : Env}

/-- An argument stands for the same in calls from related environments. -/
def Passes (files : FileSet) (old new : Bytes) (related : Env → Env → Prop)
    (argument twin : List Node) : Prop :=
  ∀ env other, related env other → ∀ name location,
    Macro.Twins files old new true ⟨name, none, argument, env, location⟩
      ⟨name, none, twin, other, location⟩

theorem passes_same {called : Bool} {argument : List Node}
    (quiet : ∀ node ∈ argument, ¬node.Compares files called) :
    Passes files old new (Env.Twins files old new called) argument argument := by
  intro env other twins name location
  exact .object name name location (fun _ => rfl) quiet twins

theorem passes_renamed {argument : List Node} (plain : ∀ node ∈ argument, node.Plain)
    (spares : ∀ node ∈ argument, node.Spares new) :
    Passes files old new (Env.Shifted files old new) argument
      (Node.renameAll old new argument) := by
  rintro env other ⟨middle, twins, bound, shifts⟩ name location
  exact .argument name name location plain spares twins bound shifts

/-- The environments of the body of a macro whose parameters keep their names. -/
theorem Twins.bindArguments {called : Bool} {related : Env → Env → Prop} {scope outer : Env}
    {given others : List (List Node)} (scopes : Env.Twins files old new called scope outer)
    (passes : List.Forall₂ (Passes files old new related) given others)
    (start : related env other) (parameters : List Bytes) (location : Location) :
    Env.Twins files old new true
      (scope.bindAll <| (parameters.zip given).map fun (name, body) =>
        ⟨name, none, body, env, location⟩)
      (outer.bindAll <| (parameters.zip others).map fun (name, body) =>
        ⟨name, none, body, other, location⟩) := by
  refine .bindAll ?_ scopes.toCalled
  induction parameters generalizing given others with
  | nil => exact .nil
  | cons name rest ih =>
      cases passes with
      | nil => exact .nil
      | cons first more => exact .cons ⟨first env other start name location, rfl⟩ (ih more)

/-- The environments of the body of a macro with a new name for a parameter. -/
theorem Twins.bindArguments_rename {called : Bool} {related : Env → Env → Prop}
    {definition twin : Macro} {given others : List (List Node)} {parameters : List Bytes}
    {body : List Node} (scopes : Env.Twins files old new called definition.scope twin.scope)
    (renamable : Macro.Renamable old new parameters body)
    (passes : List.Forall₂ (Passes files old new related) given others)
    (start : related env other) (arity : given.length = parameters.length) (location : Location) :
    Env.Shifted files old new (definition.bindArguments parameters given env location)
      (twin.bindArguments (parameters.map (Bytes.rename old new)) others other location) := by
  have otherArity : others.length = parameters.length := passes.length_eq ▸ arity
  refine ⟨twin.bindArguments parameters others other location,
    Twins.bindArguments scopes passes start parameters location, ?_, fun name different => ?_⟩
  · obtain ⟨argument, found⟩ := Macro.exists_lookup_zip renamable.parameter arity
    rw [Macro.lookup_bindArguments renamable.distinct arity, found]
    rfl
  · rw [Macro.lookup_bindArguments renamable.distinct_rename (by rw [List.length_map, otherArity]),
      Macro.lookup_bindArguments renamable.distinct otherArity,
      Macro.lookup_zip_rename renamable.fresh others different]
    cases found : (parameters.zip others).lookup name with
    | some argument => rfl
    | none =>
        have apart : name ≠ old := by
          rintro rfl
          obtain ⟨argument, foundOld⟩ := Macro.exists_lookup_zip renamable.parameter otherArity
          rw [found] at foundOld
          cases foundOld
        rw [Bytes.rename_of_ne apart, Option.map_none, Option.none_or]
        cases stands : twin.scope.lookup name with
        | none => rfl
        | some definition => rw [Option.map_some, ← name_of_lookup stands]

end Env

end ScopedMacros
