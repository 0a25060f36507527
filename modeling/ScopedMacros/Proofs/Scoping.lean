import ScopedMacros.Proofs.Leads
import ScopedMacros.Proofs.Termination
import ScopedMacros.Session

/-!
# How an expansion changes its environment

An expansion that succeeds leaves an environment that comes from the first one by two kinds of
changes: a name that is not bound is bound to a macro closed over the environment of that moment,
and a name that some `undef` gives is freed.  What the body of a macro does stays inside it.  So the
macro that a name stands for lasts until the name is undefined, and no macro sees itself.
-/

namespace ScopedMacros

/-! ## Nodes inside others -/

namespace Node

/-- The first node is the second one, or stands inside it at any depth. -/
inductive Within (part : Node) : Node → Prop where
  | self : Within part part
  | argument {node : Node} {argument : List Node} {given : List (List Node)} (location : Location)
      (name : Bytes) (member : argument ∈ given) (among : node ∈ argument)
      (deeper : Within part node) : Within part (.call location name given)
  | body {node : Node} {body : List Node} (location : Location) (name : Bytes)
      (parameters : Option (List Bytes)) (among : node ∈ body) (deeper : Within part node) :
      Within part (.define location name parameters body)
  | yes {node : Node} {yes : List Node} (location : Location) (test : Test) (no : List Node)
      (among : node ∈ yes) (deeper : Within part node) : Within part (.cond location test yes no)
  | no {node : Node} {no : List Node} (location : Location) (test : Test) (yes : List Node)
      (among : node ∈ no) (deeper : Within part node) : Within part (.cond location test yes no)
  | sequence {node : Node} {nodes : List Node} (location : Location) (among : node ∈ nodes)
      (deeper : Within part node) : Within part (.seq location nodes)

/-- Somewhere among the nodes the name is undefined. -/
def Undefines (nodes : List Node) (name : Bytes) : Prop :=
  ∃ location, ∃ node ∈ nodes, (Node.undef location name).Within node

end Node

/-- Somewhere in a file that can be read the name is undefined. -/
def FileSet.Undefines (files : FileSet) (name : Bytes) : Prop :=
  ∃ path text nodes, files.contents? path = some text ∧ Node.ofSource path text = .ok nodes ∧
    Node.Undefines nodes name

/-! ## Environments -/

namespace Env

theorem name_of_lookup {env : Env} {wanted : Bytes} {definition : Macro}
    (found : env.lookup wanted = some definition) : definition.name = wanted := by
  induction env with
  | empty => cases found
  | cons name parameters body scope location rest _ ih =>
      unfold lookup at found
      split at found
      · next same =>
          cases found
          exact same
      · exact ih found

theorem lookup_eq_none_of_contains {env : Env} {name : Bytes} (free : env.contains name = false) :
    env.lookup name = none := by
  simpa [contains] using free

theorem lookup_unbind_of_ne {unwanted wanted : Bytes} (different : unwanted ≠ wanted) (env : Env) :
    (env.unbind unwanted).lookup wanted = env.lookup wanted := by
  induction env with
  | empty => rfl
  | cons name parameters body scope location rest _ ih =>
      unfold unbind
      split
      · next same =>
          rw [lookup, if_neg]
          rw [same]
          exact different
      · rw [lookup, lookup, ih]

/-- The second environment comes from the first one by definitions of names that are not bound, each
closed over the environment it is made in, and by freeing names that satisfy the test. -/
inductive Evolves (removable : Bytes → Prop) : Env → Env → Prop where
  | refl (env : Env) : Evolves removable env env
  | define {env later : Env} {name : Bytes} (parameters : Option (List Bytes)) (body : List Node)
      (location : Location) (free : env.contains name = false)
      (rest : Evolves removable (env.bind ⟨name, parameters, body, env, location⟩) later) :
      Evolves removable env later
  | undef {env later : Env} {name : Bytes} (allowed : removable name)
      (rest : Evolves removable (env.unbind name) later) : Evolves removable env later

namespace Evolves

variable {removable : Bytes → Prop} {env middle later : Env}

theorem trans (first : Evolves removable env middle) (second : Evolves removable middle later) :
    Evolves removable env later := by
  induction first with
  | refl => exact second
  | define parameters body location free _ ih =>
      exact .define parameters body location free (ih second)
  | undef allowed _ ih => exact .undef allowed (ih second)

instance : Std.Refl (Evolves removable) where
  refl := .refl

instance : Trans (Evolves removable) (Evolves removable) (Evolves removable) where
  trans := trans

/-- A name that is not freed goes on to stand for the same macro. -/
theorem lookup_eq {name : Bytes} {definition : Macro} (evolves : Evolves removable env later)
    (kept : ¬removable name) (bound : env.lookup name = some definition) :
    later.lookup name = some definition := by
  induction evolves with
  | refl => exact bound
  | @define env _ other _ _ _ free _ ih =>
      have different : other ≠ name := by
        intro same
        rw [← same, lookup_eq_none_of_contains free] at bound
        cases bound
      refine ih ?_
      rw [lookup_bind, if_neg different]
      exact bound
  | @undef env _ other allowed _ ih =>
      have different : other ≠ name := by
        intro same
        exact kept (same ▸ allowed)
      refine ih ?_
      rw [lookup_unbind_of_ne different]
      exact bound

end Evolves

end Env

/-! ## Expansions -/

/-- Where the step succeeds, it leaves an environment that the first one evolves into. -/
def Step.Evolves (removable : Bytes → Prop) (step : Step) : Prop :=
  ∀ env events later, step env = some ⟨events, .ok later⟩ → Env.Evolves removable env later

namespace Expansion

open Step

/-- All names that the nodes undefine satisfy the test. -/
def UndefinesOnly (removable : Bytes → Prop) (nodes : List Node) : Prop :=
  ∀ name, Node.Undefines nodes name → removable name

/-- One node changes the environment by a definition, by an `undef`, or by what the nodes do that it
leads to. -/
theorem evolves_ofNode {removable : Bytes → Prop} {files : FileSet}
    {expand : Context → List Node → Step} {context : Context} {node : Node}
    (deeper : ∀ context nodes, UndefinesOnly removable nodes →
      Evolves removable (expand context nodes))
    (inFiles : ∀ name, files.Undefines name → removable name)
    (undefined : UndefinesOnly removable [node]) :
    Evolves removable (ofNode files expand context node) := by
  have inside : ∀ nodes, (∀ inner ∈ nodes, ∀ part, Node.Within part inner → part.Within node) →
      UndefinesOnly removable nodes := by
    intro nodes within name ⟨location, inner, among, deeper⟩
    exact undefined name ⟨location, node, by simp, within inner among _ deeper⟩
  intro env said later done
  cases node with
  | ident location name =>
      simp only [ofNode] at done
      split at done
      · exact Leads.say _ env said later done
      · exact (Leads.say _).andThen (leads_useMacro _ _) env said later done
  | call location name given =>
      simp only [ofNode] at done
      split at done
      · refine leads_callUnbound (fun argument member => deeper _ _ ?_) _ _ env said later done
        exact inside argument fun inner among part => .argument location name member among
      · exact (Leads.say _).andThen (leads_callMacro _ _ _) env said later done
  | define location name parameters body =>
      simp only [ofNode] at done
      split at done
      · cases done
      · next free =>
          cases done
          exact .define parameters body location (by simpa using free) (.refl _)
  | undef location name =>
      cases done
      exact .undef (undefined name ⟨location, _, by simp, .self⟩) (.refl _)
  | inclusion location path =>
      refine leads_includeFile (fun text nodes found read => deeper _ _ ?_) location env said later
        done
      exact fun name undefines => inFiles name ⟨path, text, nodes, found, read, undefines⟩
  | cond location test yes no =>
      simp only [ofNode] at done
      split at done
      · cases done
      · next holds _ =>
          refine Leads.between (deeper _ _ (inside _ fun inner among part => ?_)) _ _ env said
            later done
          cases holds with
          | true => exact .yes location test no among
          | false => exact .no location test yes among
  | error location message => cases done
  | seq location nodes =>
      have inNodes := inside nodes fun inner among part => .sequence location among
      exact deeper _ _ inNodes env said later done
  | warning | space | text | line | currentLine | currentFile =>
      exact Leads.say _ env said later done

theorem evolves_step {removable : Bytes → Prop} {files : FileSet}
    (inFiles : ∀ name, files.Undefines name → removable name) (context : Context)
    (nodes : List Node) (undefined : UndefinesOnly removable nodes) :
    Evolves removable (step files context nodes) := by
  refine leads_step (UndefinesOnly removable) (fun nodes undefined node among => ?_)
    (fun expand deeper context node => evolves_ofNode deeper inFiles) context nodes undefined
  intro name ⟨location, inner, isNode, within⟩
  rw [List.mem_singleton.1 isNode] at within
  exact undefined name ⟨location, node, among, within⟩

/-- The environment that an expansion leaves evolves from the one it starts in; only names that the
nodes or a file undefine are freed. -/
theorem evolves_of_run {files : FileSet} {context : Context} {nodes : List Node} {env later : Env}
    (ran : (run files context nodes env).result = .ok later) :
    Env.Evolves (fun name => Node.Undefines nodes name ∨ files.Undefines name) env later := by
  have answered : step files context nodes env = some (run files context nodes env) := rfl
  generalize run files context nodes env = outcome at ran answered
  obtain ⟨said, result⟩ := outcome
  cases ran
  exact evolves_step (fun _ => .inr) context nodes (fun _ => .inl) env said later answered

end Expansion

/-! ## What a name stands for -/

namespace Outcome

@[simp]
theorem restore_restore (first second : Env) (outcome : Outcome) :
    (outcome.restore first).restore second = outcome.restore second := by
  obtain ⟨events, result⟩ := outcome
  cases result <;> rfl

theorem restore_after (env : Env) (events : List Event) (outcome : Outcome) :
    (outcome.after events).restore env = (outcome.restore env).after events := rfl

end Outcome

namespace Expansion

open Step

/-- A macro without parameters is expanded in the same way wherever it is used: only the environment
that is gone back to differs. -/
theorem run_use_eq_restore (files : FileSet) (context : Context) {name : Bytes} {definition : Macro}
    {env other : Env} (plain : definition.parameters = none)
    (bound : env.lookup name = some definition) (boundOther : other.lookup name = some definition)
    {node : Node} (uses : ∃ location, node = .ident location name ∨
      ∃ given, node = .call location name given) :
    run files context [node] other = (run files context [node] env).restore other := by
  have here := ofNode_eq_some files context node env
  have there := ofNode_eq_some files context node other
  obtain ⟨location, rfl | ⟨given, rfl⟩⟩ := uses
  · simp only [ofNode, bound, boundOther, useMacro, plain, say_andThen, inside, step,
      Option.map_some, Option.some.injEq] at here there
    rw [← here, ← there, Outcome.restore_after, Outcome.restore_restore]
  · simp only [ofNode, bound, boundOther, callMacro, plain, say_andThen, fail, Option.map_some,
      Option.some.injEq] at here there
    rw [← here, ← there]
    rfl

/-- A macro without parameters keeps its meaning.  Whatever nodes are expanded, if neither they nor
any file undefines its name, the name stands for the very same macro afterwards; and a use of it
then gives out the same text from every layout, and fails with the same error if it fails, as it did
before. -/
theorem object_macro_keeps_meaning (files : FileSet) (context : Context) (nodes : List Node)
    (name : Bytes) (definition : Macro) (env later : Env) (plain : definition.parameters = none)
    (bound : env.lookup name = some definition) (kept : ¬Node.Undefines nodes name)
    (keptInFiles : ¬files.Undefines name)
    (ran : (run files context nodes env).result = .ok later) :
    later.lookup name = some definition ∧
      ∀ (inner : Context) (node : Node),
        (∃ location, node = .ident location name ∨ ∃ given, node = .call location name given) →
        run files inner [node] later = (run files inner [node] env).restore later ∧
          ∀ (layout : Layout) (markers : Bool),
            (layout.pieces (run files inner [node] later).events).flatMap (Piece.render markers) =
              (layout.pieces (run files inner [node] env).events).flatMap
                (Piece.render markers) := by
  have still : later.lookup name = some definition :=
    (evolves_of_run ran).lookup_eq (not_or.2 ⟨kept, keptInFiles⟩) bound
  refine ⟨still, fun inner node uses => ?_⟩
  have same := run_use_eq_restore files inner plain bound still uses
  refine ⟨same, fun layout markers => ?_⟩
  rw [same, Outcome.events_restore]

/-- A number under a name, and a second name that stands for the first. -/
def firstName : Macro :=
  ⟨bytes "A", none, [.text .nowhere (bytes "1")], .empty, .nowhere⟩

def secondName : Macro :=
  ⟨bytes "B", none, [.ident .nowhere (bytes "A")], Env.empty.bind firstName, .nowhere⟩

/-- The first name is given another number. -/
def renumbering : List Node :=
  [.undef .nowhere (bytes "A"),
    .define .nowhere (bytes "A") none [.text .nowhere (bytes "2")]]

theorem secondName_keeps_meaning :
    ∃ later,
      (run .empty ⟨[bytes "t"], none⟩ renumbering (secondName.scope.bind secondName)).result =
        .ok later ∧
      (later.lookup (bytes "A")).map (·.body) = some [.text .nowhere (bytes "2")] ∧
      later.lookup (bytes "B") = some secondName ∧
      run .empty ⟨[bytes "t"], none⟩ [.ident .nowhere (bytes "B")] later =
        ⟨[.jump, .jump, .text (.first []) (bytes "1")], .ok later⟩ := by
  let later : Env := Env.bind
    ⟨bytes "A", none, [.text .nowhere (bytes "2")], Env.empty.bind secondName, .nowhere⟩
    (Env.empty.bind secondName)
  have ran : run .empty ⟨[bytes "t"], none⟩ renumbering (secondName.scope.bind secondName) =
      ⟨[.jump, .jump], .ok later⟩ := run_eq_of_within (show within _ 1 _ _ _ = _ from rfl)
  have before : run .empty ⟨[bytes "t"], none⟩ [.ident .nowhere (bytes "B")]
      (secondName.scope.bind secondName) =
        ⟨[.jump, .jump, .text (.first []) (bytes "1")], .ok (secondName.scope.bind secondName)⟩ :=
    run_eq_of_within (show within _ 3 _ _ _ = _ from rfl)
  have kept : ¬Node.Undefines renumbering (bytes "B") := by
    rintro ⟨location, node, member, within⟩
    generalize same : Node.undef location (bytes "B") = part at within
    rcases List.mem_cons.1 member with rfl | member
    · cases within
      exact absurd (Node.undef.inj same).2 (by decide)
    · rw [List.mem_singleton.1 member] at within
      cases within with
      | self => cases same
      | body _ _ _ among deeper =>
          rw [List.mem_singleton.1 among] at deeper
          cases deeper
          cases same
  have keptInFiles : ¬FileSet.empty.Undefines (bytes "B") := by
    rintro ⟨path, text, nodes, found, _⟩
    cases found
  obtain ⟨still, use⟩ := object_macro_keeps_meaning .empty ⟨[bytes "t"], none⟩ renumbering
    (bytes "B") secondName (secondName.scope.bind secondName) later rfl rfl kept keptInFiles
    (by rw [ran])
  refine ⟨later, by rw [ran], rfl, still, ?_⟩
  rw [(use _ _ ⟨.nowhere, .inl rfl⟩).1, before]
  rfl

end Expansion

/-! ## No macro sees itself -/

namespace Env

/-- What a name is bound to has that name, and is defined where the name is not bound; and the same
holds in every environment that is reached from there. -/
inductive Blind : Env → Prop where
  | intro {env : Env}
      (unseen : ∀ name definition, env.lookup name = some definition →
        definition.name = name ∧ definition.scope.contains name = false)
      (deeper : ∀ name definition, env.lookup name = some definition → Blind definition.scope) :
      Blind env

/-- Each macro of the environment is defined where its name is not bound, in a blind environment. -/
def HoldsBlind (env : Env) : Prop :=
  ∀ definition ∈ env.macros,
    definition.scope.contains definition.name = false ∧ definition.scope.Blind

namespace HoldsBlind

theorem empty : HoldsBlind .empty := by
  intro definition member
  cases member

theorem blind {env : Env} (holds : HoldsBlind env) : env.Blind := by
  refine .intro (fun name definition found => ?_) fun name definition found => ?_
  · have named := name_of_lookup found
    refine ⟨named, ?_⟩
    rw [← named]
    exact (holds definition (mem_macros_of_lookup found)).1
  · exact (holds definition (mem_macros_of_lookup found)).2

theorem unbind {env : Env} (holds : HoldsBlind env) (name : Bytes) :
    HoldsBlind (env.unbind name) :=
  fun definition member => holds definition (mem_macros_unbind member)

theorem unbindAll {env : Env} (holds : HoldsBlind env) (names : List Bytes) :
    HoldsBlind (names.foldl (fun env name => env.unbind name) env) := by
  induction names generalizing env with
  | nil => exact holds
  | cons name rest ih => exact ih (holds.unbind name)

/-- A definition adds a macro that is closed over an environment which is blind and does not bind
its name. -/
theorem define {env : Env} (holds : HoldsBlind env) {name : Bytes}
    (parameters : Option (List Bytes)) (body : List Node) (location : Location)
    (free : env.contains name = false) :
    HoldsBlind (env.bind ⟨name, parameters, body, env, location⟩) := by
  intro definition member
  rcases mem_macros_bind member with rfl | member
  · exact ⟨free, holds.blind⟩
  · exact holds definition member

theorem evolves {removable : Bytes → Prop} {env later : Env} (evolves : Evolves removable env later)
    (holds : HoldsBlind env) : HoldsBlind later := by
  induction evolves with
  | refl => exact holds
  | define parameters body location free _ ih =>
      exact ih (holds.define parameters body location free)
  | undef _ _ ih => exact ih (holds.unbind _)

end HoldsBlind

/-- An environment that can come about: by expanding sources, by predefinition, and by freeing
names, in any order. -/
inductive Reachable : Env → Prop where
  | empty : Reachable .empty
  | expand {env later : Env} (files : FileSet) (name : Bytes) (nodes : List Node)
      (reached : Reachable env) (ran : (Expansion.expand files name nodes env).result = .ok later) :
      Reachable later
  | predefine {env : Env} (defined undefined : List Bytes) (files : FileSet)
      (ran : (ScopedMacros.predefine defined undefined files).result = .ok env) : Reachable env
  | unbind {env : Env} (name : Bytes) (reached : Reachable env) : Reachable (env.unbind name)

theorem holdsBlind_of_expand {files : FileSet} {name : Bytes} {nodes : List Node} {env later : Env}
    (holds : HoldsBlind env) (ran : (Expansion.expand files name nodes env).result = .ok later) :
    HoldsBlind later :=
  holds.evolves (Expansion.evolves_of_run ran)

theorem holdsBlind_of_predefine {defined undefined : List Bytes} {files : FileSet} {env : Env}
    (ran : (ScopedMacros.predefine defined undefined files).result = .ok env) :
    HoldsBlind env := by
  unfold ScopedMacros.predefine Expansion.ofSource at ran
  dsimp only at ran
  split at ran
  · cases ran
  · next nodes _ =>
      generalize made : Expansion.expand files Predefine.source nodes .empty = outcome at ran
      obtain ⟨said, result⟩ := outcome
      cases result with
      | error error => cases ran
      | ok first =>
          cases ran
          have holds : HoldsBlind first := holdsBlind_of_expand .empty (by rw [made])
          exact holds.unbindAll undefined

theorem holdsBlind_of_reachable {env : Env} (reached : Reachable env) : HoldsBlind env := by
  induction reached with
  | empty => exact .empty
  | expand _ _ _ _ ran ih => exact holdsBlind_of_expand ih ran
  | predefine _ _ _ ran => exact holdsBlind_of_predefine ran
  | unbind name _ ih => exact ih.unbind name

/-- No macro sees itself: in every environment that can come about, each name is bound to a macro of
that name whose scope does not bind the name, and the same holds in the scope, and so on. -/
theorem no_macro_sees_itself {env : Env} (reached : Reachable env) : env.Blind :=
  (holdsBlind_of_reachable reached).blind

/-- A macro whose parameter has the name of another macro. -/
def namesake : Macro :=
  ⟨bytes "f", some [bytes "x"], [.ident .nowhere (bytes "x")],
    Env.empty.bind ⟨bytes "x", none, [], .empty, .nowhere⟩, .nowhere⟩

/-- The other macro and this one are defined, and the second is called with the first. -/
def namesakeCall : List Node :=
  [.define .nowhere (bytes "x") none [],
    .define .nowhere namesake.name namesake.parameters namesake.body,
    .call .nowhere (bytes "f") [[.ident .nowhere (bytes "x")]]]

/-- The body of the macro is expanded where the parameter sees its namesake, and nothing of this is
left after the call. -/
theorem no_macro_sees_itself_after_namesakeCall :
    ∃ env, (Expansion.expand .empty (bytes "t") namesakeCall .empty).result = .ok env ∧
      ¬(namesake.bindArguments [bytes "x"] [[.ident .nowhere (bytes "x")]] env .nowhere).Blind ∧
      env.Blind := by
  have ran : (Expansion.expand .empty (bytes "t") namesakeCall .empty).result =
      .ok (namesake.scope.bind namesake) :=
    Expansion.view_expand_of_within Outcome.result
      (show (Expansion.within _ 4 _ _ _).map _ = _ from rfl)
  refine ⟨namesake.scope.bind namesake, ran, ?_, ?_⟩
  · rintro ⟨unseen, _⟩
    exact absurd (unseen (bytes "x") _ rfl).2 (by decide)
  · exact no_macro_sees_itself (.expand .empty (bytes "t") namesakeCall .empty ran)

end Env

end ScopedMacros
