import ScopedMacros.Expansion.Basic
import ScopedMacros.Node.Form

/-!
# Every expansion ends

More depth never changes an answer, and some depth always suffices.  No macro sees itself, so
following a use leads into scopes that were there before the macro; no file is included within
itself, so inclusions go down at most once for each file; and what a file defines is free of
inclusions.
-/

namespace ScopedMacros

/-! ## Answers do not depend on the depth -/

namespace Step

/-- The second step answers as the first one wherever the first one answers. -/
def Le (first second : Step) : Prop :=
  ∀ env outcome, first env = some outcome → second env = some outcome

theorem Le.refl (step : Step) : Le step step :=
  fun _ _ answered => answered

theorem Le.andThen {first first' second second' : Step} (left : Le first first')
    (right : Le second second') : Le (andThen first second) (andThen first' second') := by
  intro env outcome answered
  unfold Step.andThen at answered ⊢
  split at answered
  · cases answered
  · next found => rw [left _ _ found]; exact answered
  · next found =>
      rw [left _ _ found]
      obtain ⟨result, rest, rfl⟩ := Option.map_eq_some_iff.1 answered
      simp [right _ _ rest]

theorem Le.all_map {α : Type} {first second : α → Step} {items : List α}
    (le : ∀ item ∈ items, Le (first item) (second item)) :
    Le (all (items.map first)) (all (items.map second)) := by
  induction items with
  | nil => exact .refl _
  | cons item rest ih =>
      exact (le item (by simp)).andThen (ih fun other member => le other (by simp [member]))

theorem Le.inside {first second : Step} (scope : Env) (le : Le first second) :
    Le (inside scope first) (inside scope second) := by
  intro env outcome answered
  obtain ⟨result, inner, rfl⟩ := Option.map_eq_some_iff.1 answered
  simp [Step.inside, le _ _ inner]

end Step

namespace Expansion

open Step

variable {files : FileSet}

section

variable {expand expand' : Context → List Node → Step}
  (le : ∀ context nodes, Le (expand context nodes) (expand' context nodes))
include le

theorem useMacro_le (context : Context) (location : Location) (definition : Macro) :
    Le (useMacro expand context location definition)
      (useMacro expand' context location definition) := by
  unfold useMacro
  split
  · exact .refl _
  · exact (le _ _).inside _

theorem callMacro_le (context : Context) (location : Location) (definition : Macro)
    (given : List (List Node)) :
    Le (callMacro expand context location definition given)
      (callMacro expand' context location definition given) := by
  unfold callMacro
  split
  · exact .refl _
  · intro env outcome answered
    dsimp only at answered ⊢
    split at answered
    · next same => rw [if_pos same]; exact (le _ _).inside _ _ _ answered
    · next different => rw [if_neg different]; exact answered

theorem passArguments_le (context : Context) (separator : Step) (given : List (List Node)) :
    Le (passArguments expand context separator given)
      (passArguments expand' context separator given) := by
  unfold passArguments
  split
  · exact .refl _
  · exact (le _ _).andThen (.all_map fun _ _ => (Le.refl _).andThen (le _ _))

theorem callUnbound_le (context : Context) (location : Location) (name : Bytes)
    (given : List (List Node)) :
    Le (callUnbound expand context location name given)
      (callUnbound expand' context location name given) := by
  unfold callUnbound
  exact (Le.refl _).andThen ((passArguments_le le _ _ _).andThen (.refl _))

theorem includeFile_le (context : Context) (location : Location) (path : Bytes) :
    Le (includeFile files expand context location path)
      (includeFile files expand' context location path) := by
  unfold includeFile
  split
  · exact .refl _
  split
  · exact .refl _
  split
  · exact .refl _
  · exact (Le.refl _).andThen ((le _ _).andThen (.refl _))

theorem ofNode_le (context : Context) (node : Node) :
    Le (ofNode files expand context node) (ofNode files expand' context node) := by
  cases node with
  | ident location name =>
      intro env outcome answered
      simp only [ofNode] at answered ⊢
      split at answered
      · exact answered
      · exact (Le.refl _).andThen (useMacro_le le _ _ _) _ _ answered
  | call location name given =>
      intro env outcome answered
      simp only [ofNode] at answered ⊢
      split at answered
      · exact callUnbound_le le _ _ _ _ _ _ answered
      · exact (Le.refl _).andThen (callMacro_le le _ _ _ _) _ _ answered
  | inclusion location path => exact includeFile_le le _ _ _
  | cond location test yes no =>
      intro env outcome answered
      simp only [ofNode] at answered ⊢
      split at answered
      · exact answered
      · exact (Le.refl _).andThen ((le _ _).andThen (.refl _)) _ _ answered
  | seq location nodes => exact le _ _
  | _ => exact .refl _

end

theorem within_le_succ (depth : Nat) (context : Context) (nodes : List Node) :
    Le (within files depth context nodes) (within files (depth + 1) context nodes) := by
  induction depth generalizing context nodes with
  | zero =>
      intro env outcome answered
      cases answered
  | succ depth ih => exact .all_map fun node _ => ofNode_le ih context node

/-- A deeper expansion answers as a less deep one. -/
theorem within_le {depth deeper : Nat} (le : depth ≤ deeper) (context : Context)
    (nodes : List Node) :
    Le (within files depth context nodes) (within files deeper context nodes) := by
  induction le with
  | refl => exact .refl _
  | step _ ih =>
      exact fun env outcome answered => within_le_succ _ _ _ _ _ (ih env outcome answered)

end Expansion

/-! ## Steps that answer at some depth -/

/-- A step for each depth, where more depth keeps every answer. -/
def Deepening (steps : Nat → Step) : Prop :=
  ∀ depth deeper, depth ≤ deeper → Step.Le (steps depth) (steps deeper)

/-- At some depth there is an answer, and an environment it ends with has a property. -/
def Halts (steps : Nat → Step) (env : Env) (property : Env → Prop) : Prop :=
  ∃ depth outcome, steps depth env = some outcome ∧
    ∀ final, outcome.result = .ok final → property final

namespace Halts

open Step

variable {env : Env} {property : Env → Prop}

theorem say {events : List Event} (holds : property env) :
    Halts (fun _ => Step.say events) env property :=
  ⟨0, ⟨events, .ok env⟩, rfl, fun _ same => by cases same; exact holds⟩

theorem fail {error : Error} : Halts (fun _ => Step.fail error) env property :=
  ⟨0, ⟨[], .error error⟩, rfl, fun _ same => by cases same⟩

/-- Halting depends only on the answers in the environment at hand. -/
theorem congr {steps other : Nat → Step} (same : ∀ depth, steps depth env = other depth env)
    (halts : Halts other env property) : Halts steps env property := by
  obtain ⟨depth, outcome, answered, holds⟩ := halts
  exact ⟨depth, outcome, (same depth).trans answered, holds⟩

theorem imp {steps : Nat → Step} {weaker : Env → Prop} (halts : Halts steps env property)
    (weaken : ∀ env, property env → weaker env) : Halts steps env weaker := by
  obtain ⟨depth, outcome, answered, holds⟩ := halts
  exact ⟨depth, outcome, answered, fun final same => weaken _ (holds final same)⟩

theorem andThen {first second : Nat → Step} {last : Env → Prop} (firstDeepens : Deepening first)
    (secondDeepens : Deepening second) (halts : Halts first env property)
    (next : ∀ env, property env → Halts second env last) :
    Halts (fun depth => Step.andThen (first depth) (second depth)) env last := by
  obtain ⟨depth, ⟨events, result⟩, answered, holds⟩ := halts
  cases result with
  | error error =>
      refine ⟨depth, ⟨events, .error error⟩, ?_, fun _ same => by cases same⟩
      simp [Step.andThen, answered]
  | ok middle =>
      obtain ⟨other, outcome, following, lastHolds⟩ := next middle (holds middle rfl)
      refine ⟨max depth other, outcome.after events, ?_, lastHolds⟩
      have left := firstDeepens _ (max depth other) (Nat.le_max_left _ _) _ _ answered
      have right := secondDeepens _ (max depth other) (Nat.le_max_right _ _) _ _ following
      simp [Step.andThen, left, right]

theorem all_map {α : Type} {steps : Nat → α → Step} {items : List α}
    (deepens : ∀ item ∈ items, Deepening fun depth => steps depth item)
    (halts : ∀ item ∈ items, ∀ env, property env →
      Halts (fun depth => steps depth item) env property)
    (holds : property env) :
    Halts (fun depth => all (items.map (steps depth))) env property := by
  induction items generalizing env with
  | nil => exact say holds
  | cons item rest ih =>
      refine andThen (deepens item (by simp)) ?_ (halts item (by simp) env holds) fun env holds =>
        ih (fun other member => deepens other (by simp [member]))
          (fun other member => halts other (by simp [member])) holds
      intro depth deeper le
      exact .all_map fun other member => deepens other (by simp [member]) depth deeper le

theorem inside {steps : Nat → Step} {scope : Env} {inner : Env → Prop}
    (halts : Halts steps scope inner) (holds : property env) :
    Halts (fun depth => Step.inside scope (steps depth)) env property := by
  obtain ⟨depth, outcome, answered, _⟩ := halts
  refine ⟨depth, outcome.restore env, by simp [Step.inside, answered], fun final same => ?_⟩
  obtain ⟨events, result⟩ := outcome
  cases result with
  | error error => cases same
  | ok final =>
      cases same
      exact holds

end Halts

namespace Expansion

variable {files : FileSet}

theorem deepening_within (context : Context) (nodes : List Node) :
    Deepening fun depth => within files depth context nodes :=
  fun _ _ le => within_le le context nodes

theorem deepening_ofNode (context : Context) (node : Node) :
    Deepening fun depth => ofNode files (within files depth) context node :=
  fun _ _ le => ofNode_le (fun context nodes => within_le le context nodes) context node

theorem deepening_const (step : Step) : Deepening fun _ => step :=
  fun _ _ _ => .refl step

end Expansion

/-! ## Safe macros and environments -/

/-- In the given environment the expansion of a body ends, in every context. -/
def BodyHalts (files : FileSet) (body : List Node) (env : Env) : Prop :=
  ∀ context, Halts (fun depth => Expansion.within files depth context body) env fun _ => True

/-- Every use of a macro ends, provided that the arguments given to it do. -/
def Macro.Safe (files : FileSet) (definition : Macro) : Prop :=
  match definition.parameters with
  | none => BodyHalts files definition.body definition.scope
  | some _ => ∀ given : List Macro,
      (∀ argument ∈ given,
        argument.parameters = none ∧ BodyHalts files argument.body argument.scope) →
      BodyHalts files definition.body (definition.scope.bindAll given)

/-- All macros of an environment are safe. -/
def Env.Safe (files : FileSet) (env : Env) : Prop :=
  ∀ definition ∈ env.macros, definition.Safe files

namespace Env.Safe

variable {files : FileSet} {env : Env}

theorem empty : Env.empty.Safe files := by
  intro definition member
  cases member

theorem lookup {name : Bytes} {definition : Macro} (safe : env.Safe files)
    (found : env.lookup name = some definition) : definition.Safe files :=
  safe definition (mem_macros_of_lookup found)

theorem bind {definition : Macro} (safe : env.Safe files) (new : definition.Safe files) :
    (env.bind definition).Safe files := by
  intro other member
  rcases mem_macros_bind member with rfl | member
  · exact new
  · exact safe other member

theorem unbind {name : Bytes} (safe : env.Safe files) : (env.unbind name).Safe files :=
  fun other member => safe other (mem_macros_unbind member)

theorem bindAll {definitions : List Macro} (safe : env.Safe files)
    (new : ∀ definition ∈ definitions, definition.Safe files) :
    (env.bindAll definitions).Safe files := by
  intro other member
  rcases mem_macros_bindAll member with member | member
  · exact new other member
  · exact safe other member

end Env.Safe

namespace Expansion

variable {files : FileSet}

/-- In a context, a node keeps safe environments safe, and its expansion ends. -/
def NodeRuns (files : FileSet) (context : Context) (node : Node) : Prop :=
  ∀ env, env.Safe files →
    Halts (fun depth => ofNode files (within files depth) context node) env (Env.Safe files)

/-- In a context, nodes keep safe environments safe, and their expansion ends. -/
def Runs (files : FileSet) (context : Context) (nodes : List Node) : Prop :=
  ∀ env, env.Safe files → Halts (fun depth => within files depth context nodes) env (Env.Safe files)

theorem runs_of_nodes {context : Context} {nodes : List Node}
    (each : ∀ node ∈ nodes, NodeRuns files context node) : Runs files context nodes := by
  intro env safe
  obtain ⟨depth, outcome, answered, holds⟩ :=
    Halts.all_map (fun node _ => deepening_ofNode context node)
      (fun node member => each node member)
      safe
  exact ⟨depth + 1, outcome, answered, holds⟩

theorem Runs.bodyHalts {nodes : List Node} {env : Env}
    (runs : ∀ context, Runs files context nodes) (safe : env.Safe files) :
    BodyHalts files nodes env :=
  fun context => (runs context env safe).imp fun _ _ => trivial

/-- A definition with a body that always runs is safe. -/
theorem safe_of_runs {definition : Macro} (runs : ∀ context, Runs files context definition.body)
    (safe : definition.scope.Safe files) : definition.Safe files := by
  unfold Macro.Safe
  split
  · exact Runs.bodyHalts runs safe
  · intro given each
    refine Runs.bodyHalts runs (safe.bindAll fun argument member => ?_)
    obtain ⟨none, halts⟩ := each argument member
    rw [Macro.Safe, none]
    exact halts

theorem halts_useMacro {context : Context} {location : Location} {definition : Macro} {env : Env}
    (definitionSafe : definition.Safe files) (safe : env.Safe files) :
    Halts (fun depth => useMacro (within files depth) context location definition) env
      (Env.Safe files) := by
  unfold useMacro
  unfold Macro.Safe at definitionSafe
  split
  · exact Halts.fail
  · next none =>
      rw [none] at definitionSafe
      exact Halts.inside (definitionSafe _) safe

theorem halts_callMacro {context : Context} {location : Location} {definition : Macro}
    {given : List (List Node)} {env : Env} (definitionSafe : definition.Safe files)
    (safe : env.Safe files)
    (runs : ∀ argument ∈ given, ∀ context, Runs files context argument) :
    Halts (fun depth => callMacro (within files depth) context location definition given) env
      (Env.Safe files) := by
  unfold callMacro
  unfold Macro.Safe at definitionSafe
  split
  · exact Halts.fail
  · next parameters some =>
      rw [some] at definitionSafe
      by_cases same : (Macro.arguments parameters given).length = parameters.length
      · refine Halts.congr (fun depth => if_pos same) (Halts.inside (definitionSafe _ ?_ _) safe)
        intro argument member
        obtain ⟨⟨name, body⟩, pair, rfl⟩ := List.mem_map.1 member
        refine ⟨rfl, Runs.bodyHalts (fun context => ?_) safe⟩
        have member := (List.of_mem_zip pair).2
        unfold Macro.arguments at member
        split at member
        · rw [List.mem_singleton.1 member]
          exact runs_of_nodes (by simp)
        · exact runs body member context
      · exact Halts.congr (fun depth => if_neg same) Halts.fail

theorem halts_callUnbound {context : Context} {location : Location} {name : Bytes}
    {given : List (List Node)} {env : Env} (safe : env.Safe files)
    (runs : ∀ argument ∈ given, ∀ context, Runs files context argument) :
    Halts (fun depth => callUnbound (within files depth) context location name given) env
      (Env.Safe files) := by
  have deepens : ∀ separator, Deepening fun depth =>
      passArguments (within files depth) context separator given :=
    fun _ _ _ le => passArguments_le (fun context nodes => within_le le context nodes) _ _ _
  have passes : ∀ separator env, env.Safe files →
      (∀ env, env.Safe files → Halts (fun _ => separator) env (Env.Safe files)) →
      Halts (fun depth => passArguments (within files depth) context separator given) env
        (Env.Safe files) := by
    intro separator env safe separates
    cases given with
    | nil => exact Halts.say safe
    | cons first rest =>
        refine Halts.andThen (deepening_within _ _) ?_ (runs first (by simp) _ _ safe)
          fun env safe => Halts.all_map ?_ ?_ safe
        · intro _ _ le
          exact .all_map fun _ _ => (Step.Le.refl _).andThen (within_le le _ _)
        · intro argument _ _ _ le
          exact (Step.Le.refl _).andThen (within_le le _ _)
        · intro argument member env safe
          exact Halts.andThen (deepening_const _) (deepening_within _ _) (separates env safe)
            fun env safe => runs argument (by simp [member]) _ _ safe
  unfold callUnbound
  refine Halts.andThen (deepening_const _) ?_ (Halts.say safe) fun env safe =>
    Halts.andThen (deepens _) (deepening_const _)
      (passes _ env safe fun env safe => Halts.say safe) fun env safe =>
        Halts.andThen (deepening_const _) (deepening_const _) (Halts.say safe)
          fun env safe => Halts.say safe
  exact fun _ _ le => (deepens _ _ _ le).andThen (.refl _)

theorem nodeRuns_ident (context : Context) (location : Location) (name : Bytes) :
    NodeRuns files context (.ident location name) := by
  intro env safe
  cases found : env.lookup name with
  | none =>
      have same : ∀ depth, ofNode files (within files depth) context (.ident location name) env =
          Step.say [.text location.start name] env := fun depth => by simp only [ofNode, found]
      exact Halts.congr same (Halts.say safe)
  | some definition =>
      have same : ∀ depth, ofNode files (within files depth) context (.ident location name) env =
          Step.andThen (Step.say [.jump])
            (useMacro (within files depth) context location definition) env :=
        fun depth => by simp only [ofNode, found]
      refine Halts.congr same (Halts.andThen (deepening_const _) ?_ (Halts.say safe)
        fun env envSafe => halts_useMacro (safe.lookup found) envSafe)
      exact fun _ _ le => useMacro_le (fun context nodes => within_le le context nodes) _ _ _

theorem nodeRuns_call {context : Context} {location : Location} {name : Bytes}
    {given : List (List Node)}
    (runs : ∀ argument ∈ given, ∀ context, Runs files context argument) :
    NodeRuns files context (.call location name given) := by
  intro env safe
  cases found : env.lookup name with
  | none =>
      have same : ∀ depth,
          ofNode files (within files depth) context (.call location name given) env =
            callUnbound (within files depth) context location name given env :=
        fun depth => by simp only [ofNode, found]
      exact Halts.congr same (halts_callUnbound safe runs)
  | some definition =>
      have same : ∀ depth,
          ofNode files (within files depth) context (.call location name given) env =
            Step.andThen (Step.say [.jump])
              (callMacro (within files depth) context location definition given) env :=
        fun depth => by simp only [ofNode, found]
      refine Halts.congr same (Halts.andThen (deepening_const _) ?_ (Halts.say safe)
        fun env envSafe => halts_callMacro (safe.lookup found) envSafe runs)
      exact fun _ _ le => callMacro_le (fun context nodes => within_le le context nodes) _ _ _ _

theorem nodeRuns_define {context : Context} {location : Location} {name : Bytes}
    {parameters : Option (List Bytes)} {body : List Node}
    (runs : ∀ context, Runs files context body) :
    NodeRuns files context (.define location name parameters body) := by
  intro env safe
  by_cases bound : env.contains name = true
  · have same : ∀ depth,
        ofNode files (within files depth) context (.define location name parameters body) env =
          Step.fail ⟨.alreadyDefined name, location⟩ env :=
      fun depth => by simp only [ofNode, bound, if_true]
    exact Halts.congr same Halts.fail
  · refine ⟨0, ⟨[.jump], .ok (env.bind ⟨name, parameters, body, env, location⟩)⟩, ?_, ?_⟩
    · simp only [ofNode, bound]
      rfl
    · intro final same
      cases same
      exact safe.bind (safe_of_runs runs safe)

theorem nodeRuns_cond {context : Context} {location : Location} {test : Test} {yes no : List Node}
    (yesRuns : Runs files context yes) (noRuns : Runs files context no) :
    NodeRuns files context (.cond location test yes no) := by
  intro env safe
  cases value : test.eval env with
  | error error =>
      have same : ∀ depth,
          ofNode files (within files depth) context (.cond location test yes no) env =
            Step.fail error env := fun depth => by simp only [ofNode, value]
      exact Halts.congr same Halts.fail
  | ok holds =>
      have branchRuns : Runs files context (if holds then yes else no) := by
        split
        · exact yesRuns
        · exact noRuns
      have same : ∀ depth,
          ofNode files (within files depth) context (.cond location test yes no) env =
            Step.all [Step.say [.jump], within files depth context (if holds then yes else no),
              Step.say [.jump]] env := fun depth => by simp only [ofNode, value]
      refine Halts.congr same (Halts.andThen (deepening_const _) ?_ (Halts.say safe)
        fun env safe => Halts.andThen (deepening_within _ _) (deepening_const _)
          (branchRuns env safe) fun env safe =>
            Halts.andThen (deepening_const _) (deepening_const _) (Halts.say safe)
              fun env safe => Halts.say safe)
      exact fun _ _ le => (within_le le _ _).andThen (.refl _)

theorem nodeRuns_inclusion {context : Context} {location : Location} {path : Bytes}
    (runs : path ∉ context.ancestry → ∀ text, files.contents? path = some text →
      ∀ nodes, Node.ofSource path text = .ok nodes → Runs files (context.forFile path) nodes) :
    NodeRuns files context (.inclusion location path) := by
  intro env safe
  simp only [ofNode, includeFile]
  split
  · exact Halts.fail
  · next new =>
      split
      · exact Halts.fail
      · next text found =>
          split
          · exact Halts.fail
          · next nodes read =>
              have fileRuns := runs new text found nodes read
              refine Halts.andThen (deepening_const _) ?_ (Halts.say safe)
                fun env safe => Halts.andThen (deepening_within _ _) (deepening_const _)
                  (fileRuns env safe) fun env safe =>
                    Halts.andThen (deepening_const _) (deepening_const _) (Halts.say safe)
                      fun env safe => Halts.say safe
              exact fun _ _ le => (within_le le _ _).andThen (.refl _)

/-! ## Every list of nodes runs -/

theorem nodeRuns_plain {node : Node} (plain : node.Plain) (context : Context) :
    NodeRuns files context node := by
  induction plain generalizing context with
  | ident location name => exact nodeRuns_ident context location name
  | call location name given _ ih =>
      exact nodeRuns_call fun argument argumentMember context =>
        runs_of_nodes fun node member => ih argument argumentMember node member context
  | space | text | currentLine | currentFile => exact fun env safe => Halts.say safe

/-- Nodes of a source run, by induction on the number of files that can still be included. -/
theorem nodeRuns_fromSource {node : Node} (form : node.FromSource) (context : Context) :
    NodeRuns files context node := by
  induction left : (Bytes.unseen files.names context.ancestry).length using Nat.strongRecOn
    generalizing context node with
  | ind count files_ih =>
      induction form with
      | plain plain => exact nodeRuns_plain plain context
      | define location name parameters body plain =>
          exact nodeRuns_define fun context =>
            runs_of_nodes fun node member => nodeRuns_plain (plain node member) context
      | undef location name =>
          intro env safe
          exact ⟨0, ⟨[.jump], .ok (env.unbind name)⟩, rfl, fun final same => by
            cases same
            exact safe.unbind⟩
      | inclusion location path =>
          refine nodeRuns_inclusion fun new text found nodes read => ?_
          refine runs_of_nodes fun node member => ?_
          have fewer := Bytes.length_unseen_lt (FileSet.mem_names_of_contents? found) new
          exact files_ih _ (left ▸ fewer)
            (Node.fromSource_of_ofSource read node member) _ rfl
      | cond location test yes no _ _ yes_ih no_ih =>
          exact nodeRuns_cond (runs_of_nodes yes_ih) (runs_of_nodes no_ih)
      | error location message => exact fun env _ => Halts.fail
      | warning | line => exact fun env safe => Halts.say safe

/-- Every node runs, whatever its macro bodies and arguments hold. -/
theorem nodeRuns (node : Node) (context : Context) : NodeRuns files context node := by
  match node with
  | .ident location name => exact nodeRuns_ident context location name
  | .call location name given =>
      exact nodeRuns_call fun argument argumentMember context =>
        runs_of_nodes fun node member => nodeRuns node context
  | .define location name parameters body =>
      exact nodeRuns_define fun context =>
        runs_of_nodes fun node member => nodeRuns node context
  | .undef location name => exact nodeRuns_fromSource (.undef location name) context
  | .inclusion location path => exact nodeRuns_fromSource (.inclusion location path) context
  | .cond location test yes no =>
      exact nodeRuns_cond (runs_of_nodes fun node member => nodeRuns node context)
        (runs_of_nodes fun node member => nodeRuns node context)
  | .error location message => exact fun env _ => Halts.fail
  | .warning _ _ | .space _ _ | .text _ _ | .line _ _ _ | .currentLine _ | .currentFile _ =>
      exact fun env safe => Halts.say safe
  | .seq location nodes =>
      exact runs_of_nodes fun node member => nodeRuns node context
termination_by sizeOf node
decreasing_by
  · have inner := List.sizeOf_lt_of_mem member
    have outer := List.sizeOf_lt_of_mem argumentMember
    simp only [Node.call.sizeOf_spec]
    omega
  all_goals
    have inner := List.sizeOf_lt_of_mem member
    simp only [Node.define.sizeOf_spec, Node.cond.sizeOf_spec, Node.seq.sizeOf_spec]
    omega

/-- Every environment is safe. -/
theorem safe (env : Env) : env.Safe files := by
  induction env with
  | empty => exact .empty
  | cons name parameters body scope location rest scopeSafe restSafe =>
      intro definition member
      rcases List.mem_cons.1 member with rfl | member
      · exact safe_of_runs (fun context => runs_of_nodes fun node _ => nodeRuns node context)
          scopeSafe
      · exact restSafe definition member

/-- The expansion of any nodes in any environment and context ends at some depth. -/
theorem exists_within_eq_some (files : FileSet) (context : Context) (nodes : List Node)
    (env : Env) :
    ∃ depth outcome, within files depth context nodes env = some outcome := by
  obtain ⟨depth, outcome, answered, _⟩ :=
    runs_of_nodes (fun node _ => nodeRuns node context) env (safe env)
  exact ⟨depth, outcome, answered⟩

end Expansion

end ScopedMacros
