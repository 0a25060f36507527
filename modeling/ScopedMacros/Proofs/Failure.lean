import ScopedMacros.Proofs.Reach

/-!
# Where an error comes from

An expansion that fails does so at one node that it comes upon: the node fails whatever the lists
that it could enter do, and the error goes up unchanged through all that is being expanded.  A visit
records, besides the node, which files are being included at that moment.
-/

namespace ScopedMacros

namespace Step

/-- Steps in a row fail at one of them, after those before it have succeeded. -/
theorem exists_split_of_all_error {steps : List Step} {env : Env} {events : List Event}
    {error : Error} (failed : all steps env = some ⟨events, .error error⟩) :
    ∃ earlier step later said middle more, steps = earlier ++ step :: later ∧
      all earlier env = some ⟨said, .ok middle⟩ ∧ step middle = some ⟨more, .error error⟩ := by
  induction steps generalizing env events with
  | nil => cases failed
  | cons first rest ih =>
      rw [all] at failed
      cases ran : first env with
      | none =>
          rw [andThen_of_none ran] at failed
          cases failed
      | some outcome =>
          obtain ⟨said, result⟩ := outcome
          cases result with
          | error other =>
              rw [andThen_of_error ran] at failed
              cases failed
              exact ⟨[], first, rest, [], env, events, rfl, rfl, ran⟩
          | ok middle =>
              rw [andThen_of_ok ran] at failed
              obtain ⟨⟨later, ended⟩, restFailed, same⟩ := Option.map_eq_some_iff.1 failed
              cases same
              obtain ⟨earlier, step, others, before, last, more, split, earlierRan, stepFailed⟩ :=
                ih restFailed
              refine ⟨first :: earlier, step, others, said ++ before, last, more, by rw [split]; rfl,
                ?_, stepFailed⟩
              rw [all, andThen_of_ok ran, earlierRan]
              rfl

end Step

namespace Expansion

open Step

/-- The file that a node includes, if any. -/
def opened : Node → List Bytes
  | .inclusion _ path => [path]
  | _ => []

/-- The expansion of nodes comes upon a node, in a context and an environment, while a chain of files
is being included, the innermost first. -/
inductive Visits (files : FileSet) (context : Context) (nodes : List Node) (env : Env) :
    List Bytes → Context → Node → Env → Prop where
  | here {earlier later : List Node} {node : Node} {said : List Event} {middle : Env}
      (split : nodes = earlier ++ node :: later)
      (ran : run files context earlier env = ⟨said, .ok middle⟩) :
      Visits files context nodes env [] context node middle
  | inside {chain : List Bytes} {said more : List Event} {outer inner : Context}
      {node found : Node} {start middle here : Env} {entered earlier later : List Node}
      (visited : Visits files context nodes env chain outer node start)
      (enters : Enters files outer node start said inner entered middle)
      (split : entered = earlier ++ found :: later)
      (ran : run files inner earlier middle = ⟨more, .ok here⟩) :
      Visits files context nodes env (opened node ++ chain) inner found here

variable {files : FileSet} {context inner : Context} {nodes entered : List Node} {node : Node}
  {env middle here : Env} {chain : List Bytes} {said : List Event} {error : Error}

/-- A list that is entered at a visited node is visited as well. -/
theorem Visits.trans {further : List Bytes} {last : Context} {found : Node} {final : Env}
    (visited : Visits files context nodes env chain inner node here) {deeper : Context}
    (enters : Enters files inner node here said deeper entered middle)
    (visits : Visits files deeper entered middle further last found final) :
    Visits files context nodes env (further ++ opened node ++ chain) last found final := by
  induction visits with
  | here split ran => exact .inside visited enters split ran
  | @inside chain said more outer inner node found start middle here entered earlier later _ enters
      split ran ih =>
      rw [List.append_assoc (opened node), List.append_assoc (opened node)]
      exact .inside ih enters split ran

/-! ## Errors go up -/

/-- A node of a list that fails, after those before it, makes the list fail. -/
theorem result_of_split {earlier later : List Node}
    (ran : run files context earlier env = ⟨said, .ok middle⟩)
    (failed : (run files context [node] middle).result = .error error) :
    (run files context (earlier ++ node :: later) env).result = .error error := by
  rw [run_append_of_ok ran, ← List.singleton_append]
  cases whole : run files context [node] middle with
  | mk events result =>
      rw [whole] at failed
      cases failed
      rw [run_append_of_error whole]
      rfl

theorem exists_error_of_result {nodes : List Node}
    (failed : (run files context nodes env).result = .error error) :
    ∃ events, step files context nodes env = some ⟨events, .error error⟩ := by
  unfold step
  generalize run files context nodes env = outcome at failed
  obtain ⟨events, result⟩ := outcome
  cases failed
  exact ⟨events, rfl⟩

theorem exists_error_of_argument {location : Location} {name : Bytes}
    {earlier later : List (List Node)} {argument : List Node} {events : List Event}
    (unbound : env.lookup name = none)
    (passed : andThen
      (passArguments (step files) context (say [.text location.start [Byte.comma]]) earlier)
      (say (if earlier.isEmpty then [] else [.text location.start [Byte.comma]])) env =
        some ⟨said, .ok middle⟩)
    (failed : step files context argument middle = some ⟨events, .error error⟩) :
    ∃ whole, ofNode files (step files) context
      (.call location name (earlier ++ argument :: later)) env = some ⟨whole, .error error⟩ := by
  have inArguments : passArguments (step files) context (say [.text location.start [Byte.comma]])
      (earlier ++ argument :: later) env = some ⟨said ++ events, .error error⟩ := by
    rw [passArguments_append, andThen_of_ok passed, andThen_of_error failed]
    rfl
  refine ⟨.text location.start (name ++ [Byte.leftParen]) :: (said ++ events), ?_⟩
  simp only [ofNode, unbound, callUnbound]
  rw [all, say_andThen, all, andThen_of_error inArguments]
  rfl

/-- A list that fails makes the node fail that has entered it. -/
theorem result_of_enters (enters : Enters files context node env said inner entered middle)
    (failed : (run files inner entered middle).result = .error error) :
    (run files context [node] env).result = .error error := by
  obtain ⟨events, answered⟩ := exists_error_of_result failed
  suffices whole : ∃ whole, ofNode files (step files) context node env =
      some ⟨whole, .error error⟩ by
    obtain ⟨whole, answered⟩ := whole
    rw [run_eq_of_ofNode answered]
  cases enters with
  | use bound plain =>
      simp only [ofNode, bound, useMacro, plain, say_andThen, inside, answered, Option.map_some]
      exact ⟨_, rfl⟩
  | call bound applied arity =>
      simp only [ofNode, bound, callMacro, applied, say_andThen, inside, answered, Option.map_some,
        arity, if_true]
      exact ⟨_, rfl⟩
  | argument unbound passed => exact exists_error_of_argument unbound passed answered
  | branch value =>
      simp only [ofNode, value, all_between, answered, Option.map_some]
      exact ⟨_, rfl⟩
  | file new found read =>
      simp only [ofNode, includeFile, new, found, read, all_between, answered, Option.map_some,
        if_false]
      exact ⟨_, rfl⟩
  | sequence => exact ⟨events, answered⟩

/-- A visited node that fails makes the whole expansion fail. -/
theorem result_of_visits (visited : Visits files context nodes env chain inner node here)
    (failed : (run files inner [node] here).result = .error error) :
    (run files context nodes env).result = .error error := by
  induction visited with
  | here split ran =>
      rw [split]
      exact result_of_split ran failed
  | inside _ enters split ran ih =>
      refine ih (result_of_enters enters ?_)
      rw [split]
      exact result_of_split ran failed

/-! ## Errors come from a node -/

/-- The node fails, whatever the lists do that it could enter. -/
def FailsAlone (files : FileSet) (context : Context) (node : Node) (env : Env) (error : Error) :
    Prop :=
  ∃ events, ∀ expand, ofNode files expand context node env = some ⟨events, .error error⟩

theorem result_of_failsAlone (fails : FailsAlone files context node env error) :
    (run files context [node] env).result = .error error := by
  obtain ⟨events, failed⟩ := fails
  rw [run_eq_of_ofNode (failed (step files))]

/-- The arguments of a call of a name that is not bound fail at one of them. -/
theorem exists_argument_of_error {separator : List Event} {given : List (List Node)} {depth : Nat}
    {events : List Event}
    (failed : passArguments (within files depth) context (say separator) given env =
      some ⟨events, .error error⟩) :
    ∃ earlier argument later said middle more, given = earlier ++ argument :: later ∧
      andThen (passArguments (step files) context (say separator) earlier)
        (say (if earlier.isEmpty then [] else separator)) env = some ⟨said, .ok middle⟩ ∧
      within files depth context argument middle = some ⟨more, .error error⟩ := by
  cases given with
  | nil => cases failed
  | cons first rest =>
      rw [passArguments] at failed
      cases ran : within files depth context first env with
      | none =>
          rw [andThen_of_none ran] at failed
          cases failed
      | some outcome =>
          obtain ⟨said, result⟩ := outcome
          cases result with
          | error other =>
              rw [andThen_of_error ran] at failed
              cases failed
              exact ⟨[], first, rest, [], env, events, rfl, rfl, ran⟩
          | ok middle =>
              rw [andThen_of_ok ran] at failed
              obtain ⟨⟨later, ended⟩, restFailed, same⟩ := Option.map_eq_some_iff.1 failed
              cases same
              obtain ⟨earlierSteps, step, laterSteps, before, last, more, split, earlierRan,
                stepFailed⟩ := exists_split_of_all_error restFailed
              obtain ⟨earlier, others, rfl, rfl, othersSplit⟩ := List.map_eq_append_iff.1 split
              obtain ⟨argument, later, rfl, rfl, rfl⟩ := List.map_eq_cons_iff.1 othersSplit
              rw [say_andThen] at stepFailed
              obtain ⟨⟨own, ended⟩, argumentFailed, same⟩ := Option.map_eq_some_iff.1 stepFailed
              cases same
              have passed : passArguments (within files depth) context (say separator)
                  (first :: earlier) env = some ⟨said ++ before, .ok last⟩ := by
                rw [passArguments, andThen_of_ok ran, earlierRan]
                rfl
              refine ⟨first :: earlier, argument, later, said ++ before ++ separator, last, own, rfl,
                ?_, argumentFailed⟩
              rw [andThen_of_ok (passArguments_le (within_le_step depth) _ _ _ _ _ passed)]
              rfl

/-- An answer that is an error after a change which keeps success was one before. -/
theorem exists_error_of_map {change : Outcome → Outcome} {answer : Option Outcome}
    {events : List Event} (failed : answer.map change = some ⟨events, .error error⟩)
    (keeps : ∀ outcome, (change outcome).result = .error error → outcome.result = .error error) :
    ∃ more, answer = some ⟨more, .error error⟩ := by
  obtain ⟨⟨more, result⟩, rfl, same⟩ := Option.map_eq_some_iff.1 failed
  have ended : result = .error error := keeps ⟨more, result⟩ (by rw [same])
  exact ⟨more, by rw [ended]⟩

theorem exists_error_of_inside {scope : Env} {step : Step} {events said : List Event}
    (failed : ((step.inside scope) env).map (Outcome.after said) = some ⟨events, .error error⟩) :
    ∃ more, step scope = some ⟨more, .error error⟩ := by
  obtain ⟨more, failed⟩ := exists_error_of_map failed fun outcome same => same
  refine exists_error_of_map failed fun outcome same => ?_
  obtain ⟨events, result⟩ := outcome
  cases result with
  | error other =>
      cases same
      rfl
  | ok env => cases same

theorem failsAlone_or_enters_of_ident {depth : Nat} {events : List Event} {location : Location}
    {name : Bytes}
    (failed : ofNode files (within files depth) context (.ident location name) env =
      some ⟨events, .error error⟩) :
    FailsAlone files context (.ident location name) env error ∨
      ∃ said inner entered middle more,
        Enters files context (.ident location name) env said inner entered middle ∧
        within files depth inner entered middle = some ⟨more, .error error⟩ := by
  cases bound : env.lookup name with
  | none =>
      simp only [ofNode, bound] at failed
      cases failed
  | some definition =>
      cases takes : definition.parameters with
      | some parameters =>
          refine .inl ⟨events, fun expand => ?_⟩
          simp only [ofNode, bound, useMacro, takes] at failed ⊢
          exact failed
      | none =>
          simp only [ofNode, bound, useMacro, takes, say_andThen] at failed
          obtain ⟨more, failed⟩ := exists_error_of_inside failed
          exact .inr ⟨_, _, _, _, more, .use bound takes, failed⟩

theorem failsAlone_or_enters_of_call {depth : Nat} {events : List Event} {location : Location}
    {name : Bytes} {given : List (List Node)}
    (failed : ofNode files (within files depth) context (.call location name given) env =
      some ⟨events, .error error⟩) :
    FailsAlone files context (.call location name given) env error ∨
      ∃ said inner entered middle more,
        Enters files context (.call location name given) env said inner entered middle ∧
        within files depth inner entered middle = some ⟨more, .error error⟩ := by
  cases bound : env.lookup name with
  | none =>
      simp only [ofNode, bound, callUnbound, all_between] at failed
      obtain ⟨more, failed⟩ := exists_error_of_map failed fun outcome same => same
      obtain ⟨earlier, argument, later, said, middle, own, rfl, passed, failed⟩ :=
        exists_argument_of_error failed
      exact .inr ⟨_, _, _, _, own, .argument bound passed, failed⟩
  | some definition =>
      cases takes : definition.parameters with
      | none =>
          refine .inl ⟨events, fun expand => ?_⟩
          simp only [ofNode, bound, callMacro, takes] at failed ⊢
          exact failed
      | some parameters =>
          by_cases arity : (Macro.arguments parameters given).length = parameters.length
          · simp only [ofNode, bound, callMacro, takes, say_andThen, arity, if_true] at failed
            obtain ⟨more, failed⟩ := exists_error_of_inside failed
            exact .inr ⟨_, _, _, _, more, .call bound takes arity, failed⟩
          · refine .inl ⟨events, fun expand => ?_⟩
            simp only [ofNode, bound, callMacro, takes, say_andThen, arity, if_false] at failed ⊢
            exact failed

theorem failsAlone_or_enters_of_inclusion {depth : Nat} {events : List Event} {location : Location}
    {path : Bytes}
    (failed : ofNode files (within files depth) context (.inclusion location path) env =
      some ⟨events, .error error⟩) :
    FailsAlone files context (.inclusion location path) env error ∨
      ∃ said inner entered middle more,
        Enters files context (.inclusion location path) env said inner entered middle ∧
        within files depth inner entered middle = some ⟨more, .error error⟩ := by
  by_cases known : path ∈ context.ancestry
  · refine .inl ⟨events, fun expand => ?_⟩
    simp only [ofNode, includeFile, known, if_true] at failed ⊢
    exact failed
  cases found : files.contents? path with
  | none =>
      refine .inl ⟨events, fun expand => ?_⟩
      simp only [ofNode, includeFile, known, if_false, found] at failed ⊢
      exact failed
  | some text =>
      cases read : Node.ofSource path text with
      | error other =>
          refine .inl ⟨events, fun expand => ?_⟩
          simp only [ofNode, includeFile, known, if_false, found, read] at failed ⊢
          exact failed
      | ok nodes =>
          simp only [ofNode, includeFile, known, if_false, found, read, all_between] at failed
          obtain ⟨more, failed⟩ := exists_error_of_map failed fun outcome same => same
          exact .inr ⟨_, _, _, _, more, .file known found read, failed⟩

/-- A node that fails does so alone, or it has entered a list that fails. -/
theorem failsAlone_or_enters_of_error {depth : Nat} {events : List Event}
    (failed : ofNode files (within files depth) context node env = some ⟨events, .error error⟩) :
    FailsAlone files context node env error ∨
      ∃ said inner entered middle more, Enters files context node env said inner entered middle ∧
        within files depth inner entered middle = some ⟨more, .error error⟩ := by
  cases node with
  | ident location name => exact failsAlone_or_enters_of_ident failed
  | call location name given => exact failsAlone_or_enters_of_call failed
  | inclusion location path => exact failsAlone_or_enters_of_inclusion failed
  | cond location test yes no =>
      cases value : test.eval env with
      | error other =>
          refine .inl ⟨events, fun expand => ?_⟩
          simp only [ofNode, value] at failed ⊢
          exact failed
      | ok holds =>
          simp only [ofNode, value, all_between] at failed
          obtain ⟨more, failed⟩ := exists_error_of_map failed fun outcome same => same
          exact .inr ⟨_, _, _, _, more, .branch value, failed⟩
  | seq location nodes => exact .inr ⟨_, _, _, _, _, .sequence, failed⟩
  | define | error => exact .inl ⟨events, fun expand => failed⟩
  | undef | warning | space | text | line | currentLine | currentFile => cases failed

/-- An expansion that fails visits a node that fails alone. -/
theorem exists_visits_of_error {depth : Nat} {events : List Event}
    (failed : within files depth context nodes env = some ⟨events, .error error⟩) :
    ∃ chain inner node here, Visits files context nodes env chain inner node here ∧
      FailsAlone files inner node here error := by
  induction depth generalizing context nodes env events with
  | zero => cases failed
  | succ depth ih =>
      obtain ⟨earlierSteps, step, laterSteps, said, middle, more, split, ran, stepFailed⟩ :=
        exists_split_of_all_error failed
      obtain ⟨earlier, rest, rfl, rfl, restSplit⟩ := List.map_eq_append_iff.1 split
      obtain ⟨node, later, rfl, rfl, rfl⟩ := List.map_eq_cons_iff.1 restSplit
      have visited : Visits files context (earlier ++ node :: later) env [] context node middle :=
        .here rfl (run_eq_of_within (show within files (depth + 1) context earlier env = _ from ran))
      rcases failsAlone_or_enters_of_error stepFailed with alone | further
      · exact ⟨_, _, _, _, visited, alone⟩
      · obtain ⟨said, inner, entered, start, more, enters, enteredFailed⟩ := further
        obtain ⟨chain, last, found, here, visits, alone⟩ := ih enteredFailed
        exact ⟨_, _, _, _, visited.trans enters visits, alone⟩

/-- The error of an expansion is that of a visited node that fails alone. -/
theorem run_result_eq_error_iff :
    (run files context nodes env).result = .error error ↔
      ∃ chain inner node here, Visits files context nodes env chain inner node here ∧
        FailsAlone files inner node here error := by
  constructor
  · intro failed
    obtain ⟨depth, answered⟩ := exists_within_eq_run files context nodes env
    generalize run files context nodes env = outcome at failed answered
    obtain ⟨events, result⟩ := outcome
    cases failed
    exact exists_visits_of_error answered
  · rintro ⟨chain, inner, node, here, visited, alone⟩
    exact result_of_visits visited (result_of_failsAlone alone)

/-! ## Errors of one node -/

/-- The ways in which a node fails by itself. -/
inductive Fails (files : FileSet) (context : Context) (env : Env) : Node → Error → Prop where
  | notApplied {location : Location} {name : Bytes} {definition : Macro} {parameters : List Bytes}
      (bound : env.lookup name = some definition)
      (takes : definition.parameters = some parameters) :
      Fails files context env (.ident location name)
        ⟨.notApplied definition.name parameters.length, location⟩
  | takesNoArguments {location : Location} {name : Bytes} {given : List (List Node)}
      {definition : Macro} (bound : env.lookup name = some definition)
      (takes : definition.parameters = none) :
      Fails files context env (.call location name given)
        ⟨.takesNoArguments definition.name, location⟩
  | wrongArity {location : Location} {name : Bytes} {given : List (List Node)} {definition : Macro}
      {parameters : List Bytes} (bound : env.lookup name = some definition)
      (takes : definition.parameters = some parameters)
      (arity : (Macro.arguments parameters given).length ≠ parameters.length) :
      Fails files context env (.call location name given)
        ⟨.wrongArity definition.name parameters.length (Macro.arguments parameters given).length,
          location⟩
  | alreadyDefined {location : Location} {name : Bytes} {parameters : Option (List Bytes)}
      {body : List Node} (known : env.contains name = true) :
      Fails files context env (.define location name parameters body)
        ⟨.alreadyDefined name, location⟩
  | cyclic {location : Location} {path : Bytes} (known : path ∈ context.ancestry) :
      Fails files context env (.inclusion location path) ⟨.cyclicInclusion path, location⟩
  | missing {location : Location} {path : Bytes} (none : files.contents? path = none) :
      Fails files context env (.inclusion location path) ⟨.missingFile path, location⟩
  | unreadable {location : Location} {path text : Bytes} {error : Error}
      (found : files.contents? path = some text) (read : Node.ofSource path text = .error error) :
      Fails files context env (.inclusion location path) error
  | test {location : Location} {test : Test} {yes no : List Node} {error : Error}
      (value : test.eval env = .error error) :
      Fails files context env (.cond location test yes no) error
  | user (location : Location) (message : Bytes) :
      Fails files context env (.error location message) ⟨.user message, location⟩

theorem fails_of_failsAlone (alone : FailsAlone files context node env error) :
    Fails files context env node error := by
  obtain ⟨events, failed⟩ := alone
  -- what is entered has no answer here, so only errors of the node itself are left
  have failed := failed fun _ _ _ => none
  cases node with
  | ident location name =>
      cases bound : env.lookup name with
      | none =>
          simp only [ofNode, bound] at failed
          cases failed
      | some definition =>
          cases takes : definition.parameters with
          | none =>
              simp only [ofNode, bound, useMacro, takes] at failed
              cases failed
          | some parameters =>
              simp only [ofNode, bound, useMacro, takes] at failed
              cases failed
              exact .notApplied bound takes
  | call location name given =>
      cases bound : env.lookup name with
      | none =>
          simp only [ofNode, bound] at failed
          cases given <;> cases failed
      | some definition =>
          cases takes : definition.parameters with
          | none =>
              simp only [ofNode, bound, callMacro, takes] at failed
              cases failed
              exact .takesNoArguments bound takes
          | some parameters =>
              simp only [ofNode, bound, callMacro, takes, Step.say_andThen] at failed
              split at failed
              · cases failed
              · next arity =>
                  cases failed
                  exact .wrongArity bound takes arity
  | define location name parameters body =>
      simp only [ofNode] at failed
      split at failed
      · next known =>
          cases failed
          exact .alreadyDefined known
      · cases failed
  | inclusion location path =>
      by_cases known : path ∈ context.ancestry
      · simp only [ofNode, includeFile, known, if_true] at failed
        cases failed
        exact .cyclic known
      cases found : files.contents? path with
      | none =>
          simp only [ofNode, includeFile, known, if_false, found] at failed
          cases failed
          exact .missing found
      | some text =>
          cases read : Node.ofSource path text with
          | error other =>
              simp only [ofNode, includeFile, known, if_false, found, read] at failed
              cases failed
              exact .unreadable found read
          | ok nodes =>
              simp only [ofNode, includeFile, known, if_false, found, read] at failed
              cases failed
  | cond location test yes no =>
      simp only [ofNode] at failed
      split at failed
      · next value =>
          cases failed
          exact .test value
      · cases failed
  | error location message =>
      cases failed
      exact .user location message
  | seq | undef | warning | space | text | line | currentLine | currentFile => cases failed

end Expansion

end ScopedMacros
