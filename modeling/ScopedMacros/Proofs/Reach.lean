import ScopedMacros.Proofs.Steps

/-!
# The nodes that an expansion comes upon

An expansion walks over a list of nodes, and some of them send it on into another list: the body of
a macro, an argument, a branch, an included file.  A node that it comes upon in this way divides the
events of the whole expansion into those before the node, those of the node, and those after it.
-/

namespace ScopedMacros

namespace Expansion

open Step

/-- The expansion of a node gives out events and then enters a list of nodes, in a context and an
environment of their own. -/
inductive Enters (files : FileSet) :
    Context → Node → Env → List Event → Context → List Node → Env → Prop where
  | use {context : Context} {location : Location} {name : Bytes} {env : Env} {definition : Macro}
      (bound : env.lookup name = some definition) (plain : definition.parameters = none) :
      Enters files context (.ident location name) env [.jump] (context.forUse location)
        definition.body definition.scope
  | call {context : Context} {location : Location} {name : Bytes} {given : List (List Node)}
      {env : Env} {definition : Macro} {parameters : List Bytes}
      (bound : env.lookup name = some definition)
      (applied : definition.parameters = some parameters)
      (arity : (Macro.arguments parameters given).length = parameters.length) :
      Enters files context (.call location name given) env [.jump] (context.forUse location)
        definition.body (definition.bindArguments parameters (Macro.arguments parameters given) env
          location)
  /-- An argument of a call of a name that is not bound, after the earlier ones. -/
  | argument {context : Context} {location : Location} {name : Bytes}
      {earlier later : List (List Node)} {nodes : List Node} {env middle : Env} {said : List Event}
      (unbound : env.lookup name = none)
      (passed : andThen
        (passArguments (step files) context (say [.text location.start [Byte.comma]]) earlier)
        (say (if earlier.isEmpty then [] else [.text location.start [Byte.comma]])) env =
          some ⟨said, .ok middle⟩) :
      Enters files context (.call location name (earlier ++ nodes :: later)) env
        (.text location.start (name ++ [Byte.leftParen]) :: said) context nodes middle
  | branch {context : Context} {location : Location} {test : Test} {yes no : List Node} {env : Env}
      {holds : Bool} (value : test.eval env = .ok holds) :
      Enters files context (.cond location test yes no) env [.jump] context
        (if holds then yes else no) env
  | file {context : Context} {location : Location} {path text : Bytes} {nodes : List Node}
      {env : Env} (new : path ∉ context.ancestry) (found : files.contents? path = some text)
      (read : Node.ofSource path text = .ok nodes) :
      Enters files context (.inclusion location path) env [.jump, .load path]
        (context.forFile path) nodes env
  | sequence {context : Context} {location : Location} {nodes : List Node} {env : Env} :
      Enters files context (.seq location nodes) env [] context nodes env

/-- The expansion of nodes comes upon a node, in a context and an environment, after it has given
out events. -/
inductive Reaches (files : FileSet) (context : Context) (nodes : List Node) (env : Env) :
    List Event → Context → Node → Env → Prop where
  | here {earlier later : List Node} {node : Node} {said : List Event} {middle : Env}
      (split : nodes = earlier ++ node :: later)
      (ran : run files context earlier env = ⟨said, .ok middle⟩) :
      Reaches files context nodes env said context node middle
  | inside {before said more : List Event} {outer inner : Context} {node found : Node}
      {start middle here : Env} {entered earlier later : List Node}
      (reached : Reaches files context nodes env before outer node start)
      (enters : Enters files outer node start said inner entered middle)
      (split : entered = earlier ++ found :: later)
      (ran : run files inner earlier middle = ⟨more, .ok here⟩) :
      Reaches files context nodes env (before ++ said ++ more) inner found here

variable {files : FileSet} {context : Context} {nodes : List Node} {env : Env}

/-- The events of a list begin with those before a node of it and those of the node. -/
theorem exists_events_of_split {earlier later : List Node} {node : Node} {said : List Event}
    {middle : Env} (ran : run files context earlier env = ⟨said, .ok middle⟩) :
    ∃ after, (run files context (earlier ++ node :: later) env).events =
      said ++ (run files context [node] middle).events ++ after := by
  obtain ⟨after, begins⟩ := exists_events_append files context [node] later middle
  refine ⟨after, ?_⟩
  rw [run_append_of_ok ran, Outcome.events_after, ← List.singleton_append, begins,
    List.append_assoc]

/-- The arguments of a call up to a given one, that one, and those after it. -/
theorem passArguments_append (expand : Context → List Node → Step) (context : Context)
    (separator : List Event) (earlier later : List (List Node)) (argument : List Node) :
    passArguments expand context (say separator) (earlier ++ argument :: later) =
      andThen
        (andThen (passArguments expand context (say separator) earlier)
          (say (if earlier.isEmpty then [] else separator)))
        (andThen (expand context argument)
          (all (later.map fun argument => andThen (say separator) (expand context argument)))) := by
  cases earlier with
  | nil =>
      have nothing : andThen (passArguments expand context (say separator) [])
          (say (if ([] : List (List Node)).isEmpty then [] else separator)) = say [] := by
        simp [passArguments]
      rw [nothing, say_nil_andThen]
      rfl
  | cons first rest =>
      simp only [List.cons_append, passArguments, List.map_append, List.map_cons, all_append, all,
        List.isEmpty_cons, Bool.false_eq_true, if_false, andThen_assoc]

/-- The events of a call of a name that is not bound, up to one of its arguments. -/
theorem exists_events_of_argument {location : Location} {name : Bytes}
    {earlier later : List (List Node)} {argument : List Node} {middle : Env} {said : List Event}
    (unbound : env.lookup name = none)
    (passed : andThen
      (passArguments (step files) context (say [.text location.start [Byte.comma]]) earlier)
      (say (if earlier.isEmpty then [] else [.text location.start [Byte.comma]])) env =
        some ⟨said, .ok middle⟩) :
    ∃ after, (run files context [.call location name (earlier ++ argument :: later)] env).events =
      .text location.start (name ++ [Byte.leftParen]) :: said ++
        (run files context argument middle).events ++ after := by
  have whole := ofNode_eq_some files context (.call location name (earlier ++ argument :: later)) env
  simp only [ofNode, unbound, callUnbound] at whole
  rw [all, say_andThen, all] at whole
  obtain ⟨inner, answered, same⟩ := Option.map_eq_some_iff.1 whole
  obtain ⟨arguments, closing, passes, innerEvents⟩ := exists_events_of_andThen answered
  rw [passArguments_append, andThen_of_ok passed] at passes
  obtain ⟨rest, following, rfl⟩ := Option.map_eq_some_iff.1 passes
  obtain ⟨begun, others, first, restEvents⟩ := exists_events_of_andThen following
  have entered : run files context argument middle = begun := run_eq_of_step first
  refine ⟨others ++ closing, ?_⟩
  rw [← same, entered]
  simp [innerEvents, restEvents]

/-- The events of a node that enters a list are those before it, those of the list, and others. -/
theorem exists_events_of_enters {inner : Context} {node : Node} {said : List Event}
    {entered : List Node} {middle : Env}
    (enters : Enters files context node env said inner entered middle) :
    ∃ after, (run files context [node] env).events =
      said ++ (run files inner entered middle).events ++ after := by
  have whole := ofNode_eq_some files context node env
  cases enters with
  | use bound plain =>
      simp only [ofNode, bound, useMacro, plain, say_andThen, inside, step, Option.map_some,
        Option.some.injEq] at whole
      refine ⟨[], ?_⟩
      rw [← whole, Outcome.events_after, Outcome.events_restore, List.append_nil]
  | call bound applied arity =>
      simp only [ofNode, bound, callMacro, applied, say_andThen, inside, step, Option.map_some,
        arity, if_true, Option.some.injEq] at whole
      refine ⟨[], ?_⟩
      rw [← whole, Outcome.events_after, Outcome.events_restore, List.append_nil]
  | argument unbound passed => exact exists_events_of_argument unbound passed
  | branch value =>
      simp only [ofNode, value, all_between, step, Option.map_some, Option.some.injEq] at whole
      exact ⟨_, by rw [← whole]⟩
  | file new found read =>
      simp only [ofNode, includeFile, new, found, read, all_between, step, Option.map_some, if_false,
        Option.some.injEq] at whole
      exact ⟨_, by rw [← whole]⟩
  | sequence =>
      simp only [ofNode, step, Option.some.injEq] at whole
      exact ⟨[], by rw [← whole, List.append_nil, List.nil_append]⟩

/-- The events of an expansion begin with those before a node that it comes upon and those of the
node itself. -/
theorem exists_events_of_reaches {before : List Event} {inner : Context} {node : Node} {here : Env}
    (reached : Reaches files context nodes env before inner node here) :
    ∃ after, (run files context nodes env).events =
      before ++ (run files inner [node] here).events ++ after := by
  induction reached with
  | here split ran =>
      rw [split]
      exact exists_events_of_split ran
  | inside reached enters split ran ih =>
      obtain ⟨outerAfter, whole⟩ := ih
      obtain ⟨nodeAfter, ofNode⟩ := exists_events_of_enters enters
      rw [split] at ofNode
      obtain ⟨listAfter, ofList⟩ := exists_events_of_split ran
      refine ⟨listAfter ++ nodeAfter ++ outerAfter, ?_⟩
      rw [whole, ofNode, ofList]
      simp only [List.append_assoc]

end Expansion

end ScopedMacros
