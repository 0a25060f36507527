import ScopedMacros.Proofs.MarkerErasure
import ScopedMacros.Proofs.Scoping

/-!
# Arguments in place of parameters

In a call each parameter stands for an argument that is closed over the environment of the call.  So
a body of text and names comes to its parts one by one: an argument as it is expanded where the call
stands, and every other name as it is expanded where the macro was defined.  It does not matter
which names the arguments, the two environments and the parameters have in common.
-/

namespace ScopedMacros

/-! ## Parameters -/

namespace Env

/-- Among macros with different names, a name stands for the one that has it. -/
theorem lookup_bindAll {pairs : List (Bytes × List Node)} (distinct : (pairs.map Prod.fst).Nodup)
    {close : Bytes × List Node → Macro} (named : ∀ pair, (close pair).name = pair.1) (env : Env)
    (wanted : Bytes) :
    (env.bindAll (pairs.map close)).lookup wanted =
      ((pairs.lookup wanted).map fun body => close (wanted, body)).or (env.lookup wanted) := by
  induction pairs generalizing env with
  | nil => rfl
  | cons pair rest ih =>
      obtain ⟨name, body⟩ := pair
      obtain ⟨fresh, others⟩ := List.nodup_cons.1 distinct
      have next : (env.bindAll (((name, body) :: rest).map close)).lookup wanted =
          ((env.bind (close (name, body))).bindAll (rest.map close)).lookup wanted := rfl
      rw [next, ih others, lookup_bind, named, List.lookup_cons]
      by_cases same : wanted = name
      · subst same
        have absent : rest.lookup wanted = none := by
          refine List.lookup_eq_none_iff.2 fun pair member => bne_iff_ne.2 fun found => fresh ?_
          exact List.mem_map.2 ⟨pair, member, found.symm⟩
        simp [absent]
      · rw [if_neg (Ne.symm same), show (wanted == name) = false from beq_eq_false_iff_ne.2 same]

end Env

namespace Macro

/-- A parameter stands for its argument, and every other name for what it stands for in the scope of
the macro. -/
theorem lookup_bindArguments {parameters : List Bytes} {given : List (List Node)}
    (distinct : parameters.Nodup) (arity : given.length = parameters.length) (definition : Macro)
    (env : Env) (location : Location) (name : Bytes) :
    (definition.bindArguments parameters given env location).lookup name =
      (((parameters.zip given).lookup name).map fun body => ⟨name, none, body, env, location⟩).or
        (definition.scope.lookup name) := by
  refine Env.lookup_bindAll ?_ (fun _ => rfl) _ _
  rw [List.map_fst_zip (by omega)]
  exact distinct

/-- Each parameter is given an argument. -/
theorem exists_lookup_zip {parameters : List Bytes} {given : List (List Node)} {name : Bytes}
    (member : name ∈ parameters) (arity : given.length = parameters.length) :
    ∃ argument, (parameters.zip given).lookup name = some argument := by
  refine Option.ne_none_iff_exists'.1 fun absent => ?_
  rw [← @List.map_fst_zip _ _ parameters given (by omega)] at member
  obtain ⟨pair, among, rfl⟩ := List.mem_map.1 member
  exact bne_iff_ne.1 (List.lookup_eq_none_iff.1 absent pair among) rfl

end Macro

/-! ## Bodies of text and names -/

/-- Text, space, or a name that is not applied. -/
inductive Node.Flat : Node → Prop where
  | ident (location : Location) (name : Bytes) : Flat (.ident location name)
  | space (location : Location) (text : Bytes) : Flat (.space location text)
  | text (location : Location) (text : Bytes) : Flat (.text location text)

/-- What an outcome adds to an output without markers, from a layout on. -/
def Outcome.appended (layout : Layout) (outcome : Outcome) : Bytes :=
  (layout.pieces outcome.events).flatMap (Piece.render false)

theorem Outcome.appended_eq (layout : Layout) (outcome : Outcome) :
    outcome.appended layout = outcome.events.flatMap Event.written :=
  layout.flatMap_render_false outcome.events

/-- A call of a macro that takes arguments: the macro, what is given for each parameter, and where
the call stands. -/
structure Call where
  definition : Macro
  given : List (Bytes × List Node)
  env : Env

namespace Call

open Expansion

section

variable (call : Call) (files : FileSet) (context : Context)

/-- What a name in the body of the macro comes to on its own: the argument, where the call stands,
if the name is a parameter, and else the name itself, in the scope of the macro. -/
def comesTo (location : Location) (name : Bytes) : Outcome :=
  match call.given.lookup name with
  | some argument => run files context argument call.env
  | none => run files context [.ident location name] call.definition.scope

/-- What a node of the body adds to an output without markers. -/
def adds (layout : Layout) : Node → Bytes
  | .space _ content | .text _ content => content
  | .ident location name => (call.comesTo files context location name).appended layout
  | _ => []

/-- What the node comes to does not fail. -/
def Succeeds (node : Node) : Prop :=
  ∀ location name, node = .ident location name →
    (call.comesTo files context location name).result.isOk = true

end

variable {call : Call} {files : FileSet} {context : Context} {inner : Env}

/-- What a node adds does not depend on the layout. -/
theorem adds_eq (layout other : Layout) :
    call.adds files context layout = call.adds files context other := by
  funext node
  cases node with
  | ident location name => rw [adds, adds, Outcome.appended_eq, Outcome.appended_eq]
  | _ => rfl

/-- The environment of the body in the call. -/
def Opens (call : Call) (location : Location) (inner : Env) : Prop :=
  ∀ name, inner.lookup name =
    ((call.given.lookup name).map fun body => ⟨name, none, body, call.env, location⟩).or
      (call.definition.scope.lookup name)

/-- Where a macro is being used already, a further use changes nothing about the context. -/
theorem forUse_of_usedAt (used : context.usedAt.isSome = true) (location : Location) :
    context.forUse location = context := by
  obtain ⟨ancestry, usedAt⟩ := context
  cases usedAt with
  | none => cases used
  | some first => rfl

/-- What a name comes to depends on what it stands for, and not on the environment otherwise. -/
theorem run_ident_eq_restore {env other : Env} {name : Bytes}
    (same : other.lookup name = env.lookup name) (location : Location) :
    run files context [.ident location name] other =
      (run files context [.ident location name] env).restore other := by
  cases found : env.lookup name with
  | none =>
      have here := ofNode_eq_some files context (.ident location name) env
      apply run_eq_of_ofNode
      simp only [ofNode, found] at here
      simp only [ofNode, same, found]
      rw [← Option.some.inj here]
      rfl
  | some definition =>
      cases takes : definition.parameters with
      | none =>
          exact run_use_eq_restore files context takes found (same.trans found)
            ⟨location, .inl rfl⟩
      | some parameters =>
          have here := ofNode_eq_some files context (.ident location name) env
          apply run_eq_of_ofNode
          simp only [ofNode, found, useMacro, takes, Step.say_andThen, Step.fail,
            Option.map_some] at here
          simp only [ofNode, same, found, useMacro, takes, Step.say_andThen, Step.fail,
            Option.map_some]
          rw [← Option.some.inj here]
          rfl

/-- The use of a macro without parameters comes to its body in its scope. -/
theorem run_use_eq_after {env : Env} {name : Bytes} {definition : Macro} (location : Location)
    (found : env.lookup name = some definition) (plain : definition.parameters = none) :
    run files context [.ident location name] env =
      ((run files (context.forUse location) definition.body definition.scope).restore env).after
        [.jump] := by
  have here := ofNode_eq_some files context (.ident location name) env
  simp only [ofNode, found, useMacro, plain, Step.say_andThen, Step.inside, step, Option.map_some,
    Option.some.injEq] at here
  exact here.symm

theorem comesTo_of_some {name : Bytes} {argument : List Node} {place : Location}
    (found : call.given.lookup name = some argument) :
    call.comesTo files context place name = run files context argument call.env := by
  rw [comesTo, found]

theorem comesTo_of_none {name : Bytes} {place : Location} (found : call.given.lookup name = none) :
    call.comesTo files context place name =
      run files context [.ident place name] call.definition.scope := by
  rw [comesTo, found]

/-- A parameter comes to its argument, where the call stands. -/
theorem run_parameter {location place : Location} {name : Bytes} {argument : List Node}
    (opens : call.Opens location inner) (used : context.usedAt.isSome = true)
    (found : call.given.lookup name = some argument) :
    run files context [.ident place name] inner =
      ((run files context argument call.env).restore inner).after [.jump] := by
  have stands := opens name
  rw [found, Option.map_some, Option.some_or] at stands
  have whole := @run_use_eq_after files context _ _ _ place stands rfl
  rw [forUse_of_usedAt used] at whole
  exact whole

/-- In the environment of the body a name comes to the same text as on its own, and fails with the
same error if it fails. -/
theorem run_ident (files : FileSet) {location : Location} (opens : call.Opens location inner)
    (used : context.usedAt.isSome = true) (place : Location) (name : Bytes) :
    ∃ events, run files context [.ident place name] inner =
        ⟨events, (call.comesTo files context place name).result.map fun _ => inner⟩ ∧
      events.flatMap Event.written =
        (call.comesTo files context place name).events.flatMap Event.written := by
  cases found : call.given.lookup name with
  | none =>
      have stands := opens name
      rw [found, Option.map_none, Option.none_or] at stands
      rw [comesTo_of_none found, run_ident_eq_restore stands]
      generalize run files context [.ident place name] call.definition.scope = outcome
      exact ⟨outcome.events, rfl, rfl⟩
  | some argument =>
      have jumps : ∀ outcome : Outcome, ∃ events,
          (outcome.restore inner).after [.jump] = ⟨events, outcome.result.map fun _ => inner⟩ ∧
            events.flatMap Event.written = outcome.events.flatMap Event.written :=
        fun outcome => ⟨.jump :: outcome.events, rfl, rfl⟩
      rw [comesTo_of_some found, run_parameter opens used found]
      exact jumps _

/-- A node of the body leaves the environment as it is and adds what it comes to, or it is a name
and fails as that does. -/
theorem run_node (files : FileSet) {location : Location} (opens : call.Opens location inner)
    (used : context.usedAt.isSome = true) {node : Node} (flat : node.Flat) (layout : Layout) :
    ∃ events, events.flatMap Event.written = call.adds files context layout node ∧
      (run files context [node] inner = ⟨events, .ok inner⟩ ∧ call.Succeeds files context node ∨
        ∃ place name error, node = .ident place name ∧
          (call.comesTo files context place name).result = .error error ∧
          run files context [node] inner = ⟨events, .error error⟩) := by
  cases flat with
  | space place content =>
      refine ⟨[.space content], ?_, .inl ⟨run_eq_of_ofNode rfl, by rintro _ _ ⟨⟩⟩⟩
      simp [Event.written, Event.piece?, Piece.render, adds]
  | text place content =>
      refine ⟨[.text place.start content], ?_, .inl ⟨run_eq_of_ofNode rfl, by rintro _ _ ⟨⟩⟩⟩
      simp [Event.written, Event.piece?, Piece.render, adds]
  | ident place name =>
      obtain ⟨events, ran, written⟩ := run_ident files opens used place name
      refine ⟨events, ?_, ?_⟩
      · rw [written, adds, Outcome.appended_eq]
      · cases result : (call.comesTo files context place name).result with
        | error error =>
            rw [result] at ran
            exact .inr ⟨place, name, error, rfl, result, ran⟩
        | ok final =>
            rw [result] at ran
            refine .inl ⟨ran, ?_⟩
            rintro _ _ ⟨⟩
            rw [result]
            rfl

/-- A body of text and names comes to its parts in order, up to the first one that fails. -/
theorem run_body (files : FileSet) {location : Location} (opens : call.Opens location inner)
    (used : context.usedAt.isSome = true) {body : List Node} (flat : ∀ node ∈ body, node.Flat)
    (layout : Layout) :
    (∃ events, run files context body inner = ⟨events, .ok inner⟩ ∧
        (∀ node ∈ body, call.Succeeds files context node) ∧
        events.flatMap Event.written = body.flatMap (call.adds files context layout)) ∨
      ∃ before place name after error events, body = before ++ .ident place name :: after ∧
        run files context body inner = ⟨events, .error error⟩ ∧
        (∀ node ∈ before, call.Succeeds files context node) ∧
        (call.comesTo files context place name).result = .error error ∧
        events.flatMap Event.written =
          (before ++ [.ident place name]).flatMap (call.adds files context layout) := by
  induction body with
  | nil => exact .inl ⟨[], run_nil _ _ _, by simp, rfl⟩
  | cons node rest ih =>
      obtain ⟨first, others⟩ := List.forall_mem_cons.1 flat
      obtain ⟨events, written, ⟨ran, succeeds⟩ | ⟨place, name, error, rfl, failed, ran⟩⟩ :=
        run_node files opens used first layout
      · have whole : run files context (node :: rest) inner =
            (run files context rest inner).after events := run_append_of_ok ran rest
        rw [whole]
        rcases ih others with ⟨more, ranRest, all, writtenRest⟩ |
          ⟨before, place, name, after, error, more, rfl, ranRest, all, failed, writtenRest⟩
        · refine .inl ⟨events ++ more, by rw [ranRest]; rfl, ?_, ?_⟩
          · exact List.forall_mem_cons.2 ⟨succeeds, all⟩
          · rw [List.flatMap_append, written, writtenRest, List.flatMap_cons]
        · refine .inr ⟨node :: before, place, name, after, error, events ++ more, rfl,
            by rw [ranRest]; rfl, List.forall_mem_cons.2 ⟨succeeds, all⟩, failed, ?_⟩
          rw [List.flatMap_append, written, writtenRest, List.cons_append, List.flatMap_cons]
      · have whole : run files context (.ident place name :: rest) inner = ⟨events, .error error⟩ :=
          run_append_of_error ran rest
        exact .inr ⟨[], place, name, rest, error, events, rfl, whole, by simp, failed,
          by simp [written]⟩

/-- A call comes to the body of the macro, in an environment that opens the call. -/
theorem exists_opens (files : FileSet) {env : Env} {name : Bytes} {definition : Macro}
    {parameters : List Bytes} {given : List (List Node)} (location : Location)
    (used : context.usedAt.isSome = true) (found : env.lookup name = some definition)
    (takes : definition.parameters = some parameters) (distinct : parameters.Nodup)
    (arity : (Macro.arguments parameters given).length = parameters.length) :
    ∃ inner, Opens ⟨definition, parameters.zip (Macro.arguments parameters given), env⟩ location
        inner ∧
      run files context [.call location name given] env =
        ((run files context definition.body inner).restore env).after [.jump] := by
  refine ⟨definition.bindArguments parameters (Macro.arguments parameters given) env location,
    Macro.lookup_bindArguments distinct arity definition env location, ?_⟩
  have here := ofNode_eq_some files context (.call location name given) env
  simp only [ofNode, found, callMacro, takes, arity, if_true, Step.say_andThen, Step.inside, step,
    Option.map_some, Option.some.injEq, forUse_of_usedAt used] at here
  exact here.symm

/-- What a name comes to does not depend on what the scope of the macro binds the parameters to. -/
theorem restore_comesTo_of_agree {parameters : List Bytes} {given : List (List Node)}
    (arity : given.length = parameters.length) {definition : Macro} {scope : Env}
    (agree : ∀ name ∉ parameters, scope.lookup name = definition.scope.lookup name) (env : Env)
    (place : Location) (name : Bytes) :
    (Call.comesTo ⟨{ definition with scope := scope }, parameters.zip given, env⟩ files context
        place name).restore env =
      (Call.comesTo ⟨definition, parameters.zip given, env⟩ files context place name).restore
        env := by
  cases found : (parameters.zip given).lookup name with
  | some argument => rw [comesTo_of_some found, comesTo_of_some found]
  | none =>
      have outside : name ∉ parameters := by
        intro member
        obtain ⟨argument, given⟩ := Macro.exists_lookup_zip member arity
        cases found.symm.trans given
      rw [comesTo_of_none found, comesTo_of_none found, run_ident_eq_restore (agree name outside),
        Outcome.restore_restore]

end Call

namespace Expansion

/-- Parameters are put in place hygienically.  Let a name be bound to a macro with different
parameters whose body holds text and names only, and let it be called with as many arguments, where
a macro is being used already.  The call succeeds exactly if all the names in the body do, each on
its own: a parameter as its argument from the environment of the call, any other name from the scope
of the macro.  It then leaves the environment as it is, and without markers it adds, for the nodes
of the body in order, their text or what these names add on their own, whatever the layouts are.
Otherwise it fails as the first name that does, and adds what stands up to there.  What the names
come to does not depend on what the scope of the macro binds the parameters to. -/
theorem call_substitutes_arguments (files : FileSet) (context : Context) (env : Env)
    (location : Location) (name : Bytes) (given : List (List Node)) (definition : Macro)
    (parameters : List Bytes) (used : context.usedAt.isSome = true)
    (found : env.lookup name = some definition)
    (takes : definition.parameters = some parameters) (distinct : parameters.Nodup)
    (flat : ∀ node ∈ definition.body, node.Flat)
    (arity : (Macro.arguments parameters given).length = parameters.length) :
    let pairs := parameters.zip (Macro.arguments parameters given)
    let call : Call := ⟨definition, pairs, env⟩
    let outcome := run files context [.call location name given] env
    (outcome.result.isOk = true ↔ ∀ node ∈ definition.body, call.Succeeds files context node) ∧
      (∀ final, outcome.result = .ok final → final = env ∧ ∀ layout inner : Layout,
        outcome.appended layout = definition.body.flatMap (call.adds files context inner)) ∧
      (∀ error, outcome.result = .error error → ∃ before place wanted after,
        definition.body = before ++ .ident place wanted :: after ∧
        (∀ node ∈ before, call.Succeeds files context node) ∧
        (call.comesTo files context place wanted).result = .error error ∧
        ∀ layout inner : Layout, outcome.appended layout =
          (before ++ [.ident place wanted]).flatMap (call.adds files context inner)) ∧
      ∀ scope : Env, (∀ other ∉ parameters, scope.lookup other = definition.scope.lookup other) →
        ∀ place wanted,
          (Call.comesTo ⟨{ definition with scope := scope }, pairs, env⟩ files context place
              wanted).restore env =
            (call.comesTo files context place wanted).restore env := by
  intro pairs call outcome
  obtain ⟨inner, opens, whole⟩ := Call.exists_opens files location used found takes distinct arity
  have independent := fun scope =>
    @Call.restore_comesTo_of_agree files context _ _ arity definition scope
  rcases Call.run_body files opens used flat .start with ⟨events, ran, all, written⟩ |
    ⟨before, place, wanted, after, error, events, split, ran, all, failed, written⟩
  · have done : outcome = ⟨.jump :: events, .ok env⟩ := by
      rw [show outcome = _ from whole, ran]
      rfl
    rw [done]
    refine ⟨⟨fun _ => all, fun _ => rfl⟩, ?_, by rintro _ ⟨⟩,
      fun scope agree => independent scope agree env⟩
    rintro final ⟨⟩
    refine ⟨rfl, fun layout inner => ?_⟩
    rw [Outcome.appended_eq, Call.adds_eq inner .start]
    exact written
  · have done : outcome = ⟨.jump :: events, .error error⟩ := by
      rw [show outcome = _ from whole, ran]
      rfl
    rw [done]
    refine ⟨⟨by rintro ⟨⟩, fun each => ?_⟩, by rintro _ ⟨⟩, ?_,
      fun scope agree => independent scope agree env⟩
    · have fine := each (.ident place wanted) (by rw [split]; simp) place wanted rfl
      rw [failed] at fine
      cases fine
    · rintro _ ⟨⟩
      refine ⟨before, place, wanted, after, split, all, failed, fun layout inner => ?_⟩
      rw [Outcome.appended_eq, Call.adds_eq inner .start]
      exact written

/-- A macro of `x` and `y` with the body `y-x-z`.  Its scope has an `x` of its own, and a `z` that
stands for that `x`. -/
def difference : Macro :=
  let own := Env.empty.bind ⟨bytes "x", none, [.text .nowhere (bytes "3")], .empty, .nowhere⟩
  ⟨bytes "F", some [bytes "x", bytes "y"],
    [.ident .nowhere (bytes "y"), .text .nowhere (bytes "-"), .ident .nowhere (bytes "x"),
      .text .nowhere (bytes "-"), .ident .nowhere (bytes "z")],
    own.bind ⟨bytes "z", none, [.ident .nowhere (bytes "x")], own, .nowhere⟩, .nowhere⟩

/-- Where it is called, `x` stands for `1` and `y` for `2`. -/
def callingEnv : Env :=
  ((Env.empty.bind ⟨bytes "x", none, [.text .nowhere (bytes "1")], .empty, .nowhere⟩).bind
    ⟨bytes "y", none, [.text .nowhere (bytes "2")], .empty, .nowhere⟩).bind difference

/-- The call `F(y, x)` of it there. -/
def swappedCall : Call :=
  ⟨difference,
    [(bytes "x", [.ident .nowhere (bytes "y")]), (bytes "y", [.ident .nowhere (bytes "x")])],
    callingEnv⟩

theorem difference_of_swapped_names :
    let outcome := run .empty ⟨[bytes "t"], some .nowhere⟩
      [.call .nowhere (bytes "F") [[.ident .nowhere (bytes "y")], [.ident .nowhere (bytes "x")]]]
      callingEnv
    outcome.result = .ok callingEnv ∧ outcome.appended .start = bytes "1-2-3" := by
  have flat : ∀ node ∈ difference.body, node.Flat := by
    simp only [difference, List.forall_mem_cons]
    exact ⟨.ident _ _, .text _ _, .ident _ _, .text _ _, .ident _ _, by simp⟩
  -- `y` is given `x` and `x` is given `y`, and `z` is not a parameter.
  have first : swappedCall.comesTo .empty ⟨[bytes "t"], some .nowhere⟩ .nowhere (bytes "y") =
      ⟨[.jump, .text (.first []) (bytes "1")], .ok callingEnv⟩ :=
    (Call.comesTo_of_some rfl).trans (run_eq_of_within (show within .empty 2 _ _ _ = _ from rfl))
  have second : swappedCall.comesTo .empty ⟨[bytes "t"], some .nowhere⟩ .nowhere (bytes "x") =
      ⟨[.jump, .text (.first []) (bytes "2")], .ok callingEnv⟩ :=
    (Call.comesTo_of_some rfl).trans (run_eq_of_within (show within .empty 2 _ _ _ = _ from rfl))
  have third : swappedCall.comesTo .empty ⟨[bytes "t"], some .nowhere⟩ .nowhere (bytes "z") =
      ⟨[.jump, .jump, .text (.first []) (bytes "3")], .ok difference.scope⟩ :=
    (Call.comesTo_of_none rfl).trans (run_eq_of_within (show within .empty 3 _ _ _ = _ from rfl))
  have fine : ∀ node ∈ difference.body,
      swappedCall.Succeeds .empty ⟨[bytes "t"], some .nowhere⟩ node := by
    simp only [difference, List.forall_mem_cons, Call.Succeeds]
    refine ⟨?_, ?_, ?_, ?_, ?_, by simp⟩ <;> rintro _ _ ⟨⟩
    · rw [first]; rfl
    · rw [second]; rfl
    · rw [third]; rfl
  have adds : difference.body.flatMap
      (swappedCall.adds .empty ⟨[bytes "t"], some .nowhere⟩ .start) = bytes "1-2-3" := by
    simp only [difference, List.flatMap_cons, List.flatMap_nil, Call.adds, first, second, third,
      Outcome.appended_eq]
    decide +kernel
  obtain ⟨succeeds, added, -, -⟩ := call_substitutes_arguments .empty ⟨[bytes "t"], some .nowhere⟩
    callingEnv .nowhere (bytes "F") [[.ident .nowhere (bytes "y")], [.ident .nowhere (bytes "x")]]
    difference [bytes "x", bytes "y"] rfl rfl rfl (by decide) flat rfl
  obtain ⟨final, done⟩ := exists_eq_ok_of_isOk (succeeds.2 fine)
  obtain ⟨rfl, appended⟩ := added final done
  exact ⟨done, (appended .start .start).trans adds⟩

end Expansion

end ScopedMacros
