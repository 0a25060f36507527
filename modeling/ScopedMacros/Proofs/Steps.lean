import ScopedMacros.Expansion.Total

/-!
# The algebra of steps

Steps in a row can be grouped at will, and an expansion of nodes falls apart into the expansions of
any two parts of their list.
-/

namespace ScopedMacros

namespace Outcome

@[simp]
theorem after_nil (outcome : Outcome) : outcome.after [] = outcome := rfl

@[simp]
theorem after_after (first second : List Event) (outcome : Outcome) :
    (outcome.after second).after first = outcome.after (first ++ second) := by
  simp [after]

@[simp]
theorem events_after (events : List Event) (outcome : Outcome) :
    (outcome.after events).events = events ++ outcome.events := rfl

@[simp]
theorem events_restore (env : Env) (outcome : Outcome) :
    (outcome.restore env).events = outcome.events := rfl

end Outcome

namespace Step

theorem andThen_of_ok {first second : Step} {env middle : Env} {events : List Event}
    (answered : first env = some ⟨events, .ok middle⟩) :
    andThen first second env = (second middle).map (Outcome.after events) := by
  simp [andThen, answered]

theorem andThen_of_error {first second : Step} {env : Env} {events : List Event} {error : Error}
    (answered : first env = some ⟨events, .error error⟩) :
    andThen first second env = some ⟨events, .error error⟩ := by
  simp [andThen, answered]

theorem andThen_of_none {first second : Step} {env : Env} (unanswered : first env = none) :
    andThen first second env = none := by
  simp [andThen, unanswered]

/-- The events of two steps in a row begin with those of the first. -/
theorem exists_events_of_andThen {first second : Step} {env : Env} {outcome : Outcome}
    (answered : andThen first second env = some outcome) :
    ∃ begun later, first env = some begun ∧ outcome.events = begun.events ++ later := by
  match found : first env with
  | none =>
      rw [andThen_of_none found] at answered
      cases answered
  | some ⟨said, .error error⟩ =>
      rw [andThen_of_error found] at answered
      cases answered
      exact ⟨_, [], rfl, by simp⟩
  | some ⟨said, .ok middle⟩ =>
      rw [andThen_of_ok found] at answered
      obtain ⟨rest, _, rfl⟩ := Option.map_eq_some_iff.1 answered
      exact ⟨_, rest.events, rfl, rfl⟩

@[simp]
theorem say_andThen (events : List Event) (second : Step) (env : Env) :
    andThen (say events) second env = (second env).map (Outcome.after events) :=
  andThen_of_ok rfl

theorem andThen_say (first : Step) (events : List Event) (env : Env) :
    andThen first (say events) env = (first env).map fun outcome =>
      ⟨outcome.events ++ (if outcome.result.isOk then events else []), outcome.result⟩ := by
  match answered : first env with
  | none => simp [andThen_of_none answered]
  | some ⟨said, .error error⟩ => simp [andThen_of_error answered, Except.isOk, Except.toBool]
  | some ⟨said, .ok middle⟩ =>
      simp [andThen_of_ok answered, say, Outcome.after, Except.isOk, Except.toBool]

@[simp]
theorem andThen_say_nil (first : Step) : andThen first (say []) = first := by
  funext env
  rw [andThen_say]
  match first env with
  | none => rfl
  | some outcome => simp

theorem andThen_assoc (first second third : Step) :
    andThen (andThen first second) third = andThen first (andThen second third) := by
  funext env
  match answered : first env with
  | none => rw [andThen_of_none (andThen_of_none answered), andThen_of_none answered]
  | some ⟨said, .error error⟩ =>
      rw [andThen_of_error (andThen_of_error answered), andThen_of_error answered]
  | some ⟨said, .ok middle⟩ =>
      rw [andThen_of_ok answered]
      have left : andThen first second env = (second middle).map (Outcome.after said) :=
        andThen_of_ok answered
      match following : second middle with
      | none =>
          rw [following] at left
          rw [andThen_of_none left, andThen_of_none following]
          rfl
      | some ⟨more, .error error⟩ =>
          rw [following] at left
          rw [andThen_of_error left, andThen_of_error following]
          rfl
      | some ⟨more, .ok last⟩ =>
          rw [following] at left
          rw [andThen_of_ok left, andThen_of_ok following, Option.map_map]
          congr 1
          funext outcome
          simp

theorem say_nil_andThen (second : Step) : andThen (say []) second = second := by
  funext env
  rw [say_andThen]
  match second env with
  | none => rfl
  | some outcome => rfl

theorem all_append (left right : List Step) : all (left ++ right) = andThen (all left) (all right) := by
  induction left with
  | nil => exact (say_nil_andThen _).symm
  | cons first rest ih => rw [List.cons_append, all, ih, all, andThen_assoc]

@[simp]
theorem all_singleton (step : Step) : all [step] = step :=
  andThen_say_nil step

/-- A step between two announcements: the second one is made only if the step succeeds. -/
theorem all_between (said later : List Event) (step : Step) (env : Env) :
    all [say said, step, say later] env = (step env).map fun outcome =>
      ⟨said ++ outcome.events ++ (if outcome.result.isOk then later else []), outcome.result⟩ := by
  rw [all, say_andThen, all, all_singleton, andThen_say, Option.map_map]
  congr 1
  funext outcome
  simp [Outcome.after]

end Step

namespace Expansion

open Step

variable {files : FileSet} {context : Context} {env : Env}

theorem step_append (files : FileSet) (context : Context) (left right : List Node) :
    step files context (left ++ right) =
      andThen (step files context left) (step files context right) := by
  rw [step_eq, step_eq, step_eq, List.map_append, all_append]

theorem step_singleton (files : FileSet) (context : Context) (node : Node) :
    step files context [node] = ofNode files (step files) context node := by
  rw [step_eq, List.map_singleton, all_singleton]

@[simp]
theorem step_nil (files : FileSet) (context : Context) : step files context [] = say [] := by
  rw [step_eq, List.map_nil]
  rfl

/-- The expansion of a node always answers. -/
theorem ofNode_eq_some (files : FileSet) (context : Context) (node : Node) (env : Env) :
    ofNode files (step files) context node env = some (run files context [node] env) := by
  rw [← step_singleton]
  rfl

theorem run_eq_of_step {nodes : List Node} {outcome : Outcome}
    (answered : step files context nodes env = some outcome) :
    run files context nodes env = outcome :=
  Option.some.inj answered

theorem run_eq_of_ofNode {node : Node} {outcome : Outcome}
    (answered : ofNode files (step files) context node env = some outcome) :
    run files context [node] env = outcome := by
  rw [ofNode_eq_some] at answered
  exact Option.some.inj answered

@[simp]
theorem run_nil (files : FileSet) (context : Context) (env : Env) :
    run files context [] env = ⟨[], .ok env⟩ :=
  run_eq_of_step (congrFun (step_nil files context) env)

/-- Nodes after others that succeed are expanded in the environment that those leave. -/
theorem run_append_of_ok {left : List Node} {said : List Event} {middle : Env}
    (ran : run files context left env = ⟨said, .ok middle⟩) (right : List Node) :
    run files context (left ++ right) env = (run files context right middle).after said := by
  apply run_eq_of_step
  rw [step_append, andThen_of_ok (congrArg some ran)]
  rfl

/-- Nodes after others that fail are not expanded. -/
theorem run_append_of_error {left : List Node} {said : List Event} {error : Error}
    (ran : run files context left env = ⟨said, .error error⟩) (right : List Node) :
    run files context (left ++ right) env = ⟨said, .error error⟩ := by
  apply run_eq_of_step
  rw [step_append, andThen_of_error (congrArg some ran)]

/-- If a list of nodes succeeds, so does each part of it, one after the other. -/
theorem exists_middle_of_run_append {left right : List Node} {said : List Event} {final : Env}
    (ran : run files context (left ++ right) env = ⟨said, .ok final⟩) :
    ∃ before middle later, run files context left env = ⟨before, .ok middle⟩ ∧
      run files context right middle = ⟨later, .ok final⟩ ∧ said = before ++ later := by
  match first : run files context left env with
  | ⟨before, .error error⟩ =>
      rw [run_append_of_error first] at ran
      cases ran
  | ⟨before, .ok middle⟩ =>
      rw [run_append_of_ok first] at ran
      match second : run files context right middle with
      | ⟨later, result⟩ =>
          rw [second] at ran
          cases ran
          exact ⟨before, middle, later, rfl, second, rfl⟩

/-- Whatever follows, the events of an expansion begin with those of a first part. -/
theorem exists_events_append (files : FileSet) (context : Context) (left right : List Node)
    (env : Env) :
    ∃ later, (run files context (left ++ right) env).events =
      (run files context left env).events ++ later := by
  match ran : run files context left env with
  | ⟨said, .ok middle⟩ =>
      rw [run_append_of_ok ran]
      exact ⟨_, rfl⟩
  | ⟨said, .error error⟩ =>
      rw [run_append_of_error ran]
      exact ⟨[], by simp⟩

/-! ## Nodes that enter others -/

variable {said : List Event} {final : Env}

/-- A conditional that succeeds gives out what one of its sides does, between two jumps. -/
theorem exists_branch_of_run {location : Location} {test : Test} {yes no : List Node}
    (ran : run files context [.cond location test yes no] env = ⟨said, .ok final⟩) :
    ∃ holds inner, test.eval env = .ok holds ∧ said = .jump :: inner ++ [.jump] ∧
      run files context (if holds then yes else no) env = ⟨inner, .ok final⟩ := by
  have answered := ofNode_eq_some files context (.cond location test yes no) env
  rw [ran] at answered
  simp only [ofNode] at answered
  cases value : test.eval env with
  | error error =>
      rw [value] at answered
      cases answered
  | ok holds =>
      rw [value] at answered
      simp only [all_between] at answered
      obtain ⟨⟨inner, result⟩, branch, same⟩ := Option.map_eq_some_iff.1 answered
      injection same with events result_eq
      subst result_eq
      exact ⟨holds, inner, rfl, events.symm, run_eq_of_step branch⟩

/-- An inclusion that succeeds reads a file that is not being read already, and gives out what the
file does, between two jumps. -/
theorem exists_file_of_run {location : Location} {path : Bytes}
    (ran : run files context [.inclusion location path] env = ⟨said, .ok final⟩) :
    ∃ text nodes inner, path ∉ context.ancestry ∧ files.contents? path = some text ∧
      Node.ofSource path text = .ok nodes ∧ said = .jump :: .load path :: inner ++ [.jump] ∧
      run files (context.forFile path) nodes env = ⟨inner, .ok final⟩ := by
  have answered := ofNode_eq_some files context (.inclusion location path) env
  rw [ran] at answered
  simp only [ofNode, includeFile] at answered
  split at answered
  · cases answered
  rename_i new
  cases found : files.contents? path with
  | none =>
      simp only [found] at answered
      cases answered
  | some text =>
      cases read : Node.ofSource path text with
      | error error =>
          simp only [found, read] at answered
          cases answered
      | ok nodes =>
          simp only [found, read, all_between] at answered
          obtain ⟨⟨inner, result⟩, file, same⟩ := Option.map_eq_some_iff.1 answered
          injection same with events result_eq
          subst result_eq
          exact ⟨text, nodes, inner, new, rfl, read, events.symm, run_eq_of_step file⟩

end Expansion

end ScopedMacros
