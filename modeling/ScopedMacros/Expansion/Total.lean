import ScopedMacros.Expansion.Halting

/-!
# Expansion

The expansion of nodes, with no bound on the depth.  It is the answer at any depth that suffices,
and it satisfies the equations of bounded expansion with itself in place of the expansion one level down
(`step_eq`).
-/

namespace ScopedMacros

namespace Expansion

/-- The first answer of a search that goes on to twice the depth as long as there is none. -/
def search {α : Type} (answer : Nat → Option α)
    (enough : ∃ bound, ∀ depth, bound ≤ depth → (answer depth).isSome) (depth : Nat) : α :=
  match _found : answer depth with
  | some result => result
  | none => search answer enough (2 * depth + 1)
termination_by enough.choose - depth
decreasing_by
  have short : depth < enough.choose := by
    refine Nat.lt_of_not_le fun le => ?_
    have := enough.choose_spec depth le
    simp [_found] at this
  omega

theorem exists_answer_eq_search {α : Type} (answer : Nat → Option α)
    (enough : ∃ bound, ∀ depth, bound ≤ depth → (answer depth).isSome) (depth : Nat) :
    ∃ depth', answer depth' = some (search answer enough depth) := by
  fun_induction search answer enough depth with
  | case1 depth result found => exact ⟨depth, found⟩
  | case2 depth found ih => exact ih

theorem enough_depth (files : FileSet) (context : Context) (nodes : List Node) (env : Env) :
    ∃ bound, ∀ depth, bound ≤ depth → (within files depth context nodes env).isSome := by
  obtain ⟨bound, outcome, answered⟩ := exists_within_eq_some files context nodes env
  exact ⟨bound, fun depth le => by simp [within_le le _ _ _ _ answered]⟩

/-- The expansion of nodes in a context and an environment. -/
def run (files : FileSet) (context : Context) (nodes : List Node) (env : Env) : Outcome :=
  search (fun depth => within files depth context nodes env)
    (enough_depth files context nodes env) 1000000

variable {files : FileSet} {context : Context} {nodes : List Node} {env : Env}

theorem exists_within_eq_run (files : FileSet) (context : Context) (nodes : List Node) (env : Env) :
    ∃ depth, within files depth context nodes env = some (run files context nodes env) :=
  exists_answer_eq_search _ (enough_depth files context nodes env) 1000000

theorem run_eq_of_within {depth : Nat} {outcome : Outcome}
    (answered : within files depth context nodes env = some outcome) :
    run files context nodes env = outcome := by
  obtain ⟨other, found⟩ := exists_within_eq_run files context nodes env
  have left := within_le (Nat.le_max_left depth other) _ _ _ _ answered
  have right := within_le (Nat.le_max_right depth other) _ _ _ _ found
  exact Option.some.inj (right.symm.trans left)

/-- The expansion is an outcome exactly if it is the answer at some depth. -/
theorem run_eq_iff {outcome : Outcome} :
    run files context nodes env = outcome ↔
      ∃ depth, within files depth context nodes env = some outcome :=
  ⟨fun same => same ▸ exists_within_eq_run files context nodes env,
    fun ⟨_, answered⟩ => run_eq_of_within answered⟩

/-- The expansion of nodes as a step, which always answers. -/
def step (files : FileSet) (context : Context) (nodes : List Node) : Step :=
  fun env => some (run files context nodes env)

theorem within_le_step (depth : Nat) (context : Context) (nodes : List Node) :
    Step.Le (within files depth context nodes) (step files context nodes) :=
  fun _ _ answered => congrArg some (run_eq_of_within answered)

/-- The expansion of nodes is that of each node in turn, where the nodes one level down are expanded
by the expansion itself. -/
theorem step_eq (files : FileSet) (context : Context) (nodes : List Node) :
    step files context nodes =
      Step.all (nodes.map (ofNode files (step files) context)) := by
  funext env
  obtain ⟨depth, answered⟩ := exists_within_eq_run files context nodes env
  cases depth with
  | zero => cases answered
  | succ depth =>
      exact (Step.Le.all_map (fun node _ => ofNode_le (within_le_step depth) context node) _ _
        answered).symm

/-- Expands the nodes of a source with the given name. -/
def expand (files : FileSet) (name : Bytes) (nodes : List Node) (env : Env) : Outcome :=
  run files ⟨[name], none⟩ nodes env

/-- Reads a source with the given name and expands it. -/
def ofSource (files : FileSet) (name text : Bytes) (env : Env) : Outcome :=
  match Node.ofSource name text with
  | .error error => ⟨[], .error error⟩
  | .ok nodes => expand files name nodes env

end Expansion

end ScopedMacros
