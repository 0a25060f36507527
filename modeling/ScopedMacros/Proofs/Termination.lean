import Mathlib.Data.Nat.Find
import ScopedMacros.Expansion.Total

/-!
# The depth that an expansion needs

Bounded expansion refuses to answer while its bound is too small.  For every source there is one
depth at which this ends: below it there is no answer, and from it on there is the same answer at
every depth, an environment or an error.
-/

namespace ScopedMacros

namespace Expansion

variable {files : FileSet} {context : Context} {nodes : List Node} {env : Env}

/-- An answer at some depth is the outcome of the expansion. -/
theorem within_eq_run_of_isSome {depth : Nat}
    (answered : (within files depth context nodes env).isSome) :
    within files depth context nodes env = some (run files context nodes env) := by
  obtain ⟨outcome, found⟩ := Option.isSome_iff_exists.1 answered
  rw [run_eq_of_within found]
  exact found

theorem isSome_within_of_le {depth deeper : Nat} (le : depth ≤ deeper)
    (answered : (within files depth context nodes env).isSome) :
    (within files deeper context nodes env).isSome := by
  have found := within_le le _ _ _ _ (within_eq_run_of_isSome answered)
  rw [found]
  rfl

/-- What an expansion does can be read off a bounded one that answers. -/
theorem view_expand_of_within {α : Type} (view : Outcome → α) {name : Bytes} {depth : Nat} {seen : α}
    (answered : (within files depth ⟨[name], none⟩ nodes env).map view = some seen) :
    view (expand files name nodes env) = seen := by
  obtain ⟨outcome, found, same⟩ := Option.map_eq_some_iff.1 answered
  rw [expand, run_eq_of_within found]
  exact same

theorem view_ofSource_of_within {α : Type} (view : Outcome → α) {name text : Bytes} {depth : Nat}
    {seen : α}
    (answered : ((Node.ofSource name text).toOption.bind fun nodes =>
      within files depth ⟨[name], none⟩ nodes env).map view = some seen) :
    view (ofSource files name text env) = seen := by
  unfold ofSource
  cases read : Node.ofSource name text with
  | error error =>
      rw [read] at answered
      cases answered
  | ok nodes =>
      rw [read] at answered
      exact view_expand_of_within view answered

/-- Whatever files there are, whatever nodes are expanded and whatever is bound before, the
expansion of a source ends: there is a least depth that suffices, and every depth from there on
gives the outcome of the expansion. -/
theorem expand_ends_at_least_depth (files : FileSet) (name : Bytes) (nodes : List Node)
    (env : Env) :
    ∃ least, ∀ depth,
      within files depth ⟨[name], none⟩ nodes env =
        if least ≤ depth then some (expand files name nodes env) else none := by
  have enough : ∃ depth, (within files depth ⟨[name], none⟩ nodes env).isSome := by
    obtain ⟨depth, outcome, answered⟩ := exists_within_eq_some files ⟨[name], none⟩ nodes env
    exact ⟨depth, by rw [answered]; rfl⟩
  refine ⟨Nat.find enough, fun depth => ?_⟩
  by_cases deep : Nat.find enough ≤ depth
  · rw [if_pos deep]
    exact within_eq_run_of_isSome (isSome_within_of_le deep (Nat.find_spec enough))
  · rw [if_neg deep]
    have short := Nat.find_min enough (Nat.lt_of_not_le deep)
    exact Option.not_isSome_iff_eq_none.1 short

end Expansion

end ScopedMacros
