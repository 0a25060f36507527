import ScopedMacros.Proofs.Scoping
import ScopedMacros.Proofs.Unused

/-!
# What environments bind

Environments are made from the empty one by binding and freeing names, and any environment can be
taken up again later.  What one of them binds can be told from the edits that led to it, and its
size from a count that goes along with them.
-/

namespace ScopedMacros.Env

/-! ## One edit -/

theorem mem_names_iff {env : Env} {name : Bytes} :
    name ∈ env.names ↔ env.contains name = true := by
  induction env with
  | empty => simp [names, contains, lookup]
  | cons other parameters body scope location rest _ ih =>
      rw [names, List.mem_cons, contains, lookup]
      split
      · next same => simp [same]
      · next different =>
          rw [ih, contains]
          simp [Ne.symm different]

theorem size_eq_length_names (env : Env) : env.size = env.names.length := by
  induction env with
  | empty => rfl
  | cons name parameters body scope location rest _ ih => rw [size, names, List.length_cons, ih]

/-- The names are in order, so that none occurs twice. -/
abbrev Ordered (env : Env) : Prop :=
  env.names.Pairwise (· < ·)

variable {env : Env}

/-- In an ordered environment the name of the first macro is not bound again. -/
theorem Ordered.contains_rest {name : Bytes} {parameters : Option (List Bytes)} {body : List Node}
    {scope rest : Env} {location : Location}
    (ordered : (cons name parameters body scope location rest).Ordered) :
    rest.contains name = false := by
  rw [Bool.eq_false_iff]
  intro bound
  have less := (List.pairwise_cons.1 ordered).1 name (mem_names_iff.2 bound)
  exact List.lt_irrefl _ less

theorem Ordered.bind (ordered : env.Ordered) (definition : Macro) :
    (env.bind definition).Ordered := by
  induction env with
  | empty => exact List.pairwise_singleton _ _
  | cons name parameters body scope location rest _ ih =>
      obtain ⟨first, others⟩ := List.pairwise_cons.1 ordered
      rw [Env.bind]
      split
      · next same => exact List.pairwise_cons.2 ⟨same ▸ first, others⟩
      next different =>
      split
      · next less =>
          refine List.pairwise_cons.2 ⟨fun later among => ?_, ordered⟩
          rcases List.mem_cons.1 among with rfl | among
          · exact less
          · exact List.lt_trans less (first later among)
      · next notLess =>
          refine List.pairwise_cons.2 ⟨fun later among => ?_, ih others⟩
          rcases mem_names_bind among with rfl | among
          · refine Decidable.byContradiction fun notMore => different ?_
            exact List.le_antisymm (List.not_lt.1 notMore) (List.not_lt.1 notLess)
          · exact first later among

theorem Ordered.unbind (ordered : env.Ordered) (unwanted : Bytes) :
    (env.unbind unwanted).Ordered := by
  induction env with
  | empty => exact ordered
  | cons name parameters body scope location rest _ ih =>
      obtain ⟨first, others⟩ := List.pairwise_cons.1 ordered
      rw [Env.unbind]
      split
      · exact others
      · refine List.pairwise_cons.2 ⟨fun later among => ?_, ih others⟩
        exact first later (mem_names_unbind among)

theorem Ordered.lookup_unbind (ordered : env.Ordered) (unwanted wanted : Bytes) :
    (env.unbind unwanted).lookup wanted =
      if unwanted = wanted then none else env.lookup wanted := by
  split
  · next same =>
      subst same
      induction env with
      | empty => rfl
      | cons name parameters body scope location rest _ ih =>
          rw [Env.unbind]
          split
          · next here => exact lookup_eq_none_of_contains (here ▸ ordered.contains_rest)
          · next elsewhere =>
              rw [Env.lookup, if_neg elsewhere]
              exact ih (List.pairwise_cons.1 ordered).2
  · next different => exact lookup_unbind_of_ne different env

/-- Binding adds to the size only if the name is new. -/
theorem Ordered.size_bind (ordered : env.Ordered) (definition : Macro) :
    (env.bind definition).size =
      if env.contains definition.name then env.size else env.size + 1 := by
  induction env with
  | empty => rfl
  | cons name parameters body scope location rest _ ih =>
      obtain ⟨first, others⟩ := List.pairwise_cons.1 ordered
      rw [Env.bind]
      split
      · next same => simp [contains, Env.lookup, same, add, size]
      next different =>
      split
      · next less =>
          -- The name comes before all others, so it is none of them.
          have free : (cons name parameters body scope location rest).contains definition.name =
              false := by
            rw [Bool.eq_false_iff]
            intro bound
            rcases List.mem_cons.1 (mem_names_iff.2 bound) with same | among
            · exact different same
            · exact List.lt_irrefl _ (List.lt_trans less (first _ among))
          simp [free, add, size]
      · have same : (cons name parameters body scope location rest).contains definition.name =
            rest.contains definition.name := by
          rw [contains, contains, Env.lookup, if_neg (Ne.symm different)]
        rw [same, size, size, ih others]
        split <;> rfl

/-- Freeing a name takes from the size only if the name is bound. -/
theorem size_unbind (env : Env) (unwanted : Bytes) :
    (env.unbind unwanted).size = if env.contains unwanted then env.size - 1 else env.size := by
  induction env with
  | empty => rfl
  | cons name parameters body scope location rest _ ih =>
      rw [Env.unbind, contains, Env.lookup]
      split
      · rfl
      · rw [size, size, ih, contains]
        split
        · next bound =>
            have positive : 0 < rest.size := by
              rw [size_eq_length_names]
              exact List.length_pos_of_mem (mem_names_iff.2 bound)
            omega
        · rfl

/-! ## Lineages -/

/-- One change of an environment. -/
inductive Edit where
  | bind (definition : Macro)
  | unbind (name : Bytes)

/-- The name that an edit is about. -/
def Edit.name : Edit → Bytes
  | .bind definition => definition.name
  | .unbind name => name

def edit (env : Env) : Edit → Env
  | .bind definition => env.bind definition
  | .unbind name => env.unbind name

/-- The last edit of the name binds it to the macro. -/
def Edit.Leaves (edits : List Edit) (name : Bytes) (definition : Macro) : Prop :=
  ∃ before after, edits = before ++ .bind definition :: after ∧ definition.name = name ∧
    ∀ later ∈ after, later.name ≠ name

theorem Edit.leaves_concat {edits : List Edit} {last : Edit} {name : Bytes} {definition : Macro} :
    Leaves (edits ++ [last]) name definition ↔
      last = .bind definition ∧ definition.name = name ∨
        last.name ≠ name ∧ Leaves edits name definition := by
  constructor
  · rintro ⟨before, after, whole, named, untouched⟩
    rcases List.eq_nil_or_concat after with rfl | ⟨init, final, rfl⟩
    · obtain ⟨_, same⟩ := List.append_inj' whole rfl
      exact .inl ⟨(List.cons.inj same).1, named⟩
    · rw [List.concat_eq_append, ← List.cons_append, ← List.append_assoc] at whole
      obtain ⟨rfl, same⟩ := List.append_inj' whole rfl
      obtain ⟨rfl, _⟩ := List.cons.inj same
      refine .inr ⟨untouched last (by simp), before, init, rfl, named, fun later member => ?_⟩
      exact untouched later (by simp [member])
  · rintro (⟨rfl, named⟩ | ⟨different, before, after, rfl, named, untouched⟩)
    · exact ⟨edits, [], rfl, named, by simp⟩
    · refine ⟨before, after ++ [last], by simp, named, fun later member => ?_⟩
      rcases List.mem_append.1 member with among | isLast
      · exact untouched later among
      · rw [List.mem_singleton.1 isLast]
        exact different

/-- An environment with a count of its names and the edits that led to it. -/
structure Version where
  env : Env
  /-- The number of names, kept up from edit to edit. -/
  count : Nat
  lineage : List Edit

namespace Version

def first : Version :=
  ⟨.empty, 0, []⟩

/-- The count after one more edit: it changes if a name is bound that was not, or freed that was. -/
def recount (version : Version) : Edit → Nat
  | .bind definition =>
      if version.env.contains definition.name then version.count else version.count + 1
  | .unbind name =>
      if version.env.contains name then version.count - 1 else version.count

def derive (version : Version) (last : Edit) : Version :=
  ⟨version.env.edit last, version.recount last, version.lineage ++ [last]⟩

/-- The versions after an edit of one of them, given by its index.  Nothing is added if there is none
with that index. -/
def extend (versions : List Version) (step : Nat × Edit) : List Version :=
  versions ++ (versions[step.1]?.map (derive · step.2)).toList

/-- All versions that are made by edits, each of an earlier version. -/
def all (steps : List (Nat × Edit)) : List Version :=
  steps.foldl extend [first]

/-- A version is a map: what a name stands for is told by the last edit of it, the names are those that
stand for something, in strict order, and the size is their number. -/
structure Lawful (version : Version) : Prop where
  made : version.env = version.lineage.foldl edit .empty
  lookup : ∀ name definition, version.env.lookup name = some definition ↔
    Edit.Leaves version.lineage name definition
  contains : ∀ name, version.env.contains name = true ↔ version.env.lookup name ≠ none
  ordered : version.env.names.Pairwise (· < ·)
  bound : ∀ name, name ∈ version.env.names ↔ version.env.contains name = true
  counted : version.env.size = version.count
  size : version.env.size = version.env.names.length
  isEmpty : version.env.isEmpty = true ↔ version.env.size = 0

variable {version : Version}

/-- What does not depend on how an environment was made. -/
theorem lawful_of_edits (made : version.env = version.lineage.foldl edit .empty)
    (lookup : ∀ name definition, version.env.lookup name = some definition ↔
      Edit.Leaves version.lineage name definition)
    (ordered : version.env.Ordered) (counted : version.env.size = version.count) :
    version.Lawful where
  made := made
  lookup := lookup
  contains name := by
    rw [Env.contains, Option.isSome_iff_ne_none]
  ordered := ordered
  bound _ := mem_names_iff
  counted := counted
  size := size_eq_length_names _
  isEmpty := beq_iff_eq

theorem lawful_first : first.Lawful := by
  refine lawful_of_edits rfl (fun name definition => ⟨(fun found => by cases found), ?_⟩) .nil rfl
  rintro ⟨before, after, whole, _⟩
  cases before <;> cases whole

/-- An edit keeps the laws. -/
theorem Lawful.derive (lawful : version.Lawful) (last : Edit) : (version.derive last).Lawful := by
  have made : version.env.edit last = (version.lineage ++ [last]).foldl edit .empty := by
    rw [List.foldl_append, ← lawful.made]
    rfl
  cases last with
  | bind new =>
      refine lawful_of_edits made (fun name definition => ?_) (Ordered.bind lawful.ordered new) ?_
      · rw [Version.derive, Edit.leaves_concat, ← lawful.lookup, Env.edit, lookup_bind]
        split
        · next same =>
            constructor
            · rintro ⟨⟩
              exact .inl ⟨rfl, same⟩
            · rintro (⟨here, _⟩ | ⟨different, _⟩)
              · cases here
                rfl
              · exact absurd same different
        · next different =>
            refine ⟨fun found => .inr ⟨different, found⟩, ?_⟩
            rintro (⟨here, same⟩ | ⟨_, found⟩)
            · cases here
              exact absurd same different
            · exact found
      · rw [Version.derive, Env.edit, Ordered.size_bind lawful.ordered, lawful.counted]
        rfl
  | unbind unwanted =>
      refine lawful_of_edits made (fun name definition => ?_)
        (Ordered.unbind lawful.ordered unwanted) ?_
      · rw [Version.derive, Edit.leaves_concat, ← lawful.lookup, Env.edit,
          Ordered.lookup_unbind lawful.ordered]
        split
        · next same =>
            refine ⟨(fun found => by cases found), ?_⟩
            rintro (⟨here, _⟩ | ⟨different, _⟩)
            · cases here
            · exact absurd same different
        · next different =>
            refine ⟨fun found => .inr ⟨different, found⟩, ?_⟩
            rintro (⟨here, _⟩ | ⟨_, found⟩)
            · cases here
            · exact found
      · rw [Version.derive, Env.edit, size_unbind, lawful.counted]
        rfl

theorem lawful_extend {versions : List Version} (lawful : ∀ version ∈ versions, version.Lawful)
    (step : Nat × Edit) : ∀ version ∈ extend versions step, version.Lawful := by
  intro version member
  rcases List.mem_append.1 member with before | new
  · exact lawful version before
  · obtain ⟨source, found, rfl⟩ := Option.map_eq_some_iff.1 (Option.mem_toList.1 new)
    exact (lawful source (List.mem_of_getElem? found)).derive step.2

theorem lawful_foldl {versions : List Version} (lawful : ∀ version ∈ versions, version.Lawful)
    (steps : List (Nat × Edit)) : ∀ version ∈ steps.foldl extend versions, version.Lawful := by
  induction steps generalizing versions with
  | nil => exact lawful
  | cons step rest ih => exact ih (lawful_extend lawful step)

theorem prefix_foldl (versions : List Version) (steps : List (Nat × Edit)) :
    versions <+: steps.foldl extend versions := by
  induction steps generalizing versions with
  | nil => exact List.prefix_rfl
  | cons step rest ih => exact (List.prefix_append _ _).trans (ih _)

/-- Environments are maps with an exact size.  Whatever edits are made, each of any environment made so
far, every environment obeys the laws, and stays as it is whatever is made of it and of the others. -/
theorem lawful_of_mem_all (steps more : List (Nat × Edit)) :
    (∀ version ∈ all steps, version.Lawful) ∧ all steps <+: all (steps ++ more) := by
  constructor
  · exact lawful_foldl (List.forall_mem_singleton.2 lawful_first) steps
  · rw [all, all, List.foldl_append]
    exact prefix_foldl _ more

/-- A macro without a body that captures nothing. -/
def blank (name : String) (parameters : Option (List Bytes)) : Macro :=
  ⟨bytes name, parameters, [], .empty, .nowhere⟩

/-- Three names are bound.  From there one is freed twice, and another one is bound anew. -/
def branchingSteps : List (Nat × Edit) :=
  [(0, .bind (blank "X" none)), (1, .bind (blank "A" none)), (2, .bind (blank "M" none)),
    (3, .unbind (bytes "X")), (4, .unbind (bytes "X")), (3, .bind (blank "A" (some [])))]

theorem lawful_branchingSteps :
    (all branchingSteps).map (fun version => (version.env.names, version.count)) =
        [([], 0), ([bytes "X"], 1), ([bytes "A", bytes "X"], 2),
          ([bytes "A", bytes "M", bytes "X"], 3), ([bytes "A", bytes "M"], 2),
          ([bytes "A", bytes "M"], 2), ([bytes "A", bytes "M", bytes "X"], 3)] ∧
      (∀ version ∈ all branchingSteps, version.Lawful) ∧
      all branchingSteps <+: all (branchingSteps ++ [(6, .unbind (bytes "A"))]) :=
  ⟨by decide +kernel, lawful_of_mem_all branchingSteps [(6, .unbind (bytes "A"))]⟩

end Version

end ScopedMacros.Env
