import ScopedMacros.Node.Basic

/-!
# Environments

An environment binds names to macros.  A macro is closed: it holds the environment of the place
where it was defined, and its body is only ever expanded there.  The bindings are kept in the
order of the names, one for each name.
-/

namespace ScopedMacros

inductive Env where
  | empty
  /-- A macro, with the environment it was defined in as its `scope`, before other bindings. -/
  | cons (name : Bytes) (parameters : Option (List Bytes)) (body : List Node) (scope : Env)
      (location : Location) (rest : Env)

/-- A macro.  It takes arguments if it has a list of parameters. -/
structure Macro where
  name : Bytes
  parameters : Option (List Bytes)
  body : List Node
  scope : Env
  location : Location

namespace Env

/-- A macro in front of other bindings. -/
def add (definition : Macro) (rest : Env) : Env :=
  .cons definition.name definition.parameters definition.body definition.scope
    definition.location rest

/-- The macros in the order of their names. -/
def macros : Env → List Macro
  | .empty => []
  | .cons name parameters body scope location rest =>
      ⟨name, parameters, body, scope, location⟩ :: rest.macros

def names : Env → List Bytes
  | .empty => []
  | .cons name _ _ _ _ rest => name :: rest.names

def size : Env → Nat
  | .empty => 0
  | .cons _ _ _ _ _ rest => rest.size + 1

def isEmpty (env : Env) : Bool :=
  env.size == 0

def lookup (wanted : Bytes) : Env → Option Macro
  | .empty => none
  | .cons name parameters body scope location rest =>
      if name = wanted then some ⟨name, parameters, body, scope, location⟩
      else rest.lookup wanted

def contains (env : Env) (name : Bytes) : Bool :=
  (env.lookup name).isSome

/-- Binds the name of a macro to it, in place of what the name was bound to. -/
def bind (definition : Macro) : Env → Env
  | .empty => .add definition .empty
  | .cons name parameters body scope location rest =>
      if definition.name = name then
        .add definition rest
      else if definition.name < name then
        .add definition (.cons name parameters body scope location rest)
      else
        .cons name parameters body scope location (rest.bind definition)

/-- Removes the binding of a name, if there is one. -/
def unbind (unwanted : Bytes) : Env → Env
  | .empty => .empty
  | .cons name parameters body scope location rest =>
      if name = unwanted then rest
      else .cons name parameters body scope location (rest.unbind unwanted)

/-- Binds each name of a list to the macro beside it. -/
def bindAll (definitions : List Macro) (env : Env) : Env :=
  definitions.foldl (fun env definition => env.bind definition) env

@[simp]
theorem lookup_add (definition : Macro) (rest : Env) (wanted : Bytes) :
    (add definition rest).lookup wanted =
      if definition.name = wanted then some definition else rest.lookup wanted := rfl

theorem mem_names_of_lookup {env : Env} {wanted : Bytes} {definition : Macro}
    (found : env.lookup wanted = some definition) : wanted ∈ env.names := by
  induction env with
  | empty => cases found
  | cons name parameters body scope location rest _ ih =>
      unfold lookup at found
      split at found
      · simp [names, *]
      · exact List.mem_cons_of_mem _ (ih found)

/-- After binding, the name of the macro stands for it and every other name for what it did. -/
theorem lookup_bind (definition : Macro) (env : Env) (wanted : Bytes) :
    (env.bind definition).lookup wanted =
      if definition.name = wanted then some definition else env.lookup wanted := by
  induction env with
  | empty => rfl
  | cons name parameters body scope location rest _ ih =>
      unfold bind
      split
      · next same =>
          rw [lookup_add]
          split
          · rfl
          · next other => simp [lookup, ← same, other]
      · next different =>
          split
          · rw [lookup_add]
          · unfold lookup
            rw [ih]
            split
            · next here =>
                rw [if_neg]
                rw [← here]
                exact different
            · rfl

theorem mem_macros_of_lookup {env : Env} {wanted : Bytes} {definition : Macro}
    (found : env.lookup wanted = some definition) : definition ∈ env.macros := by
  induction env with
  | empty => cases found
  | cons name parameters body scope location rest _ ih =>
      unfold lookup at found
      split at found
      · cases found
        simp [macros]
      · exact List.mem_cons_of_mem _ (ih found)

theorem mem_macros_bind {env : Env} {definition other : Macro}
    (member : other ∈ (env.bind definition).macros) : other = definition ∨ other ∈ env.macros := by
  induction env with
  | empty => exact .inl (List.mem_singleton.1 member)
  | cons name parameters body scope location rest _ ih =>
      unfold bind at member
      split at member
      · rcases List.mem_cons.1 member with same | member
        · exact .inl same
        · exact .inr (List.mem_cons_of_mem _ member)
      · split at member
        · exact List.mem_cons.1 member
        · rcases List.mem_cons.1 member with same | member
          · exact .inr (by simp [macros, same])
          · exact (ih member).imp id (List.mem_cons_of_mem _)

theorem mem_macros_unbind {env : Env} {unwanted : Bytes} {definition : Macro}
    (member : definition ∈ (env.unbind unwanted).macros) : definition ∈ env.macros := by
  induction env with
  | empty => exact member
  | cons name parameters body scope location rest _ ih =>
      unfold unbind at member
      split at member
      · exact List.mem_cons_of_mem _ member
      · rcases List.mem_cons.1 member with same | member
        · simp [macros, same]
        · exact List.mem_cons_of_mem _ (ih member)

theorem mem_macros_bindAll {env : Env} {definitions : List Macro} {other : Macro}
    (member : other ∈ (env.bindAll definitions).macros) :
    other ∈ definitions ∨ other ∈ env.macros := by
  induction definitions generalizing env with
  | nil => exact .inr member
  | cons definition rest ih =>
      rcases ih member with inner | outer
      · exact .inl (List.mem_cons_of_mem _ inner)
      · exact (mem_macros_bind outer).imp (fun same => by simp [same]) id

end Env

end ScopedMacros
