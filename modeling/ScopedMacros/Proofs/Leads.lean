import ScopedMacros.Proofs.Steps

/-!
# The environments before and after a step

A reflexive and transitive relation holds between the environments before and after an expansion
that succeeds as soon as every single node keeps to it.  Steps in a row, uses of macros and files
add nothing of their own.
-/

namespace ScopedMacros

/-- Where the step succeeds, the environment before it is related to the one it leaves. -/
def Step.Leads (related : Env → Env → Prop) (step : Step) : Prop :=
  ∀ env events later, step env = some ⟨events, .ok later⟩ → related env later

namespace Step.Leads

variable {related : Env → Env → Prop} {first second : Step}

theorem fail (error : Error) : Leads related (.fail error) := by
  intro env said later done
  cases done

theorem say [Std.Refl related] (events : List Event) : Leads related (.say events) := by
  intro env said later done
  cases done
  exact Std.Refl.refl env

/-- What is done inside a scope does not show outside. -/
theorem inside [Std.Refl related] (scope : Env) (step : Step) :
    Leads related (step.inside scope) := by
  intro env said later done
  obtain ⟨⟨events, result⟩, _, whole⟩ := Option.map_eq_some_iff.1 done
  cases result with
  | error error => cases whole
  | ok last =>
      cases whole
      exact Std.Refl.refl env

theorem andThen [Trans related related related] (left : Leads related first)
    (right : Leads related second) : Leads related (first.andThen second) := by
  intro env said later done
  unfold Step.andThen at done
  split at done
  · cases done
  · cases done
  · next events middle ran =>
      obtain ⟨⟨more, result⟩, rest, whole⟩ := Option.map_eq_some_iff.1 done
      cases whole
      exact Trans.trans (left env events middle ran) (right middle more later rest)

variable [Std.Refl related] [Trans related related related]

theorem all {steps : List Step} (each : ∀ step ∈ steps, Leads related step) :
    Leads related (.all steps) := by
  induction steps with
  | nil => exact .say []
  | cons step rest ih =>
      obtain ⟨head, tail⟩ := List.forall_mem_cons.1 each
      exact head.andThen (ih tail)

theorem between (leads : Leads related first) (said later : List Event) :
    Leads related (.all [.say said, first, .say later]) :=
  (Leads.say _).andThen (leads.andThen ((Leads.say _).andThen (.say [])))

end Step.Leads

namespace Expansion

open Step

variable {related : Env → Env → Prop} [Std.Refl related] {files : FileSet}
  {expand : Context → List Node → Step} {context : Context}

theorem leads_useMacro (location : Location) (definition : Macro) :
    Leads related (useMacro expand context location definition) := by
  unfold useMacro
  split
  · exact .fail _
  · exact .inside _ _

theorem leads_callMacro (location : Location) (definition : Macro) (given : List (List Node)) :
    Leads related (callMacro expand context location definition given) := by
  unfold callMacro
  split
  · exact .fail _
  · intro env said later done
    dsimp only at done
    split at done
    · exact Leads.inside _ _ env said later done
    · cases done

variable [Trans related related related]

theorem leads_passArguments {given : List (List Node)}
    (each : ∀ argument ∈ given, Leads related (expand context argument)) (events : List Event) :
    Leads related (passArguments expand context (say events) given) := by
  cases given with
  | nil => exact .say []
  | cons first rest =>
      obtain ⟨firstLeads, restLead⟩ := List.forall_mem_cons.1 each
      refine firstLeads.andThen (.all fun step member => ?_)
      obtain ⟨argument, among, rfl⟩ := List.mem_map.1 member
      exact (Leads.say _).andThen (restLead argument among)

theorem leads_callUnbound {given : List (List Node)}
    (each : ∀ argument ∈ given, Leads related (expand context argument)) (location : Location)
    (name : Bytes) : Leads related (callUnbound expand context location name given) :=
  .between (leads_passArguments each _) _ _

theorem leads_includeFile {path : Bytes}
    (inFile : ∀ text nodes, files.contents? path = some text → Node.ofSource path text = .ok nodes →
      Leads related (expand (context.forFile path) nodes)) (location : Location) :
    Leads related (includeFile files expand context location path) := by
  unfold includeFile
  split
  · exact .fail _
  cases found : files.contents? path with
  | none => exact .fail _
  | some text =>
      cases read : Node.ofSource path text with
      | error error =>
          simp only [read]
          exact .fail _
      | ok nodes =>
          simp only [read]
          exact .between (inFile text nodes found read) _ _

/-- A relation that each single node keeps to, if the expansions one level down do, holds around
every expansion. -/
theorem leads_step (allowed : List Node → Prop)
    (single : ∀ nodes, allowed nodes → ∀ node ∈ nodes, allowed [node])
    (ofSingle : ∀ expand : Context → List Node → Step,
      (∀ context nodes, allowed nodes → Leads related (expand context nodes)) →
      ∀ context node, allowed [node] → Leads related (ofNode files expand context node))
    (context : Context) (nodes : List Node) (form : allowed nodes) :
    Leads related (step files context nodes) := by
  have bounded : ∀ depth context nodes, allowed nodes →
      Leads related (within files depth context nodes) := by
    intro depth
    induction depth with
    | zero =>
        intro context nodes _ env said later done
        cases done
    | succ depth ih =>
        intro context nodes form
        refine .all fun step member => ?_
        obtain ⟨node, among, rfl⟩ := List.mem_map.1 member
        exact ofSingle _ ih context node (single nodes form node among)
  intro env said later done
  obtain ⟨depth, answered⟩ := exists_within_eq_run files context nodes env
  exact bounded depth context nodes form env said later (answered.trans done)

end Expansion

end ScopedMacros
