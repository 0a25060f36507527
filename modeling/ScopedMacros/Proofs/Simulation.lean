import Mathlib.Data.List.Forall2
import ScopedMacros.Proofs.Steps

/-!
# Two expansions in step

Two expansions go in step if they start in related environments, give out the same events up to a
view of the second one, and end with related environments or with errors that belong together.  What
is proved here does not depend on the relation: it is kept by steps in a row, by uses of macros
whose scopes are related, and by calls of names that are bound on neither side.
-/

namespace ScopedMacros

/-- The second outcome is the first one as it is seen through the view. -/
inductive Outcome.Matches (view : Event → Event) (together : Error → Error → Prop)
    (related : Env → Env → Prop) : Outcome → Outcome → Prop where
  | ok (events : List Event) {env other : Env} (final : related env other) :
      Matches view together related ⟨events, .ok env⟩ ⟨events.map view, .ok other⟩
  | error (events : List Event) {error other : Error} (failed : together error other) :
      Matches view together related ⟨events, .error error⟩ ⟨events.map view, .error other⟩

/-- From related environments the two steps go on in the same way. -/
def Step.Matches (view : Event → Event) (together : Error → Error → Prop)
    (related : Env → Env → Prop) (first second : Step) : Prop :=
  ∀ env other, related env other →
    Option.Rel (Outcome.Matches view together related) (first env) (second other)

section

variable {view : Event → Event} {together : Error → Error → Prop} {related inner : Env → Env → Prop}

namespace Outcome.Matches

variable {outcome twin : Outcome}

theorem events_eq (same : Matches view together related outcome twin) :
    twin.events = outcome.events.map view := by
  cases same <;> rfl

theorem after {events others : List Event} (viewed : events.map view = others)
    (same : Matches view together related outcome twin) :
    Matches view together related (outcome.after events) (twin.after others) := by
  subst viewed
  cases same with
  | ok more final =>
      rw [Outcome.after, Outcome.after, ← List.map_append]
      exact .ok _ final
  | error more failed =>
      rw [Outcome.after, Outcome.after, ← List.map_append]
      exact .error _ failed

/-- The environments are left out of sight. -/
theorem restore {env other : Env} (outside : related env other)
    (same : Matches view together inner outcome twin) :
    Matches view together related (outcome.restore env) (twin.restore other) := by
  cases same with
  | ok events _ => exact .ok events outside
  | error events failed => exact .error events failed

end Outcome.Matches

namespace Step.Matches

variable {first second third fourth : Step}

theorem say {events others : List Event} (viewed : events.map view = others) :
    Matches view together related (.say events) (.say others) := by
  subst viewed
  intro env other start
  exact .some (.ok events start)

theorem fail {error other : Error} (failed : together error other) :
    Matches view together related (.fail error) (.fail other) := by
  intro env outer start
  exact .some (.error [] failed)

theorem andThen (left : Matches view together related first second)
    (right : Matches view together related third fourth) :
    Matches view together related (first.andThen third) (second.andThen fourth) := by
  intro env other start
  have outcomes := left env other start
  unfold Step.andThen
  generalize first env = answer at outcomes
  generalize second other = twin at outcomes
  cases outcomes with
  | none => exact .none
  | some outcome =>
      cases outcome with
      | error events failed => exact .some (.error events failed)
      | @ok events middle otherMiddle final =>
          have outcomes := right middle otherMiddle final
          dsimp only
          generalize third middle = answer at outcomes
          generalize fourth otherMiddle = twin at outcomes
          cases outcomes with
          | none => exact .none
          | some same => exact .some (same.after rfl)

/-- Inside of scopes another relation may hold. -/
theorem inside {scope outer : Env} (scopes : inner scope outer)
    (steps : Matches view together inner first second) :
    Matches view together related (first.inside scope) (second.inside outer) := by
  intro env other start
  have outcomes := steps scope outer scopes
  unfold Step.inside
  generalize first scope = answer at outcomes
  generalize second outer = twin at outcomes
  cases outcomes with
  | none => exact .none
  | some same => exact .some (same.restore start)

theorem all {steps others : List Step}
    (each : List.Forall₂ (Matches view together related) steps others) :
    Matches view together related (.all steps) (.all others) := by
  induction each with
  | nil => exact .say rfl
  | cons head _ ih => exact head.andThen ih

theorem between {said more later last : List Event} (saidViewed : said.map view = more)
    (laterViewed : later.map view = last) (steps : Matches view together related first second) :
    Matches view together related (.all [.say said, first, .say later])
      (.all [.say more, second, .say last]) :=
  .all (.cons (.say saidViewed) (.cons steps (.cons (.say laterViewed) .nil)))

end Step.Matches

/-- Arguments that are related one by one are so after no argument is taken as an empty one. -/
theorem Macro.forall₂_arguments {related : List Node → List Node → Prop} (empty : related [] [])
    {given others : List (List Node)} (each : List.Forall₂ related given others)
    {parameters names : List Bytes} (length : names.length = parameters.length) :
    List.Forall₂ related (arguments parameters given) (arguments names others) := by
  have none : others.isEmpty = given.isEmpty := by cases each <;> rfl
  unfold arguments
  rw [none, length]
  split
  · exact .cons empty .nil
  · exact each

namespace Expansion

open Step

section

variable {expand expand' : Context → List Node → Step} {context other : Context}

theorem matches_passArguments {separator comma : Step}
    (separators : Matches view together related separator comma) {given others : List (List Node)}
    (each : List.Forall₂ (fun argument twin =>
      Matches view together related (expand context argument) (expand' other twin)) given others) :
    Matches view together related (passArguments expand context separator given)
      (passArguments expand' other comma others) := by
  cases each with
  | nil => exact .say rfl
  | cons first rest =>
      refine first.andThen (.all ?_)
      rw [List.forall₂_map_left_iff, List.forall₂_map_right_iff]
      exact rest.imp fun _ _ argument => separators.andThen argument

/-- A call of a name that is bound on neither side. -/
theorem matches_callUnbound (text : ∀ position content, view (.text position content) =
      .text position content) {given others : List (List Node)}
    (each : List.Forall₂ (fun argument twin =>
      Matches view together related (expand context argument) (expand' other twin)) given others)
    (location : Location) (name : Bytes) :
    Matches view together related (callUnbound expand context location name given)
      (callUnbound expand' other location name others) := by
  have write : ∀ content, [Event.text location.start content].map view =
      [.text location.start content] := fun content => by rw [List.map_singleton, text]
  exact .between (write _) (write _) (matches_passArguments (.say (write _)) each)

end

/-- Expansions that go in step to every depth do so all the way. -/
theorem matches_run {files : FileSet} {context other : Context} {nodes others : List Node}
    (bounded : ∀ depth, Matches view together related (within files depth context nodes)
      (within files depth other others)) {env outer : Env} (start : related env outer) :
    Outcome.Matches view together related (run files context nodes env)
      (run files other others outer) := by
  obtain ⟨depth, answered⟩ := exists_within_eq_run files context nodes env
  have outcomes := bounded depth env outer start
  rw [answered] at outcomes
  rcases otherAnswered : within files depth other others outer with _ | outcome
  · rw [otherAnswered] at outcomes
    cases outcomes
  · rw [otherAnswered] at outcomes
    rw [run_eq_of_within otherAnswered]
    cases outcomes with
    | some same => exact same

end Expansion

end

end ScopedMacros
