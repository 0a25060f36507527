import ScopedMacros.Proofs.Likeness
import ScopedMacros.Proofs.MarkerErasure
import ScopedMacros.Proofs.Steps

/-!
# Files pasted in place of their inclusions

Nodes may hold the nodes of a file in place of its inclusion.  The expansion with the inclusion is
then followed, part by part, by the one where the file is pasted: it succeeds if the first one does,
with the same text, the same warnings, and an environment that is the same up to places.
-/

namespace ScopedMacros

/-! ## What is the same for all places -/

/-- The message of a warning. -/
def Event.message? : Event → Option Bytes
  | .warning _ message => some message
  | _ => none

/-- The same text and the same warnings, in the same order. -/
structure Event.Agree (left right : List Event) : Prop where
  written : left.flatMap Event.written = right.flatMap Event.written
  messages : left.filterMap Event.message? = right.filterMap Event.message?

theorem Event.Agree.append {left right more others : List Event} (first : Agree left right)
    (second : Agree more others) : Agree (left ++ more) (right ++ others) where
  written := by rw [List.flatMap_append, List.flatMap_append, first.written, second.written]
  messages := by
    rw [List.filterMap_append, List.filterMap_append, first.messages, second.messages]

/-- Where the first step succeeds, the second one does too in an environment alike, and they
agree. -/
def Step.Follows (first second : Step) : Prop :=
  ∀ env other events final, Env.Alike env other → first env = some ⟨events, .ok final⟩ →
    ∃ others last, second other = some ⟨others, .ok last⟩ ∧ Event.Agree events others ∧
      Env.Alike final last

namespace Step.Follows

variable {first second third fourth : Step}

theorem say {events others : List Event} (agree : Event.Agree events others) :
    Follows (.say events) (.say others) := by
  intro env other said final alike done
  cases done
  exact ⟨others, other, rfl, agree, alike⟩

theorem fail (error : Error) (second : Step) : Follows (.fail error) second := by
  intro env other said final alike done
  cases done

theorem andThen (left : Follows first second) (right : Follows third fourth) :
    Follows (first.andThen third) (second.andThen fourth) := by
  intro env other said final alike done
  unfold Step.andThen at done
  split at done
  · cases done
  · cases done
  · next events middle ran =>
      obtain ⟨outcome, rest, whole⟩ := Option.map_eq_some_iff.1 done
      obtain ⟨more, result⟩ := outcome
      cases whole
      obtain ⟨others, last, ranOther, agree, alike⟩ := left env other events middle alike ran
      obtain ⟨moreOthers, final', restOther, agreeRest, alikeRest⟩ :=
        right middle last more final alike rest
      refine ⟨others ++ moreOthers, final', ?_, agree.append agreeRest, alikeRest⟩
      rw [andThen_of_ok ranOther, restOther]
      rfl

theorem inside {scope outer : Env} (scopes : Env.Alike scope outer) (follows : Follows first second) :
    Follows (first.inside scope) (second.inside outer) := by
  intro env other said final alike done
  obtain ⟨⟨events, result⟩, ran, whole⟩ := Option.map_eq_some_iff.1 done
  cases result with
  | error error => cases whole
  | ok last =>
      cases whole
      obtain ⟨others, _, ranOther, agree, _⟩ := follows scope outer events last scopes ran
      exact ⟨others, other, by rw [Step.inside, ranOther]; rfl, agree, alike⟩

theorem all {steps others : List Step} (each : List.Forall₂ Follows steps others) :
    Follows (.all steps) (.all others) := by
  induction each with
  | nil => exact .say ⟨rfl, rfl⟩
  | cons head _ ih => exact head.andThen ih

end Step.Follows

/-- The second nodes are the first ones up to places, where files may be pasted in place of some
inclusions if `pasting`. -/
inductive Node.Pastes (files : FileSet) (pasting : Bool) : List Node → List Node → Prop where
  | nil : Pastes files pasting [] []
  | same {node other : Node} {rest others : List Node} (alike : node.Alike other)
      (pastes : Pastes files pasting rest others) :
      Pastes files pasting (node :: rest) (other :: others)
  | cond (location place : Location) {test check : Test}
      {yes no otherYes otherNo rest others : List Node} (same : test.unplaced = check.unplaced)
      (yesPastes : Pastes files pasting yes otherYes) (noPastes : Pastes files pasting no otherNo)
      (pastes : Pastes files pasting rest others) :
      Pastes files pasting (.cond location test yes no :: rest)
        (.cond place check otherYes otherNo :: others)
  | paste (allowed : pasting = true) (location : Location) {path text : Bytes}
      {nodes pasted rest others : List Node} (found : files.contents? path = some text)
      (read : Node.ofSource path text = .ok nodes) (alike : AllAlike nodes pasted)
      (pastes : Pastes files pasting rest others) :
      Pastes files pasting (.inclusion location path :: rest) (pasted ++ others)

theorem Node.Pastes.of_alike {files : FileSet} {pasting : Bool} {nodes others : List Node}
    (alike : Node.AllAlike nodes others) : Node.Pastes files pasting nodes others := by
  induction alike with
  | nil => exact .nil
  | cons head _ ih => exact .same head ih

/-- No file depends on where it stands. -/
def FileSet.Placeless (files : FileSet) : Prop :=
  ∀ path text nodes, files.contents? path = some text → Node.ofSource path text = .ok nodes →
    Node.AllAlike nodes nodes

namespace Expansion

open Step

section

variable {files : FileSet} {expand expand' : Context → List Node → Step}
  {context other : Context}

theorem bindArguments_alike (location place : Location) (parameters : List Bytes)
    {definition twin : Macro} {given others : List (List Node)} {env outer : Env}
    (alike : definition.Alike twin) (arguments : List.Forall₂ Node.AllAlike given others)
    (envAlike : Env.Alike env outer) :
    Env.Alike (definition.bindArguments parameters given env location)
      (twin.bindArguments parameters others outer place) := by
  refine .bindAll ?_ alike.scope
  induction parameters generalizing given others with
  | nil => exact .nil
  | cons name rest ih =>
      cases arguments with
      | nil => exact .nil
      | cons first more => exact .cons ⟨rfl, rfl, first, envAlike⟩ (ih more)

/-- The second expansion of nodes follows the first one, also in a context with fewer open files and
with files pasted. -/
def ExpandsAlike (files : FileSet) (expand expand' : Context → List Node → Step) : Prop :=
  ∀ context other nodes others, other.ancestry ⊆ context.ancestry → Node.Pastes files true nodes others →
    Follows (expand context nodes) (expand' other others)

variable (follows : ExpandsAlike files expand expand') (fewer : other.ancestry ⊆ context.ancestry)
include follows fewer

theorem useMacro_follows (location place : Location) {definition twin : Macro}
    (alike : definition.Alike twin) :
    Follows (useMacro expand context location definition)
      (useMacro expand' other place twin) := by
  unfold useMacro
  rw [← alike.parameters]
  cases definition.parameters with
  | some parameters => exact .fail _ _
  | none => exact .inside alike.scope (follows _ _ _ _ fewer (.of_alike alike.body))

theorem callMacro_follows (location place : Location) {definition twin : Macro}
    {given others : List (List Node)} (alike : definition.Alike twin)
    (givenAlike : List.Forall₂ Node.AllAlike given others) :
    Follows (callMacro expand context location definition given)
      (callMacro expand' other place twin others) := by
  unfold callMacro
  rw [← alike.parameters]
  cases definition.parameters with
  | none => exact .fail _ _
  | some parameters =>
      have arguments : List.Forall₂ Node.AllAlike (Macro.arguments parameters given)
          (Macro.arguments parameters others) := by
        unfold Macro.arguments
        have empty : others.isEmpty = given.isEmpty := by cases givenAlike <;> rfl
        rw [empty]
        split
        · exact .cons .nil .nil
        · exact givenAlike
      intro env outer events final envAlike done
      dsimp only at done ⊢
      rw [← arguments.length_eq]
      split at done
      · next arity =>
          rw [if_pos arity]
          have scopes := bindArguments_alike location place parameters alike arguments envAlike
          have body : Follows (expand (context.forUse location) definition.body)
              (expand' (other.forUse place) twin.body) :=
            follows _ _ _ _ fewer (.of_alike alike.body)
          exact body.inside scopes env outer events final envAlike done
      · cases done

theorem passArguments_follows {separator comma : Step} (separators : Follows separator comma)
    {given others : List (List Node)} (givenAlike : List.Forall₂ Node.AllAlike given others) :
    Follows (passArguments expand context separator given)
      (passArguments expand' other comma others) := by
  cases givenAlike with
  | nil => exact .say ⟨rfl, rfl⟩
  | cons first rest =>
      refine (follows _ _ _ _ fewer (.of_alike first)).andThen (.all ?_)
      induction rest with
      | nil => exact .nil
      | cons head _ ih =>
          exact .cons (separators.andThen (follows _ _ _ _ fewer (.of_alike head))) ih

theorem callUnbound_follows (location place : Location) (name : Bytes)
    {given others : List (List Node)} (givenAlike : List.Forall₂ Node.AllAlike given others) :
    Follows (callUnbound expand context location name given)
      (callUnbound expand' other place name others) := by
  have write : ∀ text, Follows (say [.text location.start text]) (say [.text place.start text]) :=
    fun text => .say ⟨rfl, rfl⟩
  exact (write _).andThen
    ((passArguments_follows follows fewer (write _) givenAlike).andThen ((write _).andThen
      (.say ⟨rfl, rfl⟩)))

theorem includeFile_follows (placeless : files.Placeless) (location place : Location)
    (path : Bytes) :
    Follows (includeFile files expand context location path)
      (includeFile files expand' other place path) := by
  unfold includeFile
  split
  · exact .fail _ _
  · next outside =>
      rw [if_neg fun inside => outside (fewer inside)]
      split
      · exact .fail _ _
      · next text found =>
          split
          · exact .fail _ _
          · next nodes read =>
              have within : (other.forFile path).ancestry ⊆ (context.forFile path).ancestry :=
                List.cons_subset_cons path fewer
              have body := follows _ _ _ _ within (.of_alike (placeless path text nodes found read))
              exact Follows.andThen (.say ⟨rfl, rfl⟩)
                (body.andThen (.andThen (.say ⟨rfl, rfl⟩) (.say ⟨rfl, rfl⟩)))

/-- An included file is followed by its nodes in its place. -/
theorem includeFile_follows_paste {location : Location} {path text : Bytes} {nodes pasted : List Node}
    (found : files.contents? path = some text) (read : Node.ofSource path text = .ok nodes)
    (alike : Node.AllAlike nodes pasted) :
    Follows (includeFile files expand context location path) (expand' other pasted) := by
  unfold includeFile
  rw [found]
  dsimp only
  rw [read]
  split
  · exact .fail _ _
  · have within : other.ancestry ⊆ (context.forFile path).ancestry :=
      List.subset_cons_of_subset path fewer
    have body := follows _ _ _ _ within (.of_alike alike)
    have whole : Follows (all [say [.jump, .load path], expand (context.forFile path) nodes,
        say [.jump]]) (all [say [], expand' other pasted, say []]) :=
      .andThen (.say ⟨rfl, rfl⟩) (body.andThen (.andThen (.say ⟨rfl, rfl⟩) (.say ⟨rfl, rfl⟩)))
    have bare : all [say [], expand' other pasted, say []] = expand' other pasted := by
      rw [all, say_nil_andThen, all, all_singleton, andThen_say_nil]
    rw [bare] at whole
    exact whole

theorem cond_follows (location place : Location) {test check : Test}
    {yes no otherYes otherNo : List Node} (same : test.unplaced = check.unplaced)
    (yesPastes : Node.Pastes files true yes otherYes) (noPastes : Node.Pastes files true no otherNo) :
    Follows (ofNode files expand context (.cond location test yes no))
      (ofNode files expand' other (.cond place check otherYes otherNo)) := by
  intro env outer events final alike done
  simp only [ofNode] at done ⊢
  split at done
  · cases done
  · next holds evaluated =>
      rw [Test.eval_of_alike alike same evaluated]
      have branch : Follows (expand context (if holds then yes else no))
          (expand' other (if holds then otherYes else otherNo)) := by
        refine follows _ _ _ _ fewer ?_
        cases holds with
        | true => exact yesPastes
        | false => exact noPastes
      exact Follows.andThen (.say ⟨rfl, rfl⟩)
        (branch.andThen (.andThen (.say ⟨rfl, rfl⟩) (.say ⟨rfl, rfl⟩))) env outer events final alike done

/-- A node is followed by a node alike. -/
theorem ofNode_follows (placeless : files.Placeless) {node twin : Node} (alike : node.Alike twin) :
    Follows (ofNode files expand context node) (ofNode files expand' other twin) := by
  cases alike with
  | ident location place name =>
      intro env outer events final envAlike done
      simp only [ofNode] at done ⊢
      split at done
      · next free =>
          rw [envAlike.lookup_eq_none free]
          cases done
          exact ⟨_, outer, rfl, ⟨rfl, rfl⟩, envAlike⟩
      · next definition found =>
          obtain ⟨twin, foundTwin, same⟩ := envAlike.exists_lookup found
          rw [foundTwin]
          exact Follows.andThen (.say ⟨rfl, rfl⟩) (useMacro_follows follows fewer location place same)
            env outer events final envAlike done
  | call location place name arguments =>
      intro env outer events final envAlike done
      simp only [ofNode] at done ⊢
      split at done
      · next free =>
          rw [envAlike.lookup_eq_none free]
          exact callUnbound_follows follows fewer location place name arguments
            env outer events final envAlike done
      · next definition found =>
          obtain ⟨twin, foundTwin, same⟩ := envAlike.exists_lookup found
          rw [foundTwin]
          exact Follows.andThen (.say ⟨rfl, rfl⟩)
            (callMacro_follows follows fewer location place same arguments)
            env outer events final envAlike done
  | define location place name parameters bodies =>
      intro env outer events final envAlike done
      simp only [ofNode] at done ⊢
      rw [← envAlike.contains]
      split at done
      · cases done
      · next free =>
          rw [if_neg free]
          cases done
          exact ⟨_, _, rfl, ⟨rfl, rfl⟩, envAlike.bind ⟨rfl, rfl, bodies, envAlike⟩⟩
  | undef location place name =>
      intro env outer events final envAlike done
      cases done
      exact ⟨_, _, rfl, ⟨rfl, rfl⟩, envAlike.unbind name⟩
  | inclusion location place path => exact includeFile_follows follows fewer placeless _ _ path
  | cond location place same yes no =>
      exact cond_follows follows fewer location place same (.of_alike yes) (.of_alike no)
  | error location place message => exact .fail _ _
  | seq location place nodes => exact follows _ _ _ _ fewer (.of_alike nodes)
  | warning location place message => exact .say ⟨rfl, rfl⟩
  | space location place text => exact .say ⟨rfl, rfl⟩
  | text location place text => exact .say ⟨rfl, rfl⟩
  | line location place file number => exact .say ⟨rfl, rfl⟩

end

/-- An expansion with inclusions is followed by the one with files pasted. -/
theorem within_follows {files : FileSet} (placeless : files.Placeless) (depth : Nat) :
    ExpandsAlike files (within files depth) (step files) := by
  induction depth with
  | zero =>
      intro context other nodes others fewer pastes env outer events final alike done
      cases done
  | succ depth ih =>
      intro context other nodes others fewer pastes
      rw [within, step_eq]
      induction pastes with
      | nil => exact .say ⟨rfl, rfl⟩
      | same alike _ rest => exact (ofNode_follows ih fewer placeless alike).andThen rest
      | cond location place same yes no _ _ _ rest =>
          exact (cond_follows ih fewer location place same yes no).andThen rest
      | paste _ location found read alike _ rest =>
          rw [List.map_append, all_append, ← step_eq]
          exact (includeFile_follows_paste ih fewer found read alike).andThen rest

theorem run_follows {files : FileSet} (placeless : files.Placeless) {context other : Context}
    {nodes others : List Node} {env outer final : Env} {events : List Event}
    (fewer : other.ancestry ⊆ context.ancestry) (pastes : Node.Pastes files true nodes others)
    (alike : Env.Alike env outer) (ran : run files context nodes env = ⟨events, .ok final⟩) :
    ∃ said last, run files other others outer = ⟨said, .ok last⟩ ∧ Event.Agree events said ∧
      Env.Alike final last := by
  obtain ⟨depth, answered⟩ := run_eq_iff.1 ran
  obtain ⟨said, last, done, agree, alikeLast⟩ :=
    within_follows placeless depth context other nodes others fewer pastes env outer events final
      alike answered
  exact ⟨said, last, Option.some.inj done, agree, alikeLast⟩

end Expansion

end ScopedMacros
