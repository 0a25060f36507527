import ScopedMacros.Proofs.Leads
import ScopedMacros.Proofs.Reach

/-!
# Environments that sources make

A source defines only macros whose bodies hold text and uses of macros, and its arguments hold
nothing else either.  So this is true of all macros of an environment, of those of their scopes, and
so on, and every expansion of sources keeps it so.
-/

namespace ScopedMacros

/-- All bodies hold only text and uses of macros, also in the scopes. -/
inductive Env.Plain : Env → Prop where
  | empty : Plain .empty
  | cons (name : Bytes) (parameters : Option (List Bytes)) (location : Location) {body : List Node}
      {scope rest : Env} (bodyPlain : ∀ node ∈ body, node.Plain) (scopePlain : Plain scope)
      (restPlain : Plain rest) : Plain (.cons name parameters body scope location rest)

/-- The body holds only text and uses of macros, and so do all bodies in the scope. -/
structure Macro.Plain (definition : Macro) : Prop where
  body : ∀ node ∈ definition.body, node.Plain
  scope : definition.scope.Plain

namespace Env.Plain

variable {env : Env} {definition : Macro}

theorem mem (plain : env.Plain) (member : definition ∈ env.macros) : definition.Plain := by
  induction plain with
  | empty => cases member
  | cons name parameters location bodyPlain scopePlain _ _ ih =>
      rcases List.mem_cons.1 member with rfl | member
      · exact ⟨bodyPlain, scopePlain⟩
      · exact ih member

theorem of_macros (each : ∀ definition ∈ env.macros, definition.Plain) : env.Plain := by
  induction env with
  | empty => exact .empty
  | cons name parameters body scope location rest _ ih =>
      obtain ⟨first, others⟩ := List.forall_mem_cons.1 each
      exact .cons name parameters location first.body first.scope (ih others)

theorem lookup {name : Bytes} (plain : env.Plain) (found : env.lookup name = some definition) :
    definition.Plain :=
  plain.mem (mem_macros_of_lookup found)

theorem bind (plain : env.Plain) (new : definition.Plain) : (env.bind definition).Plain := by
  refine of_macros fun other member => ?_
  rcases mem_macros_bind member with rfl | member
  · exact new
  · exact plain.mem member

theorem unbind (plain : env.Plain) (name : Bytes) : (env.unbind name).Plain :=
  of_macros fun _ member => plain.mem (mem_macros_unbind member)

theorem bindAll {definitions : List Macro} (plain : env.Plain)
    (new : ∀ definition ∈ definitions, definition.Plain) : (env.bindAll definitions).Plain := by
  refine of_macros fun other member => ?_
  rcases mem_macros_bindAll member with member | member
  · exact new other member
  · exact plain.mem member

end Env.Plain

/-- The environment of the body of a macro in a call. -/
theorem Macro.Plain.bindArguments {definition : Macro} {env : Env} {given : List (List Node)}
    (plain : definition.Plain) (envPlain : env.Plain)
    (givenPlain : ∀ argument ∈ given, ∀ node ∈ argument, node.Plain) (parameters : List Bytes)
    (location : Location) :
    (definition.bindArguments parameters (arguments parameters given) env location).Plain := by
  refine plain.scope.bindAll fun argument member => ?_
  obtain ⟨⟨name, body⟩, pair, rfl⟩ := List.mem_map.1 member
  refine ⟨?_, envPlain⟩
  have among := (List.of_mem_zip pair).2
  unfold arguments at among
  split at among
  · rw [List.mem_singleton.1 among]
    simp
  · exact givenPlain body among

/-! ## Expansion -/

/-- The second environment is one that sources make, if the first one is. -/
def Env.KeepsPlain (env later : Env) : Prop :=
  env.Plain → later.Plain

namespace Env.KeepsPlain

instance : Std.Refl KeepsPlain where
  refl _ plain := plain

instance : Trans KeepsPlain KeepsPlain KeepsPlain where
  trans first second plain := second (first plain)

end Env.KeepsPlain

namespace Expansion

open Step Env

section

variable {files : FileSet} {expand : Context → List Node → Step} {context : Context}
  (deeper : ∀ context nodes, (∀ node ∈ nodes, node.FromSource) →
    Leads KeepsPlain (expand context nodes))

include deeper

theorem keepsPlain_argument {given : List (List Node)}
    (givenPlain : ∀ argument ∈ given, ∀ node ∈ argument, node.Plain) :
    ∀ argument ∈ given, Leads KeepsPlain (expand context argument) := by
  intro argument among
  exact deeper _ _ fun node member => .plain (givenPlain argument among node member)

theorem keepsPlain_plain {node : Node} (plain : node.Plain) :
    Leads KeepsPlain (ofNode files expand context node) := by
  intro env said later done
  cases plain with
  | ident location name =>
      simp only [ofNode] at done
      split at done
      · exact Leads.say _ env said later done
      · exact (Leads.say _).andThen (leads_useMacro _ _) env said later done
  | call location name given givenPlain =>
      simp only [ofNode] at done
      split at done
      · exact leads_callUnbound (keepsPlain_argument deeper givenPlain) _ _ env said later done
      · exact (Leads.say _).andThen (leads_callMacro _ _ _) env said later done
  | space | text | currentLine | currentFile => exact Leads.say _ env said later done

theorem keepsPlain_ofNode {node : Node} (form : node.FromSource) :
    Leads KeepsPlain (ofNode files expand context node) := by
  intro env said later done
  cases form with
  | plain plain => exact keepsPlain_plain deeper plain env said later done
  | define location name parameters body bodyPlain =>
      simp only [ofNode] at done
      split at done
      · cases done
      · cases done
        exact fun envPlain => envPlain.bind ⟨bodyPlain, envPlain⟩
  | undef location name =>
      cases done
      exact fun envPlain => envPlain.unbind name
  | inclusion location path =>
      refine leads_includeFile (fun text nodes _ read => deeper _ _ ?_) location env said later done
      exact Node.fromSource_of_ofSource read
  | cond location test yes no yesForm noForm =>
      simp only [ofNode] at done
      split at done
      · cases done
      · next holds _ =>
          have form : ∀ node ∈ (if holds then yes else no), node.FromSource := by
            cases holds with
            | true => exact yesForm
            | false => exact noForm
          exact Leads.between (deeper _ _ form) _ _ env said later done
  | error location message => cases done
  | warning | line => exact Leads.say _ env said later done

end

variable {files : FileSet}

/-- The nodes of a source keep the environment one that sources make. -/
theorem keepsPlain_step (context : Context) (nodes : List Node)
    (form : ∀ node ∈ nodes, node.FromSource) : Leads KeepsPlain (step files context nodes) := by
  refine leads_step (fun nodes => ∀ node ∈ nodes, node.FromSource)
    (fun nodes form node member => ?_) (fun expand deeper context node form => ?_) context nodes
    form
  · simpa using form node member
  · exact keepsPlain_ofNode deeper (form node (by simp))

theorem plain_of_run {context : Context} {nodes : List Node} {env final : Env} {said : List Event}
    (form : ∀ node ∈ nodes, node.FromSource) (plain : env.Plain)
    (ran : run files context nodes env = ⟨said, .ok final⟩) : final.Plain :=
  keepsPlain_step context nodes form env said final (congrArg some ran) plain

/-- What a node of a source enters has the form of a source again, in an environment that sources
make. -/
theorem plain_of_enters {context inner : Context} {node : Node} {env middle : Env}
    {said : List Event} {entered : List Node} (form : node.FromSource) (plain : env.Plain)
    (enters : Enters files context node env said inner entered middle) :
    (∀ other ∈ entered, other.FromSource) ∧ middle.Plain := by
  cases enters with
  | use bound _ =>
      have definition := plain.lookup bound
      exact ⟨fun other member => .plain (definition.body other member), definition.scope⟩
  | call bound _ _ =>
      have definition := plain.lookup bound
      cases form with
      | plain callPlain =>
          cases callPlain with
          | call _ _ _ givenPlain =>
              exact ⟨fun other member => .plain (definition.body other member),
                definition.bindArguments plain givenPlain _ _⟩
  | argument _ passed =>
      cases form with
      | plain callPlain =>
          cases callPlain with
          | call _ _ _ givenPlain =>
              refine ⟨fun other member => .plain (givenPlain _ (by simp) other member), ?_⟩
              refine (leads_passArguments (keepsPlain_argument keepsPlain_step ?_) _).andThen
                (.say _) _ _ _ passed plain
              exact fun argument among => givenPlain argument (List.mem_append_left _ among)
  | @branch _ _ _ _ _ holds _ =>
      cases form with
      | plain condPlain => cases condPlain
      | cond _ _ _ _ yesForm noForm =>
          cases holds with
          | true => exact ⟨yesForm, plain⟩
          | false => exact ⟨noForm, plain⟩
  | file _ _ read => exact ⟨Node.fromSource_of_ofSource read, plain⟩
  | sequence =>
      cases form with
      | plain seqPlain => cases seqPlain

end Expansion

end ScopedMacros
