import ScopedMacros.Proofs.PlainScopes
import ScopedMacros.Proofs.Simulation
import ScopedMacros.Proofs.Substitution

/-!
# The current line and file inside of macros

Where a macro is used, the current line and file are those of the outermost use, also in the bodies
of the macros it uses and in arguments.  So the same text comes out if these values are written in
place of the markers beforehand, in all bodies, scopes and arguments.
-/

namespace ScopedMacros

/-! ## Values in place of markers -/

/-- The value of a marker as it is written, between blanks. -/
def Bytes.padded (value : Bytes) : Bytes :=
  Byte.space :: value ++ [Byte.space]

mutual

/-- The node with the line and the file of a position in place of all markers. -/
def Node.stamp (position : Position) : Node → Node
  | .call location name given => .call location name (stampArguments position given)
  | .define location name parameters body =>
      .define location name parameters (stampAll position body)
  | .cond location test yes no => .cond location test (stampAll position yes) (stampAll position no)
  | .seq location nodes => .seq location (stampAll position nodes)
  | .currentLine location => .text location (Bytes.padded (Bytes.ofNat position.line.toNat))
  | .currentFile location => .text location (Bytes.padded position.file.quote)
  | node => node

def Node.stampAll (position : Position) : List Node → List Node
  | [] => []
  | node :: rest => node.stamp position :: stampAll position rest

def Node.stampArguments (position : Position) : List (List Node) → List (List Node)
  | [] => []
  | argument :: rest => stampAll position argument :: stampArguments position rest

end

/-- The environment with the line and the file of a position in place of the markers in all bodies,
also in the scopes. -/
def Env.stamp (position : Position) : Env → Env
  | .empty => .empty
  | .cons name parameters body scope location rest =>
      .cons name parameters (Node.stampAll position body) (scope.stamp position) location
        (rest.stamp position)

def Macro.stamp (position : Position) (definition : Macro) : Macro :=
  { definition with
    body := Node.stampAll position definition.body, scope := definition.scope.stamp position }

/-- A value is given out as text. -/
def Event.asText : Event → Event
  | .value position content => .text position content.padded
  | event => event

theorem Event.written_asText (event : Event) : event.asText.written = event.written := by
  cases event <;> rfl

section

variable {position : Position}

theorem Node.stampAll_eq_map (nodes : List Node) :
    stampAll position nodes = nodes.map (stamp position) := by
  induction nodes with
  | nil => rfl
  | cons node rest ih => rw [stampAll, ih, List.map_cons]

theorem Node.stampArguments_eq_map (given : List (List Node)) :
    stampArguments position given = given.map (stampAll position) := by
  induction given with
  | nil => rfl
  | cons argument rest ih => rw [stampArguments, ih, List.map_cons]

namespace Env

theorem lookup_stamp (env : Env) (name : Bytes) :
    (env.stamp position).lookup name = (env.lookup name).map (Macro.stamp position) := by
  induction env with
  | empty => rfl
  | cons bound parameters body scope location rest _ ih =>
      unfold stamp lookup
      split
      · rfl
      · exact ih

theorem stamp_bind (env : Env) (definition : Macro) :
    (env.bind definition).stamp position =
      (env.stamp position).bind (definition.stamp position) := by
  induction env with
  | empty => rfl
  | cons name parameters body scope location rest _ ih =>
      have named : (definition.stamp position).name = definition.name := rfl
      rw [stamp, bind, bind, named]
      split
      · rfl
      split
      · rfl
      · rw [stamp, ih]

theorem stamp_bindAll (env : Env) (definitions : List Macro) :
    (env.bindAll definitions).stamp position =
      (env.stamp position).bindAll (definitions.map (Macro.stamp position)) := by
  induction definitions generalizing env with
  | nil => rfl
  | cons definition rest ih =>
      have next : (env.bindAll (definition :: rest)).stamp position =
          ((env.bind definition).bindAll rest).stamp position := rfl
      rw [next, ih, stamp_bind]
      rfl

end Env

namespace Macro

theorem arguments_stampArguments (parameters : List Bytes) (given : List (List Node)) :
    arguments parameters (Node.stampArguments position given) =
      Node.stampArguments position (arguments parameters given) := by
  have same : (Node.stampArguments position given).isEmpty = given.isEmpty := by
    cases given <;> rfl
  unfold arguments
  rw [same]
  split <;> rfl

theorem stamp_bindArguments (definition : Macro) (parameters : List Bytes)
    (given : List (List Node)) (env : Env) (location : Location) :
    (definition.bindArguments parameters given env location).stamp position =
      (definition.stamp position).bindArguments parameters (Node.stampArguments position given)
        (env.stamp position) location := by
  rw [bindArguments, Env.stamp_bindAll, bindArguments, Node.stampArguments_eq_map,
    List.zip_map_right, List.map_map, List.map_map]
  rfl

end Macro

end

/-! ## Expansion -/

/-- The second environment is the first one, which sources make, with values in place of the
markers. -/
def Env.Stamped (position : Position) (env other : Env) : Prop :=
  env.Plain ∧ other = env.stamp position

namespace Expansion

open Step

/-- The expansion of nodes is seen as text in the expansion of the nodes with values in place of the
markers. -/
def StampedTo (position : Position) (first second : Step) : Prop :=
  Matches Event.asText Eq (Env.Stamped position) first second

section

variable {files : FileSet} {expand : Context → List Node → Step} {context : Context}
  {position : Position}

variable (deeper : ∀ context nodes, context.usedAt.map Location.start = some position →
    (∀ node ∈ nodes, node.Plain) →
    StampedTo position (expand context nodes) (expand context (Node.stampAll position nodes)))

include deeper

theorem stampedTo_useMacro {location : Location}
    (place : ((context.forUse location).usedAt.map Location.start) = some position)
    {definition : Macro} (plain : definition.Plain) :
    StampedTo position (useMacro expand context location definition)
      (useMacro expand context location (definition.stamp position)) := by
  unfold useMacro
  rw [show (definition.stamp position).parameters = definition.parameters from rfl]
  cases definition.parameters with
  | some parameters => exact .fail rfl
  | none => exact .inside ⟨plain.scope, rfl⟩ (deeper _ _ place plain.body)

theorem stampedTo_callMacro {location : Location}
    (place : ((context.forUse location).usedAt.map Location.start) = some position)
    {definition : Macro} {given : List (List Node)} (plain : definition.Plain)
    (givenPlain : ∀ argument ∈ given, ∀ node ∈ argument, node.Plain) :
    StampedTo position (callMacro expand context location definition given)
      (callMacro expand context location (definition.stamp position)
        (Node.stampArguments position given)) := by
  unfold callMacro
  rw [show (definition.stamp position).parameters = definition.parameters from rfl]
  cases definition.parameters with
  | none => exact .fail rfl
  | some parameters =>
      rintro env _ ⟨envPlain, rfl⟩
      dsimp only
      rw [Macro.arguments_stampArguments, Node.stampArguments_eq_map, List.length_map,
        ← Node.stampArguments_eq_map, ← Macro.stamp_bindArguments]
      split
      · exact Matches.inside ⟨plain.bindArguments envPlain givenPlain parameters location, rfl⟩
          (deeper _ _ place plain.body) env _ ⟨envPlain, rfl⟩
      · exact Matches.fail rfl env _ ⟨envPlain, rfl⟩

theorem stampedTo_ofNode (place : context.usedAt.map Location.start = some position) {node : Node}
    (plain : node.Plain) :
    StampedTo position (ofNode files expand context node)
      (ofNode files expand context (node.stamp position)) := by
  have inUse : ∀ location, (context.forUse location).usedAt.map Location.start = some position := by
    intro location
    obtain ⟨ancestry, usedAt⟩ := context
    cases usedAt with
    | none => cases place
    | some first => exact place
  have current : ∀ location, context.current location = position := by
    intro location
    obtain ⟨ancestry, usedAt⟩ := context
    cases usedAt with
    | none => cases place
    | some first => exact Option.some.inj place
  rintro env _ ⟨envPlain, rfl⟩
  cases plain with
  | ident location name =>
      simp only [Node.stamp, ofNode, Env.lookup_stamp]
      cases found : env.lookup name with
      | none => exact Matches.say rfl env _ ⟨envPlain, rfl⟩
      | some definition =>
          exact (Matches.say rfl).andThen
            (stampedTo_useMacro deeper (inUse location) (envPlain.lookup found)) env _
            ⟨envPlain, rfl⟩
  | call location name given givenPlain =>
      simp only [Node.stamp, ofNode, Env.lookup_stamp]
      cases found : env.lookup name with
      | none =>
          refine matches_callUnbound (fun _ _ => rfl) ?_ location name env _ ⟨envPlain, rfl⟩
          rw [Node.stampArguments_eq_map, List.forall₂_map_right_iff, List.forall₂_same]
          exact fun argument among => deeper _ _ place (givenPlain argument among)
      | some definition =>
          exact (Matches.say rfl).andThen
            (stampedTo_callMacro deeper (inUse location) (envPlain.lookup found) givenPlain) env _
            ⟨envPlain, rfl⟩
  | space | text => exact Matches.say rfl env _ ⟨envPlain, rfl⟩
  | currentLine location | currentFile location =>
      refine Matches.say ?_ env _ ⟨envPlain, rfl⟩
      rw [current]
      rfl

end

/-- Inside of a use the markers stand for the place of the use, to every depth. -/
theorem stampedTo_within {files : FileSet} {position : Position} (depth : Nat) (context : Context)
    (nodes : List Node) (place : context.usedAt.map Location.start = some position)
    (plain : ∀ node ∈ nodes, node.Plain) :
    StampedTo position (within files depth context nodes)
      (within files depth context (Node.stampAll position nodes)) := by
  induction depth generalizing context nodes with
  | zero => exact fun _ _ _ => .none
  | succ depth ih =>
      refine .all ?_
      rw [Node.stampAll_eq_map, List.map_map, List.forall₂_map_left_iff, List.forall₂_map_right_iff,
        List.forall₂_same]
      exact fun node among => stampedTo_ofNode ih place (plain node among)

theorem stampedTo_step {files : FileSet} {position : Position} (context : Context)
    (nodes : List Node) (place : context.usedAt.map Location.start = some position)
    (plain : ∀ node ∈ nodes, node.Plain) :
    StampedTo position (step files context nodes)
      (step files context (Node.stampAll position nodes)) := by
  intro env other start
  exact .some (matches_run (fun depth => stampedTo_within depth context nodes place plain) start)

/-- A use of a macro where none is being used settles the place for all that it comes to. -/
theorem matches_use (files : FileSet) {context : Context} {env : Env} {node : Node} {name : Bytes}
    (unused : context.usedAt = none) (envPlain : env.Plain) (plain : node.Plain)
    (uses : ∃ location, node = .ident location name ∨ ∃ given, node = .call location name given)
    (bound : (env.lookup name).isSome = true) :
    Outcome.Matches Event.asText Eq (Env.Stamped node.location.start)
      (run files context [node] env)
      (run files context [node.stamp node.location.start] (env.stamp node.location.start)) := by
  obtain ⟨definition, found⟩ := Option.isSome_iff_exists.1 bound
  have definitionPlain := envPlain.lookup found
  have place : ∀ location, (context.forUse location).usedAt.map Location.start =
      some location.start := by
    intro location
    rw [Context.forUse, unused]
    rfl
  have outcomes : Option.Rel (Outcome.Matches Event.asText Eq (Env.Stamped node.location.start))
      (ofNode files (step files) context node env)
      (ofNode files (step files) context (node.stamp node.location.start)
        (env.stamp node.location.start)) := by
    obtain ⟨location, rfl | ⟨given, rfl⟩⟩ := uses
    · simp only [Node.stamp, ofNode, Env.lookup_stamp, found, Option.map_some]
      exact (Matches.say rfl).andThen
        (stampedTo_useMacro stampedTo_step (place location) definitionPlain) env _ ⟨envPlain, rfl⟩
    · cases plain with
      | call _ _ _ givenPlain =>
          simp only [Node.stamp, ofNode, Env.lookup_stamp, found, Option.map_some]
          exact (Matches.say rfl).andThen
            (stampedTo_callMacro stampedTo_step (place location) definitionPlain givenPlain) env _
            ⟨envPlain, rfl⟩
  rw [ofNode_eq_some, ofNode_eq_some] at outcomes
  cases outcomes with
  | some same => exact same

/-- The markers for the current line and file report the outermost use of a macro.  Let a bound name
be used, with or without arguments, in an environment that sources make and where no macro is being
used.  Without markers for lines it gives out the same text, also up to an error, as the same use
after the line and the file where it starts are written, between blanks and as text, in place of all
the markers for them in its arguments and in all bodies and scopes; then no value of a marker is
left to be given out.  The two end with the same error, or with environments that differ in the same
way. -/
theorem markers_report_outermost_use (files : FileSet) (context : Context) (env : Env) (node : Node)
    (name : Bytes) (unused : context.usedAt = none) (envPlain : env.Plain) (plain : node.Plain)
    (uses : ∃ location, node = .ident location name ∨ ∃ given, node = .call location name given)
    (bound : (env.lookup name).isSome = true) :
    let position := node.location.start
    let outcome := run files context [node] env
    let stamped := run files context [node.stamp position] (env.stamp position)
    (∀ layout other : Layout, stamped.appended layout = outcome.appended other) ∧
      stamped.result = outcome.result.map (Env.stamp position) ∧
      ∀ place content, Event.value place content ∉ stamped.events := by
  intro position outcome stamped
  have same : Outcome.Matches Event.asText Eq (Env.Stamped position) outcome stamped :=
    matches_use files unused envPlain plain uses bound
  generalize outcome = first at same
  generalize stamped = second at same
  refine ⟨fun layout other => ?_, ?_, fun place content member => ?_⟩
  · rw [Outcome.appended_eq, Outcome.appended_eq, same.events_eq, List.flatMap_map]
    simp only [Event.written_asText]
  · cases same with
    | ok events final =>
        rw [final.2]
        rfl
    | error events failed =>
        rw [failed]
        rfl
  · rw [same.events_eq] at member
    obtain ⟨event, _, viewed⟩ := List.mem_map.1 member
    cases event <;> cases viewed

/-- The stretch of nothing at a line of a file. -/
def lineOf (file : String) (line : UInt32) : Location :=
  ⟨⟨bytes file, line, 0, 0⟩, ⟨bytes file, line, 0, 0⟩⟩

/-- In the first two lines of a file, `G` is defined as the current file, and `F(x)` as `x`, the
current line, and `G`. -/
def markedEnv : Env :=
  let inner := Env.empty.bind ⟨bytes "G", none, [.currentFile (lineOf "h" 1)], .empty, lineOf "h" 1⟩
  inner.bind ⟨bytes "F", some [bytes "x"],
    [.ident (lineOf "h" 2) (bytes "x"), .currentLine (lineOf "h" 2),
      .ident (lineOf "h" 2) (bytes "G")],
    inner, lineOf "h" 2⟩

/-- In another file, over two lines, `F` is used of the current line. -/
def markedUse : Node :=
  .call (lineOf "t" 7) (bytes "F") [[.currentLine (lineOf "t" 8)]]

theorem markers_report_markedUse :
    (run .empty ⟨[bytes "t"], none⟩ [markedUse] markedEnv).appended .start =
        bytes " 7  7  \"t\" " ∧
      (run .empty ⟨[bytes "t"], none⟩ [markedUse.stamp (lineOf "t" 7).start]
          (markedEnv.stamp (lineOf "t" 7).start)).appended .start = bytes " 7  7  \"t\" " := by
  have plain : markedUse.Plain := by
    refine .call _ _ _ ?_
    simp only [List.forall_mem_singleton]
    exact .currentLine _
  have envPlain : markedEnv.Plain := by
    have inner : Env.Plain (Env.empty.bind
        ⟨bytes "G", none, [.currentFile (lineOf "h" 1)], .empty, lineOf "h" 1⟩) :=
      .bind .empty ⟨by simp [Node.Plain.currentFile], .empty⟩
    refine inner.bind ⟨?_, inner⟩
    simp [Node.Plain.ident, Node.Plain.currentLine]
  obtain ⟨same, -, -⟩ := markers_report_outermost_use .empty ⟨[bytes "t"], none⟩ markedEnv markedUse
    (bytes "F") rfl envPlain plain ⟨_, .inr ⟨_, rfl⟩⟩ rfl
  have direct : (run .empty ⟨[bytes "t"], none⟩ [markedUse] markedEnv).appended .start =
      bytes " 7  7  \"t\" " := by
    obtain ⟨outcome, ran, appended⟩ : ∃ outcome,
        within .empty 3 ⟨[bytes "t"], none⟩ [markedUse] markedEnv = some outcome ∧
          outcome.appended .start = bytes " 7  7  \"t\" " := ⟨_, rfl, by decide +kernel⟩
    rw [run_eq_of_within ran, appended]
  exact ⟨direct, (same .start .start).trans direct⟩

end Expansion

end ScopedMacros
