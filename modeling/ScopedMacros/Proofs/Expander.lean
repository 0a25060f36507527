import Mathlib.Data.List.Forall2
import ScopedMacros.Proofs.Layout
import ScopedMacros.Proofs.Termination
import ScopedMacros.Session

/-!
# An expander that is used again and again

An expander writes while it walks: each text goes straight into a buffer that earlier sources have
written to, and whether a marker is owed, and for which file the last one was, is kept from one text
to the next.  An error leaves all this as it is at that moment.  Here this walk is written down, and
it is shown to do one by one, on whatever it finds, the events that an expansion gives out as a
list.  So a source is expanded by an expander with any past as by a new one.
-/

namespace ScopedMacros

/-- What an expander has written and recorded, and what its next text has to start with. -/
structure Expander where
  output : Bytes
  layout : Layout
  diagnostics : List Diagnostic
  loads : List Bytes
  deriving DecidableEq, Repr

namespace Expander

def fresh : Expander :=
  ⟨[], .start, [], []⟩

/-- Does what an event says. -/
def perform (markers : Bool) (expander : Expander) (event : Event) : Expander where
  output := expander.output ++ (expander.layout.piecesOf event).flatMap (Piece.render markers)
  layout := expander.layout.next event
  diagnostics := expander.diagnostics ++ Diagnostic.ofEvents [event]
  loads := expander.loads ++ Session.loadsOf [event]

/-- A part of a walk: it changes the expander and ends with an environment or an error, or it has no
answer if the allowed depth does not suffice. -/
abbrev Act := Env → Expander → Option (Expander × Except Error Env)

namespace Act

def say (markers : Bool) (events : List Event) : Act :=
  fun env expander => some (events.foldl (Expander.perform markers) expander, .ok env)

def fail (error : Error) : Act :=
  fun _ expander => some (expander, .error error)

/-- Does one part, and then the other on the expander that the first one leaves, unless it fails. -/
def andThen (first second : Act) : Act := fun env expander =>
  match first env expander with
  | none => none
  | some (left, .error error) => some (left, .error error)
  | some (left, .ok env) => second env left

def all : List Act → Act
  | [] => fun env expander => some (expander, .ok env)
  | first :: rest => andThen first (all rest)

/-- Does a part in another environment, and then goes on in this one. -/
def inside (scope : Env) (act : Act) : Act := fun env expander =>
  (act scope expander).map fun (left, result) => (left, result.map fun _ => env)

end Act

/-! ## The walk -/

section

open Act

variable (markers : Bool) (files : FileSet) (expand : Context → List Node → Act) (context : Context)

def useMacro (location : Location) (definition : Macro) : Act :=
  match definition.parameters with
  | some parameters => fail ⟨.notApplied definition.name parameters.length, location⟩
  | none => inside definition.scope (expand (context.forUse location) definition.body)

def callMacro (location : Location) (definition : Macro) (given : List (List Node)) : Act :=
  match definition.parameters with
  | none => fail ⟨.takesNoArguments definition.name, location⟩
  | some parameters => fun env =>
      let given := Macro.arguments parameters given
      if given.length = parameters.length then
        inside (definition.bindArguments parameters given env location)
          (expand (context.forUse location) definition.body) env
      else
        fail ⟨.wrongArity definition.name parameters.length given.length, location⟩ env

def passArguments (separator : Act) : List (List Node) → Act
  | [] => all []
  | first :: rest =>
      andThen (expand context first)
        (all (rest.map fun argument => andThen separator (expand context argument)))

def callUnbound (location : Location) (name : Bytes) (given : List (List Node)) : Act :=
  let write (text : Bytes) : Act := say markers [.text location.start text]
  all [write (name ++ [Byte.leftParen]),
    passArguments expand context (write [Byte.comma]) given, write [Byte.rightParen]]

def includeFile (location : Location) (path : Bytes) : Act :=
  if path ∈ context.ancestry then
    fail ⟨.cyclicInclusion path, location⟩
  else
    match files.contents? path with
    | none => fail ⟨.missingFile path, location⟩
    | some text =>
        match Node.ofSource path text with
        | .error error => fail error
        | .ok nodes =>
            all [say markers [.jump, .load path], expand (context.forFile path) nodes,
              say markers [.jump]]

def ofNode : Node → Act
  | .ident location name => fun env =>
      match env.lookup name with
      | none => say markers [.text location.start name] env
      | some definition =>
          andThen (say markers [.jump]) (useMacro expand context location definition) env
  | .call location name given => fun env =>
      match env.lookup name with
      | none => callUnbound markers expand context location name given env
      | some definition =>
          andThen (say markers [.jump]) (callMacro expand context location definition given) env
  | .define location name parameters body => fun env =>
      if env.contains name then
        fail ⟨.alreadyDefined name, location⟩ env
      else
        say markers [.jump] (env.bind ⟨name, parameters, body, env, location⟩)
  | .undef _ name => fun env => say markers [.jump] (env.unbind name)
  | .inclusion location path => includeFile markers files expand context location path
  | .cond _ test yes no => fun env =>
      match test.eval env with
      | .error error => fail error env
      | .ok holds =>
          all [say markers [.jump], expand context (if holds then yes else no),
            say markers [.jump]] env
  | .error location message => fail ⟨.user message, location⟩
  | .warning location message => say markers [.warning location message]
  | .space _ text => say markers [.space text]
  | .text location text => say markers [.text location.start text]
  | .seq _ nodes => expand context nodes
  | .line _ file number => say markers [.line number file]
  | .currentLine location =>
      say markers
        [.value location.start (Bytes.ofNat (context.current location).line.toNat)]
  | .currentFile location =>
      say markers [.value location.start (context.current location).file.quote]

end

/-- The walk over nodes that goes down by less than `depth` levels. -/
def within (markers : Bool) (files : FileSet) : Nat → Context → List Node → Act
  | 0, _, _ => fun _ _ => none
  | depth + 1, context, nodes =>
      .all (nodes.map (ofNode markers files (within markers files depth) context))

/-! ## The walk does the events of the expansion -/

/-- The act does the events of the step on the expander, up to an error if there is one, and ends as
the step does. -/
def Act.Performs (markers : Bool) (act : Act) (step : Step) : Prop :=
  ∀ env expander, act env expander = (step env).map fun outcome =>
    (outcome.events.foldl (Expander.perform markers) expander, outcome.result)

namespace Act.Performs

variable {markers : Bool} {first second : Act} {step next : Step}

theorem say (events : List Event) :
    Performs markers (Act.say markers events) (Step.say events) :=
  fun _ _ => rfl

theorem fail (error : Error) : Performs markers (Act.fail error) (Step.fail error) :=
  fun _ _ => rfl

theorem andThen (left : Performs markers first step) (right : Performs markers second next) :
    Performs markers (first.andThen second) (step.andThen next) := by
  intro env expander
  unfold Act.andThen Step.andThen
  rw [left env expander]
  rcases step env with _ | ⟨events, error | middle⟩
  · rfl
  · rfl
  · simp only [Option.map_some]
    rw [right middle, Option.map_map]
    congr 1
    funext outcome
    simp [Outcome.after]

theorem all {acts : List Act} {steps : List Step}
    (each : List.Forall₂ (Performs markers) acts steps) :
    Performs markers (.all acts) (.all steps) := by
  induction each with
  | nil => exact fun _ _ => rfl
  | cons head _ ih => exact head.andThen ih

theorem inside (scope : Env) (performs : Performs markers first step) :
    Performs markers (first.inside scope) (step.inside scope) := by
  intro env expander
  rw [Act.inside, Step.inside, performs scope expander, Option.map_map, Option.map_map]
  rfl

end Act.Performs

section

open Act

variable {markers : Bool} {files : FileSet} {expand : Context → List Node → Act}
  {expand' : Context → List Node → Step}
  (deeper : ∀ context nodes, Performs markers (expand context nodes) (expand' context nodes))

include deeper

theorem useMacro_performs (context : Context) (location : Location) (definition : Macro) :
    Performs markers (useMacro expand context location definition)
      (Expansion.useMacro expand' context location definition) := by
  unfold useMacro Expansion.useMacro
  cases definition.parameters with
  | some parameters => exact .fail _
  | none => exact .inside _ (deeper _ _)

theorem callMacro_performs (context : Context) (location : Location) (definition : Macro)
    (given : List (List Node)) :
    Performs markers (callMacro expand context location definition given)
      (Expansion.callMacro expand' context location definition given) := by
  unfold callMacro Expansion.callMacro
  cases definition.parameters with
  | none => exact .fail _
  | some parameters =>
      intro env expander
      dsimp only
      split
      · exact Performs.inside _ (deeper _ _) env expander
      · rfl

theorem passArguments_performs (context : Context) (events : List Event)
    (given : List (List Node)) :
    Performs markers (passArguments expand context (Act.say markers events) given)
      (Expansion.passArguments expand' context (Step.say events) given) := by
  cases given with
  | nil => exact fun _ _ => rfl
  | cons first rest =>
      refine (deeper context first).andThen (.all ?_)
      rw [List.forall₂_map_left_iff, List.forall₂_map_right_iff, List.forall₂_same]
      exact fun argument _ => (Performs.say _).andThen (deeper context argument)

theorem between_performs (context : Context) (nodes : List Node) (said later : List Event) :
    Performs markers
      (.all [Act.say markers said, expand context nodes, Act.say markers later])
      (.all [Step.say said, expand' context nodes, Step.say later]) :=
  .all (.cons (.say _) (.cons (deeper _ _) (.cons (.say _) .nil)))

theorem includeFile_performs (context : Context) (location : Location) (path : Bytes) :
    Performs markers (includeFile markers files expand context location path)
      (Expansion.includeFile files expand' context location path) := by
  unfold includeFile Expansion.includeFile
  split
  · exact .fail _
  cases files.contents? path with
  | none => exact .fail _
  | some text =>
      dsimp only
      cases Node.ofSource path text with
      | error error => exact .fail _
      | ok nodes => exact between_performs deeper _ _ _ _

/-- On a node the walk does what the expansion of the node says. -/
theorem ofNode_performs (context : Context) (node : Node) :
    Performs markers (ofNode markers files expand context node)
      (Expansion.ofNode files expand' context node) := by
  intro env expander
  cases node with
  | ident location name =>
      simp only [ofNode, Expansion.ofNode]
      cases env.lookup name with
      | none => rfl
      | some definition =>
          exact (Performs.say _).andThen (useMacro_performs deeper _ _ _) env expander
  | call location name given =>
      simp only [ofNode, Expansion.ofNode]
      cases env.lookup name with
      | none =>
          refine Performs.all (.cons (.say _) (.cons ?_ (.cons (.say _) .nil))) env expander
          exact passArguments_performs deeper _ _ _
      | some definition =>
          exact (Performs.say _).andThen (callMacro_performs deeper _ _ _ _) env expander
  | define location name parameters body =>
      simp only [ofNode, Expansion.ofNode]
      split <;> rfl
  | inclusion location path => exact includeFile_performs deeper _ _ _ env expander
  | cond location test yes no =>
      simp only [ofNode, Expansion.ofNode]
      cases test.eval env with
      | error error => rfl
      | ok holds => exact between_performs deeper _ _ _ _ env expander
  | seq location nodes => exact deeper _ _ env expander
  | _ => rfl

end

theorem within_performs (markers : Bool) (files : FileSet) (depth : Nat) (context : Context)
    (nodes : List Node) :
    Act.Performs markers (within markers files depth context nodes)
      (Expansion.within files depth context nodes) := by
  induction depth generalizing context nodes with
  | zero => exact fun _ _ => rfl
  | succ depth ih =>
      refine .all ?_
      rw [List.forall₂_map_left_iff, List.forall₂_map_right_iff, List.forall₂_same]
      exact fun node _ => ofNode_performs ih context node

theorem enough_depth (markers : Bool) (files : FileSet) (context : Context) (nodes : List Node)
    (env : Env) (expander : Expander) :
    ∃ bound, ∀ depth, bound ≤ depth →
      (within markers files depth context nodes env expander).isSome := by
  obtain ⟨bound, answered⟩ := Expansion.enough_depth files context nodes env
  refine ⟨bound, fun depth le => ?_⟩
  rw [within_performs, Option.isSome_map]
  exact answered depth le

/-! ## Sources one after the other -/

/-- Expands the nodes of a source with the given name: a marker is owed, and no file has had one. -/
def expandSource (expander : Expander) (markers : Bool) (files : FileSet) (name : Bytes)
    (nodes : List Node) (env : Env) : Expander × Except Error Env :=
  Expansion.search
    (fun depth =>
      within markers files depth ⟨[name], none⟩ nodes env { expander with layout := .start })
    (enough_depth markers files ⟨[name], none⟩ nodes env _) 1000000

/-- The walk over a source does the events of its expansion. -/
theorem expandSource_of_expand {files : FileSet} {name : Bytes} {nodes : List Node} {env : Env}
    {outcome : Outcome} (expanded : Expansion.expand files name nodes env = outcome)
    (expander : Expander) (markers : Bool) :
    expander.expandSource markers files name nodes env =
      (outcome.events.foldl (perform markers) { expander with layout := .start },
        outcome.result) := by
  obtain ⟨depth, answered⟩ := Expansion.exists_answer_eq_search _
    (enough_depth markers files ⟨[name], none⟩ nodes env { expander with layout := .start }) 1000000
  rw [within_performs] at answered
  obtain ⟨other, found, same⟩ := Option.map_eq_some_iff.1 answered
  rw [← expanded, Expansion.expand, Expansion.run_eq_of_within found]
  exact same.symm

/-- What is written and recorded from a layout on depends on the layout alone. -/
theorem foldl_perform (markers : Bool) (expander : Expander) (events : List Event) :
    events.foldl (perform markers) expander =
      ⟨expander.output ++ (expander.layout.pieces events).flatMap (Piece.render markers),
        expander.layout.after events, expander.diagnostics ++ Diagnostic.ofEvents events,
        expander.loads ++ Session.loadsOf events⟩ := by
  induction events generalizing expander with
  | nil => simp [Diagnostic.ofEvents, Session.loadsOf]
  | cons event rest ih =>
      have warnings : Diagnostic.ofEvents (event :: rest) =
          Diagnostic.ofEvents [event] ++ Diagnostic.ofEvents rest :=
        List.filterMap_append (l := [event])
      have loads : Session.loadsOf (event :: rest) =
          Session.loadsOf [event] ++ Session.loadsOf rest :=
        List.filterMap_append (l := [event])
      rw [List.foldl_cons, ih, warnings, loads]
      simp [perform]

/-- A source that is given to an expander. -/
structure Call where
  files : FileSet
  name : Bytes
  nodes : List Node
  env : Env

/-- The expander after sources, whether they succeed or fail. -/
def afterCalls (expander : Expander) (markers : Bool) (history : List Call) : Expander :=
  history.foldl (fun expander call =>
    (expander.expandSource markers call.files call.name call.nodes call.env).1) expander

/-- The expander with what another one has written and recorded put after its own. -/
def followedBy (expander other : Expander) : Expander :=
  ⟨expander.output ++ other.output, other.layout, expander.diagnostics ++ other.diagnostics,
    expander.loads ++ other.loads⟩

/-- From the layout of an empty output, events are done after whatever there is as by a new
expander. -/
theorem foldl_perform_start (markers : Bool) (expander : Expander) (events : List Event) :
    events.foldl (perform markers) { expander with layout := .start } =
      expander.followedBy (events.foldl (perform markers) fresh) := by
  rw [foldl_perform, foldl_perform]
  simp [followedBy, fresh]

/-- What a session shows and keeps of a source that a new expander has ended with: its output or its
error, its diagnostics, the files it has read, and the environment unless there is an error. -/
def takenUp (session : Session) (new : Expander) : Except Error Env → Session × Session.Report
  | .ok env =>
      ({ session with
          env, loads := session.loads ++ new.loads, log := session.log.append new.diagnostics },
        ⟨.ok new.output, new.diagnostics⟩)
  | .error error =>
      ({ session with
          loads := session.loads ++ new.loads
          log := session.log.append (new.diagnostics ++ [.ofError error]) },
        ⟨.error error, new.diagnostics ++ [.ofError error]⟩)

section

variable {markers : Bool} {files : FileSet} {name : Bytes} {nodes : List Node} {env : Env}
  {new : Expander} {result : Except Error Env}
  (expanded : fresh.expandSource markers files name nodes env = (new, result))

include expanded

/-- Every expander expands a source as a new one does, whatever it has been left with. -/
theorem expandSource_eq_followedBy (expander : Expander) :
    expander.expandSource markers files name nodes env = (expander.followedBy new, result) := by
  obtain ⟨outcome, found⟩ : ∃ outcome, Expansion.expand files name nodes env = outcome := ⟨_, rfl⟩
  rw [expandSource_of_expand found] at expanded
  cases expanded
  rw [expandSource_of_expand found, foldl_perform_start]
  rfl

theorem expandNodes_eq_takenUp (log : Log) (loads : List Bytes) :
    (Session.mk markers files env log loads).expandNodes name nodes =
      takenUp ⟨markers, files, env, log, loads⟩ new result := by
  obtain ⟨outcome, found⟩ : ∃ outcome, Expansion.expand files name nodes env = outcome := ⟨_, rfl⟩
  rw [expandSource_of_expand found, foldl_perform] at expanded
  cases expanded
  obtain ⟨events, ended⟩ := outcome
  simp only [Session.expandNodes, found]
  cases ended with
  | ok later => rfl
  | error error => rfl

end

/-- Nothing leaks from one source into the next.  After any sources, whether they succeeded or were
given up at any point, an expander adds to its output, its diagnostics and its loads exactly what a
new one has after the same source, and ends with the same environment or error.  A session with any
log and any loads shows just this as well. -/
theorem expandSource_forgets_history (expander : Expander) (markers : Bool) (history : List Call)
    (files : FileSet) (name : Bytes) (nodes : List Node) (env : Env) :
    ∃ new result, fresh.expandSource markers files name nodes env = (new, result) ∧
      (expander.afterCalls markers history).expandSource markers files name nodes env =
        ((expander.afterCalls markers history).followedBy new, result) ∧
      ∀ (log : Log) (loads : List Bytes),
        (Session.mk markers files env log loads).expandNodes name nodes =
          takenUp ⟨markers, files, env, log, loads⟩ new result := by
  rcases expanded : fresh.expandSource markers files name nodes env with ⟨new, result⟩
  exact ⟨new, result, rfl, expandSource_eq_followedBy expanded _, expandNodes_eq_takenUp expanded⟩

end Expander

end ScopedMacros
