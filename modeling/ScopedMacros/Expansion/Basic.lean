import ScopedMacros.Event
import ScopedMacros.Expr.Value
import ScopedMacros.FileSet
import ScopedMacros.Node.Builder

/-!
# Expansion to a bounded depth

Expansion walks over nodes with an environment and gives out events.  The body of a macro is
expanded in the scope of the macro, an argument in the environment of the call, and an included file
in the running environment.  Each of these is one level down; the answer is `none` if more levels
are needed than allowed.
-/

namespace ScopedMacros

/-- What an expansion did, and the environment or the error it ended with. -/
structure Outcome where
  events : List Event
  result : Except Error Env

namespace Outcome

/-- Puts events in front of those of an outcome. -/
def after (events : List Event) (outcome : Outcome) : Outcome :=
  { outcome with events := events ++ outcome.events }

/-- The outcome with another environment, unless it is an error. -/
def restore (env : Env) (outcome : Outcome) : Outcome :=
  { outcome with result := outcome.result.map fun _ => env }

end Outcome

/-- A part of an expansion: from an environment to an outcome, or to `none` if the allowed depth
does not suffice. -/
abbrev Step := Env → Option Outcome

namespace Step

/-- Gives out events. -/
def say (events : List Event) : Step :=
  fun env => some ⟨events, .ok env⟩

def fail (error : Error) : Step :=
  fun _ => some ⟨[], .error error⟩

/-- Does one part after the other, unless the first one fails. -/
def andThen (first second : Step) : Step := fun env =>
  match first env with
  | none => none
  | some ⟨events, .error error⟩ => some ⟨events, .error error⟩
  | some ⟨events, .ok env⟩ => (second env).map (Outcome.after events)

/-- Does all parts in order. -/
def all : List Step → Step
  | [] => say []
  | first :: rest => andThen first (all rest)

/-- Does a part in another environment, and then goes on in this one. -/
def inside (scope : Env) (step : Step) : Step := fun env =>
  (step scope).map (Outcome.restore env)

end Step

/-- Where an expansion takes place. -/
structure Context where
  /-- The files that are being expanded. -/
  ancestry : List Bytes
  /-- The outermost use of a macro, if one is being expanded. -/
  usedAt : Option Location
  deriving DecidableEq, Repr

namespace Context

/-- The context of the body of a macro that is used at a location. -/
def forUse (context : Context) (location : Location) : Context :=
  { context with usedAt := some (context.usedAt.getD location) }

/-- The context of an included file. -/
def forFile (context : Context) (path : Bytes) : Context :=
  { context with ancestry := path :: context.ancestry }

/-- The position that a marker at a location stands for. -/
def current (context : Context) (location : Location) : Position :=
  (context.usedAt.getD location).start

end Context

namespace Macro

/-- The arguments of a call of a macro with the given number of parameters: no argument is one empty
argument where one is expected. -/
def arguments (parameters : List Bytes) (given : List (List Node)) : List (List Node) :=
  if given.isEmpty && parameters.length == 1 then [[]] else given

/-- The environment of the body of a macro in a call: its scope, with each parameter bound to an
argument that is closed over the environment of the call. -/
def bindArguments (definition : Macro) (parameters : List Bytes) (given : List (List Node))
    (env : Env) (location : Location) : Env :=
  definition.scope.bindAll <| (parameters.zip given).map fun (name, body) =>
    ⟨name, none, body, env, location⟩

end Macro

namespace Expansion

open Step

section

variable (files : FileSet) (expand : Context → List Node → Step) (context : Context)

/-- The use of a macro without arguments. -/
def useMacro (location : Location) (definition : Macro) : Step :=
  match definition.parameters with
  | some parameters => fail ⟨.notApplied definition.name parameters.length, location⟩
  | none => inside definition.scope (expand (context.forUse location) definition.body)

/-- The use of a macro with arguments. -/
def callMacro (location : Location) (definition : Macro) (given : List (List Node)) : Step :=
  match definition.parameters with
  | none => fail ⟨.takesNoArguments definition.name, location⟩
  | some parameters => fun env =>
      let given := Macro.arguments parameters given
      if given.length = parameters.length then
        inside (definition.bindArguments parameters given env location)
          (expand (context.forUse location) definition.body) env
      else
        fail ⟨.wrongArity definition.name parameters.length given.length, location⟩ env

/-- The arguments of a call of a name that is not bound, with a separator between them. -/
def passArguments (separator : Step) : List (List Node) → Step
  | [] => say []
  | first :: rest =>
      andThen (expand context first)
        (all (rest.map fun argument => andThen separator (expand context argument)))

/-- A call of a name that is not bound: the name and the commas stay, the arguments are expanded. -/
def callUnbound (location : Location) (name : Bytes) (given : List (List Node)) : Step :=
  let write (text : Bytes) : Step := say [.text location.start text]
  all [write (name ++ [Byte.leftParen]),
    passArguments expand context (write [Byte.comma]) given, write [Byte.rightParen]]

/-- The inclusion of a file. -/
def includeFile (location : Location) (path : Bytes) : Step :=
  if path ∈ context.ancestry then
    fail ⟨.cyclicInclusion path, location⟩
  else
    match files.contents? path with
    | none => fail ⟨.missingFile path, location⟩
    | some text =>
        match Node.ofSource path text with
        | .error error => fail error
        | .ok nodes =>
            all [say [.jump, .load path], expand (context.forFile path) nodes, say [.jump]]

/-- The expansion of a node, given the expansion of lists of nodes one level down. -/
def ofNode : Node → Step
  | .ident location name => fun env =>
      match env.lookup name with
      | none => say [.text location.start name] env
      | some definition =>
          andThen (say [.jump]) (useMacro expand context location definition) env
  | .call location name given => fun env =>
      match env.lookup name with
      | none => callUnbound expand context location name given env
      | some definition =>
          andThen (say [.jump]) (callMacro expand context location definition given) env
  | .define location name parameters body => fun env =>
      if env.contains name then
        fail ⟨.alreadyDefined name, location⟩ env
      else
        say [.jump] (env.bind ⟨name, parameters, body, env, location⟩)
  | .undef _ name => fun env => say [.jump] (env.unbind name)
  | .inclusion location path => includeFile files expand context location path
  | .cond _ test yes no => fun env =>
      match test.eval env with
      | .error error => fail error env
      | .ok holds =>
          all [say [.jump], expand context (if holds then yes else no), say [.jump]] env
  | .error location message => fail ⟨.user message, location⟩
  | .warning location message => say [.warning location message]
  | .space _ text => say [.space text]
  | .text location text => say [.text location.start text]
  | .seq _ nodes => expand context nodes
  | .line _ file number => say [.line number file]
  | .currentLine location =>
      say [.value location.start (Bytes.ofNat (context.current location).line.toNat)]
  | .currentFile location => say [.value location.start (context.current location).file.quote]

end

/-- The expansion of a list of nodes that goes down by less than `depth` levels. -/
def within (files : FileSet) : Nat → Context → List Node → Step
  | 0, _, _ => fun _ => none
  | depth + 1, context, nodes =>
      all (nodes.map (ofNode files (within files depth) context))

end Expansion

end ScopedMacros
