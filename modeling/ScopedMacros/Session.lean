import ScopedMacros.Expansion.Total
import ScopedMacros.Layout
import ScopedMacros.Log

/-!
# Sessions

A session expands one source after the other.  Each starts from the environment that the ones before
it left; a source that fails leaves the environment as it was.
-/

namespace ScopedMacros

/-! ## Predefinition -/

namespace Predefine

/-- The name of the source that predefinitions are read from. -/
def source : Bytes :=
  bytes "<command line>"

/-- The line that defines a macro given as a name, or as a head and a body with an equals sign
between them.  The lines of the body are continued. -/
def directive (definition : Bytes) : Bytes :=
  let head := definition.takeWhile (· != Byte.equals)
  let body := (definition.dropWhile (· != Byte.equals)).drop 1
  bytes "#define " ++ head ++
    (if body.isEmpty then [] else Byte.space :: body.flatMap continued) ++ [Byte.newline]
where
  continued (byte : Byte) : Bytes :=
    if byte = Byte.newline then [Byte.backslash, byte] else [byte]

end Predefine

/-- The environment in which macros are defined, and then others undefined, as a command line
says.  A definition that holds a line break can include files. -/
def predefine (defined undefined : List Bytes) (files : FileSet := .empty) : Outcome :=
  let outcome :=
    Expansion.ofSource files Predefine.source (defined.flatMap Predefine.directive) .empty
  { outcome with result := outcome.result.map (undefined.foldl fun env name => env.unbind name) }

/-! ## Sessions -/

structure Session where
  markers : Bool
  files : FileSet
  env : Env
  log : Log
  /-- The paths of the files that were read, in order. -/
  loads : List Bytes

/-- What one step of a session shows: the text it adds to the output, or the error it ends with,
and what it adds to the log. -/
structure Session.Report where
  result : Except Error Bytes
  diagnostics : List Diagnostic

namespace Session

def start (markers : Bool) : Session :=
  ⟨markers, .empty, .empty, .empty, []⟩

def addFile (session : Session) (name contents : Bytes) : Session :=
  { session with files := session.files.insert name contents }

/-- How often a file has been read without error. -/
def loadCount (session : Session) (path : Bytes) : Nat :=
  session.loads.count path

def unbind (session : Session) (name : Bytes) : Session :=
  { session with env := session.env.unbind name }

/-- The paths of the files that were read. -/
def loadsOf (events : List Event) : List Bytes :=
  events.filterMap fun
    | .load path => some path
    | _ => none

/-- Takes up an outcome, whose output is shown if `shown`. -/
def take (session : Session) (outcome : Outcome) (shown : Bool) : Session × Report :=
  let warnings := Diagnostic.ofEvents outcome.events
  let loads := session.loads ++ loadsOf outcome.events
  match outcome.result with
  | .ok env =>
      let output := if shown then Layout.output session.markers outcome.events else []
      ({ session with env, loads, log := session.log.append warnings }, ⟨.ok output, warnings⟩)
  | .error error =>
      let diagnostics := warnings ++ [.ofError error]
      ({ session with loads, log := session.log.append diagnostics }, ⟨.error error, diagnostics⟩)

/-- Starts over from predefined macros.  They are read with files of their own. -/
def predefine (session : Session) (defined undefined : List Bytes) (files : FileSet := .empty) :
    Session × Report :=
  session.take (ScopedMacros.predefine defined undefined files) false

/-- Expands nodes as a source of the given name. -/
def expandNodes (session : Session) (name : Bytes) (nodes : List Node) : Session × Report :=
  session.take (Expansion.expand session.files name nodes session.env) true

/-- Expands a source. -/
def expand (session : Session) (name text : Bytes) : Session × Report :=
  session.take (Expansion.ofSource session.files name text session.env) true

/-- Expands sources, each with its name, in order up to the first one that fails, and puts their
output together. -/
def expandAll (session : Session) : List (Bytes × Bytes) → Session × Except Error Bytes
  | [] => (session, .ok [])
  | (name, text) :: rest =>
      let (session, report) := session.expand name text
      match report.result with
      | .error error => (session, .error error)
      | .ok output =>
          let (session, result) := session.expandAll rest
          (session, result.map (output ++ ·))

end Session

/-- Expands the inputs of a command line, after its definitions. -/
def preprocess (markers : Bool) (files : FileSet) (defined undefined : List Bytes)
    (inputs : List (Bytes × Bytes)) : Session × Except Error Bytes :=
  let (session, report) := { Session.start markers with files }.predefine defined undefined files
  match report.result with
  | .error error => (session, .error error)
  | .ok _ => session.expandAll inputs

end ScopedMacros
