import ScopedMacros.Session

/-!
# Command line

Reads the inputs and the files that they include, and writes the expansion.  An included file is
known by its path as it is written in the directive that first asks for it.
-/

namespace ScopedMacros

namespace CommandLine

structure Options where
  inputs : List String
  output : String
  defined : List Bytes
  undefined : List Bytes
  /-- Where included files are looked for. -/
  directories : List String
  markers : Bool
  verbose : Bool

def Options.start : Options :=
  ⟨[], "-", [], [], [], true, false⟩

def ofString (text : String) : Bytes :=
  text.toUTF8.toList

/-- The value that a word gives after the letters of an option, if it does so. -/
def valueIn? (option word : String) : Option String :=
  if option.length < word.length && word.startsWith option then
    some (String.ofList (word.toList.drop option.length))
  else
    none

/-- The value of an option at the head of the words, and the words after it. -/
def value? (option : String) : List String → Option (String × List String)
  | [] => none
  | word :: rest =>
      match valueIn? option word, rest with
      | some value, _ => some (value, rest)
      | none, value :: rest => if word = option then some (value, rest) else none
      | none, [] => none

/-- Reads the words of a command line; `fuel` bounds their number. -/
def Options.read (options : Options) : Nat → List String → Except String Options
  | 0, _ => .ok options
  | _, [] => .ok options
  | fuel + 1, word :: rest =>
      let words := word :: rest
      if word = "-n" || word = "--no-line-markers" || word = "-no-line-markers" then
        { options with markers := false }.read fuel rest
      else if word = "-v" then
        { options with verbose := true }.read fuel rest
      else if let some (value, rest) := value? "-o" words then
        { options with output := value }.read fuel rest
      else if let some (value, rest) := value? "-D" words then
        { options with defined := options.defined ++ [ofString value] }.read fuel rest
      else if let some (value, rest) := value? "-U" words then
        { options with undefined := options.undefined ++ [ofString value] }.read fuel rest
      else if let some (value, rest) := value? "-I" words then
        { options with directories := options.directories ++ [value] }.read fuel rest
      else if word.startsWith "-" && word != "-" then
        .error word
      else
        { options with inputs := options.inputs ++ [word] }.read fuel rest

/-- The directory part of a path, with its last slash. -/
def directoryOf (path : Bytes) : Bytes :=
  (path.reverse.dropWhile (· != 0x2f)).reverse

/-- Where a path is looked for: beside the file that includes it, as it stands, and in the
directories of the command line. -/
def candidates (directories : List String) (path includer : Bytes) : List Bytes :=
  if path.head? = some 0x2f then
    [path]
  else
    let beside := directoryOf includer
    (if beside.isEmpty then [] else [beside ++ path]) ++ [path] ++
      directories.map fun directory => ofString directory ++ 0x2f :: path

/-- The contents of the first file of a list of paths that can be read. -/
def readFirst : List Bytes → IO (Option Bytes)
  | [] => return none
  | path :: rest => do
      match String.fromUTF8? path.toByteArray with
      | none => readFirst rest
      | some name =>
          try
            return some (← IO.FS.readBinFile name).toList
          catch _ =>
            readFirst rest

partial def readAll (stream : IO.FS.Stream) (text : ByteArray) : IO ByteArray := do
  let more ← stream.read 65536
  if more.isEmpty then return text else readAll stream (text ++ more)

/-- Expands, and reads another file whenever one is missing. -/
partial def expandWith (options : Options) (inputs : List (Bytes × Bytes)) (files : FileSet) :
    IO (Session × Except Error Bytes) := do
  let (session, result) :=
    preprocess options.markers files options.defined options.undefined inputs
  match result with
  | .error ⟨.missingFile path, location⟩ =>
      match files.contents? path with
      | some _ => return (session, result)
      | none =>
          match ← readFirst (candidates options.directories path location.start.file) with
          | none => return (session, result)
          | some contents => expandWith options inputs (files.insert path contents)
  | _ => return (session, result)

def complain (text : Bytes) : IO Unit := do
  (← IO.getStderr).write (text ++ [Byte.newline]).toByteArray

/-- Reads the inputs, each with its name.  The error is the name of one that cannot be read. -/
def readInputs : List String → IO (Except Bytes (List (Bytes × Bytes)))
  | [] => return .ok []
  | input :: rest => do
      let name := if input = "-" then bytes "<stdin>" else ofString input
      let text ←
        if input = "-" then some <$> (·.toList) <$> readAll (← IO.getStdin) ByteArray.empty
        else readFirst [name]
      match text with
      | none => return .error name
      | some text => return (← readInputs rest).map ((name, text) :: ·)

/-- Writes the output.  The answer tells whether that was possible. -/
def write (path : String) (output : Bytes) : IO Bool := do
  try
    if path = "-" then
      (← IO.getStdout).write output.toByteArray
    else
      IO.FS.writeBinFile path output.toByteArray
    return true
  catch _ =>
    return false

/-- Reports that a number of errors stopped the run. -/
def giveUp (errors : Nat) : IO UInt32 := do
  complain (bytes "Preprocessing failed with " ++ Bytes.ofNat errors ++ bytes " error(s)")
  return 1

/-- Expands inputs that have been read. -/
def process (options : Options) (inputs : List (Bytes × Bytes)) : IO UInt32 := do
  let (session, result) ← expandWith options inputs .empty
  for diagnostic in session.log.diagnostics do
    complain diagnostic.describe
  match result with
  | .error _ => giveUp session.log.errors
  | .ok output =>
      if ← write options.output output then
        if options.verbose then
          complain (Bytes.ofNat session.env.size ++ bytes " macro(s) defined, " ++
            Bytes.ofNat session.log.warnings ++ bytes " warning(s)")
        return 0
      else
        complain (bytes "error: cannot write output file '" ++ ofString options.output ++ bytes "'")
        return 1

def run (options : Options) : IO UInt32 := do
  match ← readInputs (if options.inputs.isEmpty then ["-"] else options.inputs) with
  | .ok inputs => process options inputs
  | .error name =>
      complain (errorText (bytes "Cannot open input file " ++ name.quote ++
        bytes ": No such file or directory") none)
      giveUp 1

end CommandLine

end ScopedMacros

open ScopedMacros in
def main (arguments : List String) : IO UInt32 := do
  match CommandLine.Options.start.read arguments.length arguments with
  | .error word =>
      CommandLine.complain (bytes "Unknown command line argument " ++
        (CommandLine.ofString word).quote)
      return 1
  | .ok options => CommandLine.run options
