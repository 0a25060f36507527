import ScopedMacros.Token.Scan

/-!
# Scanning byte by byte

A walker goes over a source one byte at a time.  It looks at bytes ahead of it, and past the end it
sees zero bytes, which a source may hold as well.  A step past the end is a fault, and so is a loop
that takes more turns than there are bytes left.  Here scanning is written down as such a walk, and it
is shown that no walk has a fault: it ends with the tokens of the source, or is refused for an error
of form.
-/

namespace ScopedMacros

/-- Why a reader stops before it is done. -/
inductive Fault where
  /-- It steps past the end. -/
  | overrun
  /-- It takes more turns in a loop than there can be. -/
  | endless
  | refused (error : Error)
  deriving DecidableEq, Repr

/-- A place in a source, with what is known of its line. -/
structure Walker where
  source : Bytes
  place : Nat
  file : Bytes
  line : UInt32
  lineStart : Nat
  deriving DecidableEq, Repr

namespace Walker

/-! ## Single bytes -/

def start (file source : Bytes) : Walker :=
  ⟨source, 0, file, 1, 0⟩

def here (walker : Walker) : Position :=
  ⟨walker.file, walker.line, walker.lineStart.toUInt32, walker.place.toUInt32⟩

def atEnd (walker : Walker) : Bool :=
  walker.source.length ≤ walker.place

/-- The byte at a distance ahead, or zero past the end. -/
def peek (walker : Walker) (distance : Nat) : Byte :=
  (walker.source[walker.place + distance]?).getD 0

/-- There are only blanks in the line so far. -/
def atLineStart (walker : Walker) : Bool :=
  ((walker.source.take walker.place).drop walker.lineStart).all Byte.isBlank

/-- The walker after one more byte. -/
def pass (walker : Walker) (byte : Byte) : Walker :=
  if byte = Byte.newline then
    { walker with
      place := walker.place + 1
      line := walker.line + 1
      lineStart := walker.place + 1 }
  else
    { walker with place := walker.place + 1 }

/-- Steps over the next byte, which has to be there. -/
def step (walker : Walker) : Except Fault (Byte × Walker) :=
  if _ : walker.place < walker.source.length then
    .ok (walker.source[walker.place], walker.pass walker.source[walker.place])
  else
    .error .overrun

/-- The number of turns that a loop may take: it can go over each byte that is left, and then end. -/
def turns (walker : Walker) : Nat :=
  walker.source.length - walker.place + 1

def stepsWhile (goesOn : Walker → Bool) : Nat → Walker → Except Fault Walker
  | 0, _ => .error .endless
  | turns + 1, walker =>
      if goesOn walker then do
        let (_, next) ← walker.step
        stepsWhile goesOn turns next
      else
        .ok walker

/-- Steps on as long as a test says. -/
def stepWhile (walker : Walker) (goesOn : Walker → Bool) : Except Fault Walker :=
  stepsWhile goesOn walker.turns walker

def steps : Nat → Walker → Except Fault Walker
  | 0, walker => .ok walker
  | count + 1, walker => do
      let (_, next) ← walker.step
      steps count next

/-- There is a byte at a distance ahead, and it passes the test. -/
def finds (walker : Walker) (distance : Nat) (test : Byte → Bool) : Bool :=
  walker.place + distance < walker.source.length && test (walker.peek distance)

/-- The first distance from the given one on where a byte fails the test, or the source ends, or as
many bytes have been looked at as allowed. -/
def distanceAfter (walker : Walker) (test : Byte → Bool) : Nat → Nat → Nat
  | 0, distance => distance
  | count + 1, distance =>
      if walker.finds distance test then
        distanceAfter walker test count (distance + 1)
      else
        distance

/-- The bytes from one place to another. -/
def between (walker stop : Walker) : Bytes :=
  (walker.source.drop walker.place).take (stop.place - walker.place)

def token (walker stop : Walker) (kind : Token.Kind) : Token :=
  ⟨kind, walker.between stop, ⟨walker.here, stop.here⟩⟩

def refusal (walker stop : Walker) (cause : Cause) : Fault :=
  .refused ⟨cause, ⟨walker.here, stop.here⟩⟩

/-! ## Text -/

def spaces (inBody : Bool) : Nat → Bytes → Walker → Except Fault (Bytes × Walker)
  | 0, _, _ => .error .endless
  | turns + 1, text, walker =>
      if walker.atEnd then
        .ok (text, walker)
      else if Byte.isBlank (walker.peek 0) then do
        let (byte, next) ← walker.step
        spaces inBody turns (text ++ [byte]) next
      else if inBody && walker.peek 0 == Byte.backslash && walker.peek 1 == Byte.newline then do
        let (_, next) ← walker.step
        let (_, next) ← next.step
        spaces inBody turns (text ++ [Byte.newline]) next
      else if walker.peek 0 == Byte.newline && !inBody then do
        let (byte, next) ← walker.step
        .ok (text ++ [byte], next)
      else
        .ok (text, walker)

/-- Outside a body space ends after a newline.  In a body it goes on over continued newlines. -/
def space (walker : Walker) (inBody : Bool) : Except Fault (Token × Walker) := do
  let (text, stop) ← spaces inBody walker.turns [] walker
  .ok ({ walker.token stop .space with text }, stop)

/-- The next byte and those after it that pass the test. -/
def run (walker : Walker) (test : Byte → Bool) (kind : Token.Kind) :
    Except Fault (Token × Walker) := do
  let (_, next) ← walker.step
  let stop ← next.stepWhile fun walker => !walker.atEnd && test (walker.peek 0)
  .ok (walker.token stop kind, stop)

def name (walker : Walker) : Except Fault (Token × Walker) :=
  walker.run Byte.isNamePart .ident

def number (walker : Walker) : Except Fault (Token × Walker) := do
  let stop ← walker.stepWhile fun walker => !walker.atEnd && Byte.isNumberPart (walker.peek 0)
  .ok (walker.token stop .text, stop)

/-- The next bytes, which are a token of the given class. -/
def marks (walker : Walker) (count : Nat) (kind : Token.Kind) : Except Fault (Token × Walker) := do
  let stop ← walker.steps count
  .ok (walker.token stop kind, stop)

/-- What stands after a backslash in a string, and the bytes it denotes. -/
def escape (opening walker : Walker) : Except Fault (Bytes × Walker) :=
  if walker.atEnd then
    .error (opening.refusal walker .unterminatedString)
  else do
    let (escaped, next) ← walker.step
    if escaped = Byte.newline then do
      let next ← next.stepWhile fun walker =>
        !walker.atEnd && (walker.peek 0 == Byte.space || walker.peek 0 == Byte.tab)
      .ok ([], next)
    else if Byte.isDigit escaped && Byte.isDigit (next.peek 0) && Byte.isDigit (next.peek 1) then do
      let (second, next) ← next.step
      let (third, next) ← next.step
      .ok ([Lexeme.ofCode escaped second third], next)
    else
      .ok ([Lexeme.unescape escaped], next)

def stringBytes (multiline : Bool) (opening : Walker) :
    Nat → Bytes → Walker → Except Fault (Bytes × Walker)
  | 0, _, _ => .error .endless
  | turns + 1, value, walker =>
      if walker.atEnd || walker.peek 0 == Byte.newline && !multiline then
        .error (opening.refusal walker .unterminatedString)
      else do
        let (byte, next) ← walker.step
        if byte = Byte.doubleQuote then
          .ok (value, next)
        else if byte ≠ Byte.backslash then
          stringBytes multiline opening turns (value ++ [byte]) next
        else do
          let (denoted, next) ← escape opening next
          stringBytes multiline opening turns (value ++ denoted) next

def string (walker : Walker) (multiline : Bool) : Except Fault (Token × Walker) := do
  let (_, next) ← walker.step
  let (value, stop) ← stringBytes multiline walker next.turns [] next
  .ok (walker.token stop (.string value), stop)

/-- A character literal, or else a lone apostrophe. -/
def character (walker : Walker) : Except Fault (Token × Walker) :=
  if walker.peek 1 == Byte.backslash && walker.peek 2 != 0 && walker.peek 2 != Byte.newline then
    let last := walker.distanceAfter
      (fun byte => byte != Byte.apostrophe && byte != Byte.newline) 3 3
    if walker.peek last == Byte.apostrophe then walker.marks (last + 1) .character
    else walker.marks 1 .text
  else if walker.peek 1 != 0 && walker.peek 1 != Byte.newline &&
      walker.peek 2 == Byte.apostrophe then
    walker.marks 3 .character
  else
    walker.marks 1 .text

/-- The next token of text other than space. -/
def solid (walker : Walker) (multiline : Bool) : Except Fault (Token × Walker) :=
  let byte := walker.peek 0
  if Byte.isNameStart byte then walker.name
  else if Byte.isDigit byte then walker.number
  else if byte = Byte.doubleQuote then walker.string multiline
  else if byte = Byte.apostrophe then walker.character
  else if byte = Byte.leftParen then walker.marks 1 .leftParen
  else if byte = Byte.rightParen then walker.marks 1 .rightParen
  else if byte = Byte.comma then walker.marks 1 .comma
  else walker.run Lexeme.isPlain .text

/-- The next token of text, in a body or outside. -/
def text (walker : Walker) (inBody : Bool) : Except Fault (Token × Walker) :=
  let byte := walker.peek 0
  if Byte.isBlank byte || byte == Byte.newline ||
      inBody && byte == Byte.backslash && walker.peek 1 == Byte.newline then
    walker.space inBody
  else
    walker.solid !inBody

/-! ## Directive lines -/

def blanks : Nat → Walker → Except Fault Walker
  | 0, _ => .error .endless
  | turns + 1, walker =>
      if walker.atEnd then
        .ok walker
      else if Byte.isBlank (walker.peek 0) then do
        let (_, next) ← walker.step
        blanks turns next
      else if walker.peek 0 == Byte.backslash && walker.peek 1 == Byte.newline then do
        let (_, next) ← walker.step
        let (_, next) ← next.step
        blanks turns next
      else
        .ok walker

/-- Skips blanks and continued newlines. -/
def skip (walker : Walker) : Except Fault Walker :=
  blanks walker.turns walker

/-- The line goes on. -/
def inLine (walker : Walker) : Bool :=
  !walker.atEnd && walker.peek 0 != Byte.newline

/-- Steps over the newline at the end of a line, unless the source ends there. -/
def endLine (walker : Walker) : Except Fault Walker :=
  if walker.atEnd then .ok walker else walker.steps 1

/-- An empty token. -/
def point (walker : Walker) (kind : Token.Kind) : Token :=
  ⟨kind, [], ⟨walker.here, walker.here⟩⟩

/-- The text is seen ahead. -/
def sees (walker : Walker) (text : Bytes) : Bool :=
  text.zipIdx.all fun (byte, distance) => walker.peek distance == byte

/-- The next token of a directive line. -/
def word (walker : Walker) : Except Fault (Token × Walker) :=
  let byte := walker.peek 0
  if Byte.isNameStart byte then walker.name
  else if byte = Byte.doubleQuote then walker.string false
  else if Byte.isDigit byte then do
    let (token, stop) ← walker.number
    match Numeral.read? token.text with
    | some value => .ok ({ token with kind := .integer value }, stop)
    | none => .error (walker.refusal stop (.badInteger token.text))
  else
    match Token.Op.all.find? (walker.sees ·.spelling) with
    | some op => walker.marks op.spelling.length (.op op)
    | none =>
        if byte = Byte.leftParen then walker.marks 1 .leftParen
        else if byte = Byte.rightParen then walker.marks 1 .rightParen
        else if byte = Byte.comma then walker.marks 1 .comma
        else do
          let (byte, stop) ← walker.step
          .error (walker.refusal stop (.badCharacter byte))

def words : Nat → Walker → Except Fault (List Token × Walker)
  | 0, _ => .error .endless
  | turns + 1, walker => do
      let next ← walker.skip
      if next.inLine then do
        let (token, stop) ← next.word
        let (tokens, stop) ← words turns stop
        .ok (token :: tokens, stop)
      else
        .ok ([], next)

/-- The rest of a directive line. -/
def lineRest (walker : Walker) : Except Fault (List Token × Walker) :=
  words walker.turns walker

def parameters (opening : Walker) : Nat → Walker → Except Fault (List Token × Walker)
  | 0, _ => .error .endless
  | turns + 1, walker => do
      let next ← walker.skip
      if next.inLine then do
        let (token, stop) ← next.word
        if token.kind = .rightParen then
          .ok ([token], stop)
        else do
          let (tokens, stop) ← parameters opening turns stop
          .ok (token :: tokens, stop)
      else
        .error (opening.refusal next .unterminatedParameters)

def body : Nat → Walker → Except Fault (List Token × Walker)
  | 0, _ => .error .endless
  | turns + 1, walker =>
      if walker.inLine then do
        let (token, stop) ← walker.text true
        let (tokens, stop) ← body turns stop
        .ok (token :: tokens, stop)
      else
        .ok ([], walker)

/-- The list of parameters, if a parenthesis touches the name. -/
def list (walker : Walker) : Except Fault (List Token × Walker) :=
  if walker.peek 0 == Byte.leftParen then do
    let (token, next) ← walker.marks 1 .leftParen
    let (tokens, stop) ← parameters walker next.turns next
    .ok (token :: tokens, stop)
  else
    .ok ([], walker)

/-- A definition after its name. -/
def definitionRest (walker : Walker) : Except Fault (List Token × Walker) := do
  let (list, next) ← walker.list
  let (tokens, stop) ← body next.turns next
  .ok (list ++ next.point .body :: tokens, stop)

/-- The line of a definition after its directive word. -/
def definition (walker : Walker) : Except Fault (List Token × Walker) := do
  let next ← walker.skip
  if !next.inLine then
    .ok ([], next)
  else if !Byte.isNameStart (next.peek 0) then
    next.lineRest
  else do
    let (name, next) ← next.name
    let (tokens, stop) ← next.definitionRest
    .ok (name :: tokens, stop)

/-- A line directive numbers the line after it. -/
def renumber (walker : Walker) (tokens : List Token) : Except Fault Walker :=
  match tokens with
  | ⟨.integer number, _, location⟩ :: more =>
      if number < 0 ∨ 0x7fffffff < number then
        .error (.refused ⟨.lineOutOfRange, location.start, walker.here⟩)
      else
        let file := match more with
          | ⟨.string file, _, _⟩ :: _ => file
          | _ => walker.file
        .ok { walker with file, line := number.toUInt64.toUInt32 }
  | _ => .ok walker

/-- Whether a directive starts here, after blanks. -/
def startsDirective (walker : Walker) : Bool :=
  let hash := walker.distanceAfter Byte.isBlank walker.turns 0
  if walker.finds hash (· == Byte.hash) then
    let word := walker.distanceAfter Byte.isBlank walker.turns (hash + 1)
    if walker.finds word Byte.isDigit then
      true
    else
      let stop := walker.distanceAfter Byte.isLetter walker.turns word
      (Directive.ofWord? ((walker.source.drop (walker.place + word)).take (stop - word))).isSome
  else
    false

/-- The word of a directive.  A number in its place makes a line directive. -/
def directiveWord (walker : Walker) : Except Fault (Token × Walker) := do
  let start ← walker.stepWhile fun walker => Byte.isBlank (walker.peek 0)
  let next ← start.steps 1
  let next ← next.stepWhile fun walker => Byte.isBlank (walker.peek 0)
  if Byte.isDigit (next.peek 0) then
    .ok ({ start.token next .directive with text := Directive.line.word }, next)
  else do
    let stop ← next.stepWhile fun walker => Byte.isLetter (walker.peek 0)
    .ok ({ start.token stop .directive with text := next.between stop }, stop)

/-- What stands in a line after its directive word. -/
def afterWord (walker : Walker) (word : Bytes) : Except Fault (List Token × Walker) :=
  if word = Directive.define.word then walker.definition else walker.lineRest

/-- The next line after a directive with the given word and tokens. -/
def nextLine (walker : Walker) (word : Bytes) (tokens : List Token) : Except Fault Walker := do
  let next ← walker.endLine
  if word = Directive.line.word then next.renumber tokens else .ok next

/-- A whole directive line. -/
def directive (walker : Walker) : Except Fault (List Token × Walker) := do
  let (word, next) ← walker.directiveWord
  let (tokens, stop) ← next.afterWord word.text
  let next ← stop.nextLine word.text tokens
  .ok (word :: tokens ++ [stop.point .lineEnd], next)

/-! ## Sources -/

/-- One turn of scanning: a directive line or a token of text. -/
def turn (walker : Walker) : Except Fault (List Token × Walker) :=
  if walker.atLineStart && walker.startsDirective then
    walker.directive
  else do
    let (token, next) ← walker.text false
    .ok ([token], next)

/-- The tokens from here on, where `keep` says as what the start of the line is kept for each turn. -/
def tokens (keep : Nat → Nat) : Nat → Walker → Except Fault (List Token)
  | 0, _ => .error .endless
  | turns + 1, walker =>
      if walker.atEnd then
        .ok [walker.point .fileEnd]
      else do
        let (first, next) ← { walker with lineStart := keep walker.lineStart }.turn
        let others ← tokens keep turns next
        .ok (first ++ others)

def scanKeeping (keep : Nat → Nat) (file source : Bytes) : Except Fault (List Token) :=
  let walker := start file source
  tokens keep walker.turns walker

/-- Scans a source from its first byte on. -/
def scan (file source : Bytes) : Except Fault (List Token) :=
  scanKeeping id file source

/-- Scans a source with starts of lines in 32 bits, as positions have them.  In a source of more bytes
than that can count, a line may then seem to start elsewhere. -/
def narrowScan (file source : Bytes) : Except Fault (List Token) :=
  scanKeeping (fun lineStart => lineStart.toUInt32.toNat) file source

end Walker
end ScopedMacros
