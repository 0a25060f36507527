import ScopedMacros.Env
import ScopedMacros.Proofs.Flattening
import ScopedMacros.Proofs.Grammar
import ScopedMacros.Proofs.Unplacing

/-!
# Lines that define a macro

A definition starts with a name, touched by a list of parameters if the macro takes arguments.  This
signature is read back from the way it is written, and the body starts right after it.
-/

namespace ScopedMacros

/-- What a macro is called, and the parameters it takes. -/
structure Signature where
  name : Bytes
  parameters : Option (List Bytes)
  deriving DecidableEq, Repr

def Macro.signature (definition : Macro) : Signature :=
  ⟨definition.name, definition.parameters⟩

namespace Signature

/-- All names are identifiers. -/
structure Proper (signature : Signature) : Prop where
  name : signature.name.isName = true
  parameters : ∀ list ∈ signature.parameters, ∀ parameter ∈ list, parameter.isName = true

instance (signature : Signature) : Decidable signature.Proper :=
  decidable_of_iff (signature.name.isName = true ∧
      ∀ list ∈ signature.parameters, ∀ parameter ∈ list, parameter.isName = true)
    ⟨fun ⟨name, parameters⟩ => ⟨name, parameters⟩, fun proper => ⟨proper.name, proper.parameters⟩⟩

/-- Parameters with commas between them, and the closing parenthesis. -/
def listText : List Bytes → Bytes
  | [] => [Byte.rightParen]
  | [last] => last ++ [Byte.rightParen]
  | first :: second :: rest => first ++ Byte.comma :: listText (second :: rest)

/-- What touches the name of a macro with the given parameters. -/
def parametersText : Option (List Bytes) → Bytes
  | none => []
  | some list => Byte.leftParen :: listText list

/-- A signature as it is written. -/
def text (signature : Signature) : Bytes :=
  signature.name ++ parametersText signature.parameters

def nameToken (name : Bytes) : Token :=
  ⟨.ident, name, .nowhere⟩

/-- The tokens of a list of parameters after the opening parenthesis, at no place. -/
def listTokens : List Bytes → List Token
  | [] => [⟨.rightParen, [Byte.rightParen], .nowhere⟩]
  | [last] => [nameToken last, ⟨.rightParen, [Byte.rightParen], .nowhere⟩]
  | first :: second :: rest =>
      nameToken first :: ⟨.comma, [Byte.comma], .nowhere⟩ :: listTokens (second :: rest)

def parametersTokens : Option (List Bytes) → List Token
  | none => []
  | some list => ⟨.leftParen, [Byte.leftParen], .nowhere⟩ :: listTokens list

/-- The tokens of a signature, at no place. -/
def tokens (signature : Signature) : List Token :=
  nameToken signature.name :: parametersTokens signature.parameters

end Signature

namespace Signature

theorem kind_of_mem_listTokens {list : List Bytes} {token : Token}
    (member : token ∈ listTokens list) : token.kind ≠ .lineEnd ∧ token.kind ≠ .body := by
  fun_induction listTokens list with
  | case1 =>
      rw [List.mem_singleton.1 member]
      simp
  | case2 last =>
      rcases List.mem_cons.1 member with rfl | member
      · simp [nameToken]
      · rw [List.mem_singleton.1 member]
        simp
  | case3 first second rest ih =>
      rcases List.mem_cons.1 member with rfl | member
      · simp [nameToken]
      rcases List.mem_cons.1 member with rfl | member
      · simp
      · exact ih member

theorem kind_of_mem_tokens {signature : Signature} {head : List Token}
    (same : head.map Token.unplaced = signature.tokens) :
    ∀ token ∈ head, token.kind ≠ .lineEnd ∧ token.kind ≠ .body := by
  intro token member
  have among : token.unplaced ∈ signature.tokens := same ▸ List.mem_map_of_mem member
  change token.unplaced.kind ≠ .lineEnd ∧ token.unplaced.kind ≠ .body
  generalize token.unplaced = twin at among
  obtain ⟨name, parameters⟩ := signature
  rcases List.mem_cons.1 among with rfl | among
  · simp [nameToken]
  cases parameters with
  | none => cases among
  | some list =>
      rcases List.mem_cons.1 among with rfl | among
      · simp
      · exact kind_of_mem_listTokens among

end Signature

/-! ## Scanning a signature -/

theorem Bytes.exists_of_isName {name : Bytes} (isName : name.isName = true) :
    ∃ first more, name = first :: more ∧ Byte.isNameStart first = true ∧
      ∀ byte ∈ more, Byte.isNamePart byte = true := by
  cases name with
  | nil => cases isName
  | cons first more =>
      rw [Bytes.isName, Bool.and_eq_true, List.all_eq_true] at isName
      exact ⟨first, more, rfl, isName.1, isName.2⟩

theorem Bytes.not_mem_of_isName {byte : Byte} {name : Bytes} (other : Byte.isNamePart byte = false)
    (isName : name.isName = true) : byte ∉ name := by
  have part : ∀ byte, Byte.isNameStart byte = true → Byte.isNamePart byte = true := by
    decide +kernel
  obtain ⟨first, more, rfl, starts, parts⟩ := exists_of_isName isName
  have each : ∀ byte ∈ first :: more, Byte.isNamePart byte = true :=
    List.forall_mem_cons.2 ⟨part first starts, parts⟩
  intro member
  rw [each byte member] at other
  cases other

/-- A name ends before the text. -/
def Bytes.EndsName (text : Bytes) : Prop :=
  ∀ byte ∈ text.head?, Byte.isNamePart byte = false

theorem Bytes.takeWhile_name {more rest : Bytes} (name : ∀ byte ∈ more, Byte.isNamePart byte = true)
    (ends : rest.EndsName) : (more ++ rest).takeWhile Byte.isNamePart = more := by
  rw [List.takeWhile_append_of_pos name]
  cases rest with
  | nil => simp
  | cons byte rest => simp [ends byte rfl]

theorem Byte.solid_of_isNameStart : ∀ byte, Byte.isNameStart byte = true →
    Byte.isBlank byte = false ∧ byte ≠ Byte.backslash ∧ byte ≠ Byte.newline := by
  decide +kernel

namespace Token

open Signature

section

variable (start position : Position)

/-- A lexeme that a list of parameters goes on with. -/
theorem ofParameters_cons {first : Byte} {more rest : Bytes} {kind : Kind}
    (notBlank : Byte.isBlank first = false) (notBackslash : first ≠ Byte.backslash)
    (notNewline : first ≠ Byte.newline)
    (lexed : Lexeme.inLine first (more ++ rest) = .ok ⟨kind, more⟩) :
    ∃ token place, token.unplaced = ⟨kind, Lexeme.tokenText kind (first :: more), .nowhere⟩ ∧
      ofParameters start ⟨position, first :: more ++ rest⟩ =
        if kind = .rightParen then .ok ([token], ⟨place, rest⟩)
        else (ofParameters start ⟨place, rest⟩).map fun (tokens, stop) => (token :: tokens, stop) := by
  let cursor : Cursor := ⟨position, first :: (more ++ rest)⟩
  have skipped : cursor.skip = cursor :=
    @skip_blanks [] (by simp) first notBlank notBackslash position (more ++ rest)
  have found : cursor.skip.inLine? = some (first, more ++ rest) := by
    rw [skipped]
    exact if_neg notNewline
  have advanced : cursor.advance (first :: more) = ⟨position.advance (first :: more), rest⟩ :=
    Cursor.advance_mk_append position (first :: more) rest
  refine ⟨cursor.token first ⟨kind, more⟩, position.advance (first :: more), rfl, ?_⟩
  rw [List.cons_append, ofParameters_of_lexeme found lexed, skipped, advanced]

theorem ofParameters_name {name rest : Bytes} (isName : name.isName = true) (ends : rest.EndsName) :
    ∃ token place, token.unplaced = nameToken name ∧
      ofParameters start ⟨position, name ++ rest⟩ =
        (ofParameters start ⟨place, rest⟩).map fun (tokens, stop) => (token :: tokens, stop) := by
  obtain ⟨first, more, rfl, starts, parts⟩ := Bytes.exists_of_isName isName
  obtain ⟨notBlank, notBackslash, notNewline⟩ := Byte.solid_of_isNameStart first starts
  have lexed : Lexeme.inLine first (more ++ rest) = .ok ⟨.ident, more⟩ := by
    rw [Lexeme.inLine, if_pos starts, Bytes.takeWhile_name parts ends]
  exact ofParameters_cons start position notBlank notBackslash notNewline lexed

theorem ofParameters_comma (rest : Bytes) :
    ∃ token place, token.unplaced = ⟨.comma, [Byte.comma], .nowhere⟩ ∧
      ofParameters start ⟨position, Byte.comma :: rest⟩ =
        (ofParameters start ⟨place, rest⟩).map fun (tokens, stop) => (token :: tokens, stop) := by
  have lexed : Lexeme.inLine Byte.comma ([] ++ rest) = .ok ⟨.comma, []⟩ := by
    have noOp : Op.atHead? (Byte.comma :: ([] ++ rest)) = none := Op.atHead?_eq_none (by decide) rest
    rw [Lexeme.inLine, noOp]
    rfl
  exact ofParameters_cons start position rfl (by decide) (by decide) lexed

theorem ofParameters_rightParen (rest : Bytes) :
    ∃ token place, token.unplaced = ⟨.rightParen, [Byte.rightParen], .nowhere⟩ ∧
      ofParameters start ⟨position, Byte.rightParen :: rest⟩ = .ok ([token], ⟨place, rest⟩) := by
  have lexed : Lexeme.inLine Byte.rightParen ([] ++ rest) = .ok ⟨.rightParen, []⟩ := by
    have noOp : Op.atHead? (Byte.rightParen :: ([] ++ rest)) = none :=
      Op.atHead?_eq_none (by decide) rest
    rw [Lexeme.inLine, noOp]
    rfl
  exact ofParameters_cons start position rfl (by decide) (by decide) lexed

/-- A list of parameters is read up to its closing parenthesis. -/
theorem ofParameters_list {list : List Bytes} (names : ∀ name ∈ list, name.isName = true)
    (rest : Bytes) :
    ∃ tokens place, tokens.map unplaced = listTokens list ∧
      ofParameters start ⟨position, listText list ++ rest⟩ = .ok (tokens, ⟨place, rest⟩) := by
  have closing : Bytes.EndsName (Byte.rightParen :: rest) := fun _ found => by cases found; rfl
  have separating : ∀ after, Bytes.EndsName (Byte.comma :: after) :=
    fun _ _ found => by cases found; rfl
  fun_induction listText list generalizing position with
  | case1 =>
      obtain ⟨token, place, closes, read⟩ := ofParameters_rightParen start position rest
      exact ⟨[token], place, by simp [listTokens, closes], read⟩
  | case2 last =>
      obtain ⟨name, after, named, first⟩ :=
        ofParameters_name start position (names last (by simp)) closing
      obtain ⟨token, place, closes, read⟩ := ofParameters_rightParen start after rest
      refine ⟨[name, token], place, by simp [listTokens, named, closes], ?_⟩
      rw [List.append_assoc, List.singleton_append, first, read]
      rfl
  | case3 one second more ih =>
      obtain ⟨name, after, named, first⟩ := ofParameters_name start position
        (names one (by simp)) (separating (listText (second :: more) ++ rest))
      obtain ⟨comma, next, separates, middle⟩ :=
        ofParameters_comma start after (listText (second :: more) ++ rest)
      obtain ⟨tokens, place, same, read⟩ :=
        ih next fun other member => names other (List.mem_cons_of_mem one member)
      refine ⟨name :: comma :: tokens, place, by simp [listTokens, named, separates, same], ?_⟩
      rw [List.append_assoc, List.cons_append, first, middle, read]
      rfl

theorem afterName_parameters {parameters : Option (List Bytes)}
    (names : ∀ list ∈ parameters, ∀ name ∈ list, name.isName = true) {rest : Bytes}
    (apart : rest.head? ≠ some Byte.leftParen) :
    ∃ tokens place, tokens.map unplaced = parametersTokens parameters ∧
      afterName ⟨position, parametersText parameters ++ rest⟩ = .ok (tokens, ⟨place, rest⟩) := by
  cases parameters with
  | none => exact ⟨[], position, rfl, if_neg apart⟩
  | some list =>
      let cursor : Cursor := ⟨position, Byte.leftParen :: (listText list ++ rest)⟩
      obtain ⟨tokens, place, same, read⟩ := ofParameters_list position
        (position.advance [Byte.leftParen]) (names list rfl) rest
      refine ⟨cursor.token Byte.leftParen ⟨.leftParen, []⟩ :: tokens, place, ?_, ?_⟩
      · rw [List.map_cons, same]
        rfl
      · have opens : cursor.rest.head? = some Byte.leftParen := rfl
        change afterName cursor = _
        rw [afterName, if_pos opens]
        exact bind_eq_ok_iff.2 ⟨_, read, rfl⟩

/-- A signature is read, and the body starts right after it. -/
theorem ofDefine_signature {signature : Signature} (proper : signature.Proper) {rest : Bytes}
    (ends : rest.EndsName) (apart : rest.head? ≠ some Byte.leftParen) :
    ∃ tokens opener place, tokens.map unplaced = signature.tokens ∧ opener.kind = .body ∧
      ofDefine ⟨position, Byte.space :: (signature.text ++ rest)⟩ =
        (ofBody ⟨place, rest⟩).map fun (body, stop) => (tokens ++ opener :: body, stop) := by
  obtain ⟨name, parameters⟩ := signature
  obtain ⟨first, more, rfl, starts, parts⟩ := Bytes.exists_of_isName proper.name
  obtain ⟨notBlank, notBackslash, notNewline⟩ := Byte.solid_of_isNameStart first starts
  let after := parametersText parameters ++ rest
  let cursor : Cursor := ⟨position, Byte.space :: first :: (more ++ after)⟩
  have nameEnds : after.EndsName := by
    cases parameters with
    | none => exact ends
    | some list => exact fun _ found => by cases found; rfl
  have skipped : cursor.skip = ⟨position.advance [Byte.space], first :: (more ++ after)⟩ :=
    @skip_blanks [Byte.space] (by simp; rfl) first notBlank notBackslash position (more ++ after)
  have found : cursor.skip.inLine? = some (first, more ++ after) := by
    rw [skipped]
    exact if_neg notNewline
  obtain ⟨tokens, place, same, read⟩ := afterName_parameters
    ((position.advance [Byte.space]).advance (first :: more)) proper.parameters apart
  have advanced : cursor.skip.advance (first :: more) =
      ⟨(position.advance [Byte.space]).advance (first :: more), after⟩ := by
    rw [skipped]
    exact Cursor.advance_mk_append _ (first :: more) after
  refine ⟨cursor.skip.token first ⟨.ident, more⟩ :: tokens, Cursor.point ⟨place, rest⟩ .body, place,
    ?_, rfl, ?_⟩
  · rw [List.map_cons, same]
    rfl
  · have whole : Byte.space :: (Signature.text ⟨first :: more, parameters⟩ ++ rest) = cursor.rest := by
      simp [Signature.text, cursor, after]
    rw [whole]
    change ofDefine cursor = _
    unfold ofDefine
    rw [found]
    dsimp only
    rw [if_pos starts, Bytes.takeWhile_name parts nameEnds, advanced, ofDefinition, read]
    cases body : ofBody ⟨place, rest⟩ <;> simp [body, Bind.bind, Except.bind, Except.map]

end

/-- A line that defines a macro: its tokens up to the body, those of the body, and then those of the
lines after it. -/
theorem ofSource_definition {signature : Signature} (proper : signature.Proper) (position : Position)
    {rest : Bytes} (ends : rest.EndsName) (apart : rest.head? ≠ some Byte.leftParen) :
    ∃ word tokens opener place, word.kind = .directive ∧ word.text = Directive.define.word ∧
      tokens.map unplaced = signature.tokens ∧ opener.kind = .body ∧
      ofSource true ⟨position, bytes "#define " ++ signature.text ++ rest⟩ =
        (ofBody ⟨place, rest⟩).bind fun (body, stop) =>
          (ofSource true (stop.advance (stop.rest.take 1))).map
            (word :: (tokens ++ opener :: body) ++ [stop.point .lineEnd] ++ ·) := by
  let raw := Byte.hash :: Directive.define.word
  let after := Byte.space :: (signature.text ++ rest)
  let cursor : Cursor := ⟨position, Byte.hash :: (Directive.define.word ++ after)⟩
  have whole : bytes "#define " ++ signature.text ++ rest =
      Byte.hash :: (Directive.define.word ++ after) := by
    rw [show bytes "#define " = Byte.hash :: (Directive.define.word ++ [Byte.space]) from rfl]
    simp [after]
  obtain ⟨tokens, opener, place, same, isBody, read⟩ :=
    ofDefine_signature (position.advance raw) proper ends apart
  have advanced : (cursor.advance []).advance raw = ⟨position.advance raw, after⟩ :=
    Cursor.advance_mk_append position raw after
  refine ⟨⟨.directive, Directive.define.word, (cursor.advance []).location raw⟩, tokens, opener, place,
    rfl, rfl, same, isBody, ?_⟩
  rw [whole, ofSource_of_head (head?_word .define rfl)]
  have line : afterWord .define ((cursor.advance []).advance raw) =
      (ofBody ⟨place, rest⟩).map fun (body, stop) => (tokens ++ opener :: body, stop) := by
    rw [advanced]
    exact read
  cases body : ofBody ⟨place, rest⟩ with
  | error error =>
      rw [body] at line
      rw [ofDirective, line]
      rfl
  | ok result =>
      rw [body] at line
      rw [ofDirective_eq_ok line rfl]
      rfl

end Token

/-! ## Reading a signature -/

namespace Builder

open Signature

variable {stop : Token}

/-- The parameters that are read are those that were written, after those seen before. -/
theorem takeParameters_list {name first : Bytes} {seen names list : List Bytes} {rest : List Token}
    (taken : takeParameters stop name seen (listTokens (first :: list)) = .ok (names, rest)) :
    names = seen ++ first :: list ∧ rest = [⟨.rightParen, [Byte.rightParen], .nowhere⟩] := by
  induction list generalizing seen first with
  | nil =>
      have fresh : first ∉ seen := by
        intro again
        simp [listTokens, nameToken, takeParameters, again] at taken
      simp only [listTokens, nameToken, takeParameters, fresh] at taken
      cases taken
      exact ⟨rfl, rfl⟩
  | cons second more ih =>
      have fresh : first ∉ seen := by
        intro again
        simp [listTokens, nameToken, takeParameters, again] at taken
      have further : takeParameters stop name (seen ++ [first]) (listTokens (second :: more)) =
          .ok (names, rest) := by
        simpa [listTokens, nameToken, takeParameters, fresh] using taken
      obtain ⟨rfl, left⟩ := ih further
      exact ⟨by simp, left⟩

theorem takeParameterList_tokens {name : Bytes} {parameters found : Option (List Bytes)}
    {rest : List Token}
    (read : takeParameterList stop name (parametersTokens parameters) = .ok (found, rest)) :
    found = parameters := by
  match parameters with
  | none =>
      cases read
      rfl
  | some [] =>
      cases read
      rfl
  | some (first :: list) =>
      obtain ⟨more, starts⟩ : ∃ more, listTokens (first :: list) = nameToken first :: more := by
        cases list <;> exact ⟨_, rfl⟩
      rw [parametersTokens, starts] at read
      obtain ⟨⟨names, left⟩, taken, read⟩ := bind_eq_ok_iff.1 read
      change takeParameters stop name [] (nameToken first :: more) = _ at taken
      rw [← starts] at taken
      obtain ⟨rfl, rfl⟩ := takeParameters_list taken
      cases read
      rfl

/-- The signature that is read is the one that was written. -/
theorem takeHead_tokens {signature : Signature} {taken : Bytes × Option (List Bytes)}
    (read : takeHead stop signature.tokens = .ok taken) :
    taken = (signature.name, signature.parameters) := by
  obtain ⟨name, parameters⟩ := signature
  obtain ⟨⟨token, rest⟩, named, read⟩ := bind_eq_ok_iff.1 read
  cases named
  obtain ⟨⟨found, rest⟩, listed, read⟩ := bind_eq_ok_iff.1 read
  have given : found = parameters := takeParameterList_tokens listed
  dsimp only at read
  split at read
  · cases read
    rw [given]
    rfl
  · cases read

theorem takeHead_signature {signature : Signature} {head : List Token}
    {taken : Bytes × Option (List Bytes)} (same : head.map Token.unplaced = signature.tokens)
    (read : takeHead stop head = .ok taken) : taken = (signature.name, signature.parameters) := by
  obtain ⟨other, readOther, rfl⟩ :=
    takeHead_follows stop.same_unplaced (Token.allSame_unplaced head) taken read
  rw [same] at readOther
  exact takeHead_tokens readOther

/-- A name without parameters can always be read. -/
theorem takeHead_name {name : Bytes} {head : List Token} (isBody : stop.kind = .body)
    (same : head.map Token.unplaced = Signature.tokens ⟨name, none⟩) :
    takeHead stop head = .ok (name, none) := by
  have bare : takeHead stop.unplaced (Signature.tokens ⟨name, none⟩) = .ok (name, none) := by
    have isBody : stop.unplaced.kind = .body := isBody
    simp [takeHead, takeName, takeParameterList, Signature.tokens, parametersTokens, nameToken, isBody,
      Bind.bind, Except.bind]
  rw [← same] at bare
  obtain ⟨taken, read, rfl⟩ :=
    (takeHead_agree stop.same_unplaced (Token.allSame_unplaced head)).back _ bare
  exact read

/-- The line of a definition is taken up to its body. -/
theorem foldlM_definition {builder : Builder} {signature : Signature} {word opener : Token}
    {head rest : List Token} (block : AtBlock builder.frames) (isDirective : word.kind = .directive)
    (spelled : word.text = Directive.define.word) (isBody : opener.kind = .body)
    (same : head.map Token.unplaced = signature.tokens) :
    (word :: (head ++ opener :: rest)).foldlM step builder =
      takeHead opener head >>= fun (name, parameters) =>
        rest.foldlM step (builder.enter (.define word name parameters)) := by
  have found : Directive.ofWord? word.text = some .define := by
    rw [spelled, Directive.ofWord?_word]
  have first : builder.step word = .ok ⟨[], (.line word .define [], builder.nodes) :: builder.frames⟩ :=
    (step_directive block isDirective).trans (directive_of_purpose? found rfl _)
  rw [List.foldlM_cons, first]
  change (head ++ opener :: rest).foldlM step _ = _
  rw [List.foldlM_append, foldlM_head (kind_of_mem_tokens same)]
  change (opener :: rest).foldlM step _ = _
  rw [List.foldlM_cons]
  simp only [step, isBody, endsLine, if_true, finishLine, List.append_nil, List.reverse_reverse]
  cases takeHead opener head <;> rfl

end Builder

end ScopedMacros
