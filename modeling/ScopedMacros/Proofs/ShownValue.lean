import ScopedMacros.Proofs.MarkerErasure
import ScopedMacros.Proofs.Scanned
import ScopedMacros.Proofs.Scoping

/-!
# The value of a name and the text that it stands for

A condition follows the names that macro bodies consist of in its own environment, and it keeps a
list of them.  The expansion of a use follows them through the scopes of the macros.  Where both find
the same macros, the text of a use is a literal for the value that a condition sees.
-/

namespace ScopedMacros

namespace Bytes

/-- Space around a text does not matter once the text is stripped. -/
theorem strip_append {before text after : Bytes}
    (beforeSpace : ∀ byte ∈ before, Byte.isSpace byte = true)
    (afterSpace : ∀ byte ∈ after, Byte.isSpace byte = true) :
    strip (before ++ text ++ after) = strip text := by
  have reversed : ∀ byte ∈ after.reverse, Byte.isSpace byte = true :=
    fun byte member => afterSpace byte (List.mem_reverse.1 member)
  unfold strip
  rw [List.append_assoc, List.dropWhile_append_of_pos beforeSpace, List.dropWhile_append]
  split
  · next empty =>
      have nothing : after.dropWhile Byte.isSpace = [] := List.dropWhile_eq_nil_iff.2 afterSpace
      rw [nothing, List.isEmpty_iff.1 empty]
  · rw [List.reverse_append, List.dropWhile_append_of_pos reversed]

end Bytes

/-! ## Text that is given out quietly -/

/-- The events give out a text and do nothing else that is seen without markers. -/
structure Event.Write (events : List Event) (text : Bytes) : Prop where
  written : events.flatMap Event.written = text
  warnings : Diagnostic.ofEvents events = []
  loads : Session.loadsOf events = []

namespace Event.Write

variable {events more : List Event} {text rest : Bytes}

theorem append (first : Write events text) (second : Write more rest) :
    Write (events ++ more) (text ++ rest) where
  written := by rw [List.flatMap_append, first.written, second.written]
  warnings := by
    have apart : Diagnostic.ofEvents (events ++ more) =
        Diagnostic.ofEvents events ++ Diagnostic.ofEvents more := List.filterMap_append
    rw [apart, first.warnings, second.warnings, List.append_nil]
  loads := by
    have apart : Session.loadsOf (events ++ more) =
        Session.loadsOf events ++ Session.loadsOf more := List.filterMap_append
    rw [apart, first.loads, second.loads, List.append_nil]

theorem jump (first : Write events text) : Write (.jump :: events) text := by
  have start : Write [.jump] [] := ⟨rfl, rfl, rfl⟩
  exact start.append first

end Event.Write

/-! ## Bodies -/

namespace Macro

variable {body : List Node}

/-- A body that is an alias is a name with space around it. -/
theorem exists_split_of_alias? {location : Location} {name : Bytes}
    (found : alias? body = some (location, name)) :
    ∃ before after, body = before ++ .ident location name :: after ∧
      (∀ node ∈ before, node.isSpace = true) ∧ ∀ node ∈ after, node.isSpace = true := by
  unfold alias? at found
  split at found
  · next place word solid =>
      cases found
      obtain ⟨before, after, rfl, first, _, rest⟩ := List.filter_eq_cons_iff.1 solid
      refine ⟨before, after, rfl, by simpa using first, ?_⟩
      simpa using List.filter_eq_nil_iff.1 rest
  · cases found

/-- Space holds text only, and that is space. -/
theorem exists_constant?_of_space {allowed : Bytes → Prop} {nodes : List Node}
    (space : ∀ node ∈ nodes, node.isSpace = true)
    (made : ∀ node ∈ nodes, node.MadeFrom (.named allowed)) :
    ∃ text, constant? nodes = some text ∧ ∀ byte ∈ text, Byte.isSpace byte = true := by
  induction nodes with
  | nil => exact ⟨[], rfl, by simp⟩
  | cons node rest ih =>
      obtain ⟨isSpace, restSpace⟩ := List.forall_mem_cons.1 space
      obtain ⟨first, restMade⟩ := List.forall_mem_cons.1 made
      obtain ⟨text, constant, all⟩ := ih restSpace restMade
      cases first with
      | @space location content holds =>
          refine ⟨content ++ text, by simp [constant?, constant], ?_⟩
          exact List.forall_mem_append.2 ⟨holds, all⟩
      | _ => cases isSpace

end Macro

namespace Expansion

open Step

variable {files : FileSet} {context : Context} {env : Env}

/-- Text is given out as it is. -/
theorem exists_run_of_constant? (files : FileSet) (context : Context) (env : Env) {nodes : List Node}
    {text : Bytes} (constant : Macro.constant? nodes = some text) :
    ∃ events, run files context nodes env = ⟨events, .ok env⟩ ∧ Event.Write events text := by
  induction nodes generalizing text with
  | nil =>
      cases constant
      exact ⟨[], run_nil _ _ _, rfl, rfl, rfl⟩
  | cons node rest ih =>
      have later : ∀ (event : Event) (content : Bytes),
          run files context [node] env = ⟨[event], .ok env⟩ → Event.Write [event] content →
          (Macro.constant? rest).map (content ++ ·) = some text →
          ∃ events, run files context (node :: rest) env = ⟨events, .ok env⟩ ∧
            Event.Write events text := by
        intro event content ran writes found
        obtain ⟨more, restConstant, rfl⟩ := Option.map_eq_some_iff.1 found
        obtain ⟨events, ranRest, writesRest⟩ := ih restConstant
        refine ⟨[event] ++ events, ?_, writes.append writesRest⟩
        rw [← List.singleton_append, run_append_of_ok ran, ranRest]
        rfl
      cases node with
      | space location content =>
          have writes : Event.Write [.space content] content :=
            ⟨by simp [Event.written, Event.piece?, Piece.render], rfl, rfl⟩
          exact later _ content (run_eq_of_ofNode rfl) writes constant
      | text location content =>
          have writes : Event.Write [.text location.start content] content :=
            ⟨by simp [Event.written, Event.piece?, Piece.render], rfl, rfl⟩
          exact later _ content (run_eq_of_ofNode rfl) writes constant
      | _ => cases constant

/-- The use of a macro without parameters gives out what its body does in its scope. -/
theorem run_use_of_body {location : Location} {name : Bytes} {definition : Macro} {events : List Event}
    {last : Env} (bound : env.lookup name = some definition) (plain : definition.parameters = none)
    (ran : run files (context.forUse location) definition.body definition.scope =
      ⟨events, .ok last⟩) :
    run files context [.ident location name] env = ⟨.jump :: events, .ok env⟩ := by
  apply run_eq_of_ofNode
  simp only [ofNode, bound, useMacro, plain, say_andThen, inside, step, ran, Option.map_some]
  rfl

end Expansion

/-! ## Chains of names -/

/-- The node stands in a source that can be read, at any depth. -/
def Node.InSource (node : Node) : Prop :=
  ∃ file text nodes outer, Node.ofSource file text = .ok nodes ∧ outer ∈ nodes ∧ node.Within outer

namespace Env

/-- What a name is bound to has a body whose nodes come from sources. -/
def BodiesInSources (env : Env) : Prop :=
  ∀ name definition, env.lookup name = some definition → ∀ node ∈ definition.body, node.InSource

/-- The macros that are found from a name on, if names that bodies consist of are looked up in the
environment. -/
inductive Chain (env : Env) : Bytes → Macro → Prop where
  | here {name : Bytes} {definition : Macro} (found : env.lookup name = some definition) :
      Chain env name definition
  | further {name target : Bytes} {place : Location} {definition last : Macro}
      (found : env.lookup name = some definition)
      (consists : Macro.alias? definition.body = some (place, target))
      (rest : Chain env target last) : Chain env name last

/-- Each macro of the chain whose body consists of a name sees in its scope what the environment
binds the name to. -/
def ResolvesAlike (env : Env) (name : Bytes) : Prop :=
  ∀ definition, env.Chain name definition → ∀ place target,
    Macro.alias? definition.body = some (place, target) →
    env.lookup target = definition.scope.lookup target

end Env

theorem Node.MadeFrom.of_within {vocabulary : Vocabulary} {part node : Node}
    (within : part.Within node) (made : node.MadeFrom vocabulary) : part.MadeFrom vocabulary := by
  induction within with
  | self => exact made
  | argument _ _ member among _ ih =>
      cases made with
      | call _ _ each => exact ih (each _ member _ among)
  | body _ _ _ among _ ih =>
      cases made with
      | define _ _ _ each => exact ih (each _ among)
  | yes _ _ _ among _ ih =>
      cases made with
      | cond _ _ yesEach _ => exact ih (yesEach _ among)
  | no _ _ _ among _ ih =>
      cases made with
      | cond _ _ _ noEach => exact ih (noEach _ among)
  | sequence _ _ _ _ => cases made

/-- Space in a source is space. -/
theorem Node.InSource.madeFrom {node : Node} (inSource : node.InSource) :
    node.MadeFrom (.named fun _ => True) := by
  obtain ⟨file, text, nodes, outer, read, member, within⟩ := inSource
  have made := Node.wellRead_ofSource (fun _ => True) file text fun _ _ _ _ _ => trivial
  rw [read] at made
  exact .of_within within (made outer member)

/-! ## Values -/

namespace Env

variable {env : Env} {name : Bytes}

theorem ResolvesAlike.further {definition : Macro} {place : Location} {target : Bytes}
    (alike : env.ResolvesAlike name) (found : env.lookup name = some definition)
    (consists : Macro.alias? definition.body = some (place, target)) : env.ResolvesAlike target :=
  fun last chain => alike last (.further found consists chain)

/-- A name that has a value is bound to a macro without parameters, whose body is a literal for the
value or another name that has the value. -/
theorem value_cases {followed : List Bytes} {location : Location} {value : Int64}
    (valued : env.value followed location name = .ok value) :
    ∃ definition, env.lookup name = some definition ∧ definition.parameters = none ∧
      ((∃ text, Macro.constant? definition.body = some text ∧
          Numeral.read? text.strip = some value) ∨
        ∃ place target, Macro.alias? definition.body = some (place, target) ∧
          name ∉ followed ∧ env.value (name :: followed) place target = .ok value) := by
  rw [Env.value] at valued
  split at valued
  · cases valued
  next definition found =>
  split at valued
  · cases valued
  next plain =>
  refine ⟨definition, found, by simpa using plain, ?_⟩
  dsimp only at valued
  split at valued
  · next inner =>
      cases valued
      split at inner
      · unfold Macro.literal at inner
        split at inner
        · cases inner
        next text constant =>
        split at inner
        · cases inner
        next read =>
        cases inner
        exact .inl ⟨text, constant, read⟩
      · next place target consists =>
          split at inner
          · cases inner
          · next fresh => exact .inr ⟨place, target, consists, fresh, inner⟩
  · cases valued

end Env

namespace Expansion

/-- In a scope the use of the name succeeds and gives out the text, whatever is being expanded. -/
def UseWrites (scope : Env) (name text : Bytes) : Prop :=
  ∀ files context place, ∃ events,
    run files context [.ident place name] scope = ⟨events, .ok scope⟩ ∧ Event.Write events text

variable {scope : Env} {name text : Bytes} {definition : Macro}

/-- A body that consists of a name gives out what a use of the name does, with space around it. -/
theorem exists_space_of_alias? {place : Location}
    (inSources : ∀ node ∈ definition.body, node.InSource)
    (consists : Macro.alias? definition.body = some (place, name)) :
    ∃ before after : Bytes, (∀ byte ∈ before, Byte.isSpace byte = true) ∧
      (∀ byte ∈ after, Byte.isSpace byte = true) ∧
      ∀ files context, UseWrites definition.scope name text →
        ∃ events, run files context definition.body definition.scope =
          ⟨events, .ok definition.scope⟩ ∧ Event.Write events (before ++ text ++ after) := by
  obtain ⟨front, back, split, frontSpace, backSpace⟩ := Macro.exists_split_of_alias? consists
  have made : ∀ node ∈ definition.body, node.MadeFrom (.named fun _ => True) :=
    fun node member => (inSources node member).madeFrom
  rw [split] at made
  obtain ⟨frontMade, rest⟩ := List.forall_mem_append.1 made
  obtain ⟨before, beforeConstant, beforeSpace⟩ :=
    Macro.exists_constant?_of_space frontSpace frontMade
  obtain ⟨after, afterConstant, afterSpace⟩ :=
    Macro.exists_constant?_of_space backSpace (List.forall_mem_cons.1 rest).2
  refine ⟨before, after, beforeSpace, afterSpace, fun files context writes => ?_⟩
  obtain ⟨first, ranFirst, writesFirst⟩ :=
    exists_run_of_constant? files context definition.scope beforeConstant
  obtain ⟨middle, ranMiddle, writesMiddle⟩ := writes files context place
  obtain ⟨last, ranLast, writesLast⟩ :=
    exists_run_of_constant? files context definition.scope afterConstant
  refine ⟨first ++ middle ++ last, ?_, (writesFirst.append writesMiddle).append writesLast⟩
  rw [split, ← List.singleton_append, run_append_of_ok ranFirst, run_append_of_ok ranMiddle, ranLast]
  simp [Outcome.after]

theorem useWrites_of_body (bound : scope.lookup name = some definition)
    (plain : definition.parameters = none)
    (body : ∀ files context, ∃ events, run files context definition.body definition.scope =
      ⟨events, .ok definition.scope⟩ ∧ Event.Write events text) : UseWrites scope name text := by
  intro files context place
  obtain ⟨events, ran, writes⟩ := body files (context.forUse place)
  exact ⟨.jump :: events, run_use_of_body bound plain ran, writes.jump⟩

/-- A name that has a value is written as a literal for the value, in every environment that binds it
to the same macro. -/
theorem exists_text_of_value {env : Env} (inSources : env.BodiesInSources) {followed : List Bytes}
    {location : Location} {value : Int64} (alike : env.ResolvesAlike name)
    (valued : env.value followed location name = .ok value) :
    ∃ text, Numeral.read? text.strip = some value ∧
      ∀ scope, scope.lookup name = env.lookup name → UseWrites scope name text := by
  -- The names that are not followed yet become fewer with each alias.
  induction left : (Bytes.unseen env.names followed).length using Nat.strongRecOn generalizing
    followed location name with
  | ind size ih =>
      obtain ⟨definition, found, plain, literal | further⟩ := Env.value_cases valued
      · obtain ⟨text, constant, read⟩ := literal
        refine ⟨text, read, fun scope same => useWrites_of_body (same.trans found) plain ?_⟩
        exact fun files context => exists_run_of_constant? files context _ constant
      · obtain ⟨place, target, consists, fresh, valued⟩ := further
        have fewer := Bytes.length_unseen_lt (Env.mem_names_of_lookup found) fresh
        obtain ⟨text, read, writes⟩ := ih _ (left ▸ fewer) (alike.further found consists) valued rfl
        obtain ⟨before, after, beforeSpace, afterSpace, body⟩ :=
          exists_space_of_alias? (inSources name definition found) consists
        refine ⟨before ++ text ++ after, ?_, fun scope same => ?_⟩
        · rw [Bytes.strip_append beforeSpace afterSpace]
          exact read
        · refine useWrites_of_body (same.trans found) plain fun files context => ?_
          exact body files context
            (writes _ (alike definition (.here found) place target consists).symm)

end Expansion

/-- Conditions and text agree on the value of a name.  Suppose that all bodies come from sources and
that each body on the way from the name which consists of another name finds it bound to the same
macro as the environment does.  If the name has a value in a condition, then without markers a use of
it succeeds, changes nothing, and is written as a text that reads as the value. -/
theorem Session.expandNodes_writes_value {env : Env} {name : Bytes} {value : Int64}
    (location : Location) (inSources : env.BodiesInSources) (alike : env.ResolvesAlike name)
    (valued : (Arith.ident location name).eval env = .ok value) :
    ∃ text, Numeral.read? text.strip = some value ∧
      ∀ files log loads source place,
        (Session.mk false files env log loads).expandNodes source [.ident place name] =
          (⟨false, files, env, log, loads⟩, ⟨.ok text, []⟩) := by
  obtain ⟨text, read, writes⟩ := Expansion.exists_text_of_value inSources alike valued
  refine ⟨text, read, fun files log loads source place => ?_⟩
  obtain ⟨events, ran, written⟩ := writes env rfl files ⟨[source], none⟩ place
  rw [Session.expandNodes, Expansion.expand, ran, Session.take]
  simp only [written.warnings, written.loads, Layout.output_false, written.written, if_true,
    List.append_nil, Log.append]

namespace Session

/-- A number, and a call with a name in its argument. -/
def numberSource : Bytes :=
  bytes "#define N -0x2A\nF( N )"

/-- A stretch of the source. -/
def inNumberSource (line lineStart start stop : UInt32) : Location :=
  ⟨⟨bytes "t", line, lineStart, start⟩, ⟨bytes "t", line, lineStart, stop⟩⟩

def number : Macro :=
  ⟨bytes "N", none, [.text (inNumberSource 1 0 10 11) (bytes "-"),
    .text (inNumberSource 1 0 11 15) (bytes "0x2A")], .empty, inNumberSource 1 0 0 15⟩

/-- The argument of the call, bound to a name where the number is defined. -/
def numberArgument : Macro :=
  ⟨bytes "M", none, [.space (inNumberSource 2 16 18 19) (bytes " "),
    .ident (inNumberSource 2 16 19 20) (bytes "N"),
    .space (inNumberSource 2 16 20 21) (bytes " ")], Env.empty.bind number, .nowhere⟩

theorem ofSource_numberSource : Node.ofSource (bytes "t") numberSource =
    .ok [.define (inNumberSource 1 0 0 15) (bytes "N") none number.body,
      .call (inNumberSource 2 16 16 22) (bytes "F") [numberArgument.body]] := by
  with_unfolding_all rfl

theorem expandNodes_writes_number :
    ∃ text, Numeral.read? text.strip = some (-42) ∧
      ∀ files log loads source place,
        (Session.mk false files (numberArgument.scope.bind numberArgument) log loads).expandNodes
            source [.ident place (bytes "M")] =
          (⟨false, files, numberArgument.scope.bind numberArgument, log, loads⟩,
            ⟨.ok text, []⟩) := by
  let env := numberArgument.scope.bind numberArgument
  have boundName : env.lookup (bytes "M") = some numberArgument := rfl
  have boundNumber : env.lookup (bytes "N") = some number := rfl
  have inSources : env.BodiesInSources := by
    intro name definition found node member
    have among : definition = numberArgument ∨ definition = number := by
      have member := Env.mem_macros_of_lookup found
      rcases Env.mem_macros_bind member with same | member
      · exact .inl same
      · exact .inr (List.mem_singleton.1 member)
    rcases among with rfl | rfl
    · exact ⟨_, _, _, _, ofSource_numberSource, List.mem_cons_of_mem _ (List.mem_singleton_self _),
        .argument _ _ (List.mem_singleton_self _) member .self⟩
    · exact ⟨_, _, _, _, ofSource_numberSource, List.mem_cons_self, .body _ _ _ member .self⟩
  have alike : env.ResolvesAlike (bytes "M") := by
    intro definition chain place target consists
    cases chain with
    | here found =>
        rw [boundName] at found
        cases found
        cases consists
        rfl
    | further found first rest =>
        rw [boundName] at found
        cases found
        cases first
        cases rest with
        | here found =>
            rw [boundNumber] at found
            cases found
            cases consists
        | further found next _ =>
            rw [boundNumber] at found
            cases found
            cases next
  exact expandNodes_writes_value .nowhere inSources alike (by decide +kernel)

end Session

end ScopedMacros
