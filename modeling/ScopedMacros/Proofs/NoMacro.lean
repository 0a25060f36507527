import Mathlib.Data.List.Induction
import ScopedMacros.Proofs.Reach
import ScopedMacros.Proofs.Rendering

/-!
# Expansions that use no macro

An expansion may define macros and never come upon the name of one.  Its text is then given out word
by word, and what holds of the whole expansion holds of each of its parts.
-/

namespace ScopedMacros

namespace Node

/-- The name that a node uses. -/
def name? : Node → Option Bytes
  | .ident _ name | .call _ name _ => some name
  | _ => none

theorem mem_wordsOf {nodes : List Node} {node : Node} {word : Word} (member : node ∈ nodes)
    (spelled : word ∈ node.words) : word ∈ wordsOf nodes := by
  induction nodes with
  | nil => cases member
  | cons first rest ih =>
      rw [wordsOf, List.mem_append]
      rcases List.mem_cons.1 member with rfl | member
      · exact .inl spelled
      · exact .inr (ih member)

theorem mem_wordsOfArguments {arguments : List (List Node)} {argument : List Node} {node : Node}
    {word : Word} (member : argument ∈ arguments) (inner : node ∈ argument)
    (spelled : word ∈ node.words) : word ∈ wordsOfArguments arguments := by
  have here : word ∈ wordsOf argument := mem_wordsOf inner spelled
  induction arguments with
  | nil => cases member
  | cons first rest ih =>
      cases rest with
      | nil =>
          rw [List.mem_singleton.1 member] at here
          exact here
      | cons second others =>
          rw [wordsOfArguments, List.mem_append, List.mem_cons]
          rcases List.mem_cons.1 member with rfl | member
          · exact .inl here
          · exact .inr (.inr (ih member))

/-- The words of arguments and one more, which a comma parts from those before it. -/
theorem wordsOfArguments_concat (arguments : List (List Node)) (last : List Node) :
    wordsOfArguments (arguments ++ [last]) =
      wordsOfArguments arguments ++ (if arguments.isEmpty then [] else [.comma]) ++
        wordsOf last := by
  induction arguments with
  | nil => rfl
  | cons first rest ih =>
      cases rest with
      | nil => simp [wordsOfArguments]
      | cons second others =>
          rw [List.cons_append, List.cons_append, wordsOfArguments, ← List.cons_append, ih]
          simp [wordsOfArguments]

end Node

/-- Neither the current line nor the current file. -/
def Word.isFixed : Word → Bool
  | .name text => text != bytes "__LINE__" && text != bytes "__FILE__"
  | _ => true

namespace Expansion

open Step

/-- No name that the expansion comes upon is bound there. -/
def UsesNoMacro (files : FileSet) (context : Context) (nodes : List Node) (env : Env) : Prop :=
  ∀ said inner node here, Reaches files context nodes env said inner node here →
    ∀ name ∈ node.name?, here.lookup name = none

variable {files : FileSet} {context inner : Context} {node found : Node}
  {nodes left right rest entered : List Node} {env middle here : Env} {said events : List Event}

/-! ## Parts of an expansion -/

theorem Reaches.append (reached : Reaches files context left env said inner found here)
    (right : List Node) : Reaches files context (left ++ right) env said inner found here := by
  induction reached with
  | @here earlier later node _ _ split ran =>
      have split : left ++ right = earlier ++ node :: (later ++ right) := by simp [split]
      exact .here split ran
  | inside _ enters split ran ih => exact .inside ih enters split ran

theorem Reaches.after (ran : run files context left env = ⟨events, .ok middle⟩)
    (reached : Reaches files context right middle said inner found here) :
    Reaches files context (left ++ right) env (events ++ said) inner found here := by
  induction reached with
  | @here earlier later node said last split done =>
      have both : run files context (left ++ earlier) env = ⟨events ++ said, .ok last⟩ := by
        rw [run_append_of_ok ran, done]
        rfl
      have split : left ++ right = left ++ earlier ++ node :: later := by simp [split]
      exact .here split both
  | inside _ enters split done ih =>
      have further := Reaches.inside ih enters split done
      simpa only [List.append_assoc] using further

theorem Reaches.of_enters (enters : Enters files context node env events inner entered middle)
    {innermost : Context} (reached : Reaches files inner entered middle said innermost found here) :
    Reaches files context [node] env (events ++ said) innermost found here := by
  have start : Reaches files context [node] env [] context node env :=
    .here (List.nil_append _).symm (run_nil files context env)
  induction reached with
  | here split ran => exact .inside start enters split ran
  | inside _ further split ran ih =>
      have next := Reaches.inside ih further split ran
      simpa only [List.append_assoc] using next

/-- A node that the expansion of a list comes upon is the first of the list, or is found in what that
one enters, or is found in the rest of the list. -/
theorem reaches_cons (reached : Reaches files context (node :: rest) env said inner found here) :
    inner = context ∧ found = node ∧ here = env ∨
      (∃ before outer entered middle later,
        Enters files context node env before outer entered middle ∧
          Reaches files outer entered middle later inner found here) ∨
      ∃ before middle later, run files context [node] env = ⟨before, .ok middle⟩ ∧
        Reaches files context rest middle later inner found here := by
  induction reached with
  | @here earlier later found said last split ran =>
      cases earlier with
      | nil =>
          rw [run_nil] at ran
          cases ran
          cases split
          exact .inl ⟨rfl, rfl, rfl⟩
      | cons first others =>
          cases split
          rw [← List.singleton_append] at ran
          obtain ⟨before, middle, more, first, ran, _⟩ := exists_middle_of_run_append ran
          exact .inr (.inr ⟨before, middle, more, first, .here rfl ran⟩)
  | inside _ enters split ran ih =>
      rcases ih with ⟨rfl, rfl, rfl⟩ | ⟨_, _, _, _, _, first, reached⟩ | ⟨_, _, _, done, reached⟩
      · exact .inr (.inl ⟨_, _, _, _, _, enters, .here split ran⟩)
      · exact .inr (.inl ⟨_, _, _, _, _, first, .inside reached enters split ran⟩)
      · exact .inr (.inr ⟨_, _, _, done, .inside reached enters split ran⟩)

/-- An expansion uses no macro exactly if its first node does not, neither itself nor in what it
enters, and the rest does not either. -/
theorem usesNoMacro_cons_iff :
    UsesNoMacro files context (node :: rest) env ↔
      (∀ name ∈ node.name?, env.lookup name = none) ∧
        (∀ said inner entered middle, Enters files context node env said inner entered middle →
          UsesNoMacro files inner entered middle) ∧
        ∀ said middle, run files context [node] env = ⟨said, .ok middle⟩ →
          UsesNoMacro files context rest middle := by
  constructor
  · intro free
    refine ⟨?_, ?_, ?_⟩
    · exact free [] context node env (.here (List.nil_append _).symm (run_nil files context env))
    · intro said inner entered middle enters more innermost found here reached
      exact free _ _ _ _ ((Reaches.of_enters enters reached).append rest)
    · intro said middle ran more inner found here reached
      exact free _ _ _ _ (Reaches.after ran reached)
  · rintro ⟨own, inside, others⟩ said inner found here reached
    rcases reaches_cons reached with ⟨rfl, rfl, rfl⟩ | ⟨_, _, _, _, _, enters, reached⟩ |
      ⟨_, _, _, ran, reached⟩
    · exact own
    · exact inside _ _ _ _ enters _ _ _ _ reached
    · exact others _ _ ran _ _ _ _ reached

theorem usesNoMacro_nil : UsesNoMacro files context [] env := by
  intro said inner found here reached
  exfalso
  induction reached with
  | here split => simp at split
  | inside _ _ _ _ ih => exact ih

/-- Sees that an expansion uses no macro, if it does so within a number of steps and calls nothing. -/
def seesNoMacro (files : FileSet) : Nat → Context → List Node → Env → Bool
  | 0, _, _, _ => false
  | _ + 1, _, [], _ => true
  | steps + 1, context, node :: rest, env =>
      (match node with
      | .ident _ name => (env.lookup name).isNone
      | .call _ _ _ => false
      | .inclusion _ path =>
          match (files.contents? path).map (Node.ofSource path) with
          | some (.ok nodes) => seesNoMacro files steps (context.forFile path) nodes env
          | _ => true
      | .cond _ test yes no =>
          match test.eval env with
          | .ok holds => seesNoMacro files steps context (if holds then yes else no) env
          | .error _ => true
      | .seq _ nodes => seesNoMacro files steps context nodes env
      | _ => true) &&
        match within files steps context [node] env with
        | some ⟨_, .ok middle⟩ => seesNoMacro files steps context rest middle
        | some ⟨_, .error _⟩ => true
        | none => false

theorem usesNoMacro_of_sees {steps : Nat} (sees : seesNoMacro files steps context nodes env = true) :
    UsesNoMacro files context nodes env := by
  induction steps generalizing context nodes env with
  | zero => cases sees
  | succ steps ih =>
      cases nodes with
      | nil => exact usesNoMacro_nil
      | cons node rest =>
          simp only [seesNoMacro, Bool.and_eq_true] at sees
          obtain ⟨own, others⟩ := sees
          rw [usesNoMacro_cons_iff]
          refine ⟨?_, ?_, ?_⟩
          · intro name uses
            cases node with
            | ident location other =>
                cases uses
                exact Option.isNone_iff_eq_none.1 own
            | call => cases own
            | _ => cases uses
          · intro said inner entered middle enters
            cases enters with
            | use bound => simp [bound] at own
            | call => cases own
            | argument => cases own
            | branch value =>
                simp only [value] at own
                exact ih own
            | file new found read =>
                simp only [found, read, Option.map_some] at own
                exact ih own
            | sequence => exact ih own
          · intro said middle ran
            split at others
            · rename_i _ last answered
              rw [run_eq_of_within answered] at ran
              cases ran
              exact ih others
            · rename_i answered
              rw [run_eq_of_within answered] at ran
              cases ran
            · cases others

theorem UsesNoMacro.append_left (free : UsesNoMacro files context (left ++ right) env) :
    UsesNoMacro files context left env :=
  fun _ _ _ _ reached => free _ _ _ _ (reached.append right)

theorem UsesNoMacro.append_right (ran : run files context left env = ⟨events, .ok middle⟩)
    (free : UsesNoMacro files context (left ++ right) env) :
    UsesNoMacro files context right middle :=
  fun _ _ _ _ reached => free _ _ _ _ (Reaches.after ran reached)

/-! ## Text without macros -/

/-- The expansion of a node that uses no macro gives out its words and changes no binding. -/
def GivesWords (files : FileSet) (context : Context) (env : Env) (node : Node) : Prop :=
  UsesNoMacro files context [node] env →
    ∃ said, run files context [node] env = ⟨said, .ok env⟩ ∧
      Gives said node.words (Node.start? [node])

theorem exists_gives_of_each (each : ∀ node ∈ nodes, GivesWords files context env node)
    (free : UsesNoMacro files context nodes env) :
    ∃ said, run files context nodes env = ⟨said, .ok env⟩ ∧
      Gives said (Node.wordsOf nodes) (Node.start? nodes) := by
  induction nodes with
  | nil => exact ⟨[], run_nil files context env, .nil⟩
  | cons node rest ih =>
      rw [← List.singleton_append] at free
      obtain ⟨said, ran, gives⟩ := each node (by simp) free.append_left
      obtain ⟨more, others, givesMore⟩ :=
        ih (fun other member => each other (by simp [member])) (free.append_right ran)
      refine ⟨said ++ more, ?_, ?_⟩
      · rw [← List.singleton_append, run_append_of_ok ran, others]
        rfl
      · have both := gives.append givesMore
        rw [← Node.start?_append] at both
        exact both

/-- The arguments of a call of a name that is not bound give out their words. -/
theorem exists_gives_of_arguments {location : Location} {name : Bytes}
    {arguments later : List (List Node)} (unbound : env.lookup name = none)
    (each : ∀ argument ∈ arguments, ∀ node ∈ argument, GivesWords files context env node)
    (free : UsesNoMacro files context [.call location name (arguments ++ later)] env) :
    ∃ said, passArguments (step files) context (say [.text location.start [Byte.comma]]) arguments
        env = some ⟨said, .ok env⟩ ∧
      (∀ event ∈ said, event.isInline = true) ∧
      said.flatMap Event.content = (Node.wordsOfArguments arguments).flatMap Word.text := by
  induction arguments using List.reverseRecOn generalizing later with
  | nil => exact ⟨[], rfl, by simp, rfl⟩
  | append_singleton earlier argument ih =>
      rw [List.append_assoc, List.singleton_append] at free
      obtain ⟨said, passed, inline, content⟩ :=
        ih (fun other member => each other (by simp [member])) free
      let comma : List Event :=
        if earlier.isEmpty then [] else [.text location.start [Byte.comma]]
      have reached : andThen (passArguments (step files) context
          (say [.text location.start [Byte.comma]]) earlier) (say comma) env =
          some ⟨said ++ comma, .ok env⟩ := by
        rw [andThen_of_ok passed]
        rfl
      have inner := (usesNoMacro_cons_iff.1 free).2.1 _ _ _ _ (.argument unbound reached)
      obtain ⟨more, ran, gives⟩ :=
        exists_gives_of_each (fun node member => each argument (by simp) node member) inner
      refine ⟨said ++ comma ++ more, ?_, ?_, ?_⟩
      · rw [passArguments_append, andThen_of_ok reached, List.map_nil, all, andThen_say_nil]
        change (some (run files context argument env)).map _ = _
        rw [ran]
        rfl
      · intro event member
        rcases List.mem_append.1 member with member | member
        · rcases List.mem_append.1 member with member | member
          · exact inline event member
          · dsimp only [comma] at member
            split at member
            · cases member
            · rw [List.mem_singleton.1 member]
              rfl
        · exact gives.inline event member
      · have separated : comma.flatMap Event.content =
            (if earlier.isEmpty then [] else [Word.comma]).flatMap Word.text := by
          cases earlier <;> rfl
        rw [List.flatMap_append, List.flatMap_append, content, gives.content, separated,
          Node.wordsOfArguments_concat, List.flatMap_append, List.flatMap_append]

/-- Plain nodes other than those for the current line and file give out their words. -/
theorem givesWords_of_plain (plain : node.Plain)
    (fixed : ∀ word ∈ node.words, word.isFixed = true) : GivesWords files context env node := by
  induction plain with
  | ident location name =>
      intro free
      have unbound : env.lookup name = none := (usesNoMacro_cons_iff.1 free).1 name rfl
      refine ⟨[.text location.start name], run_eq_of_ofNode ?_, ?_⟩
      · simp only [ofNode, unbound]
        rfl
      · exact .text _ _ rfl (by simp) (by simp [Word.text])
  | call location name arguments plain ih =>
      intro free
      have unbound : env.lookup name = none := (usesNoMacro_cons_iff.1 free).1 name rfl
      have each : ∀ argument ∈ arguments, ∀ node ∈ argument, GivesWords files context env node := by
        intro argument member node inner
        refine ih argument member node inner fun word spelled => fixed word ?_
        have among := Node.mem_wordsOfArguments member inner spelled
        simp [Node.words, among]
      rw [← List.append_nil arguments] at free
      obtain ⟨said, passed, inline, content⟩ := exists_gives_of_arguments unbound each free
      refine ⟨.text location.start (name ++ [Byte.leftParen]) ::
        (said ++ [.text location.start [Byte.rightParen]]), run_eq_of_ofNode ?_, ?_⟩
      · simp only [ofNode, unbound, callUnbound]
        rw [all, say_andThen, all, andThen_of_ok passed, all_singleton]
        rfl
      · refine .text _ _ rfl ?_ ?_
        · intro event member
          rcases List.mem_append.1 member with member | member
          · exact inline event member
          · rw [List.mem_singleton.1 member]
            rfl
        · simp [content, Word.text, Word.leftParen, Word.rightParen, Event.content]
  | space location content => exact fun _ => ⟨_, run_eq_of_ofNode rfl, .space content .nil⟩
  | text location content =>
      refine fun _ => ⟨_, run_eq_of_ofNode rfl, ?_⟩
      exact .text _ _ rfl (by simp) (by simp [Word.text])
  | currentLine location => cases fixed _ (List.mem_singleton.2 rfl)
  | currentFile location => cases fixed _ (List.mem_singleton.2 rfl)

/-- A stretch of text without macros gives out its tokens. -/
theorem same_of_text {tokens : List Token} (text : Text tokens nodes)
    (fixed : ∀ token ∈ tokens, token.word.isFixed = true)
    (free : UsesNoMacro files context nodes env) :
    ∃ said, run files context nodes env = ⟨said, .ok env⟩ ∧
      Layout.Same said (tokens.map Token.event) := by
  have each : ∀ node ∈ nodes, GivesWords files context env node := by
    intro node member
    refine givesWords_of_plain (text.plain node member) fun word spelled => ?_
    have among : word ∈ Node.wordsOf nodes := Node.mem_wordsOf member spelled
    rw [text.words] at among
    obtain ⟨token, inText, rfl⟩ := List.mem_map.1 among
    exact fixed token inText
  obtain ⟨said, ran, gives⟩ := exists_gives_of_each each free
  rw [text.words, text.start] at gives
  exact ⟨said, ran, gives.same (.tokens tokens)⟩

end Expansion

end ScopedMacros
