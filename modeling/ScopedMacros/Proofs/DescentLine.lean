import ScopedMacros.Proofs.DescentExpr

/-!
# Reading directive lines by their places

A directive line that is a node by itself, or the head of a definition, gives what it gives as a
list of tokens up to the one that ends it.
-/

namespace ScopedMacros

namespace Descent

section

variable {tokens line : List Token} {place : Nat}

/-! ## Lines that are a node -/

/-- What a line gives, found at the place after the line. -/
structure Stretch.Passes {α : Type} {ends : List Token.Kind} (stretch : Stretch tokens ends)
    (found : α × Nat) (read : α) : Prop where
  same : found.1 = read
  drop_eq : tokens.drop found.2 = stretch.after
  goesOn : stretch.stop.kind ≠ .fileEnd

/-- The node that a line is, found at the place after the line.  It is no name. -/
structure Stretch.Adds {ends : List Token.Kind} (stretch : Stretch tokens ends) (outer : Builder)
    (found : Node × Nat) (builder : Builder) : Prop where
  eq_push : builder = outer.push found.1
  drop_eq : tokens.drop found.2 = stretch.after
  goesOn : stretch.stop.kind ≠ .fileEnd
  closed : builder.call? = none

theorem Stretch.Sees.consume_stop {ends : List Token.Kind} {stretch : Stretch tokens ends}
    (sees : stretch.Sees place []) (goesOn : stretch.stop.kind ≠ .fileEnd) :
    Descent.consume tokens place = .ok (stretch.stop, place + 1) ∧
      tokens.drop (place + 1) = stretch.after := by
  obtain ⟨next, after, more⟩ := List.exists_cons_of_ne_nil (stretch.more goesOn)
  have ahead : tokens.drop place = stretch.stop :: stretch.after := sees.drop_eq
  exact ⟨consume_of_drop_eq (more ▸ ahead) goesOn, drop_succ_of_drop_eq ahead⟩

section

variable {stretch : Stretch tokens lineEnds}

theorem endLine_matches (word : Token) (sees : stretch.Sees place line) :
    Matches stretch.Passes (endLine tokens word place)
      (Builder.endLine word stretch.stop line) := by
  rw [endLine, sees.look, ok_bind]
  change Matches _ (if (line.headD stretch.stop).kind = .lineEnd then _ else _)
    (if (line.headD stretch.stop).kind = .lineEnd then _ else _)
  cases line with
  | nil =>
      by_cases ends : stretch.stop.kind = .lineEnd
      · have goesOn : stretch.stop.kind ≠ .fileEnd := by simp [ends]
        obtain ⟨taken, left⟩ := sees.consume_stop goesOn
        rw [List.headD_nil, if_pos ends, if_pos ends, taken]
        exact .done ⟨rfl, left, goesOn⟩
      · rw [List.headD_nil, if_neg ends, if_neg ends]
        exact .refused _
  | cons token line =>
      have inside : token.kind ≠ .lineEnd := sees.head_ne (by decide)
      rw [List.headD_cons, if_neg inside, if_neg inside]
      exact .refused _

variable {outer : Builder} {word : Token}

theorem undefLine_matches (sees : stretch.Sees place line) :
    Matches (stretch.Adds outer) (undefLine tokens word place)
      (Builder.finishLine outer word .undef line stretch.stop) := by
  rw [undefLine, Builder.finishLine]
  refine (expect_name_matches (by decide) sees).bind ?_
  rintro ⟨_, _⟩ ⟨name, _⟩ ⟨same, sees⟩
  refine (endLine_matches word sees).bind ?_
  rintro ⟨_, _⟩ _ ⟨located, left, goesOn⟩
  subst same located
  exact .done ⟨rfl, left, goesOn, rfl⟩

theorem string?_stop : string? stretch.stop = none := by
  obtain ⟨_, _, same⟩ | ⟨_, _, same⟩ := stretch.stop_cases <;> rw [same] <;> rfl

theorem expect_string_matches {what : Expectation} (sees : stretch.Sees place line) :
    stretch.Takes (expect tokens string? what place)
      (Builder.takeString stretch.stop what line) := by
  have same : Builder.takeString stretch.stop what line =
      takeFirst string? stretch.stop what line := by
    cases line with
    | nil => rfl
    | cons token line =>
        obtain ⟨kind, text, location⟩ := token
        cases kind <;> rfl
  rw [same]
  exact expect_matches string?_stop sees

theorem stringLine_matches (what : Expectation) {node : Location → Bytes → Node}
    (closed : ∀ location value, (outer.push (node location value)).call? = none)
    (sees : stretch.Sees place line) :
    Matches (stretch.Adds outer) (stringLine tokens what node word place)
      (do
        let (value, rest) ← Builder.takeString stretch.stop what line
        let location ← Builder.endLine word stretch.stop rest
        .ok (outer.push (node location value))) := by
  rw [stringLine]
  refine (expect_string_matches sees).bind ?_
  rintro ⟨_, _⟩ ⟨value, _⟩ ⟨same, sees⟩
  refine (endLine_matches word sees).bind ?_
  rintro ⟨_, _⟩ _ ⟨located, left, goesOn⟩
  subst same located
  exact .done ⟨rfl, left, goesOn, closed _ _⟩

/-- Takes the file of a line directive, if there is one. -/
def takeFile : List Token → Option Bytes × List Token
  | token :: rest =>
      match string? token with
      | some file => (some file, rest)
      | none => (none, token :: rest)
  | [] => (none, [])

theorem takeLine_eq {stop : Token} :
    Builder.takeLine stop line = (do
      let (number, rest) ← takeFirst integer? stop .lineNumber line
      .ok (number, takeFile rest)) := by
  cases line with
  | nil => rfl
  | cons token line =>
      obtain ⟨kind, text, location⟩ := token
      cases kind with
      | integer value =>
          cases line with
          | nil => rfl
          | cons next line =>
              obtain ⟨kind, text, location⟩ := next
              cases kind <;> rfl
      | _ => rfl

theorem exists_lineFile_eq (sees : stretch.Sees place line) :
    ∃ there, lineFile tokens place = .ok ((takeFile line).1, there) ∧
      stretch.Sees there (takeFile line).2 := by
  rw [lineFile, sees.look, ok_bind]
  cases line with
  | nil =>
      simp only [List.headD_nil, string?_stop]
      exact ⟨place, rfl, sees⟩
  | cons token line =>
      simp only [List.headD_cons, takeFile]
      cases string? token with
      | none => exact ⟨place, rfl, sees⟩
      | some file =>
          simp only [sees.consume, ok_bind]
          exact ⟨place + 1, rfl, sees.succ⟩

theorem numberLine_matches (sees : stretch.Sees place line) :
    Matches (stretch.Adds outer) (numberLine tokens word place)
      (Builder.finishLine outer word .line line stretch.stop) := by
  have other : integer? stretch.stop = none := by
    obtain ⟨_, _, same⟩ | ⟨_, _, same⟩ := stretch.stop_cases <;> rw [same] <;> rfl
  rw [numberLine, Builder.finishLine, takeLine_eq, bind_assoc]
  refine (expect_matches other sees).bind ?_
  rintro ⟨_, _⟩ ⟨number, rest⟩ ⟨same, sees⟩
  obtain ⟨there, file, sees⟩ := exists_lineFile_eq sees
  simp only [file, ok_bind]
  refine (endLine_matches word sees).bind ?_
  rintro ⟨_, _⟩ _ ⟨located, left, goesOn⟩
  subst same located
  exact .done ⟨rfl, left, goesOn, rfl⟩

end

/-! ## Heads of definitions -/

/-- The kinds that end the head of a definition. -/
def headEnds : List Token.Kind :=
  [.body, .lineEnd, .fileEnd]

variable {stretch : Stretch tokens headEnds}

theorem parameters_matches {name : Bytes} {turns : Nat}
    {seen : List Bytes} (sees : stretch.Sees place line) (enough : line.length < turns) :
    stretch.Takes (parameters tokens name turns seen place)
      (Builder.takeParameters stretch.stop name seen line) := by
  induction turns generalizing seen place line with
  | zero => exact absurd enough (Nat.not_lt_zero _)
  | succ turns ih =>
      rw [parameters]
      cases line with
      | nil =>
          rw [expect_of_none sees (ofKind?_of_ne (stretch.stop_ne _ (by decide)))]
          exact .refused _
      | cons token line =>
          rw [Builder.takeParameters.eq_def]
          dsimp only
          by_cases named : token.kind = .ident
          · simp only [expect_of_some sees (ofKind?_of_eq named),
              ok_bind, named, ne_eq, not_true_eq_false, if_false]
            split
            · exact .refused _
            · simp only [sees.succ.look, ok_bind]
              cases line with
              | nil =>
                  rw [List.headD_nil, if_neg (stretch.stop_ne _ (by decide))]
                  exact .done ⟨rfl, sees.succ⟩
              | cons next line =>
                  simp only [List.length_cons] at enough
                  by_cases goesOn : next.kind = .comma
                  · simp only [List.headD_cons, if_pos goesOn,
                      sees.succ.consume, ok_bind]
                    exact ih sees.succ.succ (by omega)
                  · simp only [List.headD_cons, goesOn, if_false]
                    exact .done ⟨rfl, sees.succ⟩
          · rw [expect_of_none sees (ofKind?_of_ne named), if_pos named]
            exact .refused _

/-- The names up to the parenthesis that closes the list, which may come first. -/
def takeToClose (stop : Token) (name : Bytes) (list : List Token) :
    Except Error (List Bytes × List Token) :=
  if (list.headD stop).kind = .rightParen then .ok ([], list)
  else Builder.takeParameters stop name [] list

theorem parametersToClose_matches {name : Bytes} (sees : stretch.Sees place line) :
    stretch.Takes (parametersToClose tokens name place) (takeToClose stretch.stop name line) := by
  rw [parametersToClose, sees.look, ok_bind, takeToClose]
  split
  · exact .done ⟨rfl, sees⟩
  · have := sees.place_lt
    exact parameters_matches sees (by
      rw [turns]
      omega)

/-- Takes the parenthesis after the last parameter. -/
def takeClose (stop : Token) (parameters : List Bytes) :
    List Token → Except Error (Option (List Bytes) × List Token)
  | ⟨.rightParen, _, _⟩ :: rest => .ok (some parameters, rest)
  | rest => .error (Expectation.endOfParameters.failed stop rest)

theorem takeParameterList_of_parameter {name : Bytes} {stop token next : Token}
    (opens : token.kind = .leftParen) (more : next.kind ≠ .rightParen) :
    Builder.takeParameterList stop name (token :: next :: line) = (do
      let (parameters, rest) ← Builder.takeParameters stop name [] (next :: line)
      let (_, rest) ← takeFirst (ofKind? .rightParen) stop .endOfParameters rest
      .ok (some parameters, rest)) := by
  obtain ⟨kind, text, location⟩ := token
  subst opens
  have named : Builder.takeParameterList stop name (⟨.leftParen, text, location⟩ :: next :: line) =
      Builder.takeParameters stop name [] (next :: line) >>= fun read =>
        takeClose stop read.1 read.2 := by
    obtain ⟨kind, text, location⟩ := next
    cases kind <;> first | rfl | exact absurd rfl more
  rw [named]
  refine bind_congr ?_
  rintro ⟨parameters, rest⟩
  cases rest with
  | nil => rfl
  | cons last rest =>
      obtain ⟨kind, text, location⟩ := last
      cases kind <;> rfl

theorem takeParameterList_of_open {name : Bytes} {token : Token} (opens : token.kind = .leftParen) :
    Builder.takeParameterList stretch.stop name (token :: line) = (do
      let (parameters, rest) ← takeToClose stretch.stop name line
      let (_, rest) ← takeFirst (ofKind? .rightParen) stretch.stop .endOfParameters rest
      .ok (some parameters, rest)) := by
  cases line with
  | nil =>
      obtain ⟨kind, text, location⟩ := token
      subst opens
      rw [takeToClose, List.headD_nil, if_neg (stretch.stop_ne _ (by decide))]
      rfl
  | cons next line =>
      by_cases closes : next.kind = .rightParen
      · obtain ⟨kind, text, location⟩ := token
        obtain ⟨kind, text, location⟩ := next
        subst opens closes
        rfl
      · rw [takeToClose, List.headD_cons, if_neg closes,
          takeParameterList_of_parameter opens closes]

theorem takeParameterList_of_ne {name : Bytes} {stop : Token}
    (bare : (line.headD stop).kind ≠ .leftParen) :
    Builder.takeParameterList stop name line = .ok (none, line) := by
  cases line with
  | nil => rfl
  | cons token line =>
      obtain ⟨kind, text, location⟩ := token
      cases kind <;> first | rfl | exact absurd rfl bare

theorem parameterList_matches {name : Bytes} (sees : stretch.Sees place line) :
    stretch.Takes
      (parameterList tokens name place) (Builder.takeParameterList stretch.stop name line) := by
  rw [parameterList, sees.look, ok_bind]
  by_cases opens : (line.headD stretch.stop).kind = .leftParen
  · cases line with
    | nil => exact absurd opens (stretch.stop_ne _ (by decide))
    | cons token line =>
        rw [List.headD_cons] at opens
        rw [List.headD_cons, if_pos opens, sees.consume, ok_bind,
          takeParameterList_of_open opens]
        refine (parametersToClose_matches sees.succ).bind ?_
        rintro ⟨_, _⟩ ⟨parameters, _⟩ ⟨same, sees⟩
        refine (expect_matches (ofKind?_of_ne (stretch.stop_ne _ (by decide))) sees).bind ?_
        rintro ⟨_, _⟩ ⟨_, _⟩ ⟨_, left⟩
        subst same
        exact .done ⟨rfl, left⟩
  · rw [if_neg opens, takeParameterList_of_ne opens]
    exact .done ⟨rfl, sees⟩

theorem head_matches (sees : stretch.Sees place line) :
    Matches stretch.Passes (head tokens place) (Builder.takeHead stretch.stop line) := by
  rw [head, Builder.takeHead]
  refine (expect_name_matches (by decide) sees).bind ?_
  rintro ⟨_, _⟩ ⟨name, _⟩ ⟨same, sees⟩
  subst same
  refine (parameterList_matches sees).bind ?_
  rintro ⟨_, place⟩ ⟨parameters, rest⟩ ⟨same, sees⟩
  subst same
  cases rest with
  | nil =>
      by_cases starts : stretch.stop.kind = .body
      · have goesOn : stretch.stop.kind ≠ .fileEnd := by simp [starts]
        obtain ⟨taken, left⟩ := sees.consume_stop goesOn
        have found : expect tokens (ofKind? .body) .body place = .ok (stretch.stop, place + 1) := by
          simp only [expect, sees.look, ok_bind, List.headD_nil, ofKind?_of_eq starts, taken]
        simp only [found, ok_bind, List.isEmpty_nil, starts, beq_self_eq_true, Bool.and_self,
          if_true]
        exact .done ⟨rfl, left, goesOn⟩
      · have other : (stretch.stop.kind == .body) = false := by simp [starts]
        simp only [expect_of_none sees (ofKind?_of_ne starts), List.isEmpty_nil, other,
          Bool.and_false]
        exact .refused _
  | cons token rest =>
      have inside : token.kind ≠ .body := sees.head_ne (by decide)
      simp only [expect_of_none sees (ofKind?_of_ne inside), List.isEmpty_cons, Bool.false_and]
      exact .refused _

end

end Descent

end ScopedMacros
