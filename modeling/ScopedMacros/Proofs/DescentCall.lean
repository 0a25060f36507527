import ScopedMacros.Proofs.DescentLine
import ScopedMacros.Proofs.Standing
import ScopedMacros.Proofs.Text

/-!
# Reading text and calls by their places

A builder takes the tokens of a construct one by one, and a descent reads the construct as a whole.
What is left to a builder when it has the nodes of the construct is what is left where the descent
ends.
-/

namespace ScopedMacros

namespace Builder

/-- The nodes of a source that goes on with the given tokens and ends after them. -/
def complete (ended : Token) (builder : Builder) (items : List Token) :
    Except Error (List Node) := do
  let next ← items.foldlM step builder
  next.finish ended

variable {ended token : Token} {builder : Builder} {items : List Token}

theorem complete_nil : builder.complete ended [] = builder.finish ended := rfl

theorem complete_cons :
    builder.complete ended (token :: items) = builder.step token >>= (·.complete ended items) := by
  rw [complete, List.foldlM_cons, bind_assoc]
  rfl

theorem complete_of_ok {next : Builder} (taken : builder.step token = .ok next) :
    builder.complete ended (token :: items) = next.complete ended items := by
  rw [complete_cons, taken]
  rfl

theorem complete_of_error {error : Error} (refused : builder.step token = .error error) :
    builder.complete ended (token :: items) = .error error := by
  rw [complete_cons, refused]
  rfl

/-- No parenthesis comes next that would make a call of a name already read. -/
def Ready (builder : Builder) (items : List Token) : Prop :=
  ∀ token ∈ items.head?, token.kind = .leftParen → builder.call? = none

theorem Ready.of_none (closed : builder.call? = none) : builder.Ready items :=
  fun _ _ _ => closed

/-- Names, and the calls that they start, are taken as such. -/
structure TakesNames (frames : List (Frame × List Node)) : Prop where
  name {token : Token} (named : token.kind = .ident) (nodes : List Node) :
    step ⟨nodes, frames⟩ token = .ok ⟨ofName token :: nodes, frames⟩
  call {token : Token} (opens : token.kind = .leftParen) (location : Location) (name : Bytes)
    (before : List Node) :
    step ⟨.ident location name :: before, frames⟩ token =
      .ok ⟨[], (.call location name 0 [], before) :: frames⟩

theorem takesNames_of_readsText {frames : List (Frame × List Node)} (reads : ReadsText frames) :
    TakesNames frames where
  name named nodes := by
    rw [reads _ _ (by simp [named])]
    unfold plain leaf
    rw [named]
    rfl
  call opens location name before := by
    rw [reads _ _ (by simp [opens])]
    unfold plain
    rw [opens]
    rfl

/-! ## Tokens of an argument -/

section

variable {location : Location} {name : Bytes} {depth : Nat} {given : List (List Node)}
  {nodes before : List Node} {frames : List (Frame × List Node)}

theorem takesNames_call :
    TakesNames ((.call location name depth given, before) :: frames) where
  name {token} named nodes := by
    obtain ⟨kind, text, place⟩ := token
    subst named
    rfl
  call {token} opens location name before := by
    obtain ⟨kind, text, place⟩ := token
    subst opens
    rfl

theorem step_call_lineEnd (breaks : token.kind = .lineEnd) :
    step ⟨nodes, (.call location name depth given, before) :: frames⟩ token =
      .error ⟨.unterminatedCall name, location⟩ := by
  obtain ⟨kind, text, place⟩ := token
  subst breaks
  rfl

theorem step_call_directive (breaks : token.kind = .directive) :
    step ⟨nodes, (.call location name depth given, before) :: frames⟩ token =
      .error ⟨.directiveInCall name, token.location⟩ := by
  obtain ⟨kind, text, place⟩ := token
  subst breaks
  rfl

theorem step_call_comma (separates : token.kind = .comma) :
    step ⟨nodes, (.call location name 0 given, before) :: frames⟩ token =
      .ok ⟨[], (.call location name 0 (nodes.reverse :: given), before) :: frames⟩ := by
  obtain ⟨kind, text, place⟩ := token
  subst separates
  rfl

theorem step_call_rightParen (closes : token.kind = .rightParen) :
    step ⟨nodes, (.call location name 0 given, before) :: frames⟩ token =
      .ok (push ⟨before, frames⟩ (.call (location.span token.location) name
        (if given.isEmpty && nodes.isEmpty then [] else nodes.reverse :: given).reverse)) := by
  obtain ⟨kind, text, place⟩ := token
  subst closes
  rfl

/-- A token that is no name and neither ends the argument nor breaks it off is text in it. -/
theorem step_call_text
    (ready : token.kind = .leftParen →
      call? ⟨nodes, (.call location name depth given, before) :: frames⟩ = none)
    (named : token.kind ≠ .ident) (breaks : token.kind ≠ .lineEnd ∧ token.kind ≠ .directive)
    (ends : depth = 0 → token.kind ≠ .comma ∧ token.kind ≠ .rightParen) :
    step ⟨nodes, (.call location name depth given, before) :: frames⟩ token =
      leaf ⟨nodes, (.call location name (Descent.depthAfter token.kind depth) given, before) ::
        frames⟩ token := by
  obtain ⟨kind, text, place⟩ := token
  cases kind with
  | ident => exact absurd rfl named
  | lineEnd => exact absurd rfl breaks.1
  | directive => exact absurd rfl breaks.2
  | comma =>
      cases depth with
      | zero => exact absurd rfl (ends rfl).1
      | succ depth => rfl
  | rightParen =>
      cases depth with
      | zero => exact absurd rfl (ends rfl).2
      | succ depth => rfl
  | leftParen =>
      have closed := ready rfl
      cases nodes with
      | nil => rfl
      | cons node nodes =>
          cases node with
          | ident => cases closed
          | _ => rfl
  | _ => rfl

end

end Builder

namespace Descent

variable {tokens : List Token} {ended : Token} {whole : Stretch tokens [.fileEnd]}

/-- Whole files end with the end of the file. -/
theorem Stretch.isEnd (whole : Stretch tokens [.fileEnd]) : whole.stop.kind = .fileEnd :=
  List.mem_singleton.1 whole.stops

/-! ## Descents against builders -/

/-- A reading by places leads to the nodes that a builder has in the end: both are refused for the
same error, or the builder has the nodes of the reading and as much is left to it. -/
inductive Leads {α : Type} (ended : Token) (reach : α → Nat → Builder → List Token → Prop) :
    Except Fault (α × Nat) → Except Error (List Node) → Prop
  | refused (error : Error) : Leads ended reach (.error (.refused error)) (.error error)
  | done {value : α} {place : Nat} {builder : Builder} {items : List Token}
      (holds : reach value place builder items) :
      Leads ended reach (.ok (value, place)) (builder.complete ended items)

theorem Leads.bind {α β : Type} {reach : α → Nat → Builder → List Token → Prop}
    {further : β → Nat → Builder → List Token → Prop} {walked : Except Fault (α × Nat)}
    {walk : α × Nat → Except Fault (β × Nat)} {result : Except Error (List Node)}
    (first : Leads ended reach walked result)
    (next : ∀ value place builder items, reach value place builder items →
      Leads ended further (walk (value, place)) (builder.complete ended items)) :
    Leads ended further (walked >>= walk) result := by
  cases first with
  | refused error => exact .refused error
  | done holds => exact next _ _ _ _ holds

theorem Leads.mono {α : Type} {reach wider : α → Nat → Builder → List Token → Prop}
    {walked : Except Fault (α × Nat)} {result : Except Error (List Node)}
    (leads : Leads ended reach walked result)
    (le : ∀ value place builder items, reach value place builder items →
      wider value place builder items) :
    Leads ended wider walked result := by
  cases leads with
  | refused error => exact .refused error
  | done holds => exact .done (le _ _ _ _ holds)

theorem Leads.matches {α β : Type} {reach : α → Nat → Builder → List Token → Prop}
    {related : β → List Node → Prop} {walked : Except Fault (α × Nat)}
    {walk : α × Nat → Except Fault β} {result : Except Error (List Node)}
    (first : Leads ended reach walked result)
    (next : ∀ value place builder items, reach value place builder items →
      Matches related (walk (value, place)) (builder.complete ended items)) :
    Matches related (walked >>= walk) result := by
  cases first with
  | refused error => exact .refused error
  | done holds => exact next _ _ _ _ holds

theorem Matches.leads {α β σ : Type} {related : α → σ → Prop}
    {reach : β → Nat → Builder → List Token → Prop} {walked : Except Fault α}
    {listed : Except Error σ} {walk : α → Except Fault (β × Nat)}
    {list : σ → Except Error (List Node)} (first : Matches related walked listed)
    (next : ∀ found read, related found read → Leads ended reach (walk found) (list read)) :
    Leads ended reach (walked >>= walk) (listed >>= list) := by
  cases first with
  | refused error => exact .refused error
  | done holds => exact next _ _ holds

theorem Matches.arrives {α σ : Type} {related : α × Nat → σ → Prop}
    {reach : α → Nat → Builder → List Token → Prop} {walked : Except Fault (α × Nat)}
    {listed : Except Error σ} {list : σ → Except Error (List Node)}
    (outcome : Matches related walked listed)
    (next : ∀ found read, related found read → ∃ builder items,
      list read = builder.complete ended items ∧ reach found.1 found.2 builder items) :
    Leads ended reach walked (listed >>= list) := by
  cases outcome with
  | refused error => exact .refused error
  | @done found read holds =>
      obtain ⟨builder, items, same, reached⟩ := next _ _ holds
      change Leads ended reach (.ok (found.1, found.2)) (list read)
      rw [same]
      exact .done reached

/-- The builder that a value makes, with fewer tokens left to it than the bound. -/
structure Stretch.Reaches {α : Type} (whole : Stretch tokens [.fileEnd]) (bound : Nat)
    (make : α → Builder) (value : α) (place : Nat) (builder : Builder) (items : List Token) :
    Prop where
  eq_make : builder = make value
  sees : whole.Sees place items
  shorter : items.length < bound
  ready : builder.Ready items

theorem Stretch.Reaches.mono {α : Type} {bound larger place : Nat} {make : α → Builder} {value : α}
    {builder : Builder} {items : List Token}
    (reaches : whole.Reaches bound make value place builder items)
    (le : bound ≤ larger) : whole.Reaches larger make value place builder items :=
  ⟨reaches.eq_make, reaches.sees, Nat.lt_of_lt_of_le reaches.shorter le, reaches.ready⟩

/-! ## Text -/

theorem text_matches {builder : Builder} {token : Token} {place : Nat} {items : List Token}
    (sees : whole.Sees place (token :: items)) (named : token.kind ≠ .ident) :
    Matches (fun found next => next = builder.push found.1 ∧ found.2 = place + 1 ∧
        next.call? = none) (text tokens place) (builder.leaf token) := by
  rw [text, sees.look, ok_bind, List.headD_cons, sees.consume]
  obtain ⟨kind, content, location⟩ := token
  cases kind with
  | ident => exact absurd rfl named
  | space => exact .done ⟨rfl, rfl, rfl⟩
  | text => exact .done ⟨rfl, rfl, rfl⟩
  | string value => exact .done ⟨rfl, rfl, rfl⟩
  | character => exact .done ⟨rfl, rfl, rfl⟩
  | leftParen => exact .done ⟨rfl, rfl, rfl⟩
  | rightParen => exact .done ⟨rfl, rfl, rfl⟩
  | comma => exact .done ⟨rfl, rfl, rfl⟩
  | _ => exact .refused _

/-! ## Calls -/

/-- The builder in the middle of a call. -/
def inCall (outer : Builder) (called : Token) (given : List (List Node)) (current : List Node)
    (depth : Nat) : Builder :=
  ⟨current.reverse,
    (.call called.location called.text depth given.reverse, outer.nodes) :: outer.frames⟩

/-- The builder after a call, whose location ends with the token before the place. -/
structure Stretch.Calls (whole : Stretch tokens [.fileEnd]) (bound : Nat) (outer : Builder)
    (called : Token) (given : List (List Node)) (place : Nat) (builder : Builder)
    (items : List Token) : Prop where
  exists_last : ∃ last, lookBack tokens place = .ok last ∧
    builder = outer.push (.call (called.location.span last.location) called.text given)
  sees : whole.Sees place items
  shorter : items.length < bound

theorem Stretch.Calls.mono {bound larger place : Nat} {outer builder : Builder} {called : Token}
    {given : List (List Node)} {items : List Token}
    (calls : whole.Calls bound outer called given place builder items) (le : bound ≤ larger) :
    whole.Calls larger outer called given place builder items :=
  ⟨calls.exists_last, calls.sees, Nat.lt_of_lt_of_le calls.shorter le⟩

theorem push_inCall (outer : Builder) (called : Token) (given : List (List Node))
    (current : List Node) (depth : Nat) (node : Node) :
    (inCall outer called given current depth).push node =
      inCall outer called given (current ++ [node]) depth := by
  rw [inCall, inCall, List.reverse_append]
  rfl

/-- Within the given number of turns, names and the arguments of calls are those of a builder.  Two
turns for each token are enough: one for the name that may start there, one for the argument. -/
structure NamesLead (whole : Stretch tokens [.fileEnd]) (turns : Nat) : Prop where
  names {builder : Builder} {token : Token} {place : Nat} {items : List Token}
    (takes : Builder.TakesNames builder.frames) (named : token.kind = .ident)
    (sees : whole.Sees place (token :: items)) (enough : 2 * items.length + 1 < turns) :
    Leads whole.stop (whole.Reaches (items.length + 1) builder.push)
      (name tokens turns place) (builder.complete whole.stop (token :: items))
  calls (outer : Builder) (called : Token) (given : List (List Node)) (current : List Node)
    (depth : Nat) {place : Nat} {items : List Token} (sees : whole.Sees place items)
    (ready : (inCall outer called given current depth).Ready items)
    (enough : 2 * items.length < turns) :
    Leads whole.stop (whole.Calls items.length outer called)
      (arguments tokens turns called given current depth place)
      ((inCall outer called given current depth).complete whole.stop items)

namespace NamesLead

variable {turns place : Nat} {items : List Token} {token : Token}

theorem names_succ (inner : NamesLead whole turns)
    {builder : Builder} (takes : Builder.TakesNames builder.frames) (named : token.kind = .ident)
    (sees : whole.Sees place (token :: items)) (enough : 2 * items.length + 1 < turns + 1) :
    Leads whole.stop (whole.Reaches (items.length + 1) builder.push)
      (name tokens (turns + 1) place) (builder.complete whole.stop (token :: items)) := by
  rw [name, sees.consume, ok_bind, Builder.complete_of_ok (takes.name named _),
    Builder.ofName]
  dsimp only
  split
  · exact .done ⟨rfl, sees.succ, Nat.lt_succ_self _, .of_none rfl⟩
  split
  · exact .done ⟨rfl, sees.succ, Nat.lt_succ_self _, .of_none rfl⟩
  simp only [sees.succ.look, ok_bind]
  cases items with
  | nil =>
      have other : whole.stop.kind ≠ .leftParen := by simp [whole.isEnd]
      rw [List.headD_nil, if_neg other]
      exact .done ⟨rfl, sees.succ, Nat.lt_succ_self _, by simp [Builder.Ready]⟩
  | cons next items =>
      by_cases opens : next.kind = .leftParen
      · rw [List.headD_cons, if_pos opens, sees.succ.consume, ok_bind,
          Builder.complete_of_ok (takes.call opens _ _ _)]
        simp only [List.length_cons] at enough
        refine (inner.calls builder token [] [] 0 sees.succ.succ (.of_none rfl) (by omega)).bind
          fun given place _ items calls => ?_
        obtain ⟨last, back, rfl⟩ := calls.exists_last
        simp only [back, ok_bind]
        have shorter := calls.shorter
        exact .done ⟨rfl, calls.sees, by simp only [List.length_cons]; omega, .of_none rfl⟩
      · rw [List.headD_cons, if_neg opens]
        refine .done ⟨rfl, sees.succ, Nat.lt_succ_self _, fun other head isOpen => ?_⟩
        cases head
        exact absurd isOpen opens

section

variable {outer : Builder} {called : Token} {given : List (List Node)} {current : List Node}
  {depth : Nat}

/-- A token of text in an argument. -/
theorem calls_text (inner : NamesLead whole turns) {deeper : Nat}
    (sees : whole.Sees place (token :: items))
    (enough : 2 * items.length < turns) (named : token.kind ≠ .ident)
    (taken : (inCall outer called given current depth).step token =
      (inCall outer called given current deeper).leaf token) :
    Leads whole.stop (whole.Calls (items.length + 1) outer called)
      (do
        let (node, place) ← text tokens place
        arguments tokens turns called given (current ++ [node]) deeper place)
      ((inCall outer called given current depth).complete whole.stop (token :: items)) := by
  rw [Builder.complete_cons, taken]
  refine (text_matches sees named).leads ?_
  rintro ⟨node, _⟩ next ⟨made, there, closed⟩
  rw [push_inCall] at made
  subst made there
  exact (inner.calls outer called given _ deeper sees.succ (.of_none closed) enough).mono
    fun _ _ _ _ calls => calls.mono (Nat.le_succ _)

theorem calls_name (inner : NamesLead whole turns) (sees : whole.Sees place (token :: items))
    (enough : 2 * items.length + 1 < turns) (named : token.kind = .ident) :
    Leads whole.stop (whole.Calls (items.length + 1) outer called)
      (do
        let (node, place) ← name tokens turns place
        arguments tokens turns called given (current ++ [node]) depth place)
      ((inCall outer called given current depth).complete whole.stop (token :: items)) := by
  refine (inner.names Builder.takesNames_call named sees enough).bind
    fun node _ _ _ reaches => ?_
  obtain ⟨rfl, sees, shorter, ready⟩ := reaches
  rw [push_inCall] at ready ⊢
  exact (inner.calls outer called given _ depth sees ready (by omega)).mono
    fun _ _ _ _ calls => calls.mono (Nat.le_of_lt shorter)

theorem calls_comma (inner : NamesLead whole turns) (sees : whole.Sees place (token :: items))
    (enough : 2 * items.length < turns) (isComma : token.kind = .comma) :
    Leads whole.stop (whole.Calls (items.length + 1) outer called)
      (arguments tokens turns called (given ++ [current]) [] 0 (place + 1))
      ((inCall outer called given current 0).complete whole.stop (token :: items)) := by
  have taken : (inCall outer called given current 0).step token =
      .ok (inCall outer called (given ++ [current]) [] 0) := by
    refine (Builder.step_call_comma isComma).trans ?_
    simp [inCall]
  rw [Builder.complete_of_ok taken]
  exact (inner.calls outer called _ [] 0 sees.succ (.of_none rfl) enough).mono
    fun _ _ _ _ calls => calls.mono (Nat.le_succ _)

theorem calls_close (sees : whole.Sees place (token :: items))
    (isParen : token.kind = .rightParen) :
    Leads whole.stop (whole.Calls (items.length + 1) outer called)
      (.ok (if given.isEmpty && current.isEmpty then given else given ++ [current], place + 1))
      ((inCall outer called given current 0).complete whole.stop (token :: items)) := by
  have taken : (inCall outer called given current 0).step token =
      .ok (outer.push (.call (called.location.span token.location) called.text
        (if given.isEmpty && current.isEmpty then given else given ++ [current]))) := by
    refine (Builder.step_call_rightParen isParen).trans ?_
    cases given <;> cases current <;> simp
  rw [Builder.complete_of_ok taken]
  refine .done ⟨⟨token, ?_, rfl⟩, sees.succ, Nat.lt_succ_self _⟩
  rw [lookBack, if_neg (Nat.succ_ne_zero _)]
  exact sees.look

theorem calls_succ (inner : NamesLead whole turns) (sees : whole.Sees place items)
    (ready : (inCall outer called given current depth).Ready items)
    (enough : 2 * items.length < turns + 1) :
    Leads whole.stop (whole.Calls items.length outer called)
      (arguments tokens (turns + 1) called given current depth place)
      ((inCall outer called given current depth).complete whole.stop items) := by
  rw [arguments, sees.look, ok_bind]
  cases items with
  | nil =>
      rw [List.headD_nil, if_pos (by simp [whole.isEnd])]
      exact .refused _
  | cons token items =>
      rw [List.headD_cons, sees.consume, List.length_cons]
      rw [List.length_cons] at enough
      have goesOn : token.kind ≠ .fileEnd := sees.head_ne whole.closes
      by_cases breaks : token.kind = .lineEnd
      · have refused : (inCall outer called given current depth).step token =
            .error ⟨.unterminatedCall called.text, called.location⟩ :=
          Builder.step_call_lineEnd breaks
        rw [if_pos (by simp [breaks]), Builder.complete_of_error refused]
        exact .refused _
      rw [if_neg (by simp [goesOn, breaks])]
      by_cases isDirective : token.kind = .directive
      · have refused : (inCall outer called given current depth).step token =
            .error ⟨.directiveInCall called.text, token.location⟩ :=
          Builder.step_call_directive isDirective
        rw [if_pos isDirective, Builder.complete_of_error refused]
        exact .refused _
      rw [if_neg isDirective]
      by_cases separates : (token.kind = .comma && depth == 0) = true
      · rw [if_pos separates]
        simp only [Bool.and_eq_true, decide_eq_true_eq, beq_iff_eq] at separates
        obtain ⟨isComma, rfl⟩ := separates
        exact inner.calls_comma sees (by omega) isComma
      rw [if_neg separates]
      by_cases closes : (token.kind = .rightParen && depth == 0) = true
      · rw [if_pos closes]
        simp only [Bool.and_eq_true, decide_eq_true_eq, beq_iff_eq] at closes
        obtain ⟨isParen, rfl⟩ := closes
        exact calls_close sees isParen
      rw [if_neg closes]
      by_cases named : token.kind = .ident
      · rw [if_pos named]
        exact inner.calls_name sees (by omega) named
      rw [if_neg named]
      refine inner.calls_text sees (by omega) named (Builder.step_call_text ?_ named
        ⟨breaks, isDirective⟩ fun isZero => ⟨fun isComma => separates ?_, fun isParen => closes ?_⟩)
      · exact ready token rfl
      · simp [isComma, isZero]
      · simp [isParen, isZero]

end

theorem succ (inner : NamesLead whole turns) : NamesLead whole (turns + 1) where
  names takes named sees enough := inner.names_succ takes named sees enough
  calls _ _ _ _ _ _ _ sees ready enough := inner.calls_succ sees ready enough

end NamesLead

theorem namesLead (turns : Nat) : NamesLead whole turns := by
  induction turns with
  | zero =>
      exact ⟨fun _ _ _ enough => absurd enough (Nat.not_lt_zero _),
        fun _ _ _ _ _ _ _ _ _ enough => absurd enough (Nat.not_lt_zero _)⟩
  | succ turns inner => exact inner.succ

end Descent

end ScopedMacros
