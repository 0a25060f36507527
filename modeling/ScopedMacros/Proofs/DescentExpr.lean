import ScopedMacros.Proofs.Descent
import ScopedMacros.Proofs.TestReading

/-!
# Reading expressions by their places

The tokens of an expression, read by their places, give what they give as a list: the same value or
the same error.  No look leaves the tokens, no step leaves the line, and no expression takes more
turns than it may.
-/

namespace ScopedMacros

namespace Descent

theorem ok_bind {ε α β : Type} (value : α) (next : α → Except ε β) :
    (Except.ok value >>= next) = next value := rfl

/-! ## Readings with the same outcome -/

/-- A reading by places and one from a list are refused for the same error, or have related
results. -/
inductive Matches {α σ : Type} (related : α → σ → Prop) :
    Except Fault α → Except Error σ → Prop
  | refused (error : Error) : Matches related (.error (.refused error)) (.error error)
  | done {found : α} {read : σ} (holds : related found read) :
      Matches related (.ok found) (.ok read)

namespace Matches

variable {α β σ τ : Type} {related : α → σ → Prop} {related' : β → τ → Prop}

theorem bind {walked : Except Fault α} {listed : Except Error σ} {walk : α → Except Fault β}
    {list : σ → Except Error τ} (first : Matches related walked listed)
    (next : ∀ found read, related found read → Matches related' (walk found) (list read)) :
    Matches related' (walked >>= walk) (listed >>= list) := by
  cases first with
  | refused error => exact .refused error
  | done holds => exact next _ _ holds

theorem map {walked : Except Fault α} {listed : Except Error σ} {wider : α → τ → Prop}
    {change : σ → τ} (outcome : Matches related walked listed)
    (le : ∀ found read, related found read → wider found (change read)) :
    Matches wider walked (listed >>= fun read => .ok (change read)) := by
  cases outcome with
  | refused error => exact .refused error
  | done holds => exact .done (le _ _ holds)

end Matches

/-! ## Tokens from a place on -/

/-- Where a stretch of tokens ends, which is at the first token of certain kinds.  The end of the file
is one of them, and nothing else is the last token. -/
structure Stretch (tokens : List Token) (ends : List Token.Kind) where
  stop : Token
  after : List Token
  stops : stop.kind ∈ ends
  more : stop.kind ≠ .fileEnd → after ≠ []
  closes : .fileEnd ∈ ends

section

variable {tokens : List Token} {ends : List Token.Kind} {stretch : Stretch tokens ends}
  {place : Nat}

/-- From a place on stand the tokens of a list, and then the stretch ends. -/
structure Stretch.Sees (stretch : Stretch tokens ends) (place : Nat) (list : List Token) :
    Prop where
  drop_eq : tokens.drop place = list ++ stretch.stop :: stretch.after
  free : ∀ token ∈ list, token.kind ∉ ends

theorem look_of_drop_eq {token : Token} {rest : List Token}
    (ahead : tokens.drop place = token :: rest) : look tokens place = .ok token := by
  have found : tokens[place]? = some token := by
    rw [← List.head?_drop, ahead]
    rfl
  simp [look, found]

theorem consume_of_drop_eq {token next : Token} {rest : List Token}
    (ahead : tokens.drop place = token :: next :: rest) (inside : token.kind ≠ .fileEnd) :
    consume tokens place = .ok (token, place + 1) := by
  have more : place + 1 < tokens.length := by
    have := congrArg List.length ahead
    simp only [List.length_drop, List.length_cons] at this
    omega
  rw [consume, look_of_drop_eq ahead]
  exact (if_pos more).trans (if_neg inside)

theorem drop_succ_of_drop_eq {token : Token} {rest : List Token}
    (ahead : tokens.drop place = token :: rest) : tokens.drop (place + 1) = rest := by
  rw [← List.drop_drop, ahead]
  rfl

theorem Stretch.stop_ne (stretch : Stretch tokens ends) (kind : Token.Kind) (other : kind ∉ ends) :
    stretch.stop.kind ≠ kind :=
  fun same => other (same ▸ stretch.stops)

namespace Stretch.Sees

variable {token : Token} {list : List Token}

theorem look (sees : stretch.Sees place list) :
    look tokens place = .ok (list.headD stretch.stop) := by
  cases list with
  | nil => exact look_of_drop_eq sees.drop_eq
  | cons token list => exact look_of_drop_eq sees.drop_eq

theorem succ (sees : stretch.Sees place (token :: list)) : stretch.Sees (place + 1) list :=
  ⟨drop_succ_of_drop_eq sees.drop_eq, fun inner mem => sees.free inner (.tail token mem)⟩

theorem head_ne (sees : stretch.Sees place (token :: list)) {kind : Token.Kind}
    (ended : kind ∈ ends) : token.kind ≠ kind :=
  fun same => sees.free token (.head _) (same ▸ ended)

theorem consume (sees : stretch.Sees place (token :: list)) :
    consume tokens place = .ok (token, place + 1) := by
  have inside := sees.head_ne stretch.closes
  cases list with
  | nil => exact consume_of_drop_eq sees.drop_eq inside
  | cons next list => exact consume_of_drop_eq sees.drop_eq inside

theorem place_lt (sees : stretch.Sees place list) : place + list.length < tokens.length := by
  have := congrArg List.length sees.drop_eq
  simp only [List.length_drop, List.length_append, List.length_cons] at this
  omega

theorem inside (sees : stretch.Sees place list) : place < tokens.length :=
  Nat.lt_of_le_of_lt (Nat.le_add_right _ _) sees.place_lt

end Stretch.Sees

/-- What a list gives and leaves, found by its place. -/
def Stretch.Finds {α σ : Type} (stretch : Stretch tokens ends) (value : σ → α)
    (rest : σ → List Token) (found : α × Nat) (read : σ) : Prop :=
  found.1 = value read ∧ stretch.Sees found.2 (rest read)

/-- Something is taken from a list as it is found by places. -/
def Stretch.Takes {α : Type} (stretch : Stretch tokens ends) :
    Except Fault (α × Nat) → Except Error (α × List Token) → Prop :=
  Matches (stretch.Finds Prod.fst Prod.snd)

/-- A reading of a list is as that by places. -/
def Stretch.Reads {α : Type} {bound : Nat} (stretch : Stretch tokens ends) :
    Except Fault (α × Nat) → Except Error (Reading α bound) → Prop :=
  Matches (stretch.Finds Reading.value Reading.rest)

/-! ## Expected tokens -/

/-- Takes the first token for something. -/
def takeFirst {α : Type} (take? : Token → Option α) (stop : Token) (what : Expectation) :
    List Token → Except Error (α × List Token)
  | token :: rest =>
      match take? token with
      | some value => .ok (value, rest)
      | none => .error (what.failed stop (token :: rest))
  | [] => .error (what.failed stop [])

variable {α : Type} {take? : Token → Option α} {what : Expectation} {list : List Token}

theorem expect_of_none (sees : stretch.Sees place list)
    (other : take? (list.headD stretch.stop) = none) :
    expect tokens take? what place = .error (.refused (what.failed stretch.stop list)) := by
  simp only [expect, sees.look, ok_bind, other]
  rfl

theorem expect_of_some {token : Token} {value : α} (sees : stretch.Sees place (token :: list))
    (taken : take? token = some value) :
    expect tokens take? what place = .ok (value, place + 1) := by
  simp only [expect, sees.look, ok_bind, List.headD_cons, taken, sees.consume]

theorem ofKind?_of_eq {kind : Token.Kind} {token : Token} (same : token.kind = kind) :
    ofKind? kind token = some token :=
  if_pos same

theorem ofKind?_of_ne {kind : Token.Kind} {token : Token} (other : token.kind ≠ kind) :
    ofKind? kind token = none :=
  if_neg other

theorem expect_matches (stops : take? stretch.stop = none) (sees : stretch.Sees place list) :
    stretch.Takes (expect tokens take? what place) (takeFirst take? stretch.stop what list) := by
  cases list with
  | nil =>
      rw [expect_of_none sees stops]
      exact .refused _
  | cons token list =>
      rw [takeFirst]
      cases taken : take? token with
      | none =>
          rw [expect_of_none sees taken]
          exact .refused _
      | some value =>
          rw [expect_of_some sees taken]
          exact .done ⟨rfl, sees.succ⟩

theorem expect_name_matches (named : .ident ∉ ends) (sees : stretch.Sees place list) :
    stretch.Takes (expect tokens (ofKind? .ident) what place)
      (Builder.takeName stretch.stop what list) := by
  have same : Builder.takeName stretch.stop what list =
      takeFirst (ofKind? .ident) stretch.stop what list := by
    cases list with
    | nil => rfl
    | cons token list =>
        rw [Builder.takeName, takeFirst, ofKind?]
        split <;> rfl
  rw [same]
  exact expect_matches (ofKind?_of_ne (stretch.stop_ne _ named)) sees

/-- A closing parenthesis after a reading is expected as any other token. -/
theorem close_matches {bound : Nat} {reading : Reading α bound} (inside : .rightParen ∉ ends)
    (sees : stretch.Sees place reading.rest) :
    Matches
      (fun found (read : Token × Reading α bound) => found.1 = read.1 ∧
        read.2.value = reading.value ∧ stretch.Sees found.2 read.2.rest)
      (expect tokens (ofKind? .rightParen) what place) (reading.close stretch.stop what) := by
  obtain ⟨value, rest, shorter⟩ := reading
  cases rest with
  | nil =>
      rw [expect_of_none sees (ofKind?_of_ne (stretch.stop_ne _ inside))]
      exact .refused _
  | cons token rest =>
      change Matches _ _ (if token.kind = .rightParen then _ else _)
      by_cases close : token.kind = .rightParen
      · rw [expect_of_some sees (ofKind?_of_eq close), if_pos close]
        exact .done ⟨rfl, rfl, sees.succ⟩
      · rw [expect_of_none sees (ofKind?_of_ne close), if_neg close]
        exact .refused _

end

/-! ## Arithmetic -/

/-- The kinds that end a directive line. -/
def lineEnds : List Token.Kind :=
  [.lineEnd, .fileEnd]

section

variable {tokens : List Token} {stretch : Stretch tokens lineEnds} {turns : Nat}

theorem Stretch.stop_cases (stretch : Stretch tokens lineEnds) :
    (∃ text location, stretch.stop = ⟨.lineEnd, text, location⟩) ∨
      ∃ text location, stretch.stop = ⟨.fileEnd, text, location⟩ := by
  obtain ⟨⟨kind, text, location⟩, _, stops, _, _⟩ := stretch
  simpa [lineEnds] using stops

theorem isWord_stop (word : Bytes) : stretch.stop.isWord word = false := by
  simp [Token.isWord, stretch.stop_ne .ident (by decide)]

theorem atLevel?_stop (level : Arith.Level) : Operation.atLevel? level stretch.stop = none := by
  obtain ⟨_, _, same⟩ | ⟨_, _, same⟩ := stretch.stop_cases <;> rw [same] <;> rfl

theorem arith_ofToken?_stop : Arith.ofToken? stretch.stop = none := by
  obtain ⟨_, _, same⟩ | ⟨_, _, same⟩ := stretch.stop_cases <;> rw [same] <;> rfl

/-- Within the given number of turns, arithmetic read by places is that read from the line.  Four
turns for each token are enough, since at most one expression of each level starts there. -/
structure ArithMatches {tokens : List Token} (stretch : Stretch tokens lineEnds) (turns : Nat) :
    Prop where
  read {level : Arith.Level} {place : Nat} {line : List Token}
    (sees : stretch.Sees place line) (enough : 4 * line.length + level.rank < turns) :
    stretch.Reads (arith tokens turns level place) (Arith.read stretch.stop level line)
  chain {level : Arith.Level} {place bound : Nat} (left : Reading Arith bound)
    (sees : stretch.Sees place left.rest) (enough : 4 * left.rest.length < turns) :
    stretch.Reads
      (arithChain tokens turns level left.value place) (Arith.readChain stretch.stop level left)

namespace ArithMatches

theorem chain_succ (inner : ArithMatches stretch turns)
    {level : Arith.Level} {place bound : Nat} {left : Reading Arith bound}
    (sees : stretch.Sees place left.rest) (enough : 4 * left.rest.length < turns + 1) :
    stretch.Reads
      (arithChain tokens (turns + 1) level left.value place)
      (Arith.readChain stretch.stop level left) := by
  rw [arithChain, sees.look, ok_bind, Arith.readChain.eq_def]
  obtain ⟨value, rest, shorter⟩ := left
  cases rest with
  | nil =>
      simp only [List.headD_nil, atLevel?_stop]
      exact .done ⟨rfl, sees⟩
  | cons token rest =>
      simp only [List.headD_cons]
      have small : 4 * rest.length + 4 < turns + 1 := by
        simp only [List.length_cons] at enough
        omega
      cases Operation.atLevel? level token with
      | none => exact .done ⟨rfl, sees⟩
      | some operation =>
          simp only [sees.consume, ok_bind]
          have rank : level.tighter.rank ≤ 2 := by cases level <;> decide
          refine (inner.read sees.succ (by omega)).bind ?_
          rintro ⟨_, place⟩ right ⟨same, finds⟩
          subst same
          have := right.shorter
          exact inner.chain ((right.map (Arith.join operation value)).widen _) finds (by
            simp only [Reading.rest_widen, Reading.rest_map]
            omega)

theorem operand_succ (inner : ArithMatches stretch turns)
    {place : Nat} {line : List Token} (sees : stretch.Sees place line)
    (enough : 4 * line.length < turns + 1) :
    stretch.Reads
      (arith tokens (turns + 1) .operand place) (Arith.read stretch.stop .operand line) := by
  rw [arith, sees.look, ok_bind]
  cases line with
  | nil =>
      rw [Arith.read, List.headD_nil, if_neg (stretch.stop_ne _ (by decide)), isWord_stop,
        if_neg (by simp [stretch.stop_ne (.op .tilde) (by decide)]),
        if_neg (stretch.stop_ne _ (by decide)), if_neg (stretch.stop_ne _ (by decide)),
        expect_of_none sees arith_ofToken?_stop]
      exact .refused _
  | cons token rest =>
      rw [Arith.read, List.headD_cons, sees.consume]
      simp only [List.length_cons] at enough
      have operand : stretch.Reads (arith tokens turns .operand (place + 1))
          (Arith.read stretch.stop .operand rest) :=
        inner.read sees.succ (by simp only [Arith.Level.rank]; omega)
      split
      · refine operand.bind ?_
        rintro ⟨_, _⟩ value ⟨same, finds⟩
        subst same
        exact .done ⟨rfl, finds⟩
      split
      · refine operand.bind ?_
        rintro ⟨_, _⟩ value ⟨same, finds⟩
        subst same
        exact .done ⟨rfl, finds⟩
      split
      · exact operand.map fun _ _ finds => finds
      split
      · refine (inner.read sees.succ ?_).bind ?_
        · simp only [Arith.Level.rank]
          omega
        rintro ⟨_, _⟩ value ⟨same, finds⟩
        refine (close_matches (by decide) finds).bind ?_
        rintro ⟨_, _⟩ ⟨_, _⟩ ⟨shut, kept, finds⟩
        subst same shut
        exact .done ⟨congrArg (Arith.relocate _) kept.symm, finds⟩
      · cases taken : Arith.ofToken? token with
        | none =>
            rw [expect_of_none sees taken]
            exact .refused _
        | some value =>
            rw [expect_of_some sees taken]
            exact .done ⟨rfl, sees.succ⟩

theorem shift_succ (inner : ArithMatches stretch turns)
    {place : Nat} {line : List Token} (sees : stretch.Sees place line)
    (enough : 4 * line.length + 1 < turns + 1) :
    stretch.Reads
      (arith tokens (turns + 1) .shift place) (Arith.read stretch.stop .shift line) := by
  rw [arith, Arith.read]
  refine (inner.read sees (by simp only [Arith.Level.rank]; omega)).bind ?_
  rintro ⟨_, place⟩ left ⟨same, sees⟩
  subst same
  obtain ⟨value, rest, shorter⟩ := left
  simp only [sees.look, ok_bind]
  cases rest with
  | nil =>
      simp only [List.headD_nil, atLevel?_stop]
      exact .done ⟨rfl, sees⟩
  | cons token rest =>
      simp only [List.headD_cons]
      cases Operation.atLevel? .shift token with
      | none => exact .done ⟨rfl, sees⟩
      | some operation =>
          simp only [sees.consume, ok_bind]
          refine (inner.read sees.succ ?_).bind ?_
          · simp only [Arith.Level.rank, List.length_cons] at shorter ⊢
            omega
          rintro ⟨_, _⟩ right ⟨same, finds⟩
          subst same
          exact .done ⟨rfl, finds⟩

theorem chained_succ (inner : ArithMatches stretch turns) (level : Arith.Level)
    {place : Nat} {line : List Token} (sees : stretch.Sees place line)
    (enough : 4 * line.length + level.tighter.rank < turns) :
    stretch.Reads (do
        let (left, place) ← arith tokens turns level.tighter place
        arithChain tokens turns level left place)
      (do
        let left ← Arith.read stretch.stop level.tighter line
        Arith.readChain stretch.stop level left) := by
  refine (inner.read sees enough).bind ?_
  rintro ⟨_, _⟩ left ⟨same, sees⟩
  subst same
  have := left.shorter
  exact inner.chain left sees (by omega)

theorem succ (inner : ArithMatches stretch turns) :
    ArithMatches stretch (turns + 1) where
  chain left sees enough := inner.chain_succ sees enough
  read {level _ _} sees enough := by
    cases level with
    | sum =>
        rw [arith, Arith.read]
        exact inner.chained_succ .sum sees (Nat.lt_of_succ_lt_succ enough)
    | product =>
        rw [arith, Arith.read]
        exact inner.chained_succ .product sees (Nat.lt_of_succ_lt_succ enough)
    | shift => exact inner.shift_succ sees enough
    | operand => exact inner.operand_succ sees enough

end ArithMatches

theorem arithMatches (turns : Nat) : ArithMatches stretch turns := by
  induction turns with
  | zero =>
      exact ⟨fun _ enough => absurd enough (Nat.not_lt_zero _),
        fun _ _ enough => absurd enough (Nat.not_lt_zero _)⟩
  | succ turns inner => exact inner.succ

variable {place : Nat} {line : List Token}

theorem sum_matches (sees : stretch.Sees place line) :
    stretch.Reads
      (arith tokens (Descent.turns tokens) .sum place) (Arith.read stretch.stop .sum line) :=
  (arithMatches _).read sees (by
    have := sees.place_lt
    simp only [Arith.Level.rank, Descent.turns]
    omega)

/-! ## Tests -/

theorem comparison_stop : Comparison.ofToken? stretch.stop = none := by
  obtain ⟨_, _, same⟩ | ⟨_, _, same⟩ := stretch.stop_cases <;> rw [same] <;> rfl

theorem comparison_matches (sees : stretch.Sees place line) :
    stretch.Reads (comparison tokens place) (Test.readComparison stretch.stop line) := by
  rw [comparison, Test.readComparison]
  refine (sum_matches sees).bind ?_
  rintro ⟨_, place⟩ left ⟨same, sees⟩
  subst same
  obtain ⟨value, rest, shorter⟩ := left
  simp only [sees.look, ok_bind]
  cases rest with
  | nil =>
      simp only [List.headD_nil, comparison_stop]
      exact .done ⟨rfl, sees⟩
  | cons token rest =>
      simp only [List.headD_cons]
      cases Comparison.ofToken? token with
      | none => exact .done ⟨rfl, sees⟩
      | some comparison =>
          simp only [sees.consume, ok_bind]
          refine (sum_matches sees.succ).bind ?_
          rintro ⟨_, _⟩ right ⟨same, finds⟩
          subst same
          exact .done ⟨rfl, finds⟩

theorem readDefined_of_ne {word token : Token} (bare : token.kind ≠ .leftParen) :
    Test.readDefined stretch.stop word (token :: line) =
      if token.kind = .ident then
        .ok ⟨.defined (word.location.span token.location) token.text, line,
          Nat.lt_succ_of_lt (Nat.lt_succ_self _)⟩
      else .error (Expectation.nameAfterDefined.failed stretch.stop (token :: line)) := by
  obtain ⟨kind, text, location⟩ := token
  cases kind <;> first | rfl | exact absurd rfl bare

theorem definedName_matches (word : Token) (sees : stretch.Sees place line) :
    stretch.Reads (definedName tokens word place) (Test.readDefined stretch.stop word line) := by
  have unnamed : ofKind? .ident stretch.stop = none := ofKind?_of_ne (stretch.stop_ne _ (by decide))
  rw [definedName, sees.look, ok_bind]
  cases line with
  | nil =>
      rw [List.headD_nil, if_neg (stretch.stop_ne _ (by decide)), expect_of_none sees unnamed]
      exact .refused _
  | cons token line =>
      rw [List.headD_cons]
      by_cases opened : token.kind = .leftParen
      · rw [if_pos opened, sees.consume, ok_bind]
        obtain ⟨kind, text, location⟩ := token
        subst opened
        cases line with
        | nil =>
            simp only [expect_of_none sees.succ unnamed]
            exact .refused _
        | cons name line =>
            rw [Test.readDefined]
            by_cases named : name.kind = .ident
            · simp only [if_pos named,
                expect_of_some sees.succ (ofKind?_of_eq named), ok_bind]
              refine (close_matches (by decide) sees.succ.succ).bind ?_
              rintro ⟨_, _⟩ ⟨_, _⟩ ⟨shut, kept, finds⟩
              subst shut
              exact .done ⟨congrArg (Test.defined _) kept.symm, finds⟩
            · simp only [if_neg named, expect_of_none sees.succ (ofKind?_of_ne named)]
              exact .refused _
      · rw [if_neg opened, readDefined_of_ne opened]
        by_cases named : token.kind = .ident
        · rw [expect_of_some sees (ofKind?_of_eq named), if_pos named]
          exact .done ⟨rfl, sees.succ⟩
        · rw [expect_of_none sees (ofKind?_of_ne named), if_neg named]
          exact .refused _

theorem closing_cons {token : Token} {turns : Nat} {depth : Int}
    (sees : stretch.Sees place (token :: line)) :
    closing tokens (turns + 1) depth place =
      if token.kind = .leftParen then closing tokens turns (depth + 1) (place + 1)
      else if token.kind = .rightParen then
        if depth - 1 = 0 then .ok (some place) else closing tokens turns (depth - 1) (place + 1)
      else closing tokens turns depth (place + 1) := by
  have goesOn : ¬ (token.kind = .lineEnd || token.kind = .fileEnd) = true := by
    simpa [lineEnds] using sees.free token (.head _)
  rw [closing, if_neg sees.inside.not_ge, sees.look, ok_bind, List.headD_cons, if_neg goesOn]

/-- The parenthesis that closes the given number of open ones and one more is found where the list
has it. -/
theorem closing_matches {turns : Nat} (depth : Nat)
    (sees : stretch.Sees place line) (enough : line.length < turns) :
    ∃ found, closing tokens turns (depth + 1) place = .ok found ∧
      Option.Rel (fun close rest => stretch.Sees (close + 1) rest) found
        (Test.afterClosing? depth line) := by
  induction turns generalizing depth place line with
  | zero => exact absurd enough (Nat.not_lt_zero _)
  | succ turns ih =>
      cases line with
      | nil =>
          have ended : (stretch.stop.kind = .lineEnd || stretch.stop.kind = .fileEnd) = true := by
            simpa [lineEnds] using stretch.stops
          rw [closing, if_neg sees.inside.not_ge, sees.look, ok_bind, List.headD_nil, if_pos ended]
          exact ⟨none, rfl, .none⟩
      | cons token line =>
          have small : line.length < turns := Nat.lt_of_succ_lt_succ enough
          rw [closing_cons sees]
          by_cases opens : token.kind = .leftParen
          · rw [if_pos opens, Test.afterClosing?_of_open opens]
            exact_mod_cast ih (depth + 1) sees.succ small
          rw [if_neg opens]
          by_cases closes : token.kind = .rightParen
          · rw [if_pos closes]
            cases depth with
            | zero =>
                rw [Test.afterClosing?_zero_of_close closes]
                exact ⟨some place, rfl, .some sees.succ⟩
            | succ depth =>
                have back : ((depth + 1 : Nat) : Int) + 1 - 1 = depth + 1 := by omega
                rw [Test.afterClosing?_of_close closes, back, if_neg (by omega)]
                exact ih depth sees.succ small
          · rw [if_neg closes, Test.afterClosing?_of_other opens closes]
            exact ih depth sees.succ small

/-- Within the given number of turns, tests read by places are those read from the line.  Three
turns for each token are enough. -/
structure TestMatches {tokens : List Token} (stretch : Stretch tokens lineEnds) (turns : Nat) :
    Prop where
  read (level : Test.Level) {place : Nat} {line : List Token}
    (sees : stretch.Sees place line) (enough : 3 * line.length + level.rank < turns) :
    stretch.Reads (test tokens turns level place) (Test.read stretch.stop level line)
  chain {level : Test.Level} {place bound : Nat} (left : Reading Test bound)
    (sees : stretch.Sees place left.rest) (enough : 3 * left.rest.length < turns) :
    stretch.Reads
      (testChain tokens turns level left.value place) (Test.readChain stretch.stop level left)

namespace TestMatches

variable {turns : Nat}

theorem chain_succ (inner : TestMatches stretch turns)
    {level : Test.Level} {bound : Nat} {left : Reading Test bound}
    (sees : stretch.Sees place left.rest) (enough : 3 * left.rest.length < turns + 1) :
    stretch.Reads
      (testChain tokens (turns + 1) level left.value place)
      (Test.readChain stretch.stop level left) := by
  rw [testChain, sees.look, ok_bind, Test.readChain.eq_def]
  obtain ⟨value, rest, shorter⟩ := left
  cases rest with
  | nil =>
      have ended : ¬ level.op?.map .op = some stretch.stop.kind := by
        obtain ⟨_, _, same⟩ | ⟨_, _, same⟩ := stretch.stop_cases <;> simp [same]
      change stretch.Reads (if level.op?.map .op = some stretch.stop.kind then _ else _) _
      rw [if_neg ended]
      exact .done ⟨rfl, sees⟩
  | cons token rest =>
      change stretch.Reads (if level.op?.map .op = some token.kind then _ else _)
        (if level.op?.map .op = some token.kind then _ else _)
      simp only [List.length_cons] at enough
      split
      · rw [sees.consume]
        have rank : level.tighter.rank ≤ 1 := by cases level <;> decide
        refine (inner.read level.tighter sees.succ (by omega)).bind ?_
        rintro ⟨_, _⟩ right ⟨same, finds⟩
        subst same
        have := right.shorter
        exact inner.chain ((right.map (Test.join level value)).widen _) finds (by
          simp only [Reading.rest_widen, Reading.rest_map]
          omega)
      · exact .done ⟨rfl, sees⟩

/-- A condition in parentheses, once it is known not to be an operand. -/
theorem nested_succ (inner : TestMatches stretch turns)
    {token : Token} (sees : stretch.Sees place (token :: line))
    (enough : 3 * line.length + 2 < turns) :
    stretch.Reads (do
        let (left, place) ← consume tokens place
        let (inner, place) ← test tokens turns .either place
        let (right, place) ← expect tokens (ofKind? .rightParen) .rightParen place
        .ok (inner.relocate (left.location.span right.location), place))
      (do
        let inner ← Test.read stretch.stop .either line
        let (close, inner) ← inner.close stretch.stop .rightParen
        .ok ((inner.map (Test.relocate (token.location.span close.location))).widen
          (Nat.le_succ line.length))) := by
  simp only [sees.consume, ok_bind]
  refine (inner.read .either sees.succ enough).bind ?_
  rintro ⟨_, _⟩ value ⟨same, finds⟩
  refine (close_matches (by decide) finds).bind ?_
  rintro ⟨_, _⟩ ⟨_, _⟩ ⟨shut, kept, finds⟩
  subst same shut
  exact .done ⟨congrArg (Test.relocate _) kept.symm, finds⟩

/-- The token after the matching parenthesis decides what the parenthesis starts. -/
theorem paren_succ (inner : TestMatches stretch turns)
    {token : Token} (opens : token.kind = .leftParen)
    (sees : stretch.Sees place (token :: line)) (enough : 3 * line.length + 2 < turns) :
    stretch.Reads (do
        match ← closing tokens (Descent.turns tokens) 0 place with
        | none => refuse .unbalancedParens token.location
        | some close => do
            let after ← look tokens (if close + 1 < tokens.length then close + 1 else close)
            if Test.continues after then comparison tokens place
            else do
              let (left, place) ← consume tokens place
              let (inner, place) ← test tokens turns .either place
              let (right, place) ← expect tokens (ofKind? .rightParen) .rightParen place
              .ok (inner.relocate (left.location.span right.location), place))
      (match Test.afterClosing? 0 line with
      | none => .error ⟨.unbalancedParens, token.location⟩
      | some after =>
          if Test.continues (after.headD stretch.stop) then
            Test.readComparison stretch.stop (token :: line)
          else do
            let inner ← Test.read stretch.stop .either line
            let (close, inner) ← inner.close stretch.stop .rightParen
            .ok ((inner.map (Test.relocate (token.location.span close.location))).widen
              (Nat.le_succ line.length))) := by
  have bound := sees.place_lt
  simp only [List.length_cons] at bound
  obtain ⟨found, closed, rel⟩ := closing_matches 0 sees.succ
    (show line.length < 4 * tokens.length + 3 by omega)
  have started : closing tokens (Descent.turns tokens) 0 place = .ok found := by
    rw [← closed, Descent.turns, Nat.mul_succ, closing_cons sees, if_pos opens]
    rfl
  rw [started, ok_bind]
  generalize Test.afterClosing? 0 line = closing at rel
  cases rel with
  | none => exact .refused _
  | @some close rest sight =>
      have more : close + 1 < tokens.length := sight.inside
      simp only [if_pos more, sight.look, ok_bind]
      split
      · exact comparison_matches sees
      · exact inner.nested_succ sees enough

theorem single_succ (inner : TestMatches stretch turns) (sees : stretch.Sees place line)
    (enough : 3 * line.length < turns + 1) :
    stretch.Reads
      (test tokens (turns + 1) .single place) (Test.read stretch.stop .single line) := by
  rw [test, sees.look, ok_bind]
  cases line with
  | nil =>
      rw [Test.read, List.headD_nil, isWord_stop, isWord_stop, isWord_stop,
        isWord_stop, if_neg (by simp [stretch.stop_ne (.op .not) (by decide)]),
        if_neg Bool.false_ne_true, if_neg Bool.false_ne_true, if_neg Bool.false_ne_true,
        if_neg (stretch.stop_ne _ (by decide))]
      exact comparison_matches sees
  | cons token rest =>
      rw [Test.read, List.headD_cons]
      simp only [List.length_cons] at enough
      split
      · simp only [sees.consume, ok_bind]
        refine (inner.read .single sees.succ ?_).bind ?_
        · simp only [Test.Level.rank]
          omega
        rintro ⟨_, _⟩ value ⟨same, finds⟩
        subst same
        exact .done ⟨rfl, finds⟩
      split
      · rw [sees.consume]
        exact .done ⟨rfl, sees.succ⟩
      split
      · rw [sees.consume]
        exact .done ⟨rfl, sees.succ⟩
      split
      · rw [sees.consume]
        exact definedName_matches token sees.succ
      split
      · next opened => exact inner.paren_succ opened sees (by omega)
      · exact comparison_matches sees

theorem chained_succ (inner : TestMatches stretch turns) (level : Test.Level)
    (sees : stretch.Sees place line) (enough : 3 * line.length + level.tighter.rank < turns) :
    stretch.Reads (do
        let (left, place) ← test tokens turns level.tighter place
        testChain tokens turns level left place)
      (do
        let left ← Test.read stretch.stop level.tighter line
        Test.readChain stretch.stop level left) := by
  refine (inner.read level.tighter sees enough).bind ?_
  rintro ⟨_, _⟩ left ⟨same, sees⟩
  subst same
  have := left.shorter
  exact inner.chain left sees (by omega)

theorem succ (inner : TestMatches stretch turns) :
    TestMatches stretch (turns + 1) where
  chain left sees enough := inner.chain_succ sees enough
  read level _ _ sees enough := by
    cases level with
    | either =>
        rw [test, Test.read]
        exact inner.chained_succ .either sees (Nat.lt_of_succ_lt_succ enough)
    | both =>
        rw [test, Test.read]
        exact inner.chained_succ .both sees (Nat.lt_of_succ_lt_succ enough)
    | single => exact inner.single_succ sees enough

end TestMatches

theorem testMatches (turns : Nat) : TestMatches stretch turns := by
  induction turns with
  | zero =>
      exact ⟨fun _ _ _ _ enough => absurd enough (Nat.not_lt_zero _),
        fun _ _ enough => absurd enough (Nat.not_lt_zero _)⟩
  | succ turns inner => exact inner.succ

theorem expression_matches (sees : stretch.Sees place line) :
    stretch.Takes (expression tokens place) (Test.ofTokens stretch.stop line) := by
  have bound := sees.place_lt
  have read : stretch.Reads
      (test tokens (Descent.turns tokens) .either place) (Test.read stretch.stop .either line) :=
    (testMatches _).read .either sees (by
      simp only [Descent.turns, Test.Level.rank]
      omega)
  rw [expression, sees.look, ok_bind, Test.ofTokens]
  cases line with
  | nil =>
      rw [List.headD_nil]
      by_cases ended : stretch.stop.kind = .lineEnd
      · rw [if_pos ended, if_pos (by simp [ended])]
        exact .refused _
      · rw [if_neg ended, if_neg (by simp [ended])]
        exact read.map fun _ _ finds => finds
  | cons token line =>
      rw [List.headD_cons, if_neg (sees.head_ne (by decide)), if_neg (by simp)]
      exact read.map fun _ _ finds => finds

/-- An expression that is found to take up the line is read from the whole of it. -/
theorem ofTokens_eq_of_expression {stop : Token} {after : List Token} {test : Test}
    (stops : stop.kind ∈ lineEnds) (more : after ≠ []) (free : ∀ token ∈ line, token.kind ∉ lineEnds)
    (found : expression (line ++ stop :: after) 0 = .ok (test, line.length)) :
    Test.ofTokens stop line = .ok (test, []) := by
  let stretch : Stretch (line ++ stop :: after) lineEnds :=
    ⟨stop, after, stops, fun _ => more, by decide⟩
  have outcome := expression_matches (⟨rfl, free⟩ : stretch.Sees 0 line)
  rw [found] at outcome
  generalize Test.ofTokens stretch.stop line = listed at outcome ⊢
  cases outcome with
  | @done _ read holds =>
      obtain ⟨test, rest⟩ := read
      obtain ⟨rfl, sees⟩ := holds
      have left : stop :: after = rest ++ stop :: after := List.drop_left.symm.trans sees.drop_eq
      rw [List.self_eq_append_left.1 left]

end

end Descent

end ScopedMacros
