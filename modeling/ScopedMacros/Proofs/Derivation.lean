import ScopedMacros.Proofs.ArithReading
import ScopedMacros.Proofs.Contents
import ScopedMacros.Proofs.Row

/-!
# Which tokens an expression is read from

An expression is derived from a stretch of tokens, and its location goes from the first of them to the
last, except that it leaves out signs in front that change nothing.  Each part of the expression is
derived from a stretch of its own.  Whatever is read is derived, and from the tokens of a derivation
alone the same expression is read again.
-/

namespace ScopedMacros

/-- A closing parenthesis is the next token after the value. -/
theorem Reading.closes {α : Type} {bound : Nat} (reading : Reading α bound) (stop : Token)
    (what : Expectation) :
    WellRead (fun closed => closed.1.kind = .rightParen ∧
      reading.rest = closed.1 :: closed.2.rest ∧ closed.2.value = reading.value)
      (reading.close stop what) := by
  unfold Reading.close
  split
  · exact rfl
  · next token rest found =>
      split
      · next isClose => exact ⟨isClose, found, rfl⟩
      · exact rfl

namespace Arith

/-- The tokens that an expression of a level is read from, with the places it gets from them. -/
inductive Derives : Level → List Token → Arith → Prop where
  | token {token : Token} {tree : Arith} (value : ofToken? token = some tree)
      (free : token.isWord (bytes "lnot") = false) : Derives .operand [token] tree
  | plus {sign : Token} {tokens : List Token} {tree : Arith} (isSign : sign.kind = .op .plus)
      (derives : Derives .operand tokens tree) : Derives .operand (sign :: tokens) tree
  | neg {sign : Token} {tokens : List Token} {tree : Arith} (isSign : sign.kind = .op .minus)
      (derives : Derives .operand tokens tree) :
      Derives .operand (sign :: tokens) (.neg (sign.location.span tree.location) tree)
  | complement {sign : Token} {tokens : List Token} {tree : Arith}
      (isSign : (sign.kind = .op .tilde || sign.isWord (bytes "lnot")) = true)
      (derives : Derives .operand tokens tree) :
      Derives .operand (sign :: tokens) (.complement (sign.location.span tree.location) tree)
  | parens {paren close : Token} {tokens : List Token} {tree : Arith}
      (opens : paren.kind = .leftParen) (closes : close.kind = .rightParen)
      (derives : Derives .sum tokens tree) :
      Derives .operand (paren :: (tokens ++ [close]))
        (tree.relocate (paren.location.span close.location))
  | shift {sign : Token} {operation : Operation} {left right : List Token} {first second : Arith}
      (found : Operation.ofToken? sign = some operation) (shifts : operation.level = .shift)
      (derivesFirst : Derives .operand left first) (derivesSecond : Derives .shift right second) :
      Derives .shift (left ++ sign :: right) (join operation first second)
  | chain {level : Level} {sign : Token} {operation : Operation} {left right : List Token}
      {first second : Arith} (found : Operation.ofToken? sign = some operation)
      (made : operation.level = level) (chained : level.isChain = true)
      (derivesFirst : Derives level left first)
      (derivesSecond : Derives level.tighter right second) :
      Derives level (left ++ sign :: right) (join operation first second)
  | loosen {level : Level} {tokens : List Token} {tree : Arith}
      (derives : Derives level.tighter tokens tree) : Derives level tokens tree

/-! ## What is read is derived -/

/-- The reading uses tokens at the head of the list, from which its value is derived. -/
def Used (level : Level) (tokens : List Token) {bound : Nat} (reading : Reading Arith bound) : Prop :=
  ∃ used, tokens = used ++ reading.rest ∧ Derives level used reading.value

/-- What is read is derived, or there is an error of form. -/
abbrev ReadsUsed (level : Level) (tokens : List Token) {bound : Nat}
    (answer : Except Error (Reading Arith bound)) : Prop :=
  WellRead (Used level tokens) answer

/-- What is read from lists shorter than the bound is derived. -/
def ReadsShort (stop : Token) (bound : Nat) : Prop :=
  ∀ level tokens, tokens.length < bound → ReadsUsed level tokens (read stop level tokens)

variable {stop : Token} {level : Level} {tokens : List Token} {tree : Arith}

theorem Used.loosen {bound : Nat} {reading : Reading Arith bound}
    (used : Used level.tighter tokens reading) : Used level tokens reading := by
  obtain ⟨front, whole, derives⟩ := used
  exact ⟨front, whole, .loosen derives⟩

theorem append_of_split {front rest more after : List Token} (whole : tokens = front ++ rest)
    (split : rest = more ++ after) : tokens = front ++ more ++ after := by
  rw [whole, split, List.append_assoc]

theorem atLevel?_eq_some {token : Token} {operation : Operation}
    (found : Operation.atLevel? level token = some operation) :
    Operation.ofToken? token = some operation ∧ operation.level = level := by
  obtain ⟨found, same⟩ := Option.filter_eq_some_iff.1 found
  exact ⟨found, of_decide_eq_true same⟩

theorem readsUsed_operand (shorter : ReadsShort stop tokens.length) :
    ReadsUsed .operand tokens (read stop .operand tokens) := by
  cases tokens with
  | nil =>
      rw [read]
      exact rfl
  | cons token rest =>
      have inner : ∀ level, ReadsUsed level rest (read stop level rest) :=
        fun level => shorter level rest (Nat.lt_succ_self _)
      rw [read.eq_def]
      dsimp only
      split
      · next minus =>
          refine (inner .operand).bind fun operand derived => ?_
          obtain ⟨used, whole, derives⟩ := derived
          exact ⟨token :: used, congrArg (token :: ·) whole, .neg minus derives⟩
      split
      · next sign =>
          refine (inner .operand).bind fun operand derived => ?_
          obtain ⟨used, whole, derives⟩ := derived
          exact ⟨token :: used, congrArg (token :: ·) whole, .complement sign derives⟩
      next notComplement =>
      split
      · next plus =>
          refine (inner .operand).bind fun operand derived => ?_
          obtain ⟨used, whole, derives⟩ := derived
          exact ⟨token :: used, congrArg (token :: ·) whole, .plus plus derives⟩
      split
      · next opens =>
          refine (inner .sum).bind fun operand derived => ?_
          obtain ⟨used, whole, derives⟩ := derived
          refine (operand.closes stop .rightParen).bind fun closed shut => ?_
          obtain ⟨isClose, left, value⟩ := shut
          refine ⟨token :: (used ++ [closed.1]), ?_, ?_⟩
          · exact congrArg (token :: ·) (append_of_split whole left)
          · have relocated := Derives.parens opens isClose derives
            rw [← value] at relocated
            exact relocated
      split
      · next found =>
          refine ⟨[token], rfl, .token found ?_⟩
          simp only [Bool.or_eq_true, not_or, Bool.not_eq_true] at notComplement
          exact notComplement.2
      · exact rfl

theorem readsUsed_shift (shorter : ReadsShort stop tokens.length) :
    ReadsUsed .shift tokens (read stop .shift tokens) := by
  rw [read.eq_def]
  refine (readsUsed_operand shorter).bind fun left used => ?_
  have short : Used .shift tokens left := Used.loosen used
  obtain ⟨front, whole, derives⟩ := used
  obtain ⟨value, rest, bound⟩ := left
  cases rest with
  | nil => exact short
  | cons token rest =>
      dsimp only
      split
      · exact short
      · next operation found =>
          obtain ⟨found, isShift⟩ := atLevel?_eq_some found
          refine (shorter .shift rest (Nat.lt_of_succ_lt bound)).bind fun right derived => ?_
          obtain ⟨more, split, derivesRight⟩ := derived
          exact ⟨front ++ token :: more, append_of_split whole (congrArg (token :: ·) split),
            .shift found isShift derives derivesRight⟩

theorem readsUsed_chain (chained : level.isChain = true) {bound : Nat} {left : Reading Arith bound}
    (shorter : ReadsShort stop bound) (used : Used level tokens left) :
    ReadsUsed level tokens (readChain stop level left) := by
  induction measured : left.rest.length using Nat.strongRecOn generalizing left with
  | ind size ih =>
      obtain ⟨front, whole, derives⟩ := id used
      obtain ⟨value, rest, bound⟩ := left
      rw [readChain.eq_def]
      cases rest with
      | nil => exact used
      | cons token rest =>
          dsimp only
          split
          · exact used
          · next operation found =>
              obtain ⟨found, made⟩ := atLevel?_eq_some found
              refine (shorter level.tighter rest (Nat.lt_of_succ_lt bound)).bind
                fun right derived => ?_
              obtain ⟨more, split, derivesRight⟩ := derived
              have fewer : right.rest.length < size := by
                have := right.shorter
                simp only [List.length_cons] at measured
                omega
              exact ih _ fewer ⟨front ++ token :: more,
                append_of_split whole (congrArg (token :: ·) split),
                .chain found made chained derives derivesRight⟩ rfl

theorem readsShort (stop : Token) (bound : Nat) : ReadsShort stop bound := by
  induction bound with
  | zero =>
      intro level tokens less
      cases less
  | succ bound ih =>
      intro level tokens less
      have shorter : ReadsShort stop tokens.length := fun level rest fewer => ih level rest (by omega)
      have product : ReadsUsed .product tokens (read stop .product tokens) := by
        rw [read.eq_def]
        exact (readsUsed_shift shorter).bind fun left used =>
          readsUsed_chain rfl shorter (show Used .product tokens left from .loosen used)
      cases level with
      | sum =>
          rw [read.eq_def]
          exact product.bind fun left used =>
            readsUsed_chain rfl shorter (show Used .sum tokens left from .loosen used)
      | product => exact product
      | shift => exact readsUsed_shift shorter
      | operand => exact readsUsed_operand shorter

/-- What is read is derived from the tokens that are not left. -/
theorem readsUsed_read (stop : Token) (level : Level) (tokens : List Token) :
    ReadsUsed level tokens (read stop level tokens) :=
  readsShort stop (tokens.length + 1) level tokens (Nat.lt_succ_self _)

/-! ## What is derived is read again -/

theorem readsTo_plus {sign : Token} {rest : List Token} (isSign : sign.kind = .op .plus)
    (reads : ReadsTo stop .operand tokens tree rest) :
    ReadsTo stop .operand (sign :: tokens) tree rest := by
  obtain ⟨inner, answered, same, leaves⟩ := reads
  refine ⟨inner.widen (Nat.le_succ _), ?_, same, leaves⟩
  rw [read, if_neg (by simp [isSign]), if_neg (by simp [isSign, Token.isWord]), if_pos isSign]
  exact bind_eq_ok_iff.2 ⟨inner, answered, rfl⟩

/-- From the tokens of a derivation alone, the expression is read up to places. -/
theorem Derives.readsBack (stop : Token) (derives : Derives level tokens tree) :
    ReadsBack stop level tokens tree ∧
      (level.isChain = true → LeadsBack stop level tokens tree) := by
  induction derives with
  | token value free => exact ⟨fun rest _ => readsTo_token value free, by simp [Level.isChain]⟩
  | plus isSign derives ih =>
      exact ⟨fun rest stops => readsTo_plus isSign (ih.1 rest stops), by simp [Level.isChain]⟩
  | neg isSign derives ih =>
      exact ⟨fun rest stops => readsTo_neg isSign (ih.1 rest stops) _, by simp [Level.isChain]⟩
  | complement isSign derives ih =>
      exact ⟨fun rest stops => readsTo_complement isSign (ih.1 rest stops) _,
        by simp [Level.isChain]⟩
  | @parens paren close tokens tree opens closes derives ih =>
      refine ⟨fun rest stops => ?_, by simp [Level.isChain]⟩
      have inside := ih.1 (close :: rest)
        (stops_of_no_operation (by simp [Operation.ofToken?, closes]))
      have whole := readsTo_parens opens closes inside
      rw [List.cons_append, List.append_assoc]
      exact whole.congr (unplaced_relocate _ _).symm
  | shift found shifts derivesFirst derivesSecond ihFirst ihSecond =>
      refine ⟨fun rest stops => ?_, by simp [Level.isChain]⟩
      have stopsLeft : ∀ right, Stops Level.shift.tighter (_ :: right) := fun right => by
        rw [← shifts]
        exact stops_tighter_of_operation found
      rw [List.append_assoc]
      exact readsTo_shift (ihFirst.1 _ (stopsLeft _)) found shifts (ihSecond.1 rest stops) _
  | @chain level sign operation left right first second found made chained _ _ ihFirst ihSecond =>
      subst made
      have both := (ihFirst.2 chained).binary (first.location.span second.location) found ihSecond.1
      exact ⟨both.readsBack, fun _ => both⟩
  | @loosen level tokens tree derives ih =>
      cases level with
      | sum | product =>
          have leads := ih.1.leadsBack rfl
          exact ⟨leads.readsBack, fun _ => leads⟩
      | shift =>
          exact ⟨fun rest stops => readsTo_shift_of_operand (ih.1 rest stops.tighter) stops,
            by simp [Level.isChain]⟩
      | operand => exact ⟨ih.1, by simp [Level.isChain]⟩

/-! ## Places -/

theorem location_relocate (location : Location) (tree : Arith) :
    (tree.relocate location).location = location := by
  cases tree <;> rfl

/-- An expression that is one token is a number or a name. -/
theorem ofToken?_cases {token : Token} (value : ofToken? token = some tree) :
    (∃ number, tree = .int token.location number) ∨ tree = .ident token.location token.text := by
  obtain ⟨kind, text, location⟩ := token
  cases kind with
  | integer number =>
      cases value
      exact .inl ⟨number, rfl⟩
  | ident =>
      cases value
      exact .inr rfl
  | _ => cases value

/-- Apart from signs in front that change nothing, an expression lies on the tokens it is derived
from. -/
theorem Derives.exists_core (derives : Derives level tokens tree) :
    ∃ signs core, tokens = signs ++ core ∧ Derives level core tree ∧ Token.Spans core tree.location := by
  induction derives with
  | @token token tree value free =>
      refine ⟨[], [token], rfl, .token value free, ?_⟩
      rcases ofToken?_cases value with ⟨number, rfl⟩ | rfl
      · exact ⟨rfl, rfl⟩
      · exact ⟨rfl, rfl⟩
  | plus isSign _ ih =>
      obtain ⟨signs, core, rfl, derives, spans⟩ := ih
      exact ⟨_ :: signs, core, rfl, derives, spans⟩
  | @neg sign _ _ isSign derives ih =>
      obtain ⟨signs, core, rfl, _, spans⟩ := ih
      exact ⟨[], _, rfl, .neg isSign derives, spans.cons sign⟩
  | @complement sign _ _ isSign derives ih =>
      obtain ⟨signs, core, rfl, _, spans⟩ := ih
      exact ⟨[], _, rfl, .complement isSign derives, spans.cons sign⟩
  | @parens paren close _ _ opens closes derives _ =>
      refine ⟨[], _, rfl, .parens opens closes derives, ?_⟩
      rw [location_relocate]
      have spans : Token.Spans [close] close.location := ⟨rfl, rfl⟩
      exact spans.cons paren
  | @shift sign _ _ _ _ _ found shifts _ derivesSecond ihFirst ihSecond =>
      obtain ⟨signs, core, rfl, derivesFirst, spans⟩ := ihFirst
      obtain ⟨_, _, rfl, _, spansSecond⟩ := ihSecond
      exact ⟨signs, _, List.append_assoc signs core _,
        .shift found shifts derivesFirst derivesSecond, spans.append sign spansSecond⟩
  | @chain _ sign _ _ _ _ _ found made chained _ derivesSecond ihFirst ihSecond =>
      obtain ⟨signs, core, rfl, derivesFirst, spans⟩ := ihFirst
      obtain ⟨_, _, rfl, _, spansSecond⟩ := ihSecond
      exact ⟨signs, _, List.append_assoc signs core _,
        .chain found made chained derivesFirst derivesSecond, spans.append sign spansSecond⟩
  | loosen _ ih =>
      obtain ⟨signs, core, rfl, derives, spans⟩ := ih
      exact ⟨signs, core, rfl, .loosen derives, spans⟩

/-! ## Parts -/

/-- The expression is the other one or a part of it. -/
inductive Within (part : Arith) : Arith → Prop where
  | self : Within part part
  | neg {operand : Arith} (location : Location) (deeper : Within part operand) :
      Within part (.neg location operand)
  | complement {operand : Arith} (location : Location) (deeper : Within part operand) :
      Within part (.complement location operand)
  | left {left : Arith} (location : Location) (operation : Operation) (right : Arith)
      (deeper : Within part left) : Within part (.binary location operation left right)
  | right {right : Arith} (location : Location) (operation : Operation) (left : Arith)
      (deeper : Within part right) : Within part (.binary location operation left right)

/-- A stretch of the tokens is one that the expression is derived from and lies on. -/
def LiesIn (tokens : List Token) (part : Arith) : Prop :=
  ∃ core, core <:+: tokens ∧ Derives .sum core part ∧ Token.Spans core part.location

theorem LiesIn.mono {others : List Token} {part : Arith} (lies : LiesIn tokens part)
    (inside : tokens <:+: others) : LiesIn others part := by
  obtain ⟨core, within, derives, spans⟩ := lies
  exact ⟨core, within.trans inside, derives, spans⟩

theorem Derives.sum (derives : Derives level tokens tree) : Derives .sum tokens tree := by
  cases level with
  | sum => exact derives
  | product => exact .loosen derives
  | shift =>
      have product : Derives .product tokens tree := .loosen derives
      exact .loosen product
  | operand =>
      have shift : Derives .shift tokens tree := .loosen derives
      have product : Derives .product tokens tree := .loosen shift
      exact .loosen product

theorem Derives.liesIn (derives : Derives level tokens tree) : LiesIn tokens tree := by
  obtain ⟨signs, core, rfl, derives, spans⟩ := derives.exists_core
  exact ⟨core, ⟨signs, [], by simp⟩, derives.sum, spans⟩

/-- At another location an expression has the same parts but for itself. -/
theorem within_of_relocate {location : Location} {part : Arith}
    (within : part.Within (tree.relocate location)) :
    part = tree.relocate location ∨ part.Within tree := by
  cases tree with
  | int | ident =>
      cases within
      exact .inl rfl
  | neg place operand =>
      cases within with
      | self => exact .inl rfl
      | neg _ deeper => exact .inr (.neg place deeper)
  | complement place operand =>
      cases within with
      | self => exact .inl rfl
      | complement _ deeper => exact .inr (.complement place deeper)
  | binary place operation left right =>
      cases within with
      | self => exact .inl rfl
      | left _ _ _ deeper => exact .inr (.left place operation right deeper)
      | right _ _ _ deeper => exact .inr (.right place operation left deeper)

/-- Each part of an expression is derived from a stretch of its tokens, and lies on it. -/
theorem Derives.liesIn_of_within {part : Arith} (derives : Derives level tokens tree)
    (within : part.Within tree) : LiesIn tokens part := by
  induction derives with
  | @token token tree value free =>
      have lies := (Derives.token value free).liesIn
      rcases ofToken?_cases value with ⟨number, rfl⟩ | rfl
      · cases within
        exact lies
      · cases within
        exact lies
  | plus isSign _ ih => exact (ih within).mono (List.suffix_cons _ _).isInfix
  | neg isSign derives ih =>
      cases within with
      | self => exact (Derives.neg isSign derives).liesIn
      | neg _ deeper => exact (ih deeper).mono (List.suffix_cons _ _).isInfix
  | complement isSign derives ih =>
      cases within with
      | self => exact (Derives.complement isSign derives).liesIn
      | complement _ deeper => exact (ih deeper).mono (List.suffix_cons _ _).isInfix
  | parens opens closes derives ih =>
      rcases within_of_relocate within with rfl | deeper
      · exact (Derives.parens opens closes derives).liesIn
      · exact (ih deeper).mono ⟨[_], [_], rfl⟩
  | shift found shifts derivesFirst derivesSecond ihFirst ihSecond =>
      cases within with
      | self => exact (Derives.shift found shifts derivesFirst derivesSecond).liesIn
      | left _ _ _ deeper => exact (ihFirst deeper).mono (List.prefix_append _ _).isInfix
      | right _ _ _ deeper =>
          exact (ihSecond deeper).mono
            ((List.suffix_cons _ _).trans (List.suffix_append _ _)).isInfix
  | chain found made chained derivesFirst derivesSecond ihFirst ihSecond =>
      cases within with
      | self => exact (Derives.chain found made chained derivesFirst derivesSecond).liesIn
      | left _ _ _ deeper => exact (ihFirst deeper).mono (List.prefix_append _ _).isInfix
      | right _ _ _ deeper =>
          exact (ihSecond deeper).mono
            ((List.suffix_cons _ _).trans (List.suffix_append _ _)).isInfix
  | loosen _ ih => exact ih within

end Arith

/-! ## Tests -/

namespace Test

/-- The test is the other one or a part of it. -/
inductive Within (part : Test) : Test → Prop where
  | self : Within part part
  | not {operand : Test} (location : Location) (deeper : Within part operand) :
      Within part (.not location operand)
  | bothLeft {left : Test} (location : Location) (right : Test) (deeper : Within part left) :
      Within part (.both location left right)
  | bothRight {right : Test} (location : Location) (left : Test) (deeper : Within part right) :
      Within part (.both location left right)
  | eitherLeft {left : Test} (location : Location) (right : Test) (deeper : Within part left) :
      Within part (.either location left right)
  | eitherRight {right : Test} (location : Location) (left : Test) (deeper : Within part right) :
      Within part (.either location left right)

/-- Each comparison has a left side that stands alone and zero on the right side, or two sides that
satisfy a condition. -/
def Compares (one : Arith → Prop) (two : Arith → Arith → Prop) (test : Test) : Prop :=
  ∀ location relation left right, (Test.compare location relation left right).Within test →
    two left right ∨ one left ∧ relation = .equal ∧ right = .int left.location 0

section

variable {one : Arith → Prop} {two : Arith → Arith → Prop} {test left right : Test}

theorem Compares.imp {otherOne : Arith → Prop} {otherTwo : Arith → Arith → Prop}
    (compares : Compares one two test) (weakerOne : ∀ tree, one tree → otherOne tree)
    (weakerTwo : ∀ left right, two left right → otherTwo left right) :
    Compares otherOne otherTwo test := fun location relation left right within =>
  (compares location relation left right within).imp (weakerTwo left right)
    (And.imp_left (weakerOne left))

theorem compares_literal (location : Location) (value : Bool) :
    Compares one two (.literal location value) := by
  rintro _ _ _ _ ⟨⟩

theorem compares_defined (location : Location) (name : Bytes) :
    Compares one two (.defined location name) := by
  rintro _ _ _ _ ⟨⟩

theorem Compares.not (location : Location) (compares : Compares one two test) :
    Compares one two (.not location test) := by
  intro _ _ _ _ within
  cases within with
  | not _ deeper => exact compares _ _ _ _ deeper

theorem Compares.join (level : Level) (first : Compares one two left)
    (second : Compares one two right) : Compares one two (join level left right) := by
  intro _ _ _ _ within
  cases level with
  | either =>
      cases within with
      | eitherLeft _ _ deeper => exact first _ _ _ _ deeper
      | eitherRight _ _ deeper => exact second _ _ _ _ deeper
  | both | single =>
      cases within with
      | bothLeft _ _ deeper => exact first _ _ _ _ deeper
      | bothRight _ _ deeper => exact second _ _ _ _ deeper

theorem compares_nonzero {value : Arith} (holds : one value) : Compares one two (nonzero value) := by
  intro _ _ _ _ within
  cases within with
  | not _ deeper =>
      cases deeper
      exact .inr ⟨holds, rfl, rfl⟩

theorem compares_comparison (comparison : Comparison) (location : Location) {left right : Arith}
    (both : two left right) : Compares one two (comparison.test location left right) := by
  have compared : ∀ relation, Compares one two (.compare location relation left right) := by
    rintro _ _ _ _ _ ⟨⟩
    exact .inl both
  cases comparison with
  | equal | less | greater => exact compared _
  | notEqual | lessEqual | greaterEqual => exact (compared _).not location

theorem Compares.relocate (location : Location) (compares : Compares one two test) :
    Compares one two (test.relocate location) := by
  intro place relation first second within
  cases test with
  | literal | defined => cases within
  | not other operand =>
      cases within with
      | not _ deeper => exact compares _ _ _ _ (.not other deeper)
  | both other left right =>
      cases within with
      | bothLeft _ _ deeper => exact compares _ _ _ _ (.bothLeft other right deeper)
      | bothRight _ _ deeper => exact compares _ _ _ _ (.bothRight other left deeper)
  | either other left right =>
      cases within with
      | eitherLeft _ _ deeper => exact compares _ _ _ _ (.eitherLeft other right deeper)
      | eitherRight _ _ deeper => exact compares _ _ _ _ (.eitherRight other left deeper)
  | compare other kind left right =>
      cases within
      exact compares other relation first second .self

end

/-- An expression is derived from a stretch of the tokens with no comparison sign after it. -/
def HasBare (tokens : List Token) (tree : Arith) : Prop :=
  ∃ used rest, used ++ rest <:+ tokens ∧ Arith.Derives .sum used tree ∧
    rest.head?.bind Comparison.ofToken? = none

/-- Two expressions are derived from stretches of the tokens that stand on the two sides of a
comparison sign. -/
def HasPair (tokens : List Token) (first second : Arith) : Prop :=
  ∃ left sign right rest, left ++ sign :: (right ++ rest) <:+ tokens ∧
    Arith.Derives .sum left first ∧ (Comparison.ofToken? sign).isSome ∧
    Arith.Derives .sum right second

variable {stop : Token} {tokens others : List Token}

/-- The reading leaves tokens at the end of the list, and its comparisons are derived from the list. -/
structure Used (tokens : List Token) {bound : Nat} (reading : Reading Test bound) : Prop where
  rest : reading.rest <:+ tokens
  compares : Compares (HasBare tokens) (HasPair tokens) reading.value

/-- What is read is derived, or there is an error of form. -/
abbrev ReadsUsed (tokens : List Token) {bound : Nat} (answer : Except Error (Reading Test bound)) :
    Prop :=
  WellRead (Used tokens) answer

theorem Compares.of_suffix {test : Test} (compares : Compares (HasBare tokens) (HasPair tokens) test)
    (suffix : tokens <:+ others) : Compares (HasBare others) (HasPair others) test := by
  refine compares.imp ?_ ?_
  · rintro tree ⟨used, rest, ends, derives⟩
    exact ⟨used, rest, ends.trans suffix, derives⟩
  · rintro first second ⟨left, sign, right, rest, ends, derives⟩
    exact ⟨left, sign, right, rest, ends.trans suffix, derives⟩

theorem readsUsed_comparison (stop : Token) (tokens : List Token) :
    ReadsUsed tokens (readComparison stop tokens) := by
  unfold readComparison
  refine (Arith.readsUsed_read stop .sum tokens).bind fun left ⟨used, whole, derives⟩ => ?_
  obtain ⟨value, rest, bound⟩ := left
  dsimp only at whole derives
  have bare (unsigned : rest.head?.bind Comparison.ofToken? = none) :
      Used tokens (Reading.map nonzero ⟨value, rest, bound⟩) :=
    ⟨⟨used, whole.symm⟩, compares_nonzero ⟨used, rest, ⟨[], whole.symm⟩, derives, unsigned⟩⟩
  cases rest with
  | nil => exact bare rfl
  | cons token rest =>
      dsimp only
      split
      · next unsigned => exact bare unsigned
      · next comparison isSign =>
          refine (Arith.readsUsed_read stop .sum rest).bind
            fun right ⟨more, split, derivesRight⟩ => ?_
          have both : tokens = used ++ token :: more ++ right.rest :=
            Arith.append_of_split whole (congrArg (token :: ·) split)
          refine ⟨⟨used ++ token :: more, both.symm⟩, compares_comparison _ _ ?_⟩
          rw [List.append_assoc] at both
          exact ⟨used, token, more, right.rest, ⟨[], both.symm⟩, derives,
            Option.isSome_of_eq_some isSign, derivesRight⟩

theorem readsUsed_defined (stop word : Token) (tokens : List Token) :
    ReadsUsed (word :: tokens) (readDefined stop word tokens) := by
  unfold readDefined
  split
  · next text location name rest =>
      split
      · refine (Reading.closes _ stop .endOfDefined).bind fun closed ⟨_, left, _⟩ => ?_
        have after : closed.2.rest <:+ rest := ⟨[closed.1], left.symm⟩
        exact ⟨after.trans (List.suffix_append [word, _, name] rest), compares_defined _ _⟩
      · exact rfl
  · exact rfl
  · next name rest _ _ =>
      split
      · exact ⟨List.suffix_append [word, name] rest, compares_defined _ _⟩
      · exact rfl
  · exact rfl

/-- What is read from lists shorter than the bound is derived. -/
def ReadsShort (stop : Token) (bound : Nat) : Prop :=
  ∀ level tokens, tokens.length < bound → ReadsUsed tokens (read stop level tokens)

theorem readsUsed_single (shorter : ReadsShort stop tokens.length) :
    ReadsUsed tokens (read stop .single tokens) := by
  have comparison := readsUsed_comparison stop tokens
  rw [read.eq_def]
  cases tokens with
  | nil => exact comparison
  | cons token rest =>
      have inner : ∀ level, ReadsUsed rest (read stop level rest) :=
        fun level => shorter level rest (Nat.lt_succ_self _)
      have tail : rest <:+ token :: rest := List.suffix_cons token rest
      dsimp only
      split
      · refine (inner .single).bind fun operand used => ?_
        exact ⟨used.rest.trans tail, (used.compares.of_suffix tail).not _⟩
      split
      · exact ⟨tail, compares_literal _ _⟩
      split
      · exact ⟨tail, compares_literal _ _⟩
      split
      · exact readsUsed_defined stop token rest
      split
      · split
        · exact rfl
        split
        · exact comparison
        · refine (inner .either).bind fun operand used => ?_
          refine (operand.closes stop .rightParen).bind fun closed shut => ?_
          obtain ⟨_, left, value⟩ := shut
          have compares := used.compares.of_suffix tail
          rw [← value] at compares
          have after : closed.2.rest <:+ operand.rest := ⟨[closed.1], left.symm⟩
          exact ⟨after.trans (used.rest.trans tail), compares.relocate _⟩
      · exact comparison

theorem readsUsed_chain (level : Level) {bound : Nat} {left : Reading Test bound}
    (shorter : ReadsShort stop bound) (used : Used tokens left) :
    ReadsUsed tokens (readChain stop level left) := by
  induction measured : left.rest.length using Nat.strongRecOn generalizing left with
  | ind size ih =>
      obtain ⟨suffix, compares⟩ := id used
      obtain ⟨value, rest, bound⟩ := left
      rw [readChain.eq_def]
      cases rest with
      | nil => exact used
      | cons token rest =>
          dsimp only
          split
          · refine (shorter level.tighter rest (Nat.lt_of_succ_lt bound)).bind fun right more => ?_
            have fewer : right.rest.length < size := by
              have := right.shorter
              simp only [List.length_cons] at measured
              omega
            have inside : rest <:+ tokens := (List.suffix_cons token rest).trans suffix
            exact ih _ fewer ⟨more.rest.trans inside,
              compares.join level (more.compares.of_suffix inside)⟩ rfl
          · exact used

theorem readsShort (stop : Token) (bound : Nat) : ReadsShort stop bound := by
  induction bound with
  | zero =>
      intro level tokens less
      cases less
  | succ bound ih =>
      intro level tokens less
      have shorter : ReadsShort stop tokens.length := fun level rest fewer => ih level rest (by omega)
      have both : ReadsUsed tokens (read stop .both tokens) := by
        rw [read.eq_def]
        exact (readsUsed_single shorter).bind fun left => readsUsed_chain .both shorter
      cases level with
      | either =>
          rw [read.eq_def]
          exact both.bind fun left => readsUsed_chain .either shorter
      | both => exact both
      | single => exact readsUsed_single shorter

/-- The comparisons of a test are derived from the tokens it is read from. -/
theorem compares_of_ofTokens {test : Test} {rest : List Token}
    (read : ofTokens stop tokens = .ok (test, rest)) :
    Compares (HasBare tokens) (HasPair tokens) test := by
  unfold ofTokens at read
  split at read
  · cases read
  · obtain ⟨reading, answered, read⟩ := bind_eq_ok_iff.1 read
    cases read
    have used := readsShort stop (tokens.length + 1) .either tokens (Nat.lt_succ_self _)
    rw [answered] at used
    exact used.compares

end Test

end ScopedMacros
