import ScopedMacros.Proofs.ArithReading

/-!
# Written tests are read back

From tokens for the words of a test, the test is read, and what follows it is left.  A parenthesis at
its start may open a test or an expression: which of them is seen from what follows the parenthesis
that closes it.
-/

namespace ScopedMacros

namespace Test

/-! ## Parentheses -/

section

variable {token : Token} {rest : List Token} {depth : Nat}

theorem afterClosing?_of_open (opens : token.kind = .leftParen) :
    afterClosing? depth (token :: rest) = afterClosing? (depth + 1) rest := by
  cases depth <;> simp [afterClosing?, opens]

theorem afterClosing?_of_close (closes : token.kind = .rightParen) :
    afterClosing? (depth + 1) (token :: rest) = afterClosing? depth rest := by
  simp [afterClosing?, closes]

theorem afterClosing?_zero_of_close (closes : token.kind = .rightParen) :
    afterClosing? 0 (token :: rest) = some rest := by
  simp [afterClosing?, closes]

theorem afterClosing?_of_other (notOpen : token.kind ≠ .leftParen)
    (notClose : token.kind ≠ .rightParen) :
    afterClosing? depth (token :: rest) = afterClosing? depth rest := by
  cases depth <;> simp [afterClosing?, notOpen, notClose]

end

/-- Each parenthesis in the tokens is closed there. -/
def Balanced (tokens : List Token) : Prop :=
  ∀ depth rest, afterClosing? depth (tokens ++ rest) = afterClosing? depth rest

namespace Balanced

variable {tokens more : List Token} {token : Token}

theorem nil : Balanced [] := fun _ _ => rfl

theorem append (first : Balanced tokens) (second : Balanced more) : Balanced (tokens ++ more) := by
  intro depth rest
  rw [List.append_assoc, first, second]

theorem cons (notOpen : token.kind ≠ .leftParen) (notClose : token.kind ≠ .rightParen)
    (balanced : Balanced tokens) : Balanced (token :: tokens) := by
  intro depth rest
  rw [List.cons_append, afterClosing?_of_other notOpen notClose, balanced]

theorem parens {close : Token} (opens : token.kind = .leftParen) (closes : close.kind = .rightParen)
    (balanced : Balanced tokens) : Balanced (token :: tokens ++ [close]) := by
  intro depth rest
  rw [List.append_assoc, List.cons_append, afterClosing?_of_open opens, balanced,
    List.singleton_append, afterClosing?_of_close closes]

/-- A sign between balanced tokens. -/
theorem infix_sign (first : Balanced tokens) (second : Balanced more)
    (notOpen : token.kind ≠ .leftParen) (notClose : token.kind ≠ .rightParen) :
    Balanced (tokens ++ token :: more) :=
  first.append (second.cons notOpen notClose)

end Balanced

theorem kind_of_operation {token : Token} {operation : Operation}
    (found : Operation.ofToken? token = some operation) :
    token.kind ≠ .leftParen ∧ token.kind ≠ .rightParen := by
  constructor
  · intro opens
    simp [Operation.ofToken?, opens] at found
  · intro closes
    simp [Operation.ofToken?, closes] at found

theorem ofToken?_of_comparison {token : Token} {comparison : Comparison}
    (found : Comparison.ofToken? token = some comparison) : Operation.ofToken? token = none := by
  unfold Comparison.ofToken? at found
  split at found
  all_goals simp_all [Operation.ofToken?]

theorem kind_of_comparison {token : Token} {comparison : Comparison}
    (found : Comparison.ofToken? token = some comparison) :
    token.kind ≠ .leftParen ∧ token.kind ≠ .rightParen := by
  constructor
  · intro opens
    simp [Comparison.ofToken?, opens] at found
  · intro closes
    simp [Comparison.ofToken?, closes] at found

/-- What is looked at before tokens are taken for a comparison: no other test starts here, and a
parenthesis that comes first is closed before more of the same expression. -/
structure StartsNumber (tokens : List Token) : Prop where
  balanced : Balanced tokens
  first : ∃ token others, tokens = token :: others ∧
    token.kind ≠ .op .not ∧
    (∀ word ∈ [bytes "not", bytes "true", bytes "false", bytes "defined"],
      token.isWord word = false) ∧
    (token.kind = .leftParen → ∀ stop rest, continues (rest.headD stop) = true →
      ∃ after, afterClosing? 0 (others ++ rest) = some after ∧ continues (after.headD stop) = true)

namespace StartsNumber

variable {token : Token} {tokens more : List Token}

/-- A sign or an operand comes first. -/
theorem of_token (notOpen : token.kind ≠ .leftParen) (notClose : token.kind ≠ .rightParen)
    (notNot : token.kind ≠ .op .not)
    (noWord : ∀ word ∈ [bytes "not", bytes "true", bytes "false", bytes "defined"],
      token.isWord word = false)
    (balanced : Balanced tokens) : StartsNumber (token :: tokens) :=
  ⟨balanced.cons notOpen notClose, token, tokens, rfl, notNot, noWord,
    fun opens => absurd opens notOpen⟩

theorem parens {close : Token} (opens : token.kind = .leftParen) (closes : close.kind = .rightParen)
    (balanced : Balanced tokens) : StartsNumber (token :: tokens ++ [close]) := by
  refine ⟨balanced.parens opens closes, token, tokens ++ [close], rfl, by simp [opens], ?_, ?_⟩
  · intro word _
    simp [Token.isWord, opens]
  · intro _ stop rest goesOn
    refine ⟨rest, ?_, goesOn⟩
    rw [List.append_assoc, balanced, List.singleton_append, afterClosing?_zero_of_close closes]

theorem infix_sign {operation : Operation} (starts : StartsNumber tokens)
    (found : Operation.ofToken? token = some operation) (second : Balanced more) :
    StartsNumber (tokens ++ token :: more) := by
  obtain ⟨notOpen, notClose⟩ := kind_of_operation found
  obtain ⟨balanced, first, others, rfl, notNot, noWord, closing⟩ := starts
  refine ⟨balanced.infix_sign second notOpen notClose, first, others ++ token :: more, rfl, notNot,
    noWord, ?_⟩
  intro opens stop rest _
  rw [List.append_assoc]
  refine closing opens stop _ ?_
  simp [continues, found]

end StartsNumber

/-- The words of an expression begin a comparison. -/
theorem startsNumber_of_written {level : Arith.Level} {tree : Arith} {words : List Bytes}
    (written : Arith.Written level tree words) :
    ∀ tokens, Token.Spell tokens words → StartsNumber tokens := by
  induction written with
  | int location fits hex =>
      intro tokens spell
      obtain ⟨token, rfl, spells⟩ := spell.exists_singleton
      have kind := spells.kind_eq (Token.Kind.ofText?_hex fits hex)
      refine .of_token (by simp [kind]) (by simp [kind]) (by simp [kind]) ?_ .nil
      simp [Token.isWord, kind]
  | ident location isName free =>
      intro tokens spell
      obtain ⟨token, rfl, spells⟩ := spell.exists_singleton
      have kind := spells.kind_eq (Token.Kind.ofText?_name isName)
      refine .of_token (by simp [kind]) (by simp [kind]) (by simp [kind]) ?_ .nil
      intro word member
      have reserved : ∀ word ∈ [bytes "not", bytes "true", bytes "false", bytes "defined"],
          word ∈ Arith.reserved := by decide
      have other : token.text ≠ word := by
        rw [spells.text]
        rintro rfl
        exact free (reserved _ member)
      simp [Token.isWord, other]
  | neg location written ih =>
      intro tokens spell
      obtain ⟨token, operand, rfl, spells, spell⟩ := spell.exists_cons
      have kind : token.kind = .op .minus := spells.kind_eq (by decide)
      refine .of_token (by simp [kind]) (by simp [kind]) (by simp [kind]) ?_
        (ih operand spell).balanced
      simp [Token.isWord, kind]
  | complement location spelled written ih =>
      intro tokens spell
      obtain ⟨token, operand, rfl, spells, spell⟩ := spell.exists_cons
      have all : ∀ sign ∈ [bytes "~", bytes "lnot"], (Token.Kind.ofText? sign).map
          (fun kind => decide (kind ≠ .leftParen ∧ kind ≠ .rightParen ∧ kind ≠ .op .not ∧
            ∀ word ∈ [bytes "not", bytes "true", bytes "false", bytes "defined"],
              (Token.mk kind sign .nowhere).isWord word = false)) = some true := by
        decide
      have sign := spells.view
        (fun kind sign => decide (kind ≠ .leftParen ∧ kind ≠ .rightParen ∧ kind ≠ .op .not ∧
            ∀ word ∈ [bytes "not", bytes "true", bytes "false", bytes "defined"],
              (Token.mk kind sign .nowhere).isWord word = false)) (all _ spelled)
      obtain ⟨notOpen, notClose, notNot, noWord⟩ := of_decide_eq_true sign
      exact .of_token notOpen notClose notNot noWord (ih operand spell).balanced
  | parens written ih =>
      intro tokens spell
      obtain ⟨paren, inner, close, rfl, opens, closes, spell⟩ := spell.exists_parens
      exact .parens opens closes (ih inner spell).balanced
  | shift location shifts spelled first second ihFirst ihSecond =>
      intro tokens spell
      obtain ⟨left, sign, right, rfl, spellLeft, isSign, spellRight⟩ := spell.exists_infix
      exact (ihFirst left spellLeft).infix_sign (isSign.operation spelled)
        (ihSecond right spellRight).balanced
  | chain location made chained spelled first second ihFirst ihSecond =>
      intro tokens spell
      obtain ⟨left, sign, right, rfl, spellLeft, isSign, spellRight⟩ := spell.exists_infix
      exact (ihFirst left spellLeft).infix_sign (isSign.operation spelled)
        (ihSecond right spellRight).balanced
  | loosen written ih => exact ih

/-! ## One step of reading -/

/-- A reading gives the test, up to places, and leaves the rest. -/
def Gets {bound : Nat} (reading : Reading Test bound) (test : Test) (rest : List Token) : Prop :=
  reading.value.unplaced = test.unplaced ∧ reading.rest = rest

/-- From tokens, a test of a level is read and the rest is left. -/
def ReadsTo (stop : Token) (level : Level) (tokens : List Token) (test : Test)
    (rest : List Token) : Prop :=
  ∃ reading, read stop level tokens = .ok reading ∧ Gets reading test rest

/-- After its first operand, a chain of a level is read as a test and the rest is left. -/
def ChainsTo (stop : Token) (level : Level) {bound : Nat} (left : Reading Test bound)
    (test : Test) (rest : List Token) : Prop :=
  ∃ reading, readChain stop level left = .ok reading ∧ Gets reading test rest

/-- The token is the sign of the chains of a level. -/
def Joins (level : Level) (token : Token) : Prop :=
  level.op?.map .op = some token.kind

/-- Neither an expression nor a chain of the level, or of a tighter one, goes on. -/
structure Stops (stop : Token) (level : Level) (rest : List Token) : Prop where
  number : continues (rest.headD stop) = false
  chain : ∀ token ∈ rest.head?, ∀ lower : Level, lower.rank ≤ level.rank → ¬ Joins lower token

variable {stop : Token} {level : Level} {tokens rest after : List Token} {test : Test}

theorem Stops.tighter (stops : Stops stop level rest) : Stops stop level.tighter rest := by
  refine ⟨stops.number, fun token first lower le => stops.chain token first lower ?_⟩
  have narrower : level.tighter.rank ≤ level.rank := by cases level <;> decide
  omega

/-- An expression does not go on where a test has ended. -/
theorem Stops.arith (stops : Stops stop level rest) : Arith.Stops .sum rest := by
  intro token operation first found
  cases rest with
  | nil => cases first
  | cons head others =>
      cases first
      have ends := stops.number
      simp [continues, found] at ends

theorem stops_of_close {close : Token} (closes : close.kind = .rightParen) :
    Stops stop level (close :: rest) := by
  constructor
  · simp [continues, Comparison.ofToken?, Operation.ofToken?, closes]
  · rintro token ⟨⟩ lower _
    cases lower <;> simp [Joins, Level.op?, closes]

theorem chainsTo_of_stops {bound : Nat} {left : Reading Test bound} (gets : Gets left test rest)
    (stops : Stops stop level rest) : ChainsTo stop level left test rest := by
  refine ⟨left, ?_, gets⟩
  rw [readChain.eq_def]
  split
  · rfl
  · rename_i token others found
    rw [gets.2] at found
    subst found
    exact if_neg (stops.chain token rfl level (Nat.le_refl _))

theorem chainsTo_of_sign {bound : Nat} {left : Reading Test bound} {token : Token}
    {first second final : Test} {middle : List Token}
    (gets : Gets left first (token :: middle)) (joins : Joins level token)
    (reads : ReadsTo stop level.tighter middle second after)
    (goesOn : ∀ next : Reading Test bound, Gets next (join level first second) after →
      ChainsTo stop level next final rest) : ChainsTo stop level left final rest := by
  obtain ⟨right, answered, sameRight, leaves⟩ := reads
  unfold ChainsTo
  rw [readChain.eq_def]
  split
  · rename_i nothing
    rw [gets.2] at nothing
    cases nothing
  · rename_i other others here
    have same := gets.2.symm.trans here
    cases same
    let next := (right.map (join level left.value)).widen (Nat.le_of_lt (left.lt_of_rest here))
    have joined : Gets next (join level first second) after :=
      ⟨unplaced_join_congr level gets.1 sameRight, leaves⟩
    obtain ⟨reading, chained, done⟩ := goesOn next joined
    refine ⟨reading, (if_pos joins).trans ?_, done⟩
    exact bind_eq_ok_iff.2 ⟨right, answered, chained⟩

/-- The first operand of a chain is followed by the rest of the chain. -/
theorem readsTo_of_chain {first : Test} {middle : List Token} (chained : level ≠ .single)
    (reads : ReadsTo stop level.tighter tokens first middle)
    (goesOn : ∀ left : Reading Test tokens.length, Gets left first middle →
      ChainsTo stop level left test rest) : ReadsTo stop level tokens test rest := by
  obtain ⟨left, answered, gets⟩ := reads
  obtain ⟨reading, chain, done⟩ := goesOn left gets
  refine ⟨reading, ?_, done⟩
  cases level with
  | either =>
      rw [read]
      exact bind_eq_ok_iff.2 ⟨left, answered, chain⟩
  | both =>
      rw [read]
      exact bind_eq_ok_iff.2 ⟨left, answered, chain⟩
  | single => exact absurd rfl chained

section

variable {token : Token} {operand : Test}

theorem readsTo_not (sign : (token.kind = .op .not || token.isWord (bytes "not")) = true)
    (reads : ReadsTo stop .single tokens operand rest) (location : Location) :
    ReadsTo stop .single (token :: tokens) (.not location operand) rest := by
  obtain ⟨inner, answered, same, leaves⟩ := reads
  refine ⟨(inner.map fun test => .not (token.location.span test.location) test).widen
    (Nat.le_succ _), ?_, ?_, leaves⟩
  · rw [read, if_pos sign]
    exact bind_eq_ok_iff.2 ⟨inner, answered, rfl⟩
  · exact congrArg (Test.not .nowhere) same

theorem readsTo_literal (location : Location) (value : Bool)
    (word : token.isWord (if value then bytes "true" else bytes "false") = true) :
    ReadsTo stop .single (token :: rest) (.literal location value) rest := by
  refine ⟨⟨.literal token.location value, rest, Nat.lt_succ_self _⟩, ?_, rfl, rfl⟩
  simp only [Token.isWord, Bool.and_eq_true, beq_iff_eq] at word
  obtain ⟨kind, text⟩ := word
  have notWord : (bytes "true" == bytes "not") = false ∧ (bytes "false" == bytes "not") = false ∧
      (bytes "false" == bytes "true") = false := by decide
  rw [read]
  cases value with
  | true => simp [Token.isWord, kind, text, notWord]
  | false => simp [Token.isWord, kind, text, notWord]

/-- The word that asks for a name is followed by what it asks. -/
theorem readsTo_of_readDefined {reading : Reading Test (tokens.length + 1)}
    (word : token.isWord (bytes "defined") = true)
    (reads : readDefined stop token tokens = .ok reading) (gets : Gets reading test rest) :
    ReadsTo stop .single (token :: tokens) test rest := by
  refine ⟨reading, ?_, gets⟩
  simp only [Token.isWord, Bool.and_eq_true, beq_iff_eq] at word
  obtain ⟨kind, text⟩ := word
  have notWord : (bytes "defined" == bytes "not") = false ∧
      (bytes "defined" == bytes "true") = false ∧ (bytes "defined" == bytes "false") = false := by
    decide
  rw [read]
  simp [Token.isWord, kind, text, notWord, reads]

theorem readsTo_defined (word : token.isWord (bytes "defined") = true) {name : Token}
    (isName : name.kind = .ident) (location : Location) :
    ReadsTo stop .single (token :: name :: rest) (.defined location name.text) rest := by
  obtain ⟨kind, text, place⟩ := name
  dsimp only at isName
  subst isName
  have reads : readDefined stop token (⟨.ident, text, place⟩ :: rest) =
      .ok ⟨.defined (token.location.span place) text, rest,
        Nat.lt_succ_of_lt (Nat.lt_succ_self _)⟩ := rfl
  exact readsTo_of_readDefined word reads ⟨rfl, rfl⟩

theorem readsTo_definedParens (word : token.isWord (bytes "defined") = true)
    {paren name close : Token} (opens : paren.kind = .leftParen) (isName : name.kind = .ident)
    (closes : close.kind = .rightParen) (location : Location) :
    ReadsTo stop .single (token :: paren :: name :: close :: rest) (.defined location name.text)
      rest := by
  obtain ⟨kind, text, place⟩ := paren
  dsimp only at opens
  subst opens
  let inner : Reading Bytes ((close :: rest).length + 1 + 1 + 1) :=
    ⟨name.text, close :: rest, by omega⟩
  obtain ⟨closed, closing, value, left⟩ := inner.exists_close stop .endOfDefined rfl closes
  have reads : readDefined stop token (⟨.leftParen, text, place⟩ :: name :: close :: rest) =
      .ok (closed.map (.defined (token.location.span close.location))) := by
    unfold readDefined
    dsimp only
    rw [if_pos isName]
    exact bind_eq_ok_iff.2 ⟨_, closing, rfl⟩
  refine readsTo_of_readDefined word reads ⟨?_, left⟩
  change (Test.defined _ closed.value).unplaced = _
  rw [value]
  rfl

theorem readsTo_parens {close : Token} (opens : token.kind = .leftParen)
    (closes : close.kind = .rightParen) (balanced : Balanced tokens)
    (ends : continues (rest.headD stop) = false)
    (reads : ReadsTo stop .either (tokens ++ close :: rest) operand (close :: rest)) :
    ReadsTo stop .single (token :: (tokens ++ close :: rest)) operand rest := by
  obtain ⟨inner, answered, same, leaves⟩ := reads
  obtain ⟨closed, closing, value, left⟩ := inner.exists_close stop .rightParen leaves closes
  have lookahead : afterClosing? 0 (tokens ++ close :: rest) = some rest := by
    rw [balanced, afterClosing?_zero_of_close closes]
  refine ⟨(closed.map (relocate (token.location.span close.location))).widen (Nat.le_succ _),
    ?_, ?_, left⟩
  · rw [read]
    simp only [Token.isWord, opens, reduceCtorEq, decide_false, beq_eq_false_iff_ne.2, ne_eq,
      not_false_eq_true, Bool.false_and, Bool.or_self, Bool.false_eq_true, if_false, if_true,
      lookahead, ends]
    exact bind_eq_ok_iff.2 ⟨inner, answered, bind_eq_ok_iff.2 ⟨_, closing, rfl⟩⟩
  · change (closed.value.relocate _).unplaced = _
    rw [unplaced_relocate, value, same]

theorem exists_readComparison {left right : Arith} {middle : List Token} {sign : Token}
    {comparison : Comparison} (first : Arith.ReadsTo stop .sum tokens left (sign :: middle))
    (found : Comparison.ofToken? sign = some comparison)
    (second : Arith.ReadsTo stop .sum middle right rest) (location : Location) :
    ∃ reading, readComparison stop tokens = .ok reading ∧
      Gets reading (comparison.test location left right) rest := by
  obtain ⟨number, answered, sameLeft, here⟩ := first
  obtain ⟨other, following, sameRight, leaves⟩ := second
  let place := number.value.location.span other.value.location
  refine ⟨(other.map fun value => comparison.test place number.value value).widen
    (Nat.le_of_lt (number.lt_of_rest here)), ?_, ?_, leaves⟩
  · refine bind_eq_ok_iff.2 ⟨number, answered, ?_⟩
    split
    · rename_i nothing
      rw [here] at nothing
      cases nothing
    · rename_i token others left
      have same := here.symm.trans left
      cases same
      rw [found]
      exact bind_eq_ok_iff.2 ⟨other, following, rfl⟩
  · change (comparison.test place number.value other.value).unplaced = _
    rw [unplaced_test, unplaced_test, sameLeft, sameRight]

/-- Tokens that begin with an expression are taken for a comparison. -/
theorem read_eq_readComparison (starts : StartsNumber tokens) {sign : Token}
    (goesOn : continues sign = true) (middle : List Token) :
    read stop .single (tokens ++ sign :: middle) =
      readComparison stop (tokens ++ sign :: middle) := by
  obtain ⟨_, token, others, rfl, notNot, noWord, closing⟩ := starts
  rw [List.cons_append, read]
  simp only [noWord (bytes "not") (by decide), noWord (bytes "true") (by decide),
    noWord (bytes "false") (by decide), noWord (bytes "defined") (by decide), notNot, decide_false,
    Bool.or_self, Bool.false_eq_true, if_false]
  split
  · rename_i opens
    obtain ⟨after, found, further⟩ := closing opens stop (sign :: middle) goesOn
    rw [found]
    exact if_pos further
  · rfl

theorem readsTo_comparison {left right : Arith} {middle : List Token} {sign : Token}
    {comparison : Comparison} (starts : StartsNumber tokens)
    (first : Arith.ReadsTo stop .sum (tokens ++ sign :: middle) left (sign :: middle))
    (found : Comparison.ofToken? sign = some comparison)
    (second : Arith.ReadsTo stop .sum middle right rest) (location : Location) :
    ReadsTo stop .single (tokens ++ sign :: middle) (comparison.test location left right) rest := by
  obtain ⟨reading, answered, gets⟩ := exists_readComparison first found second location
  refine ⟨reading, ?_, gets⟩
  rw [read_eq_readComparison starts (by simp [continues, found]), answered]

end

/-! ## Whole tests -/

/-- After the tokens, what follows a test is left. -/
def ReadsBack (stop : Token) (level : Level) (tokens : List Token) (test : Test) : Prop :=
  ∀ rest, Stops stop level rest → ReadsTo stop level (tokens ++ rest) test rest

/-- After the tokens, a chain goes on with the test as its first operand. -/
def LeadsBack (stop : Token) (level : Level) (tokens : List Token) (test : Test) : Prop :=
  ∀ rest final after, Stops stop level.tighter rest →
    (∀ bound (left : Reading Test bound), Gets left test rest →
      ChainsTo stop level left final after) →
    ReadsTo stop level (tokens ++ rest) final after

theorem LeadsBack.readsBack (leads : LeadsBack stop level tokens test) :
    ReadsBack stop level tokens test :=
  fun rest stops => leads rest test rest stops.tighter fun _ _ gets => chainsTo_of_stops gets stops

theorem ReadsBack.leadsBack (chained : level ≠ .single)
    (reads : ReadsBack stop level.tighter tokens test) : LeadsBack stop level tokens test :=
  fun rest _ _ stops goesOn => readsTo_of_chain chained (reads rest stops) (goesOn _)

/-- The sign of a level ends the operands of its chains. -/
theorem stops_tighter_of_joins {token : Token} (joins : Joins level token) :
    Stops stop level.tighter (token :: rest) := by
  have kind : token.kind = .op .orOr ∧ level = .either ∨ token.kind = .op .andAnd ∧ level = .both := by
    cases level with
    | either => exact .inl ⟨(Option.some.inj joins).symm, rfl⟩
    | both => exact .inr ⟨(Option.some.inj joins).symm, rfl⟩
    | single => cases joins
  constructor
  · rcases kind with ⟨kind, _⟩ | ⟨kind, _⟩ <;>
      simp [continues, Comparison.ofToken?, Operation.ofToken?, kind]
  · rintro other ⟨⟩ lower le same
    rcases kind with ⟨kind, rfl⟩ | ⟨kind, rfl⟩ <;>
      cases lower <;> simp [Joins, Level.op?, kind] at same <;> simp [Level.rank, Level.tighter] at le

theorem LeadsBack.congr {other : Test} (leads : LeadsBack stop level tokens test)
    (same : test.unplaced = other.unplaced) : LeadsBack stop level tokens other :=
  fun rest final after stops goesOn => leads rest final after stops fun bound left gets =>
    goesOn bound left ⟨gets.1.trans same, gets.2⟩

theorem LeadsBack.join {left right : List Token} {sign : Token} {first second : Test}
    (leads : LeadsBack stop level left first) (joins : Joins level sign)
    (reads : ReadsBack stop level.tighter right second) :
    LeadsBack stop level (left ++ sign :: right) (join level first second) := by
  intro rest final after stops goesOn
  rw [List.append_assoc]
  refine leads _ final after (stops_tighter_of_joins joins) ?_
  intro bound reading gets
  refine chainsTo_of_sign gets joins (reads rest stops) ?_
  exact goesOn bound

/-- What is read of the words of a test. -/
structure Returns (stop : Token) (level : Level) (tokens : List Token) (test : Test) : Prop where
  balanced : Balanced tokens
  reads : ReadsBack stop level tokens test
  leads : level ≠ .single → LeadsBack stop level tokens test

theorem Returns.of_leads (balanced : Balanced tokens) (leads : LeadsBack stop level tokens test) :
    Returns stop level tokens test :=
  ⟨balanced, leads.readsBack, fun _ => leads⟩

theorem Returns.of_single (balanced : Balanced tokens) (reads : ReadsBack stop .single tokens test) :
    Returns stop .single tokens test :=
  ⟨balanced, reads, fun chained => absurd rfl chained⟩

/-- A chain with one more operand. -/
theorem Returns.join {left right : List Token} {sign : Token} {first second : Test}
    (returns : Returns stop level left first) (joins : Joins level sign)
    (more : Returns stop level.tighter right second)
    (whole : (Test.join level first second).unplaced = test.unplaced) :
    Returns stop level (left ++ sign :: right) test := by
  have chained : level ≠ .single := by
    rintro rfl
    cases joins
  have kind : sign.kind ≠ .leftParen ∧ sign.kind ≠ .rightParen := by
    constructor <;> intro kind <;> cases level <;> simp [Joins, Level.op?, kind] at joins
  exact .of_leads (returns.balanced.infix_sign more.balanced kind.1 kind.2)
    (((returns.leads chained).join joins more.reads).congr whole)

/-- The words of a test are read as the test. -/
theorem returns_of_written (stop : Token) {words : List Bytes}
    (written : Written level test words) :
    ∀ tokens, Token.Spell tokens words → Returns stop level tokens test := by
  induction written with
  | literal location value =>
      intro tokens spell
      obtain ⟨token, rfl, spells⟩ := spell.exists_singleton
      have kind : token.kind = .ident := by
        refine spells.kind_eq ?_
        cases value <;> decide
      have word : token.isWord (if value then bytes "true" else bytes "false") = true := by
        simp [Token.isWord, kind, spells.text]
      refine .of_single (Balanced.nil.cons (by simp [kind]) (by simp [kind])) fun rest _ => ?_
      exact readsTo_literal location value word
  | @defined location name isName =>
      intro tokens spell
      obtain ⟨token, rest, rfl, spells, spell⟩ := spell.exists_cons
      obtain ⟨operand, rfl, names⟩ := spell.exists_singleton
      have kind : token.kind = .ident := spells.kind_eq (by decide)
      have isOperand := names.kind_eq (Token.Kind.ofText?_name isName)
      have word : token.isWord (bytes "defined") = true := by
        simp [Token.isWord, kind, spells.text]
      have balanced : Balanced [operand] :=
        Balanced.nil.cons (by simp [isOperand]) (by simp [isOperand])
      refine .of_single (balanced.cons (by simp [kind]) (by simp [kind])) fun rest _ => ?_
      rw [← names.text]
      exact readsTo_defined word isOperand location
  | @definedParens location name isName =>
      intro tokens spell
      obtain ⟨token, rest, rfl, spells, spell⟩ := spell.exists_cons
      have inParens : Token.Spell rest (bytes "(" :: [name] ++ [bytes ")"]) := spell
      obtain ⟨paren, inner, close, rfl, opens, closes, spell⟩ := inParens.exists_parens
      obtain ⟨operand, rfl, names⟩ := spell.exists_singleton
      have kind : token.kind = .ident := spells.kind_eq (by decide)
      have isOperand := names.kind_eq (Token.Kind.ofText?_name isName)
      have word : token.isWord (bytes "defined") = true := by
        simp [Token.isWord, kind, spells.text]
      have balanced : Balanced [operand] :=
        Balanced.nil.cons (by simp [isOperand]) (by simp [isOperand])
      refine .of_single ((balanced.parens opens closes).cons (by simp [kind]) (by simp [kind]))
        fun rest _ => ?_
      rw [← names.text]
      exact readsTo_definedParens word opens isOperand closes location
  | @not location sign operand words spelled written ih =>
      intro tokens spell
      obtain ⟨token, operand, rfl, spells, spell⟩ := spell.exists_cons
      have returns := ih operand spell
      have all : ∀ sign ∈ [bytes "!", bytes "not"], (Token.Kind.ofText? sign).map
          (fun kind => decide (kind ≠ .leftParen ∧ kind ≠ .rightParen ∧
            (kind = .op .not || (Token.mk kind sign .nowhere).isWord (bytes "not")) = true)) =
              some true := by
        decide
      have isSign := spells.view
        (fun kind sign => decide (kind ≠ .leftParen ∧ kind ≠ .rightParen ∧
            (kind = .op .not || (Token.mk kind sign .nowhere).isWord (bytes "not")) = true))
        (all _ spelled)
      obtain ⟨notOpen, notClose, isNot⟩ := of_decide_eq_true isSign
      refine .of_single (returns.balanced.cons notOpen notClose) fun rest stops => ?_
      exact readsTo_not isNot (returns.reads rest stops) location
  | @compare location comparison sign left right words more spelled first second =>
      intro tokens spell
      obtain ⟨before, sign, behind, rfl, spellLeft, isSign, spellRight⟩ := spell.exists_infix
      have found := isSign.comparison spelled
      have starts := startsNumber_of_written first before spellLeft
      have startsRight := startsNumber_of_written second behind spellRight
      obtain ⟨notOpen, notClose⟩ := kind_of_comparison found
      refine .of_single (starts.balanced.infix_sign startsRight.balanced notOpen notClose)
        fun rest stops => ?_
      have noOperation := ofToken?_of_comparison found
      obtain ⟨readsLeft, _⟩ := Arith.readsBack_of_written stop first before spellLeft
      obtain ⟨readsRight, _⟩ := Arith.readsBack_of_written stop second behind spellRight
      rw [List.append_assoc]
      exact readsTo_comparison starts
        (readsLeft (sign :: (behind ++ rest)) (Arith.stops_of_no_operation noOperation)) found
        (readsRight rest stops.arith) location
  | parens written ih =>
      intro tokens spell
      obtain ⟨paren, inner, close, rfl, opens, closes, spell⟩ := spell.exists_parens
      have returns := ih inner spell
      refine .of_single (returns.balanced.parens opens closes) fun rest stops => ?_
      rw [List.append_assoc]
      exact readsTo_parens opens closes returns.balanced stops.number
        (returns.reads (close :: rest) (stops_of_close closes))
  | both location first second ihFirst ihSecond =>
      intro tokens spell
      obtain ⟨left, sign, right, rfl, spellLeft, isSign, spellRight⟩ := spell.exists_infix
      have kind : sign.kind = .op .andAnd := isSign.kind_eq (by decide)
      have joins : Joins .both sign := by simp [Joins, Level.op?, kind]
      exact (ihFirst left spellLeft).join joins (ihSecond right spellRight) rfl
  | either location first second ihFirst ihSecond =>
      intro tokens spell
      obtain ⟨left, sign, right, rfl, spellLeft, isSign, spellRight⟩ := spell.exists_infix
      have kind : sign.kind = .op .orOr := isSign.kind_eq (by decide)
      have joins : Joins .either sign := by simp [Joins, Level.op?, kind]
      exact (ihFirst left spellLeft).join joins (ihSecond right spellRight) rfl
  | @loosen level test words written ih =>
      intro tokens spell
      have returns := ih tokens spell
      cases level with
      | either | both => exact .of_leads returns.balanced (returns.reads.leadsBack (by simp))
      | single => exact returns

end Test

end ScopedMacros