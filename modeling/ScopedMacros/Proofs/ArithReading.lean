import ScopedMacros.Proofs.Places
import ScopedMacros.Proofs.Words

/-!
# Written arithmetic is read back

From tokens for the words of an expression, the expression is read, and what follows it is left.
What follows must not go on with the expression.
-/

namespace ScopedMacros

/-- A value before a closing parenthesis. -/
theorem Reading.exists_close {α : Type} {bound : Nat} (reading : Reading α bound) (stop : Token)
    (what : Expectation) {close : Token} {rest : List Token} (left : reading.rest = close :: rest)
    (closes : close.kind = .rightParen) :
    ∃ closed : Reading α bound, reading.close stop what = .ok (close, closed) ∧
      closed.value = reading.value ∧ closed.rest = rest := by
  have shorter := reading.lt_of_rest left
  refine ⟨⟨reading.value, rest, shorter⟩, ?_, rfl, rfl⟩
  unfold Reading.close
  split
  · rename_i nothing
    rw [left] at nothing
    cases nothing
  · rename_i token others found
    have same := left.symm.trans found
    cases same
    rw [if_pos closes]

namespace Arith

/-- A reading gives the expression, up to places, and leaves the rest. -/
def Gets {bound : Nat} (reading : Reading Arith bound) (tree : Arith) (rest : List Token) : Prop :=
  reading.value.unplaced = tree.unplaced ∧ reading.rest = rest

/-- From tokens, an expression of a level is read and the rest is left. -/
def ReadsTo (stop : Token) (level : Level) (tokens : List Token) (tree : Arith)
    (rest : List Token) : Prop :=
  ∃ reading, read stop level tokens = .ok reading ∧ Gets reading tree rest

/-- After its first operand, a chain of a level is read as an expression and the rest is left. -/
def ChainsTo (stop : Token) (level : Level) {bound : Nat} (left : Reading Arith bound)
    (tree : Arith) (rest : List Token) : Prop :=
  ∃ reading, readChain stop level left = .ok reading ∧ Gets reading tree rest

/-- No operation of the level, or of a tighter one, comes first. -/
def Stops (level : Level) (rest : List Token) : Prop :=
  ∀ token operation, rest.head? = some token → Operation.ofToken? token = some operation →
    level.rank < operation.level.rank

variable {stop : Token} {level : Level} {tokens rest after : List Token} {tree : Arith}

theorem Stops.tighter (stops : Stops level rest) : Stops level.tighter rest := by
  intro token operation first found
  have looser := stops token operation first found
  have le : level.tighter.rank ≤ level.rank := by cases level <;> decide
  omega

theorem Stops.atLevel? {token : Token} (stops : Stops level (token :: rest)) :
    Operation.atLevel? level token = none := by
  rw [Operation.atLevel?, Option.filter_eq_none_iff]
  intro operation found same
  have looser := stops token operation rfl found
  rw [of_decide_eq_true same] at looser
  omega

/-- After an operation of a level, a tighter level has ended. -/
theorem stops_tighter_of_operation {token : Token} {operation : Operation}
    (found : Operation.ofToken? token = some operation) :
    Stops operation.level.tighter (token :: rest) := by
  intro other same first again
  cases first
  obtain rfl : operation = same := Option.some.inj (found.symm.trans again)
  cases operation <;> decide

theorem stops_of_no_operation {token : Token} (none : Operation.ofToken? token = none) :
    Stops level (token :: rest) := by
  intro other operation first found
  cases first
  rw [none] at found
  cases found

theorem atLevel?_of_ofToken? {token : Token} {operation : Operation}
    (found : Operation.ofToken? token = some operation) :
    Operation.atLevel? operation.level token = some operation := by
  simp [Operation.atLevel?, found]

/-! ## One step of reading -/

theorem chainsTo_of_stops {bound : Nat} {left : Reading Arith bound} (gets : Gets left tree rest)
    (stops : Stops level rest) : ChainsTo stop level left tree rest := by
  refine ⟨left, ?_, gets⟩
  rw [readChain.eq_def]
  split
  · rfl
  · rename_i token others found
    rw [gets.2] at found
    subst found
    rw [stops.atLevel?]

theorem chainsTo_of_operation {bound : Nat} {left : Reading Arith bound} {token : Token}
    {operation : Operation} {first second final : Arith} {middle : List Token}
    (gets : Gets left first (token :: middle)) (found : Operation.ofToken? token = some operation)
    (reads : ReadsTo stop operation.level.tighter middle second after)
    (goesOn : ∀ next : Reading Arith bound,
      Gets next (.binary .nowhere operation first second) after →
        ChainsTo stop operation.level next final rest) :
    ChainsTo stop operation.level left final rest := by
  obtain ⟨right, answered, sameRight, leaves⟩ := reads
  unfold ChainsTo
  rw [readChain.eq_def]
  split
  · rename_i nothing
    rw [gets.2] at nothing
    cases nothing
  · rename_i other others here
    have same := gets.2.symm.trans here
    cases same
    let next := (right.map (join operation left.value)).widen
      (Nat.le_of_lt (left.lt_of_rest here))
    have joined : Gets next (.binary .nowhere operation first second) after := by
      refine ⟨?_, leaves⟩
      change (join operation left.value right.value).unplaced = _
      rw [unplaced_join, gets.1, sameRight]
      rfl
    obtain ⟨reading, chained, done⟩ := goesOn next joined
    refine ⟨reading, ?_, done⟩
    rw [atLevel?_of_ofToken? found]
    dsimp only
    rw [answered]
    exact chained

/-- The first operand of a chain is followed by the rest of the chain. -/
theorem readsTo_of_chain {first : Arith} {middle : List Token} (chained : level.isChain = true)
    (reads : ReadsTo stop level.tighter tokens first middle)
    (goesOn : ∀ left : Reading Arith tokens.length, Gets left first middle →
      ChainsTo stop level left tree rest) : ReadsTo stop level tokens tree rest := by
  obtain ⟨left, answered, gets⟩ := reads
  obtain ⟨reading, chain, done⟩ := goesOn left gets
  refine ⟨reading, ?_, done⟩
  cases level with
  | sum =>
      rw [read]
      exact bind_eq_ok_iff.2 ⟨left, answered, chain⟩
  | product =>
      rw [read]
      exact bind_eq_ok_iff.2 ⟨left, answered, chain⟩
  | shift => cases chained
  | operand => cases chained

/-- A single operand is a shift, if no shift follows. -/
theorem readsTo_shift_of_operand (reads : ReadsTo stop .operand tokens tree rest)
    (stops : Stops .shift rest) : ReadsTo stop .shift tokens tree rest := by
  obtain ⟨left, answered, gets⟩ := reads
  refine ⟨left, ?_, gets⟩
  rw [read]
  refine bind_eq_ok_iff.2 ⟨left, answered, ?_⟩
  split
  · rfl
  · rename_i token others found
    rw [gets.2] at found
    subst found
    rw [stops.atLevel?]

theorem readsTo_shift {token : Token} {operation : Operation} {first second : Arith}
    {middle : List Token} (reads : ReadsTo stop .operand tokens first (token :: middle))
    (found : Operation.ofToken? token = some operation) (shifts : operation.level = .shift)
    (more : ReadsTo stop .shift middle second rest) (location : Location) :
    ReadsTo stop .shift tokens (.binary location operation first second) rest := by
  obtain ⟨left, answered, gets⟩ := reads
  obtain ⟨right, following, sameRight, leaves⟩ := more
  have isShift := atLevel?_of_ofToken? found
  rw [shifts] at isShift
  refine ⟨(right.map (join operation left.value)).widen (Nat.le_of_lt (left.lt_of_rest gets.2)),
    ?_, ?_, leaves⟩
  · rw [read]
    refine bind_eq_ok_iff.2 ⟨left, answered, ?_⟩
    split
    · rename_i nothing
      rw [gets.2] at nothing
      cases nothing
    · rename_i other others here
      have same := gets.2.symm.trans here
      cases same
      rw [isShift]
      exact bind_eq_ok_iff.2 ⟨right, following, rfl⟩
  · change (join operation left.value right.value).unplaced = _
    rw [unplaced_join, gets.1, sameRight]
    rfl

section

variable {token : Token} {operand : Arith}

theorem readsTo_token (value : ofToken? token = some tree)
    (free : token.isWord (bytes "lnot") = false) :
    ReadsTo stop .operand (token :: rest) tree rest := by
  have kind : (∃ number, token.kind = .integer number) ∨ token.kind = .ident := by
    rw [ofToken?] at value
    cases kind : token.kind with
    | integer number => exact .inl ⟨number, rfl⟩
    | ident => exact .inr rfl
    | _ =>
        rw [kind] at value
        cases value
  refine ⟨⟨tree, rest, Nat.lt_succ_self _⟩, ?_, rfl, rfl⟩
  rw [read]
  rcases kind with ⟨number, kind⟩ | kind
  · simp [kind, free, value]
  · simp [kind, free, value]

theorem readsTo_neg (minus : token.kind = .op .minus)
    (reads : ReadsTo stop .operand tokens operand rest) (location : Location) :
    ReadsTo stop .operand (token :: tokens) (.neg location operand) rest := by
  obtain ⟨inner, answered, same, leaves⟩ := reads
  refine ⟨(inner.map fun value => .neg (token.location.span value.location) value).widen
    (Nat.le_succ _), ?_, ?_, leaves⟩
  · rw [read, if_pos minus]
    exact bind_eq_ok_iff.2 ⟨inner, answered, rfl⟩
  · exact congrArg (Arith.neg .nowhere) same

theorem readsTo_complement
    (sign : (token.kind = .op .tilde || token.isWord (bytes "lnot")) = true)
    (reads : ReadsTo stop .operand tokens operand rest) (location : Location) :
    ReadsTo stop .operand (token :: tokens) (.complement location operand) rest := by
  obtain ⟨inner, answered, same, leaves⟩ := reads
  have notMinus : token.kind ≠ .op .minus := by
    intro minus
    simp [minus, Token.isWord] at sign
  refine ⟨(inner.map fun value => .complement (token.location.span value.location) value).widen
    (Nat.le_succ _), ?_, ?_, leaves⟩
  · rw [read, if_neg notMinus, if_pos sign]
    exact bind_eq_ok_iff.2 ⟨inner, answered, rfl⟩
  · exact congrArg (Arith.complement .nowhere) same

theorem readsTo_parens {close : Token} (opens : token.kind = .leftParen)
    (closes : close.kind = .rightParen)
    (reads : ReadsTo stop .sum tokens operand (close :: rest)) :
    ReadsTo stop .operand (token :: tokens) operand rest := by
  obtain ⟨inner, answered, same, leaves⟩ := reads
  obtain ⟨closed, closing, value, left⟩ := inner.exists_close stop .rightParen leaves closes
  refine ⟨(closed.map (relocate (token.location.span close.location))).widen (Nat.le_succ _),
    ?_, ?_, left⟩
  · rw [read, if_neg (by simp [opens]), if_neg (by simp [opens, Token.isWord]),
      if_neg (by simp [opens]), if_pos opens]
    exact bind_eq_ok_iff.2 ⟨inner, answered, bind_eq_ok_iff.2 ⟨_, closing, rfl⟩⟩
  · change (closed.value.relocate _).unplaced = _
    rw [unplaced_relocate, value, same]

end

/-! ## Whole expressions -/

/-- After the tokens, what follows an expression is left. -/
def ReadsBack (stop : Token) (level : Level) (tokens : List Token) (tree : Arith) : Prop :=
  ∀ rest, Stops level rest → ReadsTo stop level (tokens ++ rest) tree rest

/-- After the tokens, a chain goes on with the expression as its first operand. -/
def LeadsBack (stop : Token) (level : Level) (tokens : List Token) (tree : Arith) : Prop :=
  ∀ rest final after, Stops level.tighter rest →
    (∀ bound (left : Reading Arith bound), Gets left tree rest →
      ChainsTo stop level left final after) →
    ReadsTo stop level (tokens ++ rest) final after

theorem ReadsTo.congr {other : Arith} (reads : ReadsTo stop level tokens tree rest)
    (same : tree.unplaced = other.unplaced) : ReadsTo stop level tokens other rest := by
  obtain ⟨reading, answered, value, left⟩ := reads
  exact ⟨reading, answered, value.trans same, left⟩

theorem LeadsBack.readsBack (leads : LeadsBack stop level tokens tree) :
    ReadsBack stop level tokens tree :=
  fun rest stops => leads rest tree rest stops.tighter fun _ _ gets => chainsTo_of_stops gets stops

theorem ReadsBack.leadsBack (chained : level.isChain = true)
    (reads : ReadsBack stop level.tighter tokens tree) : LeadsBack stop level tokens tree :=
  fun rest _ _ stops goesOn => readsTo_of_chain chained (reads rest stops) (goesOn _)

theorem LeadsBack.binary {operation : Operation} {left right : List Token} {sign : Token}
    {first second : Arith} (leads : LeadsBack stop operation.level left first) (location : Location)
    (found : Operation.ofToken? sign = some operation)
    (reads : ReadsBack stop operation.level.tighter right second) :
    LeadsBack stop operation.level (left ++ sign :: right)
      (.binary location operation first second) := by
  intro rest final after stops goesOn
  rw [List.append_assoc]
  refine leads _ final after (stops_tighter_of_operation found) ?_
  intro bound reading gets
  refine chainsTo_of_operation gets found (reads rest stops) ?_
  intro next joined
  exact goesOn bound next joined

/-- The words of an expression are read as the expression. -/
theorem readsBack_of_written (stop : Token) {words : List Bytes}
    (written : Written level tree words) :
    ∀ tokens, Token.Spell tokens words →
      ReadsBack stop level tokens tree ∧
        (level.isChain = true → LeadsBack stop level tokens tree) := by
  induction written with
  | @int location number digits fits hex =>
      intro tokens spell
      obtain ⟨token, rfl, spells⟩ := spell.exists_singleton
      have kind := spells.kind_eq (Token.Kind.ofText?_hex fits hex)
      refine ⟨fun rest _ => ?_, by simp [Level.isChain]⟩
      have value : ofToken? token = some (.int token.location (Int64.ofNat number)) := by
        simp only [ofToken?, kind]
      exact (readsTo_token value (by simp [Token.isWord, kind])).congr rfl
  | @ident location name isName free =>
      intro tokens spell
      obtain ⟨token, rfl, spells⟩ := spell.exists_singleton
      have kind := spells.kind_eq (Token.Kind.ofText?_name isName)
      have notWord : token.text ≠ bytes "lnot" := by
        rw [spells.text]
        rintro rfl
        exact free (by decide)
      refine ⟨fun rest _ => ?_, by simp [Level.isChain]⟩
      have value : ofToken? token = some (.ident token.location name) := by
        simp only [ofToken?, kind, spells.text]
      exact (readsTo_token value (by simp [Token.isWord, notWord])).congr rfl
  | neg location written ih =>
      intro tokens spell
      obtain ⟨token, operand, rfl, spells, spell⟩ := spell.exists_cons
      obtain ⟨reads, _⟩ := ih operand spell
      refine ⟨fun rest stops => ?_, by simp [Level.isChain]⟩
      exact readsTo_neg (spells.kind_eq (by decide)) (reads rest stops) location
  | complement location spelled written ih =>
      intro tokens spell
      obtain ⟨token, operand, rfl, spells, spell⟩ := spell.exists_cons
      obtain ⟨reads, _⟩ := ih operand spell
      refine ⟨fun rest stops => readsTo_complement ?_ (reads rest stops) location, by
        simp [Level.isChain]⟩
      have all : ∀ sign ∈ [bytes "~", bytes "lnot"], (Token.Kind.ofText? sign).map
          (fun kind => kind = .op .tilde || (Token.mk kind sign .nowhere).isWord (bytes "lnot")) =
            some true := by
        decide
      exact spells.view
        (fun kind text => kind = .op .tilde || (Token.mk kind text .nowhere).isWord (bytes "lnot"))
        (all _ spelled)
  | parens written ih =>
      intro tokens spell
      obtain ⟨paren, inner, close, rfl, opens, closes, spell⟩ := spell.exists_parens
      obtain ⟨reads, _⟩ := ih inner spell
      refine ⟨fun rest stops => ?_, by simp [Level.isChain]⟩
      have inside := reads (close :: rest) (stops_of_no_operation (by simp [Operation.ofToken?, closes]))
      rw [List.append_assoc]
      exact readsTo_parens opens closes inside
  | shift location shifts spelled first second ihFirst ihSecond =>
      intro tokens spell
      obtain ⟨left, sign, right, rfl, spellLeft, isSign, spellRight⟩ := spell.exists_infix
      have found := isSign.operation spelled
      obtain ⟨readsLeft, _⟩ := ihFirst left spellLeft
      obtain ⟨readsRight, _⟩ := ihSecond right spellRight
      refine ⟨fun rest stops => ?_, by simp [Level.isChain]⟩
      have stopsLeft : Stops Level.shift.tighter (sign :: (right ++ rest)) := by
        rw [← shifts]
        exact stops_tighter_of_operation found
      rw [List.append_assoc]
      exact readsTo_shift (readsLeft _ stopsLeft) found shifts (readsRight rest stops) location
  | chain location made chained spelled first second ihFirst ihSecond =>
      intro tokens spell
      obtain ⟨left, sign, right, rfl, spellLeft, isSign, spellRight⟩ := spell.exists_infix
      have found := isSign.operation spelled
      obtain ⟨_, leads⟩ := ihFirst left spellLeft
      obtain ⟨reads, _⟩ := ihSecond right spellRight
      subst made
      have both := (leads chained).binary location found reads
      exact ⟨both.readsBack, fun _ => both⟩
  | @loosen level tree words written ih =>
      intro tokens spell
      obtain ⟨reads, _⟩ := ih tokens spell
      cases level with
      | sum | product =>
          have leads := reads.leadsBack rfl
          exact ⟨leads.readsBack, fun _ => leads⟩
      | shift =>
          refine ⟨fun rest stops => ?_, by simp [Level.isChain]⟩
          exact readsTo_shift_of_operand (reads rest stops.tighter) stops
      | operand => exact ⟨reads, by simp [Level.isChain]⟩

end Arith

end ScopedMacros
