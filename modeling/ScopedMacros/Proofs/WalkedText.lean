import ScopedMacros.Proofs.Extent
import ScopedMacros.Proofs.Walker

/-!
# Walking over text

The loops of a walk are compared with the stretches of bytes that they go over.  A loop that looks for
the end of the source first stops there.  One that does not stops there because it sees a zero byte,
which fails its test.  So every token of text is the one that scanning finds.
-/

namespace ScopedMacros

/-- An escaped newline takes the blanks after it along. -/
theorem Lexeme.stringTail_skipping (multiline : Bool) (text : Bytes) :
    stringTail multiline true text =
      (stringTail multiline false
        (text.dropWhile fun byte => byte == Byte.space || byte == Byte.tab)).cons
        (text.takeWhile fun byte => byte == Byte.space || byte == Byte.tab) [] := by
  induction text with
  | nil => rfl
  | cons byte text ih =>
      cases blank : byte == Byte.space || byte == Byte.tab with
      | true =>
          rw [stringTail.eq_def]
          simp [blank, ih, StringTail.cons]
      | false =>
          rw [stringTail.eq_def multiline true, List.dropWhile_cons_of_neg (by simp [blank]),
            stringTail.eq_def multiline false]
          simp [blank, StringTail.cons]

/-- A backslash before a newline is gone over with it. -/
theorem Lexeme.continuation_continued_line (more : Bytes) :
    continuation (Byte.backslash :: Byte.newline :: more) =
      Byte.backslash :: Byte.newline :: continuation more := by
  simp [continuation, show Byte.isBlank Byte.backslash = false from rfl]

theorem Lexeme.continuation_of_ended {first : Byte} {text : Bytes}
    (notBlank : Byte.isBlank first = false)
    (ended : ∀ more, first :: text ≠ Byte.backslash :: Byte.newline :: more) :
    continuation (first :: text) = [] := by
  cases text with
  | nil => simp [continuation, notBlank]
  | cons second more =>
      have single : ¬ (first = Byte.backslash ∧ second = Byte.newline) := by
        rintro ⟨rfl, rfl⟩
        exact ended more rfl
      simp [continuation, notBlank, single]

theorem Lexeme.ne_backslash_of_mem_blankLine {text : Bytes} {byte : Byte}
    (member : byte ∈ blankLine text) : (byte != Byte.backslash) = true := by
  have notBackslash : ∀ byte : Byte, Byte.isBlank byte = true → (byte != Byte.backslash) = true := by
    decide +kernel
  induction text with
  | nil => cases member
  | cons first text ih =>
      rw [Token.blankLine_cons] at member
      split at member
      · rename_i blank
        rcases List.mem_cons.1 member with rfl | later
        · exact notBackslash byte blank
        · exact ih later
      split at member
      · rename_i newline
        rw [List.mem_singleton.1 member, newline]
        rfl
      · cases member

namespace Walker

/-! ## What is left -/

/-- What the walker has not gone over. -/
def rest (walker : Walker) : Bytes :=
  walker.source.drop walker.place

def cursor (walker : Walker) : Cursor :=
  ⟨walker.here, walker.rest⟩

/-- The walker after the bytes of a text. -/
def past (walker : Walker) (raw : Bytes) : Walker :=
  raw.foldl pass walker

variable {walker : Walker} {byte : Byte} {raw more : Bytes}

@[simp]
theorem past_nil (walker : Walker) : walker.past [] = walker := rfl

theorem past_append (walker : Walker) (raw more : Bytes) :
    walker.past (raw ++ more) = (walker.past raw).past more :=
  List.foldl_append

@[simp]
theorem source_past (walker : Walker) (raw : Bytes) : (walker.past raw).source = walker.source := by
  induction raw generalizing walker with
  | nil => rfl
  | cons byte raw ih =>
      refine (ih (walker.pass byte)).trans ?_
      unfold pass
      split <;> rfl

@[simp]
theorem place_past (walker : Walker) (raw : Bytes) :
    (walker.past raw).place = walker.place + raw.length := by
  induction raw generalizing walker with
  | nil => rfl
  | cons byte raw ih =>
      have step : (walker.pass byte).place = walker.place + 1 := by
        unfold pass
        split <;> rfl
      refine (ih (walker.pass byte)).trans ?_
      rw [step, List.length_cons]
      omega

theorem here_pass (walker : Walker) (byte : Byte) :
    (walker.pass byte).here = walker.here.step byte := by
  have next : (walker.place + 1).toUInt32 = walker.place.toUInt32 + 1 := UInt32.ofNat_add _ _
  unfold pass Position.step
  split <;> simp [here, next]

theorem here_past (walker : Walker) (raw : Bytes) :
    (walker.past raw).here = walker.here.advance raw := by
  induction raw generalizing walker with
  | nil => rfl
  | cons byte raw ih =>
      rw [Position.advance_cons, ← here_pass]
      exact ih (walker.pass byte)

theorem rest_past (walker : Walker) (raw : Bytes) :
    (walker.past raw).rest = walker.rest.drop raw.length := by
  simp [rest]

theorem cursor_past (walker : Walker) (raw : Bytes) :
    (walker.past raw).cursor = walker.cursor.advance raw := by
  simp only [cursor, Cursor.advance, here_past, rest_past]

/-- The rest after a text at its head. -/
theorem rest_past_of_append (left : walker.rest = raw ++ more) : (walker.past raw).rest = more := by
  rw [rest_past, left, List.drop_left]

/-- A text at the head of the rest goes on with one at the head of what is left after it. -/
theorem prefix_append_of_past (inRest : raw <+: walker.rest) (later : more <+: (walker.past raw).rest) :
    raw ++ more <+: walker.rest := by
  obtain ⟨after, whole⟩ := inRest
  rw [rest_past_of_append whole.symm] at later
  rw [← whole]
  exact (List.prefix_append_right_inj raw).2 later

theorem atEnd_eq (walker : Walker) : walker.atEnd = walker.rest.isEmpty := by
  rw [Bool.eq_iff_iff]
  simp [atEnd, rest]

theorem peek_eq (walker : Walker) (distance : Nat) :
    walker.peek distance = (walker.rest[distance]?).getD 0 := by
  simp [peek, rest]

theorem turns_eq (walker : Walker) : walker.turns = walker.rest.length + 1 := by
  simp [turns, rest]

theorem between_past (inRest : raw <+: walker.rest) : walker.between (walker.past raw) = raw := by
  rw [between, place_past, Nat.add_sub_cancel_left]
  exact (List.prefix_iff_eq_take.1 inRest).symm

theorem step_of_rest (left : walker.rest = byte :: more) :
    walker.step = .ok (byte, walker.past [byte]) := by
  have here : walker.source[walker.place]? = some byte := by
    rw [← List.head?_drop]
    exact congrArg List.head? left
  obtain ⟨inside, value⟩ := List.getElem?_eq_some_iff.1 here
  simp only [step, dif_pos inside, value]
  rfl

/-! ## Loops that test the next byte -/

/-- A condition that holds if there is a next byte and it passes the test. -/
def Guards (goesOn : Walker → Bool) (test : Byte → Bool) : Prop :=
  ∀ walker, goesOn walker = (walker.rest.head?.map test).getD false

/-- A loop that looks for the end of the source first. -/
theorem guards_inside (test : Byte → Bool) :
    Guards (fun walker => !walker.atEnd && test (walker.peek 0)) test := by
  intro walker
  simp only [atEnd_eq, peek_eq]
  cases walker.rest <;> rfl

/-- A loop that does not look for the end of the source stops there if its test fails for the zero
byte. -/
theorem guards_peek {test : Byte → Bool} (zero : test 0 = false) :
    Guards (fun walker => test (walker.peek 0)) test := by
  intro walker
  simp only [peek_eq]
  cases walker.rest with
  | nil => exact zero
  | cons byte more => rfl

theorem stepsWhile_eq {goesOn : Walker → Bool} {test : Byte → Bool} (guards : Guards goesOn test)
    {turns : Nat} (enough : walker.rest.length < turns) :
    stepsWhile goesOn turns walker = .ok (walker.past (walker.rest.takeWhile test)) := by
  induction turns generalizing walker with
  | zero => cases enough
  | succ turns ih =>
      rw [stepsWhile, guards walker]
      cases left : walker.rest with
      | nil => rfl
      | cons byte more =>
          cases passes : test byte with
          | false => simp [passes]
          | true =>
              have later : (walker.past [byte]).rest = more := rest_past_of_append left
              have enough : (walker.past [byte]).rest.length < turns := by
                rw [later]
                rw [left, List.length_cons] at enough
                omega
              have step := ih enough
              rw [later, ← past_append] at step
              simp only [List.head?_cons, Option.map_some, passes, Option.getD_some, if_true,
                step_of_rest left, bind, Except.bind, List.takeWhile_cons]
              exact step

theorem stepWhile_eq {goesOn : Walker → Bool} {test : Byte → Bool} (guards : Guards goesOn test) :
    walker.stepWhile goesOn = .ok (walker.past (walker.rest.takeWhile test)) :=
  stepsWhile_eq guards (by rw [turns_eq]; omega)

/-- Steps over bytes that are all there. -/
theorem steps_eq (inRest : raw <+: walker.rest) : walker.steps raw.length = .ok (walker.past raw) := by
  induction raw generalizing walker with
  | nil => rfl
  | cons byte raw ih =>
      obtain ⟨more, left⟩ := inRest
      have later : raw <+: (walker.past [byte]).rest := by
        rw [rest_past_of_append (show walker.rest = [byte] ++ (raw ++ more) from left.symm)]
        exact List.prefix_append raw more
      simp only [List.length_cons, steps, step_of_rest left.symm, bind, Except.bind]
      exact ih later

theorem finds_eq (walker : Walker) (distance : Nat) (test : Byte → Bool) :
    walker.finds distance test = ((walker.rest.drop distance).head?.map test).getD false := by
  have inside : walker.place + distance < walker.source.length ↔ walker.rest.drop distance ≠ [] := by
    simp [rest]
  have byte : walker.peek distance = ((walker.rest.drop distance)[0]?).getD 0 := by
    rw [peek_eq]
    simp
  rw [finds, byte]
  cases left : walker.rest.drop distance with
  | nil => simp [inside, left]
  | cons byte more => simp [inside, left]

theorem distanceAfter_eq (test : Byte → Bool) (count distance : Nat) :
    walker.distanceAfter test count distance =
      distance + (((walker.rest.drop distance).take count).takeWhile test).length := by
  induction count generalizing distance with
  | zero => rfl
  | succ count ih =>
      have later : walker.rest.drop (distance + 1) = (walker.rest.drop distance).drop 1 := by
        simp
      rw [distanceAfter, ih, later, finds_eq]
      cases left : walker.rest.drop distance with
      | nil => simp
      | cons byte more =>
          cases passes : test byte with
          | false => simp [passes]
          | true => simp [passes]; omega

theorem atEnd_of_rest (left : walker.rest = byte :: more) : walker.atEnd = false := by
  rw [atEnd_eq, left]
  rfl

theorem peek_zero_of_rest (left : walker.rest = byte :: more) : walker.peek 0 = byte := by
  rw [peek_eq, left]
  rfl

theorem peek_succ_of_rest (left : walker.rest = byte :: more) (distance : Nat) :
    walker.peek (distance + 1) = (walker.past [byte]).peek distance := by
  rw [peek_eq, peek_eq, rest_past_of_append (show walker.rest = [byte] ++ more from left), left]
  rfl

/-! ## Text -/

/-- What a walk gives if a lexeme that starts with the next byte is found, or none. -/
def outcome (walker : Walker) (first : Byte) :
    Except Lexeme.Failure Lexeme → Except Fault (Token × Walker)
  | .error failure => .error (.refused (walker.cursor.error first failure))
  | .ok lexeme => .ok (walker.cursor.token first lexeme, walker.past (first :: lexeme.more))

variable {first : Byte} {text : Bytes}

theorem location_token_past (walker : Walker) (raw : Bytes) (kind : Token.Kind) :
    (walker.token (walker.past raw) kind).location = walker.cursor.location raw := by
  rw [token, here_past]
  rfl

theorem token_past {kind : Token.Kind} (noSpace : kind ≠ .space)
    (inRest : first :: more <+: walker.rest) :
    walker.token (walker.past (first :: more)) kind = walker.cursor.token first ⟨kind, more⟩ := by
  have text : Lexeme.tokenText kind (first :: more) = first :: more := if_neg noSpace
  rw [Cursor.token, text, ← location_token_past walker _ kind, token, between_past inRest]

theorem refusal_past (cause : Cause) :
    walker.refusal (walker.past (first :: more)) cause =
      .refused (walker.cursor.error first ⟨cause, more⟩) := by
  rw [refusal, here_past]
  rfl

theorem run_eq {test : Byte → Bool} {kind : Token.Kind} (noSpace : kind ≠ .space)
    (left : walker.rest = first :: text) :
    walker.run test kind = walker.outcome first (.ok ⟨kind, text.takeWhile test⟩) := by
  have later : (walker.past [first]).rest = text := rest_past_of_append left
  have inRest : first :: text.takeWhile test <+: walker.rest := by
    rw [left]
    exact List.cons_prefix_cons.2 ⟨rfl, List.takeWhile_prefix test⟩
  simp only [run, step_of_rest left, bind, Except.bind, stepWhile_eq (guards_inside test), later,
    outcome, ← past_append, List.singleton_append, token_past noSpace inRest]

theorem number_eq (digit : Byte.isDigit first = true) (left : walker.rest = first :: text) :
    walker.number = walker.outcome first (.ok ⟨.text, text.takeWhile Byte.isNumberPart⟩) := by
  have run : walker.rest.takeWhile Byte.isNumberPart =
      first :: text.takeWhile Byte.isNumberPart := by
    rw [left, List.takeWhile_cons, if_pos (by simp [Byte.isNumberPart, digit])]
  have inRest := List.takeWhile_prefix (l := walker.rest) Byte.isNumberPart
  rw [run] at inRest
  simp only [number, stepWhile_eq (guards_inside Byte.isNumberPart), bind, Except.bind, run, outcome,
    token_past (by decide : Token.Kind.text ≠ .space) inRest]

theorem marks_eq {kind : Token.Kind} (noSpace : kind ≠ .space) (inRest : first :: more <+: walker.rest) :
    walker.marks (more.length + 1) kind = walker.outcome first (.ok ⟨kind, more⟩) := by
  simp only [marks, ← List.length_cons (a := first), steps_eq inRest, bind, Except.bind, outcome,
    token_past noSpace inRest]

/-- A single byte that is a token by itself. -/
theorem marks_one {kind : Token.Kind} (noSpace : kind ≠ .space) (left : walker.rest = first :: text) :
    walker.marks 1 kind = walker.outcome first (.ok ⟨kind, []⟩) := by
  have inRest : [first] <+: walker.rest := by
    rw [left]
    exact List.prefix_append [first] text
  exact marks_eq noSpace inRest

/-- What a walk gives for the rest of a string literal. -/
def stringOutcome (opening : Walker) (value : Bytes) (walker : Walker) (tail : Lexeme.StringTail) :
    Except Fault (Bytes × Walker) :=
  if tail.closed then .ok (value ++ tail.value, walker.past tail.raw)
  else .error (opening.refusal (walker.past tail.raw) .unterminatedString)

theorem stringOutcome_cons (opening walker : Walker) (value raw more : Bytes)
    (tail : Lexeme.StringTail) :
    stringOutcome opening value walker (tail.cons raw more) =
      stringOutcome opening (value ++ more) (walker.past raw) tail := by
  simp only [stringOutcome, Lexeme.StringTail.cons, List.append_assoc, past_append]

/-- A backslash and what it escapes are gone over together. -/
theorem exists_escape_eq (opening : Walker) (left : walker.rest = first :: text) :
    ∃ raw denoted after, escape opening walker = .ok (denoted, walker.past (first :: raw)) ∧
      text = raw ++ after ∧ ∀ multiline,
        Lexeme.stringTail multiline false (Byte.backslash :: first :: text) =
          (Lexeme.stringTail multiline false after).cons (Byte.backslash :: first :: raw) denoted := by
  have later : (walker.past [first]).rest = text := rest_past_of_append left
  simp only [escape, atEnd_of_rest left, Bool.false_eq_true, if_false, step_of_rest left, bind,
    Except.bind]
  by_cases newline : first = Byte.newline
  · subst newline
    let test : Byte → Bool := fun byte => byte == Byte.space || byte == Byte.tab
    refine ⟨text.takeWhile test, [], text.dropWhile test, ?_,
      (List.takeWhile_append_dropWhile).symm, fun multiline => ?_⟩
    · rw [if_pos rfl, stepWhile_eq (guards_inside test), later, ← past_append]
      rfl
    · have escaped : Lexeme.stringTail multiline false (Byte.backslash :: Byte.newline :: text) =
          (Lexeme.stringTail multiline true text).cons [Byte.backslash, Byte.newline] [] := by
        rw [Lexeme.stringTail.eq_def]
        rfl
      rw [escaped, Lexeme.stringTail_skipping]
      rfl
  rw [if_neg newline]
  rcases text with _ | ⟨second, _ | ⟨third, after⟩⟩
  · have noDigit : Byte.isDigit ((walker.past [first]).peek 0) = false := by
      rw [peek_eq, later]
      rfl
    rw [noDigit, Bool.and_false, Bool.false_and, if_neg Bool.false_ne_true]
    exact ⟨[], [Lexeme.unescape first], [], rfl, rfl, fun multiline =>
      Lexeme.stringTail_backslash multiline false [] newline (by simp)⟩
  · have noDigit : Byte.isDigit ((walker.past [first]).peek 1) = false := by
      rw [peek_eq, later]
      rfl
    rw [noDigit, Bool.and_false, if_neg Bool.false_ne_true]
    exact ⟨[], [Lexeme.unescape first], [second], rfl, rfl, fun multiline =>
      Lexeme.stringTail_backslash multiline false [second] newline (by simp)⟩
  · have afterSecond : ((walker.past [first]).past [second]).rest = third :: after :=
      rest_past_of_append later
    rw [peek_zero_of_rest later, peek_succ_of_rest later, peek_zero_of_rest afterSecond]
    cases digits : Byte.isDigit first && Byte.isDigit second && Byte.isDigit third with
    | true =>
        rw [if_pos rfl, step_of_rest later]
        simp only [step_of_rest afterSecond]
        exact ⟨[second, third], [Lexeme.ofCode first second third], after, rfl, rfl,
          fun multiline => Lexeme.stringTail_code multiline false after digits⟩
    | false =>
        rw [if_neg Bool.false_ne_true]
        refine ⟨[], [Lexeme.unescape first], second :: third :: after, rfl, rfl,
          fun multiline => Lexeme.stringTail_backslash multiline false _ newline ?_⟩
        intro _ _ _ same
        cases same
        exact digits

theorem stringBytes_eq (multiline : Bool) (opening : Walker) (value : Bytes) {turns : Nat}
    (enough : walker.rest.length < turns) :
    stringBytes multiline opening turns value walker =
      stringOutcome opening value walker (Lexeme.stringTail multiline false walker.rest) := by
  induction turns generalizing walker value with
  | zero => cases enough
  | succ turns ih =>
      rw [stringBytes]
      cases left : walker.rest with
      | nil => simp [atEnd_eq, left, stringOutcome, Lexeme.stringTail]
      | cons first text =>
          have later : (walker.past [first]).rest = text := rest_past_of_append left
          rw [left, List.length_cons] at enough
          rw [atEnd_of_rest left, peek_zero_of_rest left, step_of_rest left, Bool.false_or]
          cases ended : first == Byte.newline && !multiline with
          | true =>
              rw [if_pos rfl, Lexeme.stringTail.eq_def]
              simp only [Bool.false_and, Bool.false_eq_true, if_false, ended, if_true]
              rfl
          | false =>
              simp only [Bool.false_eq_true, if_false, bind, Except.bind]
              by_cases quote : first = Byte.doubleQuote
              · subst quote
                rw [if_pos rfl, Lexeme.stringTail.eq_def]
                simp [ended, stringOutcome]
              rw [if_neg quote]
              by_cases backslash : first = Byte.backslash
              · subst backslash
                rw [if_neg (not_not_intro rfl)]
                cases following : text with
                | nil =>
                    rw [following] at later
                    simp only [escape, atEnd_eq, later]
                    rfl
                | cons second text =>
                    rw [following] at later enough
                    obtain ⟨raw, denoted, after, escaped, split, tail⟩ :=
                      exists_escape_eq opening later
                    have last : ((walker.past [Byte.backslash]).past (second :: raw)).rest = after :=
                      rest_past_of_append (by rw [later, split]; rfl)
                    have fewer : after.length < turns := by
                      rw [split, List.length_cons, List.length_append] at enough
                      omega
                    rw [tail, stringOutcome_cons, escaped]
                    simp only []
                    rw [ih _ (by rw [last]; exact fewer), last, ← past_append]
                    rfl
              · rw [if_pos backslash, Lexeme.stringTail_plain multiline false text rfl ended quote
                  backslash, stringOutcome_cons, ih _ (by rw [later]; omega), later]

theorem string_eq (multiline : Bool) (left : walker.rest = Byte.doubleQuote :: text) :
    walker.string multiline =
      walker.outcome Byte.doubleQuote (Lexeme.string multiline text) := by
  have later : (walker.past [Byte.doubleQuote]).rest = text := rest_past_of_append left
  have enough : (walker.past [Byte.doubleQuote]).rest.length <
      (walker.past [Byte.doubleQuote]).turns := by
    rw [turns_eq]
    omega
  have inRest := Lexeme.prefix_raw_stringTail multiline false text
  simp only [string, step_of_rest left, bind, Except.bind, stringBytes_eq _ _ _ enough, later,
    Lexeme.string, stringOutcome, ← past_append, List.singleton_append, List.nil_append]
  generalize Lexeme.stringTail multiline false text = tail at inRest ⊢
  cases tail.closed with
  | true =>
      have inRest : Byte.doubleQuote :: tail.raw <+: walker.rest := by
        rw [left]
        exact List.cons_prefix_cons.2 ⟨rfl, inRest⟩
      simp only [if_true, outcome, token_past (nofun : Token.Kind.string tail.value ≠ .space) inRest]
  | false => simp only [Bool.false_eq_true, if_false, outcome, refusal_past]

theorem peek_eq_iff (walker : Walker) (distance : Nat) (nonzero : byte ≠ 0) :
    (walker.peek distance == byte) = true ↔ (walker.rest.drop distance).head? = some byte := by
  rw [peek_eq, List.head?_drop, beq_iff_eq]
  cases walker.rest[distance]? with
  | none => simpa using nonzero.symm
  | some found => simp

theorem character_eq (left : walker.rest = Byte.apostrophe :: text) :
    walker.character = walker.outcome Byte.apostrophe (.ok (Lexeme.character text)) := by
  have lone : Lexeme.characterTail? text = none →
      walker.marks 1 .text = walker.outcome Byte.apostrophe (.ok (Lexeme.character text)) := by
    intro missing
    rw [Lexeme.character, missing]
    exact marks_one (by decide) left
  have literal : ∀ {tail}, Lexeme.characterTail? text = some tail →
      walker.marks (tail.length + 1) .character =
        walker.outcome Byte.apostrophe (.ok (Lexeme.character text)) := by
    intro tail found
    rw [Lexeme.character, found]
    refine marks_eq (by decide) ?_
    rw [left]
    exact List.cons_prefix_cons.2 ⟨rfl, Lexeme.prefix_characterTail? found⟩
  rcases text with _ | ⟨first, _ | ⟨second, rest⟩⟩
  · have one : walker.peek 1 = 0 := by rw [peek_eq, left]; rfl
    rw [character, one]
    exact lone rfl
  · have two : walker.peek 2 = 0 := by rw [peek_eq, left]; rfl
    have open_ : ((0 : Byte) == Byte.apostrophe) = false := rfl
    simp only [character, two, open_, bne_self_eq_false, Bool.and_false, Bool.false_and,
      Bool.false_eq_true, if_false]
    exact lone rfl
  · have one : walker.peek 1 = first := by rw [peek_eq, left]; rfl
    have two : walker.peek 2 = second := by rw [peek_eq, left]; rfl
    have beyond : ∀ distance, walker.rest.drop (3 + distance) = rest.drop distance := by
      intro distance
      rw [left, ← List.drop_drop]
      rfl
    simp only [character, one, two, distanceAfter_eq, beyond 0, List.drop_zero,
      peek_eq_iff _ _ (by decide : Byte.apostrophe ≠ 0), beyond]
    simp only [Lexeme.characterTail?] at lone literal
    by_cases escaped : first = Byte.backslash ∧ second ≠ 0 ∧ second ≠ Byte.newline
    · rw [if_pos escaped] at lone literal
      rw [if_pos (by simpa [and_assoc] using escaped)]
      generalize (rest.take 3).takeWhile _ = code at lone literal ⊢
      split
      · rename_i closed
        rw [if_pos closed] at literal
        have whole := literal rfl
        rw [show (first :: second :: code ++ [Byte.apostrophe]).length = 3 + code.length by
          simp; omega] at whole
        exact whole
      · rename_i open_
        exact lone (if_neg open_)
    · rw [if_neg escaped] at lone literal
      rw [if_neg (by simpa [and_assoc] using escaped)]
      by_cases single : first ≠ 0 ∧ first ≠ Byte.newline ∧ second = Byte.apostrophe
      · rw [if_pos single] at literal
        rw [if_pos (by simpa [and_assoc] using single)]
        exact literal rfl
      · rw [if_neg (by simpa [and_assoc] using single)]
        exact lone (if_neg single)

theorem spaces_source_eq (value : Bytes) {turns : Nat} (enough : walker.rest.length < turns) :
    spaces false turns value walker =
      .ok (value ++ Lexeme.blankLine walker.rest, walker.past (Lexeme.blankLine walker.rest)) := by
  induction turns generalizing walker value with
  | zero => cases enough
  | succ turns ih =>
      rw [spaces]
      cases left : walker.rest with
      | nil => simp [atEnd_eq, left, Lexeme.blankLine]
      | cons first text =>
          have later : (walker.past [first]).rest = text := rest_past_of_append left
          rw [left, List.length_cons] at enough
          have fewer : (walker.past [first]).rest.length < turns := by
            rw [later]
            omega
          simp only [atEnd_of_rest left, peek_zero_of_rest left, Bool.false_eq_true, if_false,
            step_of_rest left, bind, Except.bind, Bool.false_and, Token.blankLine_cons, Bool.not_false,
            Bool.and_true, beq_iff_eq]
          split
          · rw [ih _ fewer, later, List.append_assoc, ← past_append]
            rfl
          split
          · rfl
          · simp

/-- A backslash and a newline ahead. -/
theorem sees_continued (left : walker.rest = first :: text) :
    (first == Byte.backslash && walker.peek 1 == Byte.newline) = true ↔
      ∃ more, walker.rest = Byte.backslash :: Byte.newline :: more := by
  have one : (walker.peek 1 == Byte.newline) = true ↔ text.head? = some Byte.newline := by
    rw [peek_eq_iff _ _ (by decide), left]
    rfl
  rw [Bool.and_eq_true, one, beq_iff_eq, left, List.head?_eq_some_iff]
  simp

theorem spaces_body_eq (value : Bytes) {turns : Nat} (enough : walker.rest.length < turns) :
    spaces true turns value walker =
      .ok (value ++ (Lexeme.continuation walker.rest).filter (· != Byte.backslash),
        walker.past (Lexeme.continuation walker.rest)) := by
  induction turns generalizing walker value with
  | zero => cases enough
  | succ turns ih =>
      rw [spaces]
      cases left : walker.rest with
      | nil => simp [atEnd_eq, left, Lexeme.continuation]
      | cons first text =>
          have later : (walker.past [first]).rest = text := rest_past_of_append left
          rw [left, List.length_cons] at enough
          simp only [atEnd_of_rest left, peek_zero_of_rest left, Bool.false_eq_true, if_false,
            step_of_rest left, bind, Except.bind, Bool.true_and, Bool.not_true, Bool.and_false]
          cases blank : Byte.isBlank first with
          | true =>
              have kept : first ≠ Byte.backslash := by
                rintro rfl
                cases blank
              rw [if_pos rfl, ih _ (by rw [later]; omega), later, ← past_append,
                Token.continuation_of_blank text blank]
              simp [kept]
          | false =>
              rw [if_neg Bool.false_ne_true]
              split
              · rename_i continued
                obtain ⟨more, continued⟩ := (sees_continued left).1 continued
                rw [left] at continued
                cases continued
                have last : ((walker.past [Byte.backslash]).past [Byte.newline]).rest = more :=
                  rest_past_of_append later
                have fewer : more.length < turns := by
                  rw [List.length_cons] at enough
                  omega
                simp only [step_of_rest later]
                rw [ih _ (by rw [last]; exact fewer), last, ← past_append, ← past_append,
                  Lexeme.continuation_continued_line]
                simp [show Byte.newline ≠ Byte.backslash by decide]
              · rename_i solid
                rw [sees_continued left, left] at solid
                rw [Lexeme.continuation_of_ended blank fun more same => solid ⟨more, same⟩]
                simp

/-- Skipping is going over space without keeping it. -/
theorem map_snd_spaces (walker : Walker) (turns : Nat) (value : Bytes) :
    (spaces true turns value walker).map Prod.snd = blanks turns walker := by
  induction turns generalizing walker value with
  | zero => rfl
  | succ turns ih =>
      simp only [spaces, blanks, Bool.true_and, Bool.not_true, Bool.and_false, Bool.false_eq_true,
        if_false]
      split
      · rfl
      split
      · cases walker.step with
        | error fault => rfl
        | ok result => exact ih result.2 _
      split
      · cases walker.step with
        | error fault => rfl
        | ok result =>
            simp only [bind, Except.bind]
            cases result.2.step with
            | error fault => rfl
            | ok result => exact ih result.2 _
      · rfl

theorem skip_eq (walker : Walker) :
    walker.skip = .ok (walker.past (Lexeme.continuation walker.rest)) := by
  rw [skip, ← map_snd_spaces walker _ [], spaces_body_eq [] (by rw [turns_eq]; omega)]
  rfl

theorem cursor_skip (walker : Walker) :
    (walker.past (Lexeme.continuation walker.rest)).cursor = walker.cursor.skip :=
  cursor_past walker _

theorem solid_eq (multiline : Bool) (left : walker.rest = first :: text) :
    walker.solid multiline = walker.outcome first (Lexeme.solid multiline first text) := by
  simp only [solid, peek_zero_of_rest left, Lexeme.solid]
  split
  · exact run_eq (by decide) left
  split
  · rename_i digit
    exact number_eq digit left
  split
  · rename_i quote
    subst quote
    exact string_eq multiline left
  split
  · rename_i apostrophe
    subst apostrophe
    exact character_eq left
  split
  · exact marks_one (by decide) left
  split
  · exact marks_one (by decide) left
  split
  · exact marks_one (by decide) left
  · exact run_eq (by decide) left

theorem space_token {value : Bytes} (filtered : Lexeme.tokenText .space (first :: more) = value) :
    { walker.token (walker.past (first :: more)) .space with text := value } =
      walker.cursor.token first ⟨.space, more⟩ := by
  rw [Cursor.token, filtered, ← location_token_past walker _ .space]
  rfl

theorem text_source_eq (left : walker.rest = first :: text) :
    walker.text false = walker.outcome first (Lexeme.inSource first text) := by
  have enough : walker.rest.length < walker.turns := by
    rw [turns_eq]
    omega
  have space : ∀ {more}, Lexeme.blankLine (first :: text) = first :: more →
      walker.space false = walker.outcome first (.ok ⟨.space, more⟩) := by
    intro more blank
    have kept : Lexeme.tokenText .space (first :: more) = first :: more := by
      rw [← blank, Lexeme.tokenText, if_pos rfl]
      exact List.filter_eq_self.2 fun byte member => Lexeme.ne_backslash_of_mem_blankLine member
    simp only [Walker.space, spaces_source_eq [] enough, left, blank, bind, Except.bind, outcome,
      List.nil_append, space_token kept]
  simp only [Walker.text, peek_zero_of_rest left, Lexeme.inSource, Bool.false_and, Bool.or_false,
    Bool.or_eq_true, beq_iff_eq]
  by_cases newline : first = Byte.newline
  · rw [if_pos (.inr newline), if_pos newline]
    apply space
    rw [newline, Token.blankLine_cons]
    rfl
  · rw [if_neg newline]
    split
    · rename_i found
      have blank := found.resolve_right newline
      rw [if_pos blank]
      apply space
      rw [Token.blankLine_cons, if_pos blank]
    · rename_i found
      rw [if_neg fun blank => found (.inl blank)]
      exact solid_eq true left

theorem text_body_eq (notNewline : first ≠ Byte.newline) (left : walker.rest = first :: text) :
    walker.text true = walker.outcome first (Lexeme.inBody first text) := by
  have enough : walker.rest.length < walker.turns := by
    rw [turns_eq]
    omega
  have other : (first == Byte.newline) = false := by simpa using notNewline
  simp only [Walker.text, peek_zero_of_rest left, Lexeme.inBody, Bool.true_and, other, Bool.or_false,
    Bool.or_eq_true]
  split
  · rename_i space
    have found : ∃ more, Lexeme.continuation (first :: text) = first :: more := by
      rcases space with blank | continued
      · exact ⟨_, Token.continuation_of_blank text blank⟩
      · obtain ⟨more, continued⟩ := (sees_continued left).1 continued
        rw [left] at continued
        cases continued
        exact ⟨_, Lexeme.continuation_continued_line more⟩
    obtain ⟨more, found⟩ := found
    have kept : Lexeme.tokenText .space (first :: more) =
        (first :: more).filter (· != Byte.backslash) := if_pos rfl
    simp only [Walker.space, spaces_body_eq [] enough, left, found, bind, Except.bind, outcome,
      List.nil_append, space_token kept]
  · rename_i solid
    rw [not_or, Bool.not_eq_true, sees_continued left, left] at solid
    rw [Lexeme.continuation_of_ended solid.1 fun more same => solid.2 ⟨more, same⟩]
    exact solid_eq false left

end Walker

end ScopedMacros
