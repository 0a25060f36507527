import Mathlib.Data.List.Forall2
import ScopedMacros.Expr.Reader
import ScopedMacros.Proofs.Places

/-!
# Reading the same tokens at another place

Tokens are read without a look at their locations.  What is read from tokens that are the same up to
places is the same up to places, and so is what is left.
-/

namespace ScopedMacros

/-! ## Answers -/

/-- If the first one succeeds, the second one does too, with a related answer. -/
def FollowsWith {α β : Type} (related : α → β → Prop) (first : Except Error α)
    (second : Except Error β) : Prop :=
  ∀ answer, first = .ok answer → ∃ other, second = .ok other ∧ related answer other

namespace FollowsWith

variable {α β γ δ : Type} {related : α → β → Prop} {after : γ → δ → Prop}

theorem ok {answer : α} {other : β} (holds : related answer other) :
    FollowsWith related (.ok answer) (.ok other) := by
  rintro _ ⟨⟩
  exact ⟨other, rfl, holds⟩

theorem error (error : Error) (second : Except Error β) :
    FollowsWith related (.error error) second := by
  rintro _ ⟨⟩

theorem bind {first : Except Error α} {second : Except Error β} {next : α → Except Error γ}
    {other : β → Except Error δ} (follows : FollowsWith related first second)
    (further : ∀ answer twin, related answer twin → FollowsWith after (next answer) (other twin)) :
    FollowsWith after (first >>= next) (second >>= other) := by
  intro answer done
  obtain ⟨middle, answered, done⟩ := bind_eq_ok_iff.1 done
  obtain ⟨twin, answeredTwin, holds⟩ := follows middle answered
  obtain ⟨result, doneTwin, holds⟩ := further middle twin holds answer done
  exact ⟨result, bind_eq_ok_iff.2 ⟨twin, answeredTwin, doneTwin⟩, holds⟩

end FollowsWith

/-! ## Tokens -/

/-- A name whose text does not depend on where it stands. -/
def Bytes.isPlaceless (name : Bytes) : Bool :=
  name != bytes "__LINE__" && name != bytes "__FILE__"

/-- The same token up to its location. -/
structure Token.Same (token other : Token) : Prop where
  kind : other.kind = token.kind
  text : other.text = token.text

/-- The same token up to its location, which its text does not depend on. -/
structure Token.Alike (token other : Token) : Prop where
  kind : other.kind = token.kind
  text : other.text = token.text
  placeless : token.kind = .ident → token.text.isPlaceless = true

namespace Token

abbrev AllSame : List Token → List Token → Prop :=
  List.Forall₂ Same

abbrev AllAlike : List Token → List Token → Prop :=
  List.Forall₂ Alike

variable {token other : Token}

theorem Alike.same (alike : Alike token other) : Same token other :=
  ⟨alike.kind, alike.text⟩

theorem allSame_of_allAlike {tokens others : List Token} (alike : AllAlike tokens others) :
    AllSame tokens others :=
  alike.imp fun _ _ => Alike.same

theorem Same.isWord (same : Same token other) (word : Bytes) :
    other.isWord word = token.isWord word := by
  rw [Token.isWord, same.kind, same.text, ← Token.isWord]

theorem Same.operation (same : Same token other) :
    Operation.ofToken? other = Operation.ofToken? token := by
  rw [Operation.ofToken?, same.kind, same.text, ← Operation.ofToken?]

theorem Same.atLevel? (same : Same token other) (level : Arith.Level) :
    Operation.atLevel? level other = Operation.atLevel? level token := by
  rw [Operation.atLevel?, same.operation, ← Operation.atLevel?]

theorem Same.comparison (same : Same token other) :
    Comparison.ofToken? other = Comparison.ofToken? token := by
  rw [Comparison.ofToken?, same.kind, ← Comparison.ofToken?]

theorem Same.continues (same : Same token other) :
    Test.continues other = Test.continues token := by
  rw [Test.continues, same.comparison, same.operation, ← Test.continues]

end Token

/-- Related values, with the same tokens left up to places. -/
structure Reading.Alike {α β : Type} {bound limit : Nat} (related : α → β → Prop)
    (reading : Reading α bound) (other : Reading β limit) : Prop where
  value : related reading.value other.value
  rest : Token.AllSame reading.rest other.rest

theorem Reading.close_follows {α β : Type} {bound limit : Nat} {related : α → β → Prop}
    {reading : Reading α bound} {other : Reading β limit} (alike : reading.Alike related other)
    (stop halt : Token) (what : Expectation) :
    FollowsWith (fun closed twin => closed.2.Alike related twin.2) (reading.close stop what)
      (other.close halt what) := by
  obtain ⟨value, rest, shorter⟩ := reading
  obtain ⟨twin, others, shorterOthers⟩ := other
  obtain ⟨values, rests⟩ := alike
  dsimp only at values rests
  cases rests with
  | nil => exact .error _ _
  | cons head tail =>
      simp only [Reading.close, head.kind]
      split
      · exact .ok ⟨values, tail⟩
      · exact .error _ _

/-! ## Arithmetic -/

namespace Arith

/-- The same expression up to places, with the same tokens left up to places. -/
abbrev ReadAlike {bound limit : Nat} (reading : Reading Arith bound) (other : Reading Arith limit) :
    Prop :=
  reading.Alike (fun tree twin => tree.unplaced = twin.unplaced) other

theorem ofToken?_of_alike {token other : Token} (alike : token.Same other) :
    Option.Rel (fun tree twin : Arith => tree.unplaced = twin.unplaced) (ofToken? token)
      (ofToken? other) := by
  rw [ofToken?, ofToken?, alike.kind, alike.text]
  cases token.kind with
  | integer value => exact .some rfl
  | ident => exact .some rfl
  | _ => exact .none

variable {stop halt : Token} {tokens others : List Token}

/-- Lists shorter than the bound are read alike. -/
def Rereads (stop halt : Token) (bound : Nat) : Prop :=
  ∀ level tokens others, tokens.length < bound → Token.AllSame tokens others →
    FollowsWith ReadAlike (read stop level tokens) (read halt level others)

theorem readOperand_follows (shorter : Rereads stop halt tokens.length)
    (alike : Token.AllSame tokens others) :
    FollowsWith ReadAlike (read stop .operand tokens) (read halt .operand others) := by
  cases alike with
  | nil =>
      rw [read]
      exact .error _ _
  | @cons token other rest others head tail =>
      have inner : ∀ level,
          FollowsWith ReadAlike (read stop level rest) (read halt level others) :=
        fun level => shorter level rest others (Nat.lt_succ_self _) tail
      have single := ofToken?_of_alike head
      rw [read.eq_def stop, read.eq_def halt]
      simp only [head.kind, head.isWord]
      split
      · refine (inner .operand).bind fun operand twin same => ?_
        exact .ok ⟨congrArg (Arith.neg .nowhere) same.value, same.rest⟩
      split
      · refine (inner .operand).bind fun operand twin same => ?_
        exact .ok ⟨congrArg (Arith.complement .nowhere) same.value, same.rest⟩
      split
      · refine (inner .operand).bind fun operand twin same => ?_
        exact .ok ⟨same.value, same.rest⟩
      split
      · refine (inner .sum).bind fun operand twin same => ?_
        refine (Reading.close_follows same stop halt .rightParen).bind fun closed twin same => ?_
        refine .ok ⟨?_, same.rest⟩
        exact ((unplaced_relocate _ _).trans same.value).trans (unplaced_relocate _ _).symm
      · generalize ofToken? token = tree at single
        generalize ofToken? other = twin at single
        cases single with
        | none => exact .error _ _
        | some same => exact .ok ⟨same, tail⟩

theorem readShift_follows (shorter : Rereads stop halt tokens.length)
    (alike : Token.AllSame tokens others) :
    FollowsWith ReadAlike (read stop .shift tokens) (read halt .shift others) := by
  rw [read.eq_def stop, read.eq_def halt]
  refine (readOperand_follows shorter alike).bind fun left twin same => ?_
  obtain ⟨value, rest, bound⟩ := left
  obtain ⟨twinValue, twinRest, twinBound⟩ := twin
  obtain ⟨values, rests⟩ := same
  dsimp only at values rests
  cases rests with
  | nil => exact .ok ⟨values, .nil⟩
  | cons head tail =>
      dsimp only
      rw [head.atLevel?]
      split
      · exact .ok ⟨values, .cons head tail⟩
      · refine (shorter .shift _ _ (Nat.lt_of_succ_lt bound) tail).bind fun right other same => ?_
        exact .ok ⟨unplaced_join_congr _ values same.value, same.rest⟩

theorem readChain_follows (level : Level) {bound limit : Nat} {left : Reading Arith bound}
    {twin : Reading Arith limit} (shorter : Rereads stop halt bound) (alike : ReadAlike left twin) :
    FollowsWith ReadAlike (readChain stop level left) (readChain halt level twin) := by
  induction measured : left.rest.length using Nat.strongRecOn generalizing left twin with
  | ind size ih =>
      obtain ⟨value, rest, bound⟩ := left
      obtain ⟨twinValue, twinRest, twinBound⟩ := twin
      obtain ⟨values, rests⟩ := alike
      dsimp only at values rests measured
      rw [readChain.eq_def stop, readChain.eq_def halt]
      cases rests with
      | nil => exact .ok ⟨values, .nil⟩
      | cons head tail =>
          dsimp only
          rw [head.atLevel?]
          split
          · exact .ok ⟨values, .cons head tail⟩
          · refine (shorter level.tighter _ _ (Nat.lt_of_succ_lt bound) tail).bind
              fun right other same => ?_
            have fewer : right.rest.length < size := by
              have := right.shorter
              simp only [List.length_cons] at measured
              omega
            exact ih _ fewer ⟨unplaced_join_congr _ values same.value, same.rest⟩ rfl

theorem rereads (stop halt : Token) (bound : Nat) : Rereads stop halt bound := by
  induction bound with
  | zero =>
      intro level tokens others less
      cases less
  | succ bound ih =>
      intro level tokens others less alike
      have shorter : Rereads stop halt tokens.length :=
        fun level rest others fewer => ih level rest others (by omega)
      have product : FollowsWith ReadAlike (read stop .product tokens)
          (read halt .product others) := by
        rw [read.eq_def stop, read.eq_def halt]
        exact (readShift_follows shorter alike).bind fun left twin same =>
          readChain_follows .product shorter same
      cases level with
      | sum =>
          rw [read.eq_def stop, read.eq_def halt]
          exact product.bind fun left twin same => readChain_follows .sum shorter same
      | product => exact product
      | shift => exact readShift_follows shorter alike
      | operand => exact readOperand_follows shorter alike

theorem read_follows (stop halt : Token) (level : Level) (alike : Token.AllSame tokens others) :
    FollowsWith ReadAlike (read stop level tokens) (read halt level others) :=
  rereads stop halt (tokens.length + 1) level tokens others (Nat.lt_succ_self _) alike

end Arith

/-! ## Tests -/

namespace Test

/-- The same test up to places, with the same tokens left up to places. -/
abbrev ReadAlike {bound limit : Nat} (reading : Reading Test bound) (other : Reading Test limit) :
    Prop :=
  reading.Alike (fun test twin => test.unplaced = twin.unplaced) other

variable {stop halt : Token} {tokens others : List Token}

theorem headD_same (stops : stop.Same halt) (alike : Token.AllSame tokens others) :
    (tokens.headD stop).Same (others.headD halt) := by
  cases alike with
  | nil => exact stops
  | cons head _ => exact head

theorem afterClosing?_of_alike (depth : Nat) (alike : Token.AllSame tokens others) :
    Option.Rel Token.AllSame (afterClosing? depth tokens) (afterClosing? depth others) := by
  induction alike generalizing depth with
  | nil => exact .none
  | cons head tail ih =>
      simp only [afterClosing?, head.kind]
      split
      · exact ih _
      split
      · cases depth with
        | zero => exact .some tail
        | succ depth => exact ih depth
      · exact ih depth

theorem readComparison_follows (alike : Token.AllSame tokens others) :
    FollowsWith ReadAlike (readComparison stop tokens) (readComparison halt others) := by
  unfold readComparison
  refine (Arith.read_follows stop halt .sum alike).bind fun left twin same => ?_
  obtain ⟨value, rest, bound⟩ := left
  obtain ⟨twinValue, twinRest, twinBound⟩ := twin
  obtain ⟨values, rests⟩ := same
  dsimp only at values rests
  have bare : (nonzero value).unplaced = (nonzero twinValue).unplaced := by
    simp only [nonzero, unplaced, values, Arith.unplaced]
  cases rests with
  | nil => exact .ok ⟨bare, .nil⟩
  | cons head tail =>
      dsimp only
      rw [head.comparison]
      split
      · exact .ok ⟨bare, .cons head tail⟩
      · refine (Arith.read_follows stop halt .sum tail).bind fun right other same => ?_
        refine .ok ⟨?_, same.rest⟩
        change (Comparison.test _ _ _ _).unplaced = (Comparison.test _ _ _ _).unplaced
        rw [unplaced_test, unplaced_test, values, same.value]

theorem readDefined_of_ne {word token : Token} {rest : List Token}
    (notParen : token.kind ≠ .leftParen) :
    readDefined stop word (token :: rest) =
      if token.kind = .ident then
        .ok ⟨.defined (word.location.span token.location) token.text, rest,
          Nat.lt_succ_of_lt (Nat.lt_succ_self _)⟩
      else
        .error (Expectation.nameAfterDefined.failed stop (token :: rest)) := by
  obtain ⟨kind, text, location⟩ := token
  cases kind with
  | leftParen => exact absurd rfl notParen
  | _ => rfl

theorem readDefined_follows (word twin : Token) (alike : Token.AllSame tokens others) :
    FollowsWith ReadAlike (readDefined stop word tokens) (readDefined halt twin others) := by
  cases alike with
  | nil => exact .error _ _
  | @cons token other rest others head tail =>
      by_cases opens : token.kind = .leftParen
      · obtain ⟨kind, text, location⟩ := token
        obtain ⟨otherKind, otherText, otherLocation⟩ := other
        have otherOpens := head.kind
        dsimp only at opens otherOpens
        subst opens
        subst otherOpens
        cases tail with
        | nil => exact .error _ _
        | cons name tail =>
            simp only [readDefined, name.kind, name.text]
            split
            · refine FollowsWith.bind
                (@Reading.close_follows _ _ _ _ Eq _ _ ?_ stop halt .endOfDefined) ?_
              · exact ⟨rfl, tail⟩
              · intro closed other same
                exact .ok ⟨congrArg (Test.defined .nowhere) same.value, same.rest⟩
            · exact .error _ _
      · rw [readDefined_of_ne opens, readDefined_of_ne (head.kind ▸ opens), head.kind, head.text]
        split
        · exact .ok ⟨rfl, tail⟩
        · exact .error _ _

/-- Lists shorter than the bound are read alike. -/
def Rereads (stop halt : Token) (bound : Nat) : Prop :=
  ∀ level tokens others, tokens.length < bound → Token.AllSame tokens others →
    FollowsWith ReadAlike (read stop level tokens) (read halt level others)

theorem readSingle_follows (stops : stop.Same halt) (shorter : Rereads stop halt tokens.length)
    (alike : Token.AllSame tokens others) :
    FollowsWith ReadAlike (read stop .single tokens) (read halt .single others) := by
  have comparison : FollowsWith ReadAlike (readComparison stop tokens) (readComparison halt others) :=
    readComparison_follows alike
  rw [read.eq_def stop, read.eq_def halt]
  cases alike with
  | nil => exact comparison
  | @cons token other rest others head tail =>
      have inner : ∀ level,
          FollowsWith ReadAlike (read stop level rest) (read halt level others) :=
        fun level => shorter level rest others (Nat.lt_succ_self _) tail
      simp only [head.kind, head.isWord]
      split
      · refine (inner .single).bind fun operand twin same => ?_
        exact .ok ⟨congrArg (Test.not .nowhere) same.value, same.rest⟩
      split
      · exact .ok ⟨rfl, tail⟩
      split
      · exact .ok ⟨rfl, tail⟩
      split
      · exact readDefined_follows token other tail
      split
      · have closings := afterClosing?_of_alike 0 tail
        generalize afterClosing? 0 rest = closing at closings
        generalize afterClosing? 0 others = closingOther at closings
        cases closings with
        | none => exact .error _ _
        | some after =>
            dsimp only
            rw [(headD_same stops after).continues]
            split
            · exact comparison
            · refine (inner .either).bind fun operand twin same => ?_
              refine (Reading.close_follows same stop halt .rightParen).bind
                fun closed twin same => ?_
              refine .ok ⟨?_, same.rest⟩
              exact ((unplaced_relocate _ _).trans same.value).trans (unplaced_relocate _ _).symm
      · exact comparison

theorem readChain_follows (level : Level) {bound limit : Nat} {left : Reading Test bound}
    {twin : Reading Test limit} (shorter : Rereads stop halt bound) (alike : ReadAlike left twin) :
    FollowsWith ReadAlike (readChain stop level left) (readChain halt level twin) := by
  induction measured : left.rest.length using Nat.strongRecOn generalizing left twin with
  | ind size ih =>
      obtain ⟨value, rest, bound⟩ := left
      obtain ⟨twinValue, twinRest, twinBound⟩ := twin
      obtain ⟨values, rests⟩ := alike
      dsimp only at values rests measured
      rw [readChain.eq_def stop, readChain.eq_def halt]
      cases rests with
      | nil => exact .ok ⟨values, .nil⟩
      | cons head tail =>
          dsimp only
          rw [head.kind]
          split
          · refine (shorter level.tighter _ _ (Nat.lt_of_succ_lt bound) tail).bind
              fun right other same => ?_
            have fewer : right.rest.length < size := by
              have := right.shorter
              simp only [List.length_cons] at measured
              omega
            exact ih _ fewer ⟨unplaced_join_congr _ values same.value, same.rest⟩ rfl
          · exact .ok ⟨values, .cons head tail⟩

theorem rereads (stops : stop.Same halt) (bound : Nat) : Rereads stop halt bound := by
  induction bound with
  | zero =>
      intro level tokens others less
      cases less
  | succ bound ih =>
      intro level tokens others less alike
      have shorter : Rereads stop halt tokens.length :=
        fun level rest others fewer => ih level rest others (by omega)
      have both : FollowsWith ReadAlike (read stop .both tokens) (read halt .both others) := by
        rw [read.eq_def stop, read.eq_def halt]
        exact (readSingle_follows stops shorter alike).bind fun left twin same =>
          readChain_follows .both shorter same
      cases level with
      | either =>
          rw [read.eq_def stop, read.eq_def halt]
          exact both.bind fun left twin same => readChain_follows .either shorter same
      | both => exact both
      | single => exact readSingle_follows stops shorter alike

theorem ofTokens_follows (stops : stop.Same halt) (alike : Token.AllSame tokens others) :
    FollowsWith (fun read twin => read.1.unplaced = twin.1.unplaced ∧ Token.AllSame read.2 twin.2)
      (ofTokens stop tokens) (ofTokens halt others) := by
  have empty : others.isEmpty = tokens.isEmpty := by cases alike <;> rfl
  unfold ofTokens
  rw [stops.kind, empty]
  split
  · exact .error _ _
  · refine (rereads stops (tokens.length + 1) .either tokens others (Nat.lt_succ_self _) alike).bind
      fun reading twin same => ?_
    exact .ok ⟨same.value, same.rest⟩

end Test

end ScopedMacros
