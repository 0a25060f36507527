import Mathlib.Data.Int.Bitwise
import ScopedMacros.Expr.Value

/-!
# Arithmetic is exact modulo the word

Expressions without names have a meaning in the integers, and evaluation gives that meaning: a sum, a
difference, a product and a quotient are the signed representatives of the exact results modulo
`2 ^ 64`.  An expression fails only where a divisor is zero, and then at the first such place.
-/

namespace ScopedMacros

/-- The signed representative of a number modulo `2 ^ 64`. -/
def wrapped (number : Int) : Int :=
  number.bmod (2 ^ 64)

namespace Operation

/-- By how many places a shift moves. -/
def places (amount : Int) : Nat :=
  (amount % 64).toNat

/-- The result of an operation on two integers, if it has one.  Division truncates toward zero; a
shift to the right fills with zeros, or else divides and rounds down. -/
def meaning? (left right : Int) : Operation → Option Int
  | .add => some (wrapped (left + right))
  | .sub => some (wrapped (left - right))
  | .mul => some (wrapped (left * right))
  | .div => if right = 0 then none else some (wrapped (left.tdiv right))
  | .mod => if right = 0 then none else some (left.tmod right)
  | .shiftLeft => some (if 64 ≤ right.natAbs then 0 else wrapped (left * 2 ^ places right))
  | .shiftRight =>
      some (if 64 ≤ right.natAbs then 0 else wrapped (left % 2 ^ 64 / 2 ^ places right))
  | .shiftSigned => some (if 64 ≤ right.natAbs then 0 else left.fdiv (2 ^ places right))
  | .and => some (left.land right)
  | .or => some (left.lor right)
  | .xor => some (left.xor right)

/-- The least number divided by `-1` is itself again, and nothing is left over. -/
example : Operation.div.meaning? (-2 ^ 63) (-1) = some (-2 ^ 63) ∧
    Operation.mod.meaning? (-2 ^ 63) (-1) = some 0 := by
  decide

/-- Whether an operation has no result for a divisor of zero. -/
def divides : Operation → Bool
  | .div | .mod => true
  | _ => false

theorem meaning?_eq_none_iff {left right : Int} {operation : Operation} :
    operation.meaning? left right = none ↔ operation.divides = true ∧ right = 0 := by
  cases operation <;> simp [meaning?, divides]

/-! ## Bits -/

/-- The bits of a number are those of its word, and the highest one goes on forever. -/
theorem testBit_toInt (number : Int64) (place : Nat) :
    number.toInt.testBit place = number.toBitVec.getLsbD (min place 63) := by
  rw [← Int64.toInt_toBitVec]
  generalize number.toBitVec = word
  have sign : word.getLsbD 63 = word.msb := rfl
  have beyond : ∀ other : BitVec 64, 64 ≤ place → other.getLsbD place = false :=
    fun other => other.getLsbD_of_ge place
  cases negative : word.msb with
  | false =>
      rw [BitVec.toInt_eq_toNat_of_msb negative]
      change word.toNat.testBit place = _
      rw [BitVec.testBit_toNat]
      rcases Nat.lt_or_ge place 64 with inside | outside
      · rw [Nat.min_eq_left (by omega)]
      · rw [Nat.min_eq_right (by omega), beyond word outside, sign, negative]
  | true =>
      have below : word.toInt = Int.negSucc (~~~word).toNat := by
        rw [BitVec.toInt_eq_msb_cond, if_pos negative, BitVec.toNat_not, Int.negSucc_eq]
        have := word.isLt
        omega
      rw [below]
      change (!(~~~word).toNat.testBit place) = _
      rw [BitVec.testBit_toNat]
      rcases Nat.lt_or_ge place 64 with inside | outside
      · rw [Nat.min_eq_left (by omega), BitVec.getLsbD_not, decide_eq_true inside, Bool.true_and,
          Bool.not_not]
      · rw [Nat.min_eq_right (by omega), beyond _ outside, sign, negative, Bool.not_false]

theorem eq_of_testBit_eq {left right : Int}
    (same : ∀ place, left.testBit place = right.testBit place) : left = right := by
  -- Far enough up, all bits are those of the sign.
  have signs : ∀ m n : Nat, ¬ ∀ place, m.testBit place = !n.testBit place := by
    intro m n same
    have mZero : m.testBit (m + n) = false :=
      Nat.testBit_eq_false_of_lt (Nat.lt_of_le_of_lt (Nat.le_add_right m n) Nat.lt_two_pow_self)
    have nZero : n.testBit (m + n) = false :=
      Nat.testBit_eq_false_of_lt (Nat.lt_of_le_of_lt (Nat.le_add_left n m) Nat.lt_two_pow_self)
    have top := same (m + n)
    rw [mZero, nZero] at top
    cases top
  cases left with
  | ofNat m =>
      cases right with
      | ofNat n => exact congrArg Int.ofNat (Nat.eq_of_testBit_eq same)
      | negSucc n => exact absurd same (signs m n)
  | negSucc m =>
      cases right with
      | ofNat n => exact absurd (fun place => (same place).symm) (signs n m)
      | negSucc n =>
          refine congrArg Int.negSucc (Nat.eq_of_testBit_eq fun place => ?_)
          simpa [Int.testBit] using same place

theorem toInt_complement (number : Int64) : (~~~number).toInt = number.toInt.lnot := by
  refine eq_of_testBit_eq fun place => ?_
  rw [Int.testBit_lnot, testBit_toInt, testBit_toInt, Int64.toBitVec_not, BitVec.getLsbD_not,
    decide_eq_true (by omega), Bool.true_and]

/-! ## Shifts -/

theorem toInt_emod_size (number : Int64) : number.toInt % 2 ^ 64 = number.toUInt64.toNat := by
  have word : number.toInt = Int.bmod number.toUInt64.toNat (2 ^ 64) :=
    BitVec.toInt_eq_toNat_bmod number.toBitVec
  have size : (2 ^ 64 : Int) = (2 ^ 64 : Nat) := rfl
  rw [word, size, Int.bmod_emod]
  exact Int.emod_eq_of_lt (Int.natCast_nonneg _) (Int.ofNat_lt.2 number.toUInt64.toNat_lt)

theorem toNat_mod_eq_places (amount : Int64) :
    amount.toUInt64.toNat % 64 = places amount.toInt := by
  have word := toInt_emod_size amount
  unfold places
  omega

theorem toNat_smod_eq_places (amount : Int64) :
    (amount.toBitVec.smod 64).toNat = places amount.toInt := by
  have value : (amount.toBitVec.smod 64).toInt = amount.toInt % 64 := by
    rw [BitVec.toInt_smod]
    exact Int.fmod_eq_emod_of_nonneg _ (by decide)
  have word := BitVec.toInt_eq_toNat_cond (amount.toBitVec.smod 64)
  have small := (amount.toBitVec.smod 64).isLt
  rw [value] at word
  unfold places
  split at word <;> omega

theorem shiftsOut_iff (amount : Int64) : shiftsOut amount = true ↔ 64 ≤ amount.toInt.natAbs := by
  have most : (64 : Int64).toInt = 64 := by decide
  have least : (-64 : Int64).toInt = -64 := by decide
  simp only [shiftsOut, Bool.or_eq_true, decide_eq_true_eq, Int64.le_iff_toInt_le, most, least]
  omega

theorem toInt_shiftLeft (left right : Int64) :
    (left <<< right).toInt = wrapped (left.toInt * 2 ^ places right.toInt) := by
  have word : left.toInt = Int.bmod left.toBitVec.toNat (2 ^ 64) :=
    BitVec.toInt_eq_toNat_bmod left.toBitVec
  rw [← Int64.toInt_toBitVec, Int64.toBitVec_shiftLeft, BitVec.shiftLeft_eq', BitVec.toInt_shiftLeft,
    toNat_smod_eq_places, Nat.shiftLeft_eq, wrapped, word, Int.bmod_mul_bmod]
  push_cast
  rfl

theorem toInt_shiftRight (left right : Int64) :
    (left.toUInt64 >>> right.toUInt64).toInt64.toInt =
      wrapped (left.toInt % 2 ^ 64 / 2 ^ places right.toInt) := by
  have word : (left.toUInt64 >>> right.toUInt64).toInt64.toInt =
      Int.bmod (left.toUInt64 >>> right.toUInt64).toNat (2 ^ 64) :=
    BitVec.toInt_eq_toNat_bmod (left.toUInt64 >>> right.toUInt64).toBitVec
  rw [word, UInt64.toNat_shiftRight, toNat_mod_eq_places, Nat.shiftRight_eq_div_pow, toInt_emod_size,
    wrapped]
  push_cast
  rfl

theorem toInt_shiftSigned (left right : Int64) :
    (left >>> right).toInt = left.toInt.fdiv (2 ^ places right.toInt) := by
  rw [← Int64.toInt_toBitVec, Int64.toBitVec_shiftRight, BitVec.toInt_sshiftRight',
    toNat_smod_eq_places, Int.shiftRight_eq_div_pow,
    Int.fdiv_eq_ediv_of_nonneg _ (Int.pow_nonneg (by decide))]
  push_cast
  rfl

/-! ## Operations -/

/-- The result of an operation on words is that on the integers they stand for. -/
theorem map_result? (left right : Int64) (operation : Operation) :
    (operation.result? left right).map Int64.toInt =
      operation.meaning? left.toInt right.toInt := by
  have zero : right = 0 ↔ right.toInt = 0 := by
    rw [← Int64.toInt_inj]
    rfl
  have out := shiftsOut_iff right
  cases operation with
  | add => exact congrArg some (Int64.toInt_add left right)
  | sub => exact congrArg some (Int64.toInt_sub left right)
  | mul => exact congrArg some (Int64.toInt_mul left right)
  | div =>
      simp only [result?, meaning?, zero]
      split
      · rfl
      · exact congrArg some (Int64.toInt_div left right)
  | mod =>
      simp only [result?, meaning?, zero]
      split
      · rfl
      · exact congrArg some (Int64.toInt_mod left right)
  | shiftLeft =>
      simp only [result?, meaning?, out, Option.map_some, apply_ite Int64.toInt, toInt_shiftLeft]
      rfl
  | shiftRight =>
      simp only [result?, meaning?, out, Option.map_some, apply_ite Int64.toInt, toInt_shiftRight]
      rfl
  | shiftSigned =>
      simp only [result?, meaning?, out, Option.map_some, apply_ite Int64.toInt, toInt_shiftSigned]
      rfl
  | and =>
      refine congrArg some (eq_of_testBit_eq fun place => ?_)
      simp [testBit_toInt, Int.testBit_land]
  | or =>
      refine congrArg some (eq_of_testBit_eq fun place => ?_)
      simp [testBit_toInt, Int.testBit_lor]
  | xor =>
      refine congrArg some (eq_of_testBit_eq fun place => ?_)
      simp [testBit_toInt, Int.testBit_lxor]

/-- The operations that are polynomials in their operands, without wrapping. -/
def polynomial? : Operation → Option (Int → Int → Int)
  | .add => some (· + ·)
  | .sub => some (· - ·)
  | .mul => some (· * ·)
  | _ => none

/-- It does not matter to a polynomial whether its operands have wrapped. -/
theorem result?_of_polynomial? {operation : Operation} {exact : Int → Int → Int}
    (polynomial : operation.polynomial? = some exact) (left right : Int) :
    operation.result? (Int64.ofInt left) (Int64.ofInt right) =
      some (Int64.ofInt (exact left right)) := by
  cases operation <;> cases polynomial
  · exact congrArg some (Int64.ofInt_add left right).symm
  · exact congrArg some (Int64.ofInt_sub left right).symm
  · exact congrArg some (Int64.ofInt_mul left right).symm

/-- What is divided is the quotient times the divisor, and the remainder. -/
theorem div_mul_add_mod (left right : Int64) : left / right * right + left % right = left := by
  have quotient : left / right = Int64.ofInt (left.toInt.tdiv right.toInt) := by
    rw [← Int64.toInt_inj, Int64.toInt_div, Int64.toInt_ofInt]
  have remainder : left % right = Int64.ofInt (left.toInt.tmod right.toInt) := by
    rw [← Int64.toInt_mod, Int64.ofInt_toInt]
  calc left / right * right + left % right
      = Int64.ofInt (left.toInt.tdiv right.toInt) * Int64.ofInt right.toInt +
          Int64.ofInt (left.toInt.tmod right.toInt) := by
        rw [quotient, remainder, Int64.ofInt_toInt]
    _ = Int64.ofInt (left.toInt.tdiv right.toInt * right.toInt + left.toInt.tmod right.toInt) := by
        rw [Int64.ofInt_add, Int64.ofInt_mul]
    _ = left := by rw [Int.tdiv_mul_add_tmod, Int64.ofInt_toInt]

end Operation

/-! ## Expressions -/

namespace Arith

/-- Whether no name occurs. -/
def isClosed : Arith → Bool
  | .int _ _ => true
  | .ident _ _ => false
  | .neg _ operand | .complement _ operand => operand.isClosed
  | .binary _ _ left right => left.isClosed && right.isClosed

/-- What an expression without names stands for, if nothing in it is divided by zero. -/
def meaning? : Arith → Option Int
  | .int _ value => some value.toInt
  | .ident _ _ => none
  | .neg _ operand => operand.meaning?.map fun value => wrapped (-value)
  | .complement _ operand => operand.meaning?.map Int.lnot
  | .binary _ operation left right => do operation.meaning? (← left.meaning?) (← right.meaning?)

/-- An expression and all expressions in it: operands first, from the left. -/
def parts : Arith → List Arith
  | .int location value => [.int location value]
  | .ident location name => [.ident location name]
  | .neg location operand => operand.parts ++ [.neg location operand]
  | .complement location operand => operand.parts ++ [.complement location operand]
  | .binary location operation left right =>
      left.parts ++ right.parts ++ [.binary location operation left right]

/-- Whether an expression is a division whose divisor stands for zero. -/
def dividesByZero : Arith → Bool
  | .binary _ operation _ right => operation.divides && right.meaning? == some 0
  | _ => false

/-- The exact value of sums, differences and products of numbers. -/
def polynomial? : Arith → Option Int
  | .int _ value => some value.toInt
  | .neg _ operand => operand.polynomial?.map fun value => -value
  | .binary _ operation left right => do
      let exact ← operation.polynomial?
      some (exact (← left.polynomial?) (← right.polynomial?))
  | _ => none

/-- Either nothing is divided by zero and the value is the meaning, or evaluation fails at the first
part that divides by zero. -/
def Settled (env : Env) (tree : Arith) : Prop :=
  (∃ value, tree.eval env = .ok value ∧ tree.meaning? = some value.toInt ∧
    tree.parts.find? dividesByZero = none) ∨
  ∃ part, tree.eval env = .error ⟨.divisionByZero, part.location⟩ ∧
    tree.parts.find? dividesByZero = some part

variable {env : Env}

/-- An operation on one operand adds no failure of its own. -/
theorem Settled.single {whole operand : Arith} (settled : operand.Settled env)
    {change : Int64 → Int64} {exact : Int → Int}
    (evaluates : whole.eval env = operand.eval env >>= fun value => .ok (change value))
    (means : whole.meaning? = operand.meaning?.map exact)
    (same : ∀ value, (change value).toInt = exact value.toInt)
    (parts : whole.parts = operand.parts ++ [whole]) (simple : whole.dividesByZero = false) :
    whole.Settled env := by
  rcases settled with ⟨value, evaluated, meant, none⟩ | ⟨part, failed, first⟩
  · refine .inl ⟨change value, ?_, ?_, ?_⟩
    · rw [evaluates, evaluated]
      rfl
    · rw [means, meant, Option.map_some, same]
    · rw [parts, List.find?_append, none, Option.none_or]
      simp [simple]
  · refine .inr ⟨part, ?_, ?_⟩
    · rw [evaluates, failed]
      rfl
    · rw [parts, List.find?_append, first, Option.some_or]

theorem Settled.binary {left right : Arith} (location : Location) (operation : Operation)
    (leftSettled : left.Settled env) (rightSettled : right.Settled env) :
    (Arith.binary location operation left right).Settled env := by
  unfold Settled
  rw [eval, parts, List.find?_append, List.find?_append]
  rcases leftSettled with ⟨a, leftValue, leftMeans, leftNone⟩ | ⟨part, failed, first⟩
  · rcases rightSettled with ⟨b, rightValue, rightMeans, rightNone⟩ | ⟨part, failed, first⟩
    · have result := Operation.map_result? a b operation
      have whole : (Arith.binary location operation left right).meaning? =
          operation.meaning? a.toInt b.toInt := by
        rw [meaning?, leftMeans, rightMeans]
        rfl
      rw [leftValue, rightValue, leftNone, rightNone, whole, ← result]
      cases found : operation.result? a b with
      | some value =>
          have defined : operation.meaning? a.toInt b.toInt ≠ none := by simp [← result, found]
          have safe : (operation.divides && b.toInt == 0) = false := by
            simpa [Operation.meaning?_eq_none_iff] using defined
          refine .inl ⟨value, ?_, rfl, ?_⟩
          · simp only [bind, Except.bind, found]
          · simpa [dividesByZero, rightMeans] using safe
      | none =>
          have undefined : operation.meaning? a.toInt b.toInt = none := by simp [← result, found]
          obtain ⟨divides, zero⟩ := Operation.meaning?_eq_none_iff.1 undefined
          refine .inr ⟨.binary location operation left right, ?_, ?_⟩
          · simp only [bind, Except.bind, found]
            rfl
          · simp [dividesByZero, rightMeans, divides, zero]
    · refine .inr ⟨part, ?_, ?_⟩
      · rw [leftValue, failed]
        rfl
      · rw [leftNone, first]
        rfl
  · refine .inr ⟨part, ?_, ?_⟩
    · rw [failed]
      rfl
    · rw [first]
      rfl

theorem settled_of_isClosed (env : Env) {tree : Arith} (closed : tree.isClosed = true) :
    tree.Settled env := by
  induction tree with
  | int location value => exact .inl ⟨value, rfl, rfl, rfl⟩
  | ident location name => cases closed
  | neg location operand ih =>
      exact (ih closed).single rfl rfl (fun value => Int64.toInt_neg value) rfl rfl
  | complement location operand ih =>
      exact (ih closed).single rfl rfl Operation.toInt_complement rfl rfl
  | binary location operation left right leftIh rightIh =>
      obtain ⟨leftClosed, rightClosed⟩ := Bool.and_eq_true_iff.1 closed
      exact .binary location operation (leftIh leftClosed) (rightIh rightClosed)

/-- Sums, differences and products of numbers may wrap anywhere on the way. -/
theorem eval_of_polynomial? (env : Env) {tree : Arith} {exact : Int}
    (polynomial : tree.polynomial? = some exact) : tree.eval env = .ok (Int64.ofInt exact) := by
  induction tree generalizing exact with
  | int location value =>
      cases polynomial
      rw [Int64.ofInt_toInt, eval]
  | neg location operand ih =>
      obtain ⟨value, inner, rfl⟩ := Option.map_eq_some_iff.1 polynomial
      rw [eval, ih inner, Int64.ofInt_neg]
      rfl
  | binary location operation left right leftIh rightIh =>
      obtain ⟨combine, simple, polynomial⟩ := Option.bind_eq_some_iff.1 polynomial
      obtain ⟨a, leftExact, polynomial⟩ := Option.bind_eq_some_iff.1 polynomial
      obtain ⟨b, rightExact, polynomial⟩ := Option.bind_eq_some_iff.1 polynomial
      cases polynomial
      rw [eval, leftIh leftExact, rightIh rightExact]
      simp only [bind, Except.bind, Operation.result?_of_polynomial? simple]
  | ident | complement => cases polynomial

/-- Evaluation is exact.  An expression without names has a value unless a part of it divides by
zero, and then the value is its meaning.  For sums, differences and products this is the exact
polynomial modulo `2 ^ 64`; dividing and multiplying again, with the remainder added, gives back what
was divided.  A failure is a division by zero, at the first part that makes one. -/
theorem eval_exact (env : Env) {tree : Arith} (closed : tree.isClosed = true) :
    ((∃ value, tree.eval env = .ok value) ↔ ∀ part ∈ tree.parts, part.dividesByZero = false) ∧
      (∀ value, tree.eval env = .ok value → tree.meaning? = some value.toInt) ∧
      (∀ exact, tree.polynomial? = some exact → tree.eval env = .ok (Int64.ofInt exact)) ∧
      (∀ location divisor amount, divisor.eval env = .ok amount → amount ≠ 0 →
        (Arith.binary location .add
          (.binary location .mul (.binary location .div tree divisor) divisor)
          (.binary location .mod tree divisor)).eval env = tree.eval env) ∧
      ∀ error, tree.eval env = .error error →
        error.kind = .value ∧ error.message = bytes "Division by zero" ∧
          ∃ part, tree.parts.find? dividesByZero = some part ∧ error.location = part.location := by
  have settled := settled_of_isClosed env closed
  refine ⟨?_, ?_, fun exact => eval_of_polynomial? env, ?_, ?_⟩
  · have safe : tree.parts.find? dividesByZero = none ↔
        ∀ part ∈ tree.parts, part.dividesByZero = false := by
      simp
    rcases settled with ⟨value, evaluated, _, none⟩ | ⟨part, failed, first⟩
    · exact iff_of_true ⟨value, evaluated⟩ (safe.1 none)
    · refine iff_of_false ?_ fun all => ?_
      · rintro ⟨value, evaluated⟩
        cases failed.symm.trans evaluated
      · cases first.symm.trans (safe.2 all)
  · intro value evaluated
    rcases settled with ⟨other, same, meant, _⟩ | ⟨part, failed, _⟩
    · cases same.symm.trans evaluated
      exact meant
    · cases failed.symm.trans evaluated
  · intro location divisor amount divided nonzero
    cases value : tree.eval env with
    | error error => simp [eval, value, bind, Except.bind]
    | ok value' =>
        simp [eval, value, divided, bind, Except.bind, Operation.result?, nonzero,
          Operation.div_mul_add_mod]
  · intro error failure
    rcases settled with ⟨value, evaluated, _⟩ | ⟨part, failed, first⟩
    · cases evaluated.symm.trans failure
    · cases failed.symm.trans failure
      exact ⟨rfl, rfl, part, first, rfl⟩

/-- The least number over `-1`, and a remainder by zero before a quotient by zero. -/
def lateDivision : Arith :=
  let spot (offset : UInt32) : Location := ⟨⟨[], 1, 0, offset⟩, ⟨[], 1, 0, offset + 1⟩⟩
  let zero := .binary (spot 5) .sub (.int (spot 6) 2) (.int (spot 7) 2)
  .binary (spot 0) .add (.binary (spot 1) .div (.int (spot 2) Int64.minValue) (.int (spot 3) (-1)))
    (.binary (spot 4) .div (.binary (spot 8) .mod (.int (spot 9) 7) zero) zero)

theorem eval_exact_lateDivision :
    lateDivision.isClosed = true ∧
      ∃ error, lateDivision.eval .empty = .error error ∧
        error.message = bytes "Division by zero" ∧ error.location.start.offset = 8 := by
  have closed : lateDivision.isClosed = true := by decide
  obtain ⟨succeeds, _, _, _, fails⟩ := eval_exact .empty closed
  refine ⟨closed, ?_⟩
  cases evaluated : lateDivision.eval .empty with
  | ok value => exact absurd (succeeds.1 ⟨value, evaluated⟩) (by decide)
  | error error =>
      obtain ⟨_, message, part, first, same⟩ := fails error evaluated
      have place : (lateDivision.parts.find? dividesByZero).map (·.location.start.offset) =
          some 8 := by decide
      rw [first] at place
      refine ⟨error, rfl, message, ?_⟩
      rw [same]
      exact Option.some.inj place

end Arith

end ScopedMacros
