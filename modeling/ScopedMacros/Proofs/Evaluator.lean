import ScopedMacros.Proofs.ExactArithmetic

/-!
# Evaluation step by step

The machine leaves open what some operations on words do: a quotient that is out of range, a shift by
more places than a word has, a shift of a negative number.  The operations of expressions go around
these by detours over unsigned words, by special cases and by masks.  One list of the names whose
aliases are being followed goes through a whole expression; a name is put on it before its alias is
followed, and taken off afterwards.

Evaluation done in this way never comes to an operation that is left open, leaves the list as it found
it, and ends as `Arith.eval` does.
-/

namespace ScopedMacros

/-! ## Operations of the machine

Each of them is `none` where the machine leaves it open. -/

namespace Word

/-- A quotient or a remainder. -/
def divide? (divide : Int64 → Int64 → Int64) (left right : Int64) : Option Int64 :=
  if right = 0 ∨ left = Int64.minValue ∧ right = -1 then none else some (divide left right)

/-- A shift of a word without a sign. -/
def shift? (shift : UInt64 → UInt64 → UInt64) (word amount : UInt64) : Option UInt64 :=
  if amount < 64 then some (shift word amount) else none

/-- A shift to the right of a word with a sign. -/
def shiftSigned? (word : Int64) (amount : UInt64) : Option Int64 :=
  if 0 ≤ word ∧ amount < 64 then some (word >>> amount.toInt64) else none

theorem divide?_of_ne {divide : Int64 → Int64 → Int64} {left right : Int64} (zero : right ≠ 0)
    (one : right ≠ -1) : divide? divide left right = some (divide left right) :=
  if_neg (by simp [zero, one])

theorem shift?_of_lt {shift : UInt64 → UInt64 → UInt64} {word amount : UInt64}
    (inside : amount < 64) : shift? shift word amount = some (shift word amount) :=
  if_pos inside

end Word

namespace Operation

/-- By how many places a shift moves that does not move out every bit. -/
def masked (amount : Int64) : UInt64 :=
  amount.toUInt64 &&& 63

def negated (number : Int64) : Int64 :=
  (0 - number.toUInt64).toInt64

/-- The outcome of a division, where the one by `-1` is done apart. -/
def divided? (location : Location) (divide : Int64 → Int64 → Int64) (apart left right : Int64) :
    Option (Except Error Int64) :=
  if right = 0 then some (.error ⟨.divisionByZero, location⟩)
  else if right = -1 then some (.ok apart)
  else (Word.divide? divide left right).map .ok

/-- The outcome of an operation at a location, `none` where the machine leaves it open. -/
def onWords? (location : Location) (left right : Int64) : Operation → Option (Except Error Int64)
  | .add => some (.ok (left.toUInt64 + right.toUInt64).toInt64)
  | .sub => some (.ok (left.toUInt64 - right.toUInt64).toInt64)
  | .mul => some (.ok (left.toUInt64 * right.toUInt64).toInt64)
  | .div => divided? location (· / ·) (negated left) left right
  | .mod => divided? location (· % ·) 0 left right
  | .shiftLeft =>
      if shiftsOut right then some (.ok 0)
      else (Word.shift? (· <<< ·) left.toUInt64 (masked right)).map (.ok ·.toInt64)
  | .shiftRight =>
      if shiftsOut right then some (.ok 0)
      else (Word.shift? (· >>> ·) left.toUInt64 (masked right)).map (.ok ·.toInt64)
  | .shiftSigned =>
      if shiftsOut right then some (.ok 0)
      else if left < 0 then (Word.shiftSigned? (~~~left) (masked right)).map (.ok <| ~~~·)
      else (Word.shiftSigned? left (masked right)).map .ok
  | .and => some (.ok (left &&& right))
  | .or => some (.ok (left ||| right))
  | .xor => some (.ok (left ^^^ right))

theorem negated_eq (number : Int64) : negated number = -number :=
  Int64.toBitVec_inj.1 (BitVec.zero_sub number.toBitVec)

theorem div_neg_one (number : Int64) : number / -1 = negated number := by
  have value : (-1 : Int64).toInt = -1 := rfl
  rw [negated_eq, ← Int64.toInt_inj, Int64.toInt_div, value, Int.tdiv_neg, Int.tdiv_one,
    Int64.toInt_neg]

theorem mod_neg_one (number : Int64) : number % -1 = 0 := by
  have value : (-1 : Int64).toInt = -1 := rfl
  rw [← Int64.toInt_inj, Int64.toInt_mod, value, Int.tmod_neg, Int.tmod_one]
  rfl

theorem toNat_masked (amount : Int64) : (masked amount).toNat = places amount.toInt := by
  rw [← toNat_mod_eq_places]
  exact (UInt64.toNat_and _ _).trans (Nat.and_two_pow_sub_one_eq_mod _ 6)

theorem places_lt (amount : Int) : places amount < 64 := by
  unfold places
  omega

theorem masked_lt (amount : Int64) : masked amount < 64 :=
  UInt64.lt_iff_toNat_lt.2 (toNat_masked amount ▸ places_lt amount.toInt)

theorem toNat_masked_mod (amount : Int64) : (masked amount).toNat % 64 = places amount.toInt := by
  rw [toNat_masked, Nat.mod_eq_of_lt (places_lt _)]

theorem shiftLeft_masked (left right : Int64) :
    (left.toUInt64 <<< masked right).toInt64 = left <<< right := by
  refine Int64.toBitVec_inj.1 (BitVec.eq_of_toNat_eq ?_)
  change (left.toUInt64 <<< masked right).toNat = _
  rw [UInt64.toNat_shiftLeft, toNat_masked_mod, Int64.toBitVec_shiftLeft, BitVec.shiftLeft_eq',
    BitVec.toNat_shiftLeft, toNat_smod_eq_places]
  rfl

theorem shiftRight_masked (left right : Int64) :
    left.toUInt64 >>> masked right = left.toUInt64 >>> right.toUInt64 := by
  rw [← UInt64.toNat_inj, UInt64.toNat_shiftRight, UInt64.toNat_shiftRight, toNat_masked_mod,
    toNat_mod_eq_places]

theorem shiftSigned_masked (left right : Int64) :
    left >>> (masked right).toInt64 = left >>> right := by
  have same : places (masked right).toInt64.toInt = places right.toInt :=
    (toNat_mod_eq_places _).symm.trans (toNat_masked_mod right)
  rw [← Int64.toInt_inj, toInt_shiftSigned, toInt_shiftSigned, same]

/-- A shift rounds down, so that it is a shift of the complement. -/
theorem complement_shiftSigned (left amount : Int64) : ~~~(~~~left >>> amount) = left >>> amount := by
  refine Int64.toBitVec_inj.1 ?_
  simp only [Int64.toBitVec_not, Int64.toBitVec_shiftRight, BitVec.sshiftRight_eq',
    BitVec.not_sshiftRight_not]

theorem complement_nonneg {number : Int64} (negative : number < 0) : 0 ≤ ~~~number := by
  rw [Int64.lt_iff_toInt_lt] at negative
  rw [Int64.le_iff_toInt_le, toInt_complement]
  change number.toInt < 0 at negative
  change 0 ≤ number.toInt.lnot
  obtain ⟨size, same⟩ := Int.eq_negSucc_of_lt_zero negative
  rw [same]
  exact Int.natCast_nonneg size

theorem divided?_eq {divide : Int64 → Int64 → Int64} {left apart : Int64}
    (same : divide left (-1) = apart) (location : Location) (right : Int64) :
    divided? location divide apart left right =
      some ((if right = 0 then none else some (divide left right)).elim
        (.error ⟨.divisionByZero, location⟩) .ok) := by
  unfold divided?
  by_cases zero : right = 0
  · rw [if_pos zero, if_pos zero]
    rfl
  rw [if_neg zero, if_neg zero]
  by_cases one : right = -1
  · rw [if_pos one, one, same]
    rfl
  · rw [if_neg one, Word.divide?_of_ne zero one]
    rfl

/-- The detours give the result of the operation, and nothing is left open. -/
theorem onWords?_eq (location : Location) (left right : Int64) (operation : Operation) :
    operation.onWords? location left right =
      some ((operation.result? left right).elim (.error ⟨.divisionByZero, location⟩) .ok) := by
  have inside := masked_lt right
  cases operation with
  | add | sub | mul | and | or | xor => rfl
  | div => exact divided?_eq (div_neg_one left) location right
  | mod => exact divided?_eq (mod_neg_one left) location right
  | shiftLeft =>
      rw [onWords?, result?, Word.shift?_of_lt inside, Option.map_some, shiftLeft_masked]
      cases shiftsOut right <;> rfl
  | shiftRight =>
      rw [onWords?, result?, Word.shift?_of_lt inside, Option.map_some, shiftRight_masked]
      cases shiftsOut right <;> rfl
  | shiftSigned =>
      simp only [onWords?, result?, Word.shiftSigned?, inside, and_true]
      cases shiftsOut right with
      | true => rfl
      | false =>
          by_cases negative : left < 0
          · simp [negative, complement_nonneg negative, shiftSigned_masked, complement_shiftSigned]
          · simp [negative, Int64.not_lt.1 negative, shiftSigned_masked]

end Operation

/-! ## One list of names -/

/-- A computation on the list of the names whose aliases are being followed, the last one first.
There is no outcome where the machine leaves one open; one that fails leaves the list as it is at that
time. -/
abbrev Evaluation (α : Type) : Type :=
  ExceptT Error (StateT (List Bytes) Option) α

namespace Evaluation

/-- Takes off the name whose alias was followed. -/
def pop {α : Type} : Except Error α × List Bytes → Except Error α × List Bytes
  | (.ok value, resolving) => (.ok value, resolving.tail)
  | (.error error, resolving) => (.error error, resolving)

/-- The value of a name that is used at a location. -/
def name (env : Env) (location : Location) (name : Bytes) (resolving : List Bytes) :
    Except Error Int64 × List Bytes :=
  match _found : env.lookup name with
  | none => (.error ⟨.undefined name, location⟩, resolving)
  | some definition =>
      if definition.parameters.isSome then
        (.error ⟨.takesArguments name, location⟩, resolving)
      else
        let inner : Except Error Int64 × List Bytes :=
          match Macro.alias? definition.body with
          | none => (Macro.literal name location definition.body, resolving)
          | some (place, target) =>
              if _fresh : name ∈ resolving then
                (.error ⟨.cyclicAlias name, location⟩, resolving)
              else
                pop (Evaluation.name env place target (name :: resolving))
        (inner.1.mapError fun reason => ⟨.noValue name reason.cause reason.location, location⟩,
          inner.2)
termination_by (Bytes.unseen env.names resolving).length
decreasing_by exact Bytes.length_unseen_lt (Env.mem_names_of_lookup _found) _fresh

def operate (location : Location) (operation : Operation) (left right : Int64) :
    Evaluation Int64 :=
  ExceptT.mk fun resolving => (operation.onWords? location left right).map (·, resolving)

/-- The value of an expression; operands are evaluated from the left. -/
def arith (env : Env) : Arith → Evaluation Int64
  | .int _ value => pure value
  | .ident location name =>
      ExceptT.mk fun resolving => some (Evaluation.name env location name resolving)
  | .neg _ operand => do return Operation.negated (← arith env operand)
  | .complement _ operand => do return ~~~(← arith env operand)
  | .binary location operation left right => do
      let left ← arith env left
      let right ← arith env right
      operate location operation left right

/-- How an evaluation ends that started from a list: with an outcome, and with the list as it was
unless it fails. -/
def Ends {α : Type} (resolving : List Bytes) (outcome : Except Error α)
    (ended : Except Error α × List Bytes) : Prop :=
  ended.1 = outcome ∧ ∀ value, outcome = .ok value → ended.2 = resolving

/-- Started from a list, an evaluation comes to the outcome, and nothing is left open. -/
def Gives {α : Type} (evaluation : Evaluation α) (resolving : List Bytes)
    (outcome : Except Error α) : Prop :=
  ∃ ended, evaluation.run.run resolving = some ended ∧ Ends resolving outcome ended

section

variable {α β : Type} {resolving : List Bytes}

theorem Ends.refl (resolving : List Bytes) (outcome : Except Error α) :
    Ends resolving outcome (outcome, resolving) :=
  ⟨rfl, fun _ _ => rfl⟩

theorem Ends.pop {name : Bytes} {outcome : Except Error α} {ended : Except Error α × List Bytes}
    (ends : Ends (name :: resolving) outcome ended) : Ends resolving outcome (pop ended) := by
  obtain ⟨answer, left⟩ := ended
  obtain ⟨rfl, restored⟩ := ends
  cases answer with
  | error error => exact ⟨rfl, fun _ answered => by cases answered⟩
  | ok value =>
      obtain rfl : left = name :: resolving := restored value rfl
      exact .refl _ _

theorem Ends.mapError {outcome : Except Error α} {ended : Except Error α × List Bytes}
    (ends : Ends resolving outcome ended) (wrap : Error → Error) :
    Ends resolving (outcome.mapError wrap) (ended.1.mapError wrap, ended.2) := by
  obtain ⟨rfl, restored⟩ := ends
  refine ⟨rfl, fun value answered => ?_⟩
  cases answer : ended.1 with
  | error error =>
      rw [answer] at answered
      cases answered
  | ok other => exact restored other answer

theorem Gives.bind {first : Evaluation α} {next : α → Evaluation β} {outcome : Except Error α}
    {after : α → Except Error β} (gives : first.Gives resolving outcome)
    (goesOn : ∀ value, (next value).Gives resolving (after value)) :
    (first >>= next).Gives resolving (outcome >>= after) := by
  obtain ⟨⟨answer, left⟩, ended, rfl, restored⟩ := gives
  unfold Gives
  rw [ExceptT.run_bind, StateT.run_bind, ended]
  cases answer with
  | error error => exact ⟨_, rfl, rfl, fun _ answered => by cases answered⟩
  | ok value =>
      obtain rfl : left = resolving := restored value rfl
      exact goesOn value

end

/-- A name has the value that it has after the names on the list, and they are left on it. -/
theorem name_ends (env : Env) (location : Location) (name : Bytes) (resolving : List Bytes) :
    Ends resolving (env.value resolving location name)
      (Evaluation.name env location name resolving) := by
  fun_induction Evaluation.name env location name resolving with
  | case1 location name resolving free =>
      rw [Env.value_of_lookup_eq_none free]
      exact .refl _ _
  | case2 location name resolving definition found takes =>
      rw [Env.value_of_lookup found, if_pos takes]
      exact .refl _ _
  | case3 location name resolving definition found plain inner ih =>
      rw [Env.value_of_lookup found, if_neg plain]
      refine Ends.mapError (?_ : Ends resolving _ inner) _
      cases follows : Macro.alias? definition.body with
      | none =>
          simp only [inner, follows]
          exact .refl _ _
      | some target =>
          simp only [inner, follows]
          by_cases seen : name ∈ resolving
          · rw [Option.elim, if_pos seen, dif_pos seen]
            exact .refl _ _
          · rw [Option.elim, if_neg seen, dif_neg seen]
            exact (ih target.1 target.2 seen).pop

theorem operate_gives (location : Location) (operation : Operation) (left right : Int64)
    (resolving : List Bytes) :
    (operate location operation left right).Gives resolving
      ((operation.result? left right).elim (.error ⟨.divisionByZero, location⟩) .ok) :=
  ⟨_, congrArg (Option.map (·, resolving)) (operation.onWords?_eq location left right), .refl _ _⟩

/-- Whatever list it starts from, the evaluation of an expression has an outcome and leaves the list as
it was; from the empty list, the outcome is that of the expression. -/
theorem arith_gives (env : Env) (tree : Arith) (resolving : List Bytes) :
    ∃ outcome, (arith env tree).Gives resolving outcome ∧
      (resolving = [] → outcome = tree.eval env) := by
  induction tree with
  | int location value => exact ⟨_, ⟨_, rfl, .refl _ _⟩, fun _ => rfl⟩
  | ident location name =>
      refine ⟨_, ⟨_, rfl, name_ends env location name resolving⟩, ?_⟩
      rintro rfl
      rfl
  | neg location operand ih =>
      obtain ⟨outcome, gives, same⟩ := ih
      refine ⟨_, gives.bind fun value => ⟨_, rfl, .refl _ _⟩, fun empty => ?_⟩
      rw [same empty]
      simp only [Operation.negated_eq]
      rfl
  | complement location operand ih =>
      obtain ⟨outcome, gives, same⟩ := ih
      refine ⟨_, gives.bind fun value => ⟨_, rfl, .refl _ _⟩, fun empty => ?_⟩
      rw [same empty]
      rfl
  | binary location operation left right ihLeft ihRight =>
      obtain ⟨first, givesFirst, sameFirst⟩ := ihLeft
      obtain ⟨second, givesSecond, sameSecond⟩ := ihRight
      -- The right operand starts from the list that the left one leaves, which is the same one.
      have gives := givesFirst.bind fun a =>
        givesSecond.bind fun b => operate_gives location operation a b resolving
      refine ⟨_, gives, fun empty => ?_⟩
      rw [sameFirst empty, sameSecond empty, Arith.eval]
      refine congrArg (bind _) (funext fun a => congrArg (bind _) (funext fun b => ?_))
      cases operation.result? a b <;> rfl

/-- Step by step, an expression evaluates to its value, and the list of names is empty again.  So no
operand depends on the names that were followed before it. -/
theorem arith_eq (env : Env) (tree : Arith) : (arith env tree).Gives [] (tree.eval env) := by
  obtain ⟨outcome, gives, same⟩ := arith_gives env tree []
  exact same rfl ▸ gives

end Evaluation

end ScopedMacros
