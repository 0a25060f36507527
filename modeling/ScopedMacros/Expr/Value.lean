import ScopedMacros.Env
import ScopedMacros.Error
import ScopedMacros.Numeral

/-!
# Values of expressions

Arithmetic wraps at 64 bits.  A name has a value if it is bound to a macro without parameters whose
body is an integer literal, or is another name that has one.
-/

namespace ScopedMacros

namespace Operation

/-- Whether a shift moves out every bit. -/
def shiftsOut (amount : Int64) : Bool :=
  64 ≤ amount || amount ≤ -64

/-- The result of an operation, if it has one.  A shift takes its amount modulo 64. -/
def result? (left right : Int64) : Operation → Option Int64
  | .add => some (left + right)
  | .sub => some (left - right)
  | .mul => some (left * right)
  | .div => if right = 0 then none else some (left / right)
  | .mod => if right = 0 then none else some (left % right)
  | .shiftLeft => some (if shiftsOut right then 0 else left <<< right)
  | .shiftRight =>
      some (if shiftsOut right then 0 else (left.toUInt64 >>> right.toUInt64).toInt64)
  | .shiftSigned => some (if shiftsOut right then 0 else left >>> right)
  | .and => some (left &&& right)
  | .or => some (left ||| right)
  | .xor => some (left ^^^ right)

end Operation

namespace Macro

/-- The name that a body consists of, apart from space, with its location. -/
def alias? (body : List Node) : Option (Location × Bytes) :=
  match body.filter (!·.isSpace) with
  | [.ident location name] => some (location, name)
  | _ => none

/-- The text of a body that holds text only. -/
def constant? : List Node → Option Bytes
  | [] => some []
  | .space _ text :: rest => (constant? rest).map (text ++ ·)
  | .text _ text :: rest => (constant? rest).map (text ++ ·)
  | _ :: _ => none

/-- The value of a name whose body is not an alias. -/
def literal (name : Bytes) (location : Location) (body : List Node) : Except Error Int64 :=
  match constant? body with
  | none => .error ⟨.notConstant name, location⟩
  | some text =>
      match Numeral.read? text.strip with
      | none => .error ⟨.notInteger name, location⟩
      | some value => .ok value

end Macro

namespace Env

/-- The value of a name that is used at a location, after the aliases that were followed to it. -/
def value (env : Env) (followed : List Bytes) (location : Location) (name : Bytes) :
    Except Error Int64 :=
  match _found : env.lookup name with
  | none => .error ⟨.undefined name, location⟩
  | some definition =>
      if definition.parameters.isSome then
        .error ⟨.takesArguments name, location⟩
      else
        let inner : Except Error Int64 :=
          match Macro.alias? definition.body with
          | none => Macro.literal name location definition.body
          | some (place, target) =>
              if _fresh : name ∈ followed then
                .error ⟨.cyclicAlias name, location⟩
              else
                env.value (name :: followed) place target
        match inner with
        | .ok value => .ok value
        | .error reason => .error ⟨.noValue name reason.cause reason.location, location⟩
termination_by (Bytes.unseen env.names followed).length
decreasing_by exact Bytes.length_unseen_lt (mem_names_of_lookup _found) _fresh

theorem value_of_lookup_eq_none {env : Env} {name : Bytes} (free : env.lookup name = none)
    (followed : List Bytes) (location : Location) :
    env.value followed location name = .error ⟨.undefined name, location⟩ := by
  rw [value]
  split
  · rfl
  · next found => cases free.symm.trans found

/-- The value of a name that is bound: that of the name or the literal in its body. -/
theorem value_of_lookup {env : Env} {name : Bytes} {definition : Macro}
    (found : env.lookup name = some definition) (followed : List Bytes) (location : Location) :
    env.value followed location name =
      if definition.parameters.isSome then .error ⟨.takesArguments name, location⟩
      else
        ((Macro.alias? definition.body).elim (Macro.literal name location definition.body)
          fun target =>
            if name ∈ followed then .error ⟨.cyclicAlias name, location⟩
            else env.value (name :: followed) target.1 target.2).mapError
          fun reason => ⟨.noValue name reason.cause reason.location, location⟩ := by
  rw [value]
  split
  · next free => cases free.symm.trans found
  · next other foundOther =>
      obtain rfl : definition = other := Option.some.inj (found.symm.trans foundOther)
      split
      · rfl
      cases Macro.alias? definition.body with
      | none => cases Macro.literal name location definition.body <;> rfl
      | some target =>
          dsimp only [Option.elim]
          by_cases seen : name ∈ followed
          · rw [dif_pos seen, if_pos seen]
            rfl
          · rw [dif_neg seen, if_neg seen]
            cases env.value (name :: followed) target.1 target.2 <;> rfl

end Env

namespace Arith

/-- The value of an expression; operands are evaluated from the left. -/
def eval (env : Env) : Arith → Except Error Int64
  | .int _ value => .ok value
  | .ident location name => env.value [] location name
  | .neg _ operand => do .ok (-(← operand.eval env))
  | .complement _ operand => do .ok (~~~(← operand.eval env))
  | .binary location operation left right => do
      let left ← left.eval env
      let right ← right.eval env
      match operation.result? left right with
      | some value => .ok value
      | none => .error ⟨.divisionByZero, location⟩

end Arith

/-- Whether a relation holds between two integers. -/
def Relation.holds (left right : Int64) : Relation → Bool
  | .equal => left = right
  | .less => left < right
  | .greater => right < left

namespace Test

/-- The truth of a test.  The right side of a connective is left alone if the left side decides. -/
def eval (env : Env) : Test → Except Error Bool
  | .literal _ value => .ok value
  | .defined _ name => .ok (env.contains name)
  | .not _ operand => do .ok (!(← operand.eval env))
  | .both _ left right => do if ← left.eval env then right.eval env else .ok false
  | .either _ left right => do if ← left.eval env then .ok true else right.eval env
  | .compare _ relation left right => do
      let left ← left.eval env
      let right ← right.eval env
      .ok (relation.holds left right)

end Test

end ScopedMacros
