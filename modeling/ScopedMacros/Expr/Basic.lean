import ScopedMacros.Position

/-!
# Expressions of conditions

Arithmetic on 64-bit integers, and the tests that conditionals make.
-/

namespace ScopedMacros

/-- Binary operations on integers. -/
inductive Operation where
  | add
  | sub
  | mul
  | div
  | mod
  | shiftLeft
  | shiftRight
  | shiftSigned
  | and
  | or
  | xor
  deriving DecidableEq, Repr

/-- The name of an operation in a listing of a tree. -/
def Operation.label : Operation → Bytes
  | .add => bytes "Add"
  | .sub => bytes "Sub"
  | .mul => bytes "Mul"
  | .div => bytes "Div"
  | .mod => bytes "Mod"
  | .shiftLeft => bytes "Lsl"
  | .shiftRight => bytes "Lsr"
  | .shiftSigned => bytes "Asr"
  | .and => bytes "Land"
  | .or => bytes "Lor"
  | .xor => bytes "Lxor"

inductive Arith where
  | int (location : Location) (value : Int64)
  | ident (location : Location) (name : Bytes)
  | neg (location : Location) (operand : Arith)
  | complement (location : Location) (operand : Arith)
  | binary (location : Location) (operation : Operation) (left right : Arith)
  deriving DecidableEq, Repr

namespace Arith

def location : Arith → Location
  | .int location _ | .ident location _ | .neg location _ | .complement location _
  | .binary location _ _ _ => location

/-- The same expression at another location. -/
def relocate (location : Location) : Arith → Arith
  | .int _ value => .int location value
  | .ident _ name => .ident location name
  | .neg _ operand => .neg location operand
  | .complement _ operand => .complement location operand
  | .binary _ operation left right => .binary location operation left right

/-- The name of the form of an expression in a listing of a tree. -/
def label : Arith → Bytes
  | .int _ _ => bytes "Int"
  | .ident _ _ => bytes "Ident"
  | .neg _ _ => bytes "Neg"
  | .complement _ _ => bytes "Lnot"
  | .binary _ operation _ _ => operation.label

/-- All names of forms. -/
def labels : List Bytes :=
  ["Int", "Ident", "Neg", "Add", "Sub", "Mul", "Div", "Mod", "Lnot", "Lsl", "Lsr", "Asr", "Land",
    "Lor", "Lxor"].map bytes

end Arith

/-- Relations between integers. -/
inductive Relation where
  | equal
  | less
  | greater
  deriving DecidableEq, Repr

inductive Test where
  | literal (location : Location) (value : Bool)
  | defined (location : Location) (name : Bytes)
  | not (location : Location) (operand : Test)
  | both (location : Location) (left right : Test)
  | either (location : Location) (left right : Test)
  | compare (location : Location) (relation : Relation) (left right : Arith)
  deriving DecidableEq, Repr

namespace Test

def location : Test → Location
  | .literal location _ | .defined location _ | .not location _ | .both location _ _
  | .either location _ _ | .compare location _ _ _ => location

/-- The same test at another location. -/
def relocate (location : Location) : Test → Test
  | .literal _ value => .literal location value
  | .defined _ name => .defined location name
  | .not _ operand => .not location operand
  | .both _ left right => .both location left right
  | .either _ left right => .either location left right
  | .compare _ relation left right => .compare location relation left right

/-- The name of the form of a test in a listing of a tree. -/
def label : Test → Bytes
  | .literal _ true => bytes "True"
  | .literal _ false => bytes "False"
  | .defined _ _ => bytes "Defined"
  | .not _ _ => bytes "Not"
  | .both _ _ _ => bytes "And"
  | .either _ _ _ => bytes "Or"
  | .compare _ .equal _ _ => bytes "Eq"
  | .compare _ .less _ _ => bytes "Lt"
  | .compare _ .greater _ _ => bytes "Gt"

/-- All names of forms. -/
def labels : List Bytes :=
  ["True", "False", "Defined", "Not", "And", "Or", "Eq", "Lt", "Gt"].map bytes

end Test

end ScopedMacros
