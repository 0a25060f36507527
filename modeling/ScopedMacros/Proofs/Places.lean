import ScopedMacros.Expr.Reader

/-!
# Trees without places

An expression or a test keeps the location of each of its parts.  Without them only the form is
left.
-/

namespace ScopedMacros

namespace Arith

/-- The expression with no part at any place. -/
def unplaced : Arith → Arith
  | .int _ value => .int .nowhere value
  | .ident _ name => .ident .nowhere name
  | .neg _ operand => .neg .nowhere operand.unplaced
  | .complement _ operand => .complement .nowhere operand.unplaced
  | .binary _ operation left right => .binary .nowhere operation left.unplaced right.unplaced

@[simp]
theorem unplaced_relocate (location : Location) (tree : Arith) :
    (tree.relocate location).unplaced = tree.unplaced := by
  cases tree <;> rfl

@[simp]
theorem unplaced_join (operation : Operation) (left right : Arith) :
    (join operation left right).unplaced =
      .binary .nowhere operation left.unplaced right.unplaced := rfl

theorem unplaced_join_congr (operation : Operation) {left right first second : Arith}
    (sameLeft : left.unplaced = first.unplaced) (sameRight : right.unplaced = second.unplaced) :
    (join operation left right).unplaced = (join operation first second).unplaced := by
  rw [unplaced_join, unplaced_join, sameLeft, sameRight]

end Arith

namespace Test

/-- The test with no part at any place. -/
def unplaced : Test → Test
  | .literal _ value => .literal .nowhere value
  | .defined _ name => .defined .nowhere name
  | .not _ operand => .not .nowhere operand.unplaced
  | .both _ left right => .both .nowhere left.unplaced right.unplaced
  | .either _ left right => .either .nowhere left.unplaced right.unplaced
  | .compare _ relation left right => .compare .nowhere relation left.unplaced right.unplaced

@[simp]
theorem unplaced_relocate (location : Location) (test : Test) :
    (test.relocate location).unplaced = test.unplaced := by
  cases test <;> rfl

@[simp]
theorem unplaced_test (location : Location) (comparison : Comparison) (left right : Arith) :
    (comparison.test location left right).unplaced =
      comparison.test .nowhere left.unplaced right.unplaced := by
  cases comparison <;> rfl

theorem unplaced_join_congr (level : Level) {left right first second : Test}
    (sameLeft : left.unplaced = first.unplaced) (sameRight : right.unplaced = second.unplaced) :
    (join level left right).unplaced = (join level first second).unplaced := by
  cases level <;> simp [join, unplaced, sameLeft, sameRight]

end Test

end ScopedMacros
