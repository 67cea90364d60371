import StructuredSSA.Operation

/-!
# Arithmetic

Numbers are 64-bit integers with wrapping arithmetic; division goes toward zero, and a division by
zero gives zero.

## What is here

* `ArithOp.eval`, `Relation.holds` — what opcodes and relations mean.
* `Relation.negate` — the relation that holds exactly when another does not
  (`Relation.holds_negate`).
-/

set_option autoImplicit false

namespace StructuredSSA

/-- The result of an arithmetic operation. -/
def ArithOp.eval : ArithOp → Int64 → Int64 → Int64
  | .add, a, b => a + b
  | .sub, a, b => a - b
  | .mul, a, b => a * b
  | .div, a, b => a / b

namespace Relation

/-- Whether `a` and `b` are so related. -/
def holds : Relation → Int64 → Int64 → Bool
  | .eq, a, b => a = b
  | .ne, a, b => a ≠ b
  | .le, a, b => a ≤ b
  | .lt, a, b => a < b
  | .ge, a, b => b ≤ a
  | .gt, a, b => b < a

/-- The opposite relation. -/
def negate : Relation → Relation
  | .eq => .ne
  | .ne => .eq
  | .le => .gt
  | .lt => .ge
  | .ge => .lt
  | .gt => .le

theorem holds_negate (r : Relation) (a b : Int64) : r.negate.holds a b = !r.holds a b := by
  cases r with
  | eq => simp [negate, holds]
  | ne => simp [negate, holds]
  | le => rw [negate, holds, holds, ← decide_not, decide_eq_decide, Int64.not_le]
  | lt => rw [negate, holds, holds, ← decide_not, decide_eq_decide, Int64.not_lt]
  | ge => rw [negate, holds, holds, ← decide_not, decide_eq_decide, Int64.not_le]
  | gt => rw [negate, holds, holds, ← decide_not, decide_eq_decide, Int64.not_lt]

end Relation

end StructuredSSA
