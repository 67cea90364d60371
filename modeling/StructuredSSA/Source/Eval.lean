import StructuredSSA.Source.Basic

/-!
# The meaning of structured programs

A statement takes one store to another, reading numbers from an input and writing numbers to an
output.  A variable that has not been assigned has no value, and reading it has no meaning.

## What is here

* `Store` — the variables, with the input and the output so far.
* `Expr.eval`, `Test.eval`, `Stmt.run` — the meaning of each; `fuel` bounds the nesting and the
  rounds of loops.
* `Stmt.Writes` — what a whole program writes when it terminates.
-/

set_option autoImplicit false

namespace StructuredSSA

/-- The state of a structured program. -/
structure Store where
  values : Var → Option Int64 := fun _ => none
  /-- How many numbers of the input have been read. -/
  taken : Nat := 0
  /-- What has been written, the latest number first. -/
  written : List Int64 := []

namespace Store

/-- Assigns `v` to `x`. -/
def set (st : Store) (x : Var) (v : Int64) : Store :=
  { st with values := fun y => if y = x then some v else st.values y }

end Store

/-- The value of an expression and the store after it. -/
def Expr.eval (input : Nat → Int64) : Expr → Store → Option (Int64 × Store)
  | .var x, st => (st.values x).map fun v => (v, st)
  | .lit v, st => some (v, st)
  | .read, st => some (input st.taken, { st with taken := st.taken + 1 })
  | .arith op l r, st => do
    let (a, st) ← l.eval input st
    let (b, st) ← r.eval input st
    return (op.eval a b, st)

/-- Whether a test holds, and the store after it. -/
def Test.eval (input : Nat → Int64) (c : Test) (st : Store) : Option (Bool × Store) := do
  let (a, st) ← c.lhs.eval input st
  let (b, st) ← c.rhs.eval input st
  return (c.rel.holds a b, st)

namespace Stmt

/-- The store after a statement, if it terminates within `fuel`. -/
def run (input : Nat → Int64) : Nat → Stmt → Store → Option Store
  | 0, _, _ => none
  | _ + 1, .skip, st => some st
  | fuel + 1, .seq s t, st => do
    let st ← s.run input fuel st
    t.run input fuel st
  | _ + 1, .assign x e, st => do
    let (v, st) ← e.eval input st
    return st.set x v
  | _ + 1, .write e, st => do
    let (v, st) ← e.eval input st
    return { st with written := v :: st.written }
  | fuel + 1, .ifThen c s, st => do
    let (b, st) ← c.eval input st
    if b then s.run input fuel st else return st
  | fuel + 1, .ifElse c s t, st => do
    let (b, st) ← c.eval input st
    if b then s.run input fuel st else t.run input fuel st
  | fuel + 1, .loop c s, st => do
    let (b, st) ← c.eval input st
    if b then
      let st ← s.run input fuel st
      (Stmt.loop c s).run input fuel st
    else
      return st

/-- On this input the program terminates and writes `out`. -/
def Writes (s : Stmt) (input : Nat → Int64) (out : List Int64) : Prop :=
  ∃ fuel st, s.run input fuel {} = some st ∧ st.written.reverse = out

end Stmt

end StructuredSSA
