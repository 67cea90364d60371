import StructuredSSA.Arithmetic

/-!
# Structured programs

The programs that bodies are built from: assignments and output of expressions, conditionals with
and without an else side, and loops with the test in front.

## What is here

* `Expr`, `Test`, `Stmt` — the programs.
* `Stmt.assigned`, `Stmt.vars` — the variables a statement assigns, and those it mentions.
* `Stmt.AssignsFirst` — every variable is assigned before the first conditional or loop.
-/

set_option autoImplicit false

namespace StructuredSSA

/-- An expression. -/
inductive Expr where
  | var (x : Var)
  | lit (v : Int64)
  /-- The next number of the input. -/
  | read
  | arith (op : ArithOp) (lhs rhs : Expr)
deriving DecidableEq, Repr

/-- A test: whether the values of two expressions are so related. -/
structure Test where
  lhs : Expr
  rel : Relation
  rhs : Expr
deriving DecidableEq, Repr

/-- A statement. -/
inductive Stmt where
  | skip
  | seq (s t : Stmt)
  | assign (x : Var) (e : Expr)
  | write (e : Expr)
  | ifThen (c : Test) (s : Stmt)
  | ifElse (c : Test) (s t : Stmt)
  | loop (c : Test) (s : Stmt)
deriving DecidableEq, Repr

/-- The variables that an expression reads. -/
def Expr.vars : Expr → List Var
  | .var x => [x]
  | .lit _ => []
  | .read => []
  | .arith _ l r => l.vars ++ r.vars

/-- The variables that a test reads. -/
def Test.vars (c : Test) : List Var := c.lhs.vars ++ c.rhs.vars

namespace Stmt

/-- The variables that are assigned somewhere in a statement. -/
def assigned : Stmt → List Var
  | .skip => []
  | .seq s t => s.assigned ++ t.assigned
  | .assign x _ => [x]
  | .write _ => []
  | .ifThen _ s => s.assigned
  | .ifElse _ s t => s.assigned ++ t.assigned
  | .loop _ s => s.assigned

/-- The variables that a statement mentions. -/
def vars : Stmt → List Var
  | .skip => []
  | .seq s t => s.vars ++ t.vars
  | .assign x e => x :: e.vars
  | .write e => e.vars
  | .ifThen c s => c.vars ++ s.vars
  | .ifElse c s t => c.vars ++ s.vars ++ t.vars
  | .loop c s => c.vars ++ s.vars

/-- The statements of a sequence, in order. -/
def toList : Stmt → List Stmt
  | .skip => []
  | .seq s t => s.toList ++ t.toList
  | s => [s]

/-- An assignment or an output. -/
def isSimple : Stmt → Bool
  | .assign _ _ => true
  | .write _ => true
  | _ => false

/-- Every variable is assigned before the first conditional or loop. -/
def AssignsFirst (s : Stmt) : Prop :=
  ∀ x ∈ s.vars, ∃ t ∈ s.toList.takeWhile isSimple, x ∈ t.assigned

instance (s : Stmt) : Decidable s.AssignsFirst :=
  inferInstanceAs (Decidable (∀ x ∈ s.vars, ∃ t ∈ s.toList.takeWhile isSimple, x ∈ t.assigned))

end Stmt

end StructuredSSA
