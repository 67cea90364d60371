import StructuredSSA.Program.Command
import StructuredSSA.Source.Basic

/-!
# Building a body from a structured program

A structured program is turned into commands in the order of its text.  A test becomes a
comparison and a branch that is taken when the test fails; the side or the body that belongs to it
is built in the block control falls through to.

## What is here

* `Script` — a construction in progress, with the commands issued so far.
* `Expr.lower`, `Test.lower`, `Stmt.lower` — issue the commands of each.
* `Stmt.build` — the construction of a whole program, `Stmt.compile` with its end.
-/

set_option autoImplicit false

namespace StructuredSSA

namespace Graph

/-- Where the edge of kind `e` out of `b` leads. -/
def follow (g : Graph) (e : Edge) (b : BlockId) : Except Fault BlockId := do
  let blk ← g.block b
  expect (blk.next e) (.noEdge b)

/-- Where the edge of kind `e` into `b` comes from. -/
def followBack (g : Graph) (e : Edge) (b : BlockId) : Except Fault BlockId := do
  let blk ← g.block b
  expect (blk.prev e) (.noEdge b)

end Graph

/-- A construction in progress: the commands issued so far, and the body they have led to. -/
structure Script where
  body : Body
  issued : List Body.Command := []

namespace Script

/-! ## Single commands -/

/-- The script continued by a command that has led to `s`. -/
def extend (t : Script) (c : Body.Command) (s : Body) : Script :=
  { body := s, issued := t.issued ++ [c] }

/-- Issues `Body.constant`. -/
def constant (t : Script) (v : Int64) : Except Fault (InstrId × Script) := do
  let (i, s) ← t.body.constant v
  return (i, t.extend (.constant v) s)

/-- Issues `Body.emit`. -/
def emit (t : Script) (op : Operation) : Except Fault (InstrId × Script) := do
  let (i, s) ← t.body.emit op
  return (i, t.extend (.emit op) s)

/-- Issues `Body.assign`. -/
def assign (t : Script) (x : Var) (value : Option InstrId) : Except Fault Script := do
  let s ← t.body.assign x value
  return t.extend (.assign x value) s

/-- Issues `Body.moveTo`. -/
def moveTo (t : Script) (b : BlockId) : Script := t.extend (.moveTo b) (t.body.moveTo b)

/-- Issues `Body.openIf`. -/
def openIf (t : Script) : Except Fault (BlockId × Script) := do
  let (parent, s) ← t.body.openIf
  return (parent, t.extend .openIf s)

/-- Issues `Body.openElse`. -/
def openElse (t : Script) (parent : BlockId) : Except Fault (BlockId × Script) := do
  let (side, s) ← t.body.openElse parent
  return (side, t.extend (.openElse parent) s)

/-- Issues `Body.openLoop`. -/
def openLoop (t : Script) : Except Fault (BlockId × Script) := do
  let (head, s) ← t.body.openLoop
  return (head, t.extend .openLoop s)

/-- Issues `Body.joinAhead`. -/
def joinAhead (t : Script) : Except Fault (BlockId × Script) := do
  let join ← t.body.joinAhead
  return (join, t.extend .joinAhead t.body)

/-- Issues `Body.aimBranch`. -/
def aimBranch (t : Script) (b : BlockId) : Except Fault Script := do
  let s ← t.body.aimBranch b
  return t.extend (.aimBranch b) s

/-- Issues `Body.emitJump`. -/
def emitJump (t : Script) (b : BlockId) : Except Fault Script := do
  let (_, s) ← t.body.emitJump b
  return t.extend (.emitJump b) s

/-- Issues `Body.closeIf`. -/
def closeIf (t : Script) (parent : BlockId) : Except Fault Script := do
  let s ← t.body.closeIf parent
  return t.extend (.closeIf parent) s

/-- Issues `Body.closeLoop`. -/
def closeLoop (t : Script) (head : BlockId) : Except Fault Script := do
  let s ← t.body.closeLoop head
  return t.extend (.closeLoop head) s

end Script

/-! ## Expressions and tests -/

/-- Issues what computes an expression and returns the operand that reads it. -/
def Expr.lower : Expr → Script → Except Fault (Operand × Script)
  | .var x, t => do
    let o ← t.body.readVar x
    return (o, t)
  | .lit v, t => do
    let (i, t) ← t.constant v
    return (.result i, t)
  | .read, t => do
    let (i, t) ← t.emit .read
    return (.result i, t)
  | .arith op l r, t => do
    let (a, t) ← l.lower t
    let (b, t) ← r.lower t
    let (i, t) ← t.emit (.binary (.arith op) a b)
    return (.result i, t)

/-- Issues a comparison and the branch that is taken when the test fails. -/
def Test.lower (c : Test) (t : Script) : Except Fault Script := do
  let (a, t) ← c.lhs.lower t
  let (b, t) ← c.rhs.lower t
  let (_, t) ← t.emit (.binary .cmp a b)
  let (_, t) ← t.emit (.branch (.whenever c.rel.negate) none)
  return t

/-! ## Constructs -/

namespace Script

/-- Opens an if with the test `c` and moves to its then side; returns the if block and the
join. -/
def enterIf (t : Script) (c : Test) : Except Fault (BlockId × BlockId × Script) := do
  let (parent, t) ← t.openIf
  let join ← t.body.graph.follow .branch parent
  let t ← c.lower t
  let side ← t.body.graph.follow .fall parent
  return (parent, join, t.moveTo side)

/-- Ends the then side and moves to the else side of the if at `parent`. -/
def enterElse (t : Script) (parent : BlockId) : Except Fault Script := do
  let (side, t) ← t.openElse parent
  return t.moveTo side

/-- Ends the else side of an if: the then side jumps to the join. -/
def leaveElse (t : Script) (join : BlockId) : Except Fault Script := do
  let tail ← t.body.graph.followBack .branch join
  t.emitJump tail

/-- Moves to the join of the if at `parent` and closes the if. -/
def leaveIf (t : Script) (parent : BlockId) : Except Fault Script := do
  let t ← t.aimBranch parent
  let (join, t) ← t.joinAhead
  (t.moveTo join).closeIf parent

/-- Opens a loop with the test `c` and moves to its body; returns the header. -/
def enterLoop (t : Script) (c : Test) : Except Fault (BlockId × Script) := do
  let (head, t) ← t.openLoop
  let t ← c.lower t
  let side ← t.body.graph.follow .fall head
  return (head, t.moveTo side)

/-- Ends the body of the loop with header `head`, closes the loop and moves behind it. -/
def leaveLoop (t : Script) (head : BlockId) : Except Fault Script := do
  let t ← t.emitJump t.body.current
  let t ← t.aimBranch head
  let t ← (t.moveTo head).closeLoop head
  let exit ← t.body.graph.follow .branch head
  return t.moveTo exit

end Script

/-! ## Statements -/

namespace Stmt

/-- Issues the commands of a statement. -/
def lower : Stmt → Script → Except Fault Script
  | .skip, t => .ok t
  | .seq s s', t => do
    let t ← s.lower t
    s'.lower t
  | .assign x e, t => do
    let (o, t) ← e.lower t
    t.assign x o.value
  | .write e, t => do
    let (o, t) ← e.lower t
    let (_, t) ← t.emit (.unary .write o)
    return t
  | .ifThen c s, t => do
    let (parent, _, t) ← t.enterIf c
    let t ← s.lower t
    t.leaveIf parent
  | .ifElse c s s', t => do
    let (parent, join, t) ← t.enterIf c
    let t ← s.lower t
    let t ← t.enterElse parent
    let t ← s'.lower t
    let t ← t.leaveElse join
    t.leaveIf parent
  | .loop c s, t => do
    let (head, t) ← t.enterLoop c
    let t ← s.lower t
    t.leaveLoop head

/-- The construction of a whole program, up to its end. -/
def build (options : Options) (s : Stmt) : Except Fault Script :=
  s.lower { body := .start options }

/-- A whole program, built and finished: the report of variables that may be read too early, and
the program. -/
def compile (options : Options) (s : Stmt) : Except Fault (List Var × Program) := do
  let t ← s.build options
  let p ← (Program.start options).execAll (t.issued.map .body)
  p.finish

end Stmt

end StructuredSSA
