import StructuredSSA.Body.Emit
import StructuredSSA.Graph.Region

/-!
# Assignments and phis

An assignment inside a construct changes what the variable means behind the construct, so it is
merged into it at once.

* At an if, the join gets a phi for the variable.  The side that has not assigned it still brings
  the value from before the if.  A later assignment replaces the value on its own side.
* At a loop, the header gets a phi.  Instructions of the loop that were added earlier and read the
  variable from before the loop are redirected to it, and whatever sharing relied on their old
  operands is undone.

Both take effect on one construct, the innermost; phis are carried further out when it is closed.

## What is here

* `Body.insertPhi`, `Body.setPhiSide` — the phis, and the books on the incomplete ones.
* `Body.merge` — merges a new value into the construct around a block.
* `Body.assign` — binds a variable and merges its value.
-/

set_option autoImplicit false

namespace StructuredSSA

/-- A side of a phi. -/
inductive Side where
  | first
  | second
deriving DecidableEq, Repr

/-- Gives one operand of a binary operation a new value. -/
def Operation.setSide (side : Side) (value : Option InstrId) : Operation → Operation
  | .binary op lhs rhs =>
    match side with
    | .first => .binary op { lhs with value } rhs
    | .second => .binary op lhs { rhs with value }
  | op => op

namespace Body

/-! ## Phis -/

/-- Puts a phi of `x` into `b` and binds `x` to it there. -/
def insertPhi (s : Body) (b : BlockId) (x : Var) (first second : Option InstrId) :
    Except Fault (InstrId × Body) := do
  let (i, s) ← s.place b (.phi x first second)
  let complete := first.isSome && second.isSome
  return (i, { s with
    graph := s.graph.bindIn b x (some i)
    incomplete := if complete then s.incomplete else s.incomplete.insert i x })

/-- Gives one side of the phi `i` of `x` a new value. -/
def setPhiSide (s : Body) (i : InstrId) (x : Var) (side : Side) (value : Option InstrId) : Body :=
  let g := s.graph.modifyInstr i (·.mapOp (·.setSide side value))
  let complete := (g.instr? i).any (·.op.isComplete)
  { s with graph := g, incomplete := s.incomplete.update i (if complete then none else some x) }

/-- Strikes `i` from the incomplete phis once all its operands have values. -/
def noteCompletion (s : Body) (i : InstrId) : Body :=
  if (s.graph.instr? i).any (·.op.isComplete) then
    { s with incomplete := s.incomplete.erase i }
  else
    s

/-! ## Merging -/

/-- Merges a value that arrives at `join` from one side of its if. -/
def mergeIntoJoin (s : Body) (join : BlockId) (x : Var) (value : Option InstrId) (side : Side) :
    Except Fault Body := do
  match ← s.graph.ownPhi? join x with
  | some phi => return s.setPhiSide phi x side value
  | none =>
    let blk ← s.graph.block join
    let origin ← expect blk.origin .joinWithoutOrigin
    let before ← s.graph.resolve origin x
    let (_, s) ← match side with
      | .first => s.insertPhi join x value before
      | .second => s.insertPhi join x before value
    return s

/-- Redirects to `phi` what instruction `i` reads of `before` through `x`. -/
def redirectRead (x : Var) (before : Option InstrId) (phi : InstrId) (s : Body) (i : InstrId) :
    Except Fault Body :=
  if (s.graph.instr? i).any (·.op.reads x before) then do
    let s := { s with graph := s.graph.modifyInstr i (·.mapOp (·.redirect x before phi)) }
    return (← s.revive i).noteCompletion i
  else
    return s

/-- Redirects to `phi`, the new phi of `x` in `head`, the reads of `before` through `x` in the
loop.  Whatever was added between the exit test and the phi is in the loop. -/
def redirectReads (s : Body) (head : BlockId) (x : Var) (before : Option InstrId) (phi : InstrId) :
    Except Fault Body := do
  let blk ← s.graph.block head
  let start ← expect (s.graph.firstNonPhi? blk) .noExitTest
  (List.range' start (phi - start)).foldlM (redirectRead x before phi) s

/-- Merges a value that arrives at `head` from the end of its loop body. -/
def mergeIntoLoop (s : Body) (head : BlockId) (x : Var) (value : Option InstrId) :
    Except Fault Body := do
  match ← s.graph.ownPhi? head x with
  | some phi => return s.setPhiSide phi x .second value
  | none =>
    let before ← s.graph.resolve head x
    let (phi, s) ← s.insertPhi head x before value
    s.redirectReads head x before phi

/-- Makes `value` what `x` means behind the construct that `region` is in. -/
def merge (s : Body) (region : Region) (x : Var) (value : Option InstrId) : Except Fault Body :=
  match region with
  | .thenSide join => s.mergeIntoJoin join x value .first
  | .elseSide join => s.mergeIntoJoin join x value .second
  | .loopBody head => s.mergeIntoLoop head x value
  | .outermost => .ok s

/-- Assigns `value` to `x`. -/
def assign (s : Body) (x : Var) (value : Option InstrId) : Except Fault Body := do
  s.requireOpen
  let _ ← s.graph.block s.current
  let s := { s with graph := s.graph.bindIn s.current x value }
  let blk ← s.graph.block s.current
  s.merge (s.graph.region blk) x value

end Body
end StructuredSSA
