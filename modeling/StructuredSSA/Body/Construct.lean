import StructuredSSA.Body.Merge
import StructuredSSA.Graph.Construct

/-!
# Conditionals and loops

The operations that open, end and close constructs.  An if is opened at the block that will hold
its test, a loop at its header; the test and its branch are added next, then the sides or the
body.  Branches are aimed when what they lead to has been built, and closing a construct carries
its phis out into the construct around it.

## What is here

* `Body.openIf`, `Body.openElse`, `Body.openLoop` — add the blocks of a construct.
* `Body.joinAhead` — the join that the current block runs into.
* `Body.aimBranch`, `Body.emitJump` — aim the branch of a test, and add a jump.
* `Body.closeIf`, `Body.closeLoop` — carry the phis of a construct outward.
-/

set_option autoImplicit false

namespace StructuredSSA
namespace Body

/-! ## Opening -/

/-- Opens an if at the current block, which becomes its if block, and returns it. -/
def openIf (s : Body) : Except Fault (BlockId × Body) := do
  s.requireOpen
  let g ← s.graph.openIf s.current
  return (s.current, { s with graph := g })

/-- Opens the else side of the if at `parent` and returns its block. -/
def openElse (s : Body) (parent : BlockId) : Except Fault (BlockId × Body) := do
  s.requireOpen
  let (side, g) ← s.graph.openElse parent
  return (side, { s with graph := g })

/-- Opens a loop, moves to its header and returns it. -/
def openLoop (s : Body) : Except Fault (BlockId × Body) := do
  s.requireOpen
  let (head, g) ← s.graph.openLoop s.current
  return (head, { s with graph := g, current := head, loopStarts := g.nextId :: s.loopStarts })

/-- The block that the current one falls through to: the join, at the end of an if side. -/
def joinAhead (s : Body) : Except Fault BlockId := do
  let blk ← s.graph.block s.current
  expect blk.fallTo .noJoinAhead

/-! ## Branches -/

/-- Aims the last branch of `b` along the branch edge of `b`. -/
def aimBranch (s : Body) (b : BlockId) : Except Fault Body := do
  s.requireOpen
  let blk ← s.graph.block b
  let dst ← expect blk.branchTo .noBranchEdge
  let (target, g) ← s.graph.targetOf dst
  let i ← expect (g.lastBranch? blk) (.noBranch b)
  return { s with graph := g.modifyInstr i (·.mapOp (·.aim target)) }

/-- Adds to `b` a jump along its branch edge. -/
def emitJump (s : Body) (b : BlockId) : Except Fault (InstrId × Body) := do
  s.requireOpen
  let blk ← s.graph.block b
  let dst ← expect blk.branchTo (.noJumpEdge b)
  let (target, g) ← s.graph.targetOf dst
  { s with graph := g }.place b (.branch .always (some target))

/-! ## Closing -/

/-- Merges the phi `i` of `b` into the construct that `region` is in. -/
def carryPhi (b : BlockId) (region : Region) (s : Body) (i : InstrId) : Except Fault Body := do
  let blk ← s.graph.block b
  let x ← expect (blk.variableOf? i) .unboundPhi
  s.merge region x (some i)

/-- Carries the phis of `b` out of a construct that was opened at `origin` and is left through
`exit`.  Where no construct is around it, `exit` takes over the bindings in force instead. -/
def carryPhis (s : Body) (b exit origin : BlockId) : Except Fault Body := do
  let last ← s.graph.block exit
  match s.graph.region last with
  | .outermost => return { s with graph := s.graph.inheritScope exit origin }
  | region =>
    let blk ← s.graph.block b
    (s.graph.phis blk).foldlM (carryPhi b region) s

/-- Closes the if that was opened at `parent`; its join must be the current block. -/
def closeIf (s : Body) (parent : BlockId) : Except Fault Body := do
  s.requireOpen
  let blk ← s.graph.block s.current
  require (blk.hasRole .join && blk.origin = some parent) (.notTheJoin s.current parent)
  s.carryPhis s.current s.current parent

/-- Closes the loop with header `head`. -/
def closeLoop (s : Body) (head : BlockId) : Except Fault Body := do
  s.requireOpen
  let blk ← s.graph.block head
  require (blk.hasRole .loopHead) (.notALoop head)
  let exit ← expect blk.branchTo .loopWithoutExit
  { s with loopStarts := s.loopStarts.tail }.carryPhis head exit head

end Body
end StructuredSSA
