import StructuredSSA.Graph.Link
import StructuredSSA.Graph.Region

/-!
# The blocks of conditionals and loops

Opening a construct at a block adds the blocks that the construct needs and links them, so that
the block which ends the construct takes over what the opening block used to continue into: the
back edge of the loop whose body it ends, or its fallthrough.

## What is here

* `Graph.openIf` — adds a join and a then side; without an else side the if block itself branches
  to the join.
* `Graph.openElse` — adds an else side: the end of the then side now branches to the join, and
  the end of the else side falls through into it.
* `Graph.openLoop` — adds a body and an exit, and a header unless the block can be the header.
-/

set_option autoImplicit false

namespace StructuredSSA
namespace Graph

/-- Lets `b` continue as a block did that branched back to `loop`, or else fell through to
`fall`. -/
def continueTo (g : Graph) (b : BlockId) (loop fall : Option BlockId) : Graph :=
  match loop with
  | some head => g.link .branch b head
  | none => g.linkTo .fall b fall

/-- Opens an if at `parent`. -/
def openIf (g : Graph) (parent : BlockId) : Except Fault Graph := do
  let (join, g) ← g.addBlockUnder parent .join
  let g := g.setOrigin join parent
  let blk ← g.block parent
  let g := (g.continueTo join (g.backEdge? blk) blk.fallTo).link .branch parent join
  let (side, g) ← g.addBlockUnder parent .thenSide
  let g := (g.link .fall side join).link .fall parent side
  return g.modifyBlock parent (·.addRole .ifHead)

/-- Opens the else side of the if at `parent` and returns its block. -/
def openElse (g : Graph) (parent : BlockId) : Except Fault (BlockId × Graph) := do
  let blk ← g.block parent
  require (blk.hasRole .ifHead) (.noIf parent)
  let join ← expect blk.branchTo .ifWithoutBranch
  let thenTail ← expect ((g.block? join).bind (·.fallFrom)) .joinWithoutThen
  let g := (g.unlinkNext .fall thenTail).link .branch thenTail join
  let (side, g) ← g.addBlockUnder parent .elseSide
  return (side, (g.link .branch parent side).link .fall side join)

/-- The header of a loop that is opened at `b`: the block itself if it is empty and nothing
branches to it, or else a new block that it falls through to. -/
def openHead (g : Graph) (b : BlockId) : Except Fault (BlockId × Graph) := do
  let blk ← g.block b
  if blk.isEmpty && blk.branchFrom.isNone then
    return (b, g.modifyBlock b (·.addRole .loopHead))
  else
    let (head, g) ← g.addBlockUnder b .loopHead
    return (head, g.link .fall b head)

/-- Opens a loop at `b` and returns its header. -/
def openLoop (g : Graph) (b : BlockId) : Except Fault (BlockId × Graph) := do
  let before ← g.block b
  let outer := g.backEdge? before
  let g := if outer.isSome then g.unlinkNext .branch b else g
  let (head, g) ← g.openHead b
  let (body, g) ← g.addBlockUnder head .loopBody
  let g := (g.link .fall head body).link .branch body head
  let (exit, g) ← g.addBlockUnder head .loopExit
  let g := (g.setOrigin exit head).link .branch head exit
  return (head, g.continueTo exit outer before.fallTo)

end Graph
end StructuredSSA
