import StructuredSSA.Graph.Basic

/-!
# Regions

No stack of open constructs is kept: the edges out of a block tell which construct it is in.  The
block at the end of an if side falls through into the join, and the block at the end of a loop
body branches back to the header.
-/

set_option autoImplicit false

namespace StructuredSSA
namespace Graph

/-- The loop header that a block branches back to. -/
def backEdge? (g : Graph) (blk : Block) : Option BlockId :=
  blk.branchTo.filter (g.hasRole · .loopHead)

/-- The join that a block falls through into. -/
def joinAhead? (g : Graph) (blk : Block) : Option BlockId :=
  blk.fallTo.filter (g.hasRole · .join)

/-- The then side of an if is being built while the if block itself branches to the join. -/
def branchedFromIf (g : Graph) (join : BlockId) : Bool :=
  ((g.block? join).bind (·.branchFrom)).any (g.hasRole · .ifHead)

/-- The side of the innermost construct that ends in this block. -/
def region (g : Graph) (blk : Block) : Region :=
  match g.joinAhead? blk with
  | some join => if g.branchedFromIf join then .thenSide join else .elseSide join
  | none =>
    match g.backEdge? blk with
    | some head => .loopBody head
    | none => .outermost

end Graph
end StructuredSSA
