import StructuredSSA.Graph.Basic

/-!
# Linking blocks

An edge is recorded at both of its ends.  A block has at most one edge of each kind out of it and
one into it, so linking two blocks first takes away the edges that would be in the way, at both
of their ends.

## What is here

* `Graph.link` — adds an edge and takes away the ones it replaces.
* `Graph.unlinkNext`, `Graph.unlinkPrev` — take away the edge out of a block, or into it.
* `Graph.setOrigin` — records which block opened a construct.
-/

set_option autoImplicit false

namespace StructuredSSA
namespace Graph

/-- Takes away the edge of kind `e` out of `src`. -/
def unlinkNext (g : Graph) (e : Edge) (src : BlockId) : Graph :=
  match (g.block? src).bind (·.next e) with
  | none => g
  | some dst => (g.modifyBlock src (·.setNext e none)).modifyBlock dst (·.setPrev e none)

/-- Takes away the edge of kind `e` into `dst`. -/
def unlinkPrev (g : Graph) (e : Edge) (dst : BlockId) : Graph :=
  match (g.block? dst).bind (·.prev e) with
  | none => g
  | some src => (g.modifyBlock dst (·.setPrev e none)).modifyBlock src (·.setNext e none)

/-- Adds an edge of kind `e` from `src` to `dst`, in place of the edges of that kind out of `src`
and into `dst`. -/
def link (g : Graph) (e : Edge) (src dst : BlockId) : Graph :=
  (((g.unlinkNext e src).unlinkPrev e dst).modifyBlock src
    (·.setNext e (some dst))).modifyBlock dst (·.setPrev e (some src))

/-- Links `src` to `dst` if there is one. -/
def linkTo (g : Graph) (e : Edge) (src : BlockId) (dst : Option BlockId) : Graph :=
  match dst with
  | some dst => g.link e src dst
  | none => g

/-- Records that the construct which `b` closes was opened at `origin`. -/
def setOrigin (g : Graph) (b origin : BlockId) : Graph :=
  g.modifyBlock b fun blk => { blk with origin := some origin }

end Graph
end StructuredSSA
