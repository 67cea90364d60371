import StructuredSSA.Graph.Basic

/-!
# Landings

Control that enters an empty block falls through it.  The *landing* of a block is the first
instruction that is reached in this way.
-/

set_option autoImplicit false

namespace StructuredSSA
namespace Graph

/-- The first instruction of `blk` or of the blocks it falls through to, among at most `fuel`. -/
def landingWithin (g : Graph) : Nat → Block → Option InstrId
  | 0, _ => none
  | fuel + 1, blk =>
    match blk.first? with
    | some i => some i
    | none =>
      match blk.fallTo.bind g.block? with
      | some next => g.landingWithin fuel next
      | none => none

/-- The first instruction that control reaches on entering `blk`; none if every block on the way
is empty. -/
def landing? (g : Graph) (blk : Block) : Option InstrId :=
  g.landingWithin (g.blocks.size + 1) blk

end Graph
end StructuredSSA
