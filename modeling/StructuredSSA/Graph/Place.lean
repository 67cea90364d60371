import StructuredSSA.Graph.Basic

/-!
# Placing instructions

A new instruction goes to the end of its block.  A phi of a loop header goes behind the header's
earlier phis instead, and so ahead of the exit test.  A branch into a block that is still empty
waits for the block's first instruction and is pointed at it when it comes.

## What is here

* `Graph.place` — adds an instruction to a block.
* `Graph.targetOf` — what a branch into a block is to be pointed at.
* `Graph.lastBranch?` — the branch that ends a block.
-/

set_option autoImplicit false

namespace StructuredSSA

/-- Points a branch that waits for the start of `b` at `i`. -/
def Operation.arrive (b : BlockId) (i : InstrId) : Operation → Operation
  | .branch cond target =>
    .branch cond (if target = some (.startOf b) then some (.instr i) else target)
  | op => op

/-- The block with `i` listed, as `instrs` says where: nothing waits for the block any longer,
and arithmetic becomes available in it. -/
def Block.receive (instrs : List InstrId) (i : InstrId) (op : Operation) (blk : Block) : Block :=
  { blk with
    instrs
    awaited := false
    available :=
      match op.arith? with
      | some a => blk.available.push a i
      | none => blk.available }

namespace Graph

/-- The instructions of `blk` with `i`, an `op`, put in its place among them. -/
def sequenceWith (g : Graph) (blk : Block) (i : InstrId) (op : Operation) : List InstrId :=
  if op.isPhi && blk.hasRole .loopHead then
    blk.instrs.takeWhile g.isPhi ++ i :: blk.instrs.dropWhile g.isPhi
  else
    blk.instrs ++ [i]

/-- Points at `i` the branches that wait for the start of `b` in the block that branches to it. -/
def arrive (g : Graph) (b : BlockId) (blk : Block) (i : InstrId) : Graph :=
  match blk.branchFrom.bind g.block? with
  | some src => g.mapInstrs fun ins =>
      if ins.id ∈ src.instrs then ins.mapOp (·.arrive b i) else ins
  | none => g

/-- Adds an instruction to `b` and returns its number. -/
def place (g : Graph) (b : BlockId) (op : Operation) : Except Fault (InstrId × Graph) := do
  let blk ← g.block b
  let i := g.nextId
  let grown := g.addInstr b op
  let pointed := if blk.awaited then grown.arrive b blk i else grown
  return (i, pointed.modifyBlock b (·.receive (g.sequenceWith blk i op) i op))

/-- What a branch into `b` is to be pointed at.  If the block is still empty, it is marked as
waited for. -/
def targetOf (g : Graph) (b : BlockId) : Except Fault (Target × Graph) := do
  let blk ← g.block b
  match blk.first? with
  | some i => return (.instr i, g)
  | none => return (.startOf b, g.modifyBlock b fun blk => { blk with awaited := true })

/-- The last branch that a block lists. -/
def lastBranch? (g : Graph) (blk : Block) : Option InstrId :=
  blk.instrs.reverse.find? g.isBranch

end Graph
end StructuredSSA
