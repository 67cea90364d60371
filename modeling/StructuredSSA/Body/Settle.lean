import StructuredSSA.Body.Basic
import StructuredSSA.Graph.Landing

/-!
# Settling a body

When a body is complete, its loose ends are tied up: every use of a retired instruction becomes a
use of the instruction that is computed in its stead, retired instructions are dropped from their
blocks, and every branch is pointed at the instruction where control arrives.

## What is here

* `Graph.root?` — the live instruction at the end of a chain of stand-ins.
* `Graph.withRoots`, `Graph.withLandings` — the two passes.
* `Body.settle`, `Body.settleWith` — settle a body as it is, or after a last instruction.
-/

set_option autoImplicit false

namespace StructuredSSA

namespace Graph

/-! ## Stand-ins -/

/-- Follows stand-ins from `i`, at most `fuel` times, to an instruction that has none. -/
def rootWithin (g : Graph) : Nat → InstrId → Option InstrId
  | fuel, i =>
    match (g.instr? i).bind (·.standIn) with
    | none => some i
    | some e =>
      match fuel with
      | 0 => none
      | fuel + 1 => g.rootWithin fuel e

/-- The live instruction that is computed in the stead of `i`; none if the stand-ins form a
cycle. -/
def root? (g : Graph) (i : InstrId) : Option InstrId := g.rootWithin g.instrs.size i

/-- The live instruction in the stead of `i`, which is `i` itself unless it is retired. -/
def liveOf (g : Graph) (i : InstrId) : InstrId := (g.root? i).getD i

/-- Instruction `i` exists and is retired. -/
def isRetired (g : Graph) (i : InstrId) : Bool := (g.instr? i).any (·.isRetired)

/-- Stops if the stand-ins of an instruction form a cycle. -/
def requireRoot (g : Graph) (ins : Instr) : Except Fault Unit :=
  require (g.root? ins.id).isSome (.standInCycle ins.id)

/-- The graph with live instructions in place of retired ones: in operands, in bindings, and in
the sequences, where the retired ones are simply left out. -/
def withRoots (g : Graph) : Graph :=
  (g.mapInstrs (·.mapOp (·.mapValues g.liveOf))).mapBlocks fun blk =>
    { blk with
      symbols := blk.symbols.mapValues (·.map g.liveOf)
      instrs := blk.instrs.filter fun i => !g.isRetired i }

/-! ## Landings -/

/-- The block that a branch target names. -/
def targetBlock (g : Graph) : Target → Except Fault BlockId
  | .instr i => do
    let ins ← g.instr i
    return ins.block
  | .startOf b => .ok b

/-- The instruction that control reaches on entering `b`. -/
def landing (g : Graph) (b : BlockId) : Except Fault InstrId := do
  let blk ← g.block b
  expect (g.landing? blk) (.noLanding b)

/-- A branch pointed at the landing of the block its target names; other instructions stay. -/
def aimed (g : Graph) (ins : Instr) : Except Fault Instr :=
  match ins.op with
  | .branch cond target => do
    let target ← expect target (.unaimedBranch ins.id)
    let b ← g.targetBlock target
    let i ← g.landing b
    return { ins with op := .branch cond (some (.instr i)) }
  | _ => .ok ins

/-- The graph with every branch pointed at its landing, and no block waited for. -/
def withLandings (g : Graph) : Except Fault Graph := do
  let instrs ← g.instrs.toList.mapM g.aimed
  return { g with instrs := instrs.toArray }.mapBlocks fun blk => { blk with awaited := false }

end Graph

namespace Body

/-- Ties up the loose ends of a complete body. -/
def settle (s : Body) : Except Fault Body := do
  s.requireOpen
  s.graph.instrs.toList.forM s.graph.requireRoot
  let g ← s.graph.withRoots.withLandings
  return { s with graph := g, isSettled := true }

/-- Ends a body with a last instruction and settles it. -/
def settleWith (s : Body) (last : Operation) : Except Fault Body := do
  s.requireOpen
  let (_, s) ← s.place s.current last
  s.settle

end Body

end StructuredSSA
