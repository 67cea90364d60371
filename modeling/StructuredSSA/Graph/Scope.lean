import StructuredSSA.Graph.Basic

/-!
# Scopes

A variable that a block does not bind means what it means in the block's scope parent: the block
that branches here for an else side and a loop exit, the block that falls through to here for any
other.  These parents dominate the block, so the nearest binding among them is the one in force.

## What is here

* `Graph.resolve` — the value of a variable as a block sees it.
* `Graph.bindsPhi`, `Graph.ownPhi?` — whether a block binds a variable to a phi, and to a phi of
  its own.
* `Graph.inheritScope` — copies the bindings in force into a block that closes a construct.
-/

set_option autoImplicit false

namespace StructuredSSA
namespace Graph

/-- Looks `x` up in `b` and then in its scope parents, in at most `fuel` blocks. -/
def resolveWithin (g : Graph) (x : Var) : Nat → BlockId → Except Fault (Option InstrId)
  | 0, _ => .error (.scopeCycle x)
  | fuel + 1, b => do
    let blk ← g.block b
    match blk.symbols.get? x with
    | some value => .ok value
    | none =>
      match blk.scopeParent with
      | some parent => g.resolveWithin x fuel parent
      | none => .ok none

/-- The value of `x` as `b` sees it: what the nearest scope binds it to, and none if no scope
does.  A chain that visits more blocks than there are runs in a cycle. -/
def resolve (g : Graph) (b : BlockId) (x : Var) : Except Fault (Option InstrId) :=
  g.resolveWithin x (g.blocks.size + 1) b

/-- The block itself binds `x` to a phi, be it its own or another block's. -/
def bindsPhi (g : Graph) (blk : Block) (x : Var) : Except Fault Bool :=
  match blk.symbols.get? x with
  | some (some i) => do
    let ins ← g.instr i
    return ins.op.isPhi
  | _ => .ok false

/-- The phi in `b` that `b` binds `x` to. -/
def ownPhi? (g : Graph) (b : BlockId) (x : Var) : Except Fault (Option InstrId) := do
  let blk ← g.block b
  match blk.symbols.get? x with
  | some (some i) => do
    let ins ← g.instr i
    return if ins.op.isPhi && ins.block == b then some i else none
  | _ => return none

/-- Binds `x` to `value` in `b`. -/
def bindIn (g : Graph) (b : BlockId) (x : Var) (value : Option InstrId) : Graph :=
  g.modifyBlock b (·.bind x value)

/-- Copies into `b` the bindings of `src` that `b` lacks. -/
def copyBindings (g : Graph) (b src : BlockId) : Graph :=
  match g.block? src with
  | some other => g.modifyBlock b fun blk =>
      { blk with symbols := blk.symbols.addMissing other.symbols }
  | none => g

/-- Copies into `b`, which closes a construct opened at `origin`, the bindings it lacks: those of
`origin`, and for a loop those of the block before it. -/
def inheritScope (g : Graph) (b origin : BlockId) : Graph :=
  let before := if g.hasRole origin .loopHead then (g.block? origin).bind (·.fallFrom) else none
  let g := g.copyBindings b origin
  match before with
  | some p => g.copyBindings b p
  | none => g

end Graph
end StructuredSSA
