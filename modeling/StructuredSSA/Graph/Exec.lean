import StructuredSSA.Arithmetic
import StructuredSSA.Graph.Basic

/-!
# Executing a graph

Control enters a block along an edge.  The phis of the block take their values all at once, each
from the side that the edge belongs to; the other instructions follow in order.  Control then
leaves along the branch edge if a branch was taken, and along the fallthrough edge otherwise.

## What is here

* `Machine` — the values computed so far, with the input and the output.
* `Graph.arrivesFirst` — the side of a phi that an edge into a block belongs to.
* `Graph.execBlock` — executes one block, `Graph.run` a whole graph.
* `Graph.Writes` — what a graph writes when its execution ends.
-/

set_option autoImplicit false

namespace StructuredSSA

/-- The state of an execution. -/
structure Machine where
  /-- The latest result of each instruction. -/
  values : InstrId → Option Int64 := fun _ => none
  /-- The numbers of the latest comparison. -/
  compared : Option (Int64 × Int64) := none
  /-- How many numbers of the input have been read. -/
  taken : Nat := 0
  /-- What has been written, the latest number first. -/
  written : List Int64 := []

/-- How control goes on after an instruction. -/
inductive Flow where
  /-- To the next instruction, and at the end of the block along the fallthrough edge. -/
  | onward
  /-- Along the branch edge. -/
  | branch
  /-- Nowhere: the program has ended. -/
  | stop
deriving DecidableEq, Repr

namespace Machine

/-- Records the result of instruction `i`. -/
def set (m : Machine) (i : InstrId) (v : Int64) : Machine :=
  { m with values := fun j => if j = i then some v else m.values j }

/-- The value of an operand; reading a missing value has no meaning. -/
def read (m : Machine) (o : Operand) : Option Int64 := o.value.bind m.values

/-- Executes an instruction that is no phi.  Loads, calls, arguments and returns have no meaning in
a main body on its own. -/
def step (input : Nat → Int64) (m : Machine) (ins : Instr) : Option (Machine × Flow) :=
  match ins.op with
  | .const v => some (m.set ins.id v, .onward)
  | .unary .neg a => do
    let v ← m.read a
    return (m.set ins.id (-v), .onward)
  | .unary .write a => do
    let v ← m.read a
    return ({ m with written := v :: m.written }, .onward)
  | .binary (.arith op) l r => do
    let a ← m.read l
    let b ← m.read r
    return (m.set ins.id (op.eval a b), .onward)
  | .binary .cmp l r => do
    let a ← m.read l
    let b ← m.read r
    return ({ m with compared := some (a, b) }, .onward)
  | .branch .always _ => some (m, .branch)
  | .branch (.whenever r) _ => do
    let (a, b) ← m.compared
    return (m, if r.holds a b then .branch else .onward)
  | .move src _ => do
    let v ← m.read src
    return (m.set ins.id v, .onward)
  | .read => some ({ m.set ins.id (input m.taken) with taken := m.taken + 1 }, .onward)
  | .newline => some (m, .onward)
  | .halt => some (m, .stop)
  | _ => none

/-- Executes instructions in order, until one of them leaves the block. -/
def steps (input : Nat → Int64) : Machine → List Instr → Option (Machine × Flow)
  | m, [] => some (m, .onward)
  | m, ins :: rest => do
    let (m, flow) ← m.step input ins
    match flow with
    | .onward => steps input m rest
    | flow => return (m, flow)

/-- Gives all the phis the values they select in `m`: the first operand's if `first`, or else the
second's. -/
def selectPhis (m : Machine) (first : Bool) : List Instr → Option Machine
  | [] => some m
  | ins :: rest => do
    let later ← m.selectPhis first rest
    match ins.op with
    | .binary .phi l r =>
      let v ← m.read (if first then l else r)
      return later.set ins.id v
    | _ => none

end Machine

namespace Graph

/-- The edge of kind `e` into `blk` belongs to the first side of the phis of `blk`.  At a loop
header it is the edge from outside, and at a join the edge from the then side: the branch edge if
there is an else side, and the fallthrough edge if the if block itself branches here. -/
def arrivesFirst (blk : Block) (e : Edge) : Bool :=
  if blk.hasRole .loopHead then
    e = .fall
  else if blk.branchFrom = blk.origin then
    e = .fall
  else
    e = .branch

/-- Executes one block that control has entered along an edge of kind `e`. -/
def execBlock (g : Graph) (input : Nat → Int64) (m : Machine) (blk : Block) (e : Edge) :
    Option (Machine × Flow) := do
  let listed := blk.instrs.filterMap g.instr?
  let m ← m.selectPhis (arrivesFirst blk e) (listed.filter (·.op.isPhi))
  m.steps input (listed.filter fun ins => !ins.op.isPhi)

/-- Executes a graph from block `b`, entered along an edge of kind `e`, through at most `fuel`
blocks. -/
def run (g : Graph) (input : Nat → Int64) : Nat → Machine → BlockId → Edge → Option Machine
  | 0, _, _, _ => none
  | fuel + 1, m, b, e => do
    let blk ← g.block? b
    let (m, flow) ← g.execBlock input m blk e
    match flow with
    | .stop => return m
    | .onward => g.run input fuel m (← blk.next .fall) .fall
    | .branch => g.run input fuel m (← blk.next .branch) .branch

/-- On this input the execution from block `b` ends and writes `out`. -/
def Writes (g : Graph) (b : BlockId) (input : Nat → Int64) (out : List Int64) : Prop :=
  ∃ fuel m, g.run input fuel {} b .fall = some m ∧ m.written.reverse = out

end Graph

end StructuredSSA
