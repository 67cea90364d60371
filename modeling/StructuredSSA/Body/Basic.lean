import StructuredSSA.Graph.Link
import StructuredSSA.Graph.Place
import StructuredSSA.Graph.Scope

/-!
# Bodies under construction

The body of a program or of a function is built by operations that arrive in the order of its
source text.  It starts with two blocks: the head, which collects constants and arguments, and
the entry, into which the head falls through and where the first statement goes.

## What is here

* `Options`, `Body` — the settings, and the state of a construction.
* `Body.requireOpen` — nothing is added to a body that has been settled.
* `Body.place` — adds an instruction to a block.
* `Body.declare`, `Body.constant`, `Body.argument`, `Body.moveTo` — the operations that touch no
  more than one block.
* `Body.readVar` — reads a variable where construction stands.
* `Body.unassigned` — the variables that a phi may find without a value.
-/

set_option autoImplicit false

namespace StructuredSSA

/-- Settings of a construction. -/
structure Options where
  /-- Let equal computations share one result. -/
  share : Bool := true
  /-- The register into which the result of a call is moved. -/
  returnRegister : Nat := 30
deriving DecidableEq, Repr

/-- A body under construction. -/
structure Body where
  graph : Graph
  /-- The block that the next instruction goes to. -/
  current : BlockId
  /-- For each instruction that stands in for others, the ones it stands in for. -/
  dependents : Table (List InstrId) := ∅
  /-- The phis that lack a value on some side, with their variables. -/
  incomplete : Table Var := ∅
  /-- For each open loop the number of the first instruction inside it, innermost loop first. -/
  loopStarts : List InstrId := []
  options : Options := {}
  /-- The body is finished: every branch is aimed, and retired instructions are gone. -/
  isSettled : Bool := false
deriving DecidableEq

namespace Body

/-- The block of constants and arguments. -/
def head : BlockId := 0

/-- The block of the first statement. -/
def entry : BlockId := 1

/-- The body in which nothing has been built yet. -/
def start (options : Options) : Body where
  graph := ((({} : Graph).addBlock .plain).addBlock .plain).link .fall head entry
  current := entry
  options := options

/-! ## Reading -/

/-- The value of `x` where construction stands. -/
def valueOf (s : Body) (x : Var) : Except Fault (Option InstrId) :=
  s.graph.resolve s.current x

/-- An operand that reads `x` where construction stands. -/
def readVar (s : Body) (x : Var) : Except Fault Operand := do
  let value ← s.valueOf x
  return .through x value

/-- The variables of incomplete phis, in ascending order: each may be read before it has been
assigned. -/
def unassigned (s : Body) : List Var := (Table.ofKeys s.incomplete.values).keys

/-- Stops if the body has been settled. -/
def requireOpen (s : Body) : Except Fault Unit := require (!s.isSettled) .settled

/-! ## Writing -/

/-- Adds an instruction to `b`. -/
def place (s : Body) (b : BlockId) (op : Operation) : Except Fault (InstrId × Body) := do
  let (i, g) ← s.graph.place b op
  return (i, { s with graph := g })

/-- Moves construction to another block. -/
def moveTo (s : Body) (b : BlockId) : Body := { s with current := b }

/-- Declares `x`, without a value. -/
def declare (s : Body) (x : Var) : Except Fault Body := do
  let _ ← s.graph.block s.current
  return { s with graph := s.graph.bindIn s.current x none }

/-- The constant among the instructions of the head block that has the value `v`. -/
def constant? (s : Body) (v : Int64) : Option InstrId :=
  (s.graph.block? head).bind fun blk =>
    blk.instrs.find? fun i => (s.graph.instr? i).any (·.op = .const v)

/-- The constant `v`, which all of its uses share. -/
def constant (s : Body) (v : Int64) : Except Fault (InstrId × Body) :=
  match s.constant? v with
  | some i => .ok (i, s)
  | none => s.place head (.const v)

/-- The argument that arrives in register `slot`. -/
def argument (s : Body) (slot : Nat) : Except Fault (InstrId × Body) :=
  s.place head (.argument slot)

end Body

end StructuredSSA
