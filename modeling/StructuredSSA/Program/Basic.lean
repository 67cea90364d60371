import StructuredSSA.Body.Construct
import StructuredSSA.Body.Settle

/-!
# Programs

A program is a main body and the functions it defines, each with a body of its own.  Function
definitions do not nest: at most one is open, and while it is, construction works on its body.

## What is here

* `Body.bindParam`, `Body.complete` — the beginning and the end of a function's body.
* `Definition`, `Program` — functions, and the program with at most one of them open.
* `Program.body` — the body that construction works on.
* `Program.openFunction`, `Program.nameFunction`, `Program.addParam`, `Program.bindParams`,
  `Program.closeFunction` — building a function.
* `Program.finish` — completes the main body.
-/

set_option autoImplicit false

namespace StructuredSSA

namespace Body

/-- Assigns to `x` the argument that arrives in register `slot`. -/
def bindParam (s : Body) (x : Var) (slot : Nat) : Except Fault Body := do
  let s ← s.declare x
  let (i, s) ← s.argument slot
  s.assign x (some i)

/-- The last instruction of the current block is a return. -/
def endsInReturn (s : Body) : Except Fault Bool := do
  let blk ← s.graph.block s.current
  return (blk.instrs.getLast?.bind s.graph.instr?).any (·.op.isReturn)

/-- Settles the body of a function, which ends with a return whether its source says so or
not. -/
def complete (s : Body) : Except Fault Body := do
  if ← s.endsInReturn then s.settle else s.settleWith (.unary .ret {})

end Body

/-- A function, complete or under construction. -/
structure Definition where
  ident : Option Var := none
  /-- Calls of the function have no value. -/
  isVoid : Bool
  params : List Var := []
  body : Body
deriving DecidableEq

/-- A main body with its functions.  The functions are numbered in the order in which they were
opened, so the open one comes last. -/
structure Program where
  main : Body
  /-- The functions that are complete. -/
  closed : List Definition := []
  /-- The function that is being defined. -/
  opened : Option Definition := none
  options : Options := {}
deriving DecidableEq

namespace Program

/-- The program in which nothing has been built yet. -/
def start (options : Options) : Program := { main := .start options, options }

/-! ## Reading -/

/-- The functions, in the order in which they were opened. -/
def functions (p : Program) : List Definition := p.closed ++ p.opened.toList

/-- The first function that is named `f`. -/
def function? (p : Program) (f : Var) : Option Definition :=
  p.functions.find? fun d => d.ident == some f

/-- Calls of `f` have no value.  An unknown function is not void, so that the call itself reports
it. -/
def isVoid (p : Program) (f : Var) : Bool := (p.function? f).any (·.isVoid)

/-- A function is being defined. -/
def inFunction (p : Program) : Bool := p.opened.isSome

/-- The body that construction works on: that of the open function, or else the main one. -/
def body (p : Program) : Body :=
  match p.opened with
  | some d => d.body
  | none => p.main

/-- Replaces the body that construction works on. -/
def setBody (p : Program) (s : Body) : Program :=
  match p.opened with
  | some d => { p with opened := some { d with body := s } }
  | none => { p with main := s }

/-- The function that is being defined. -/
def definition (p : Program) : Except Fault Definition := expect p.opened .noDefinition

/-! ## Functions -/

/-- Opens a function without a name and without parameters. -/
def openFunction (p : Program) (isVoid : Bool) : Except Fault Program := do
  require (!p.inFunction) .nestedDefinition
  return { p with opened := some { isVoid, body := .start p.options } }

/-- Names the open function. -/
def nameFunction (p : Program) (f : Var) : Except Fault Program := do
  let d ← p.definition
  return { p with opened := some { d with ident := some f } }

/-- Gives the open function one more parameter. -/
def addParam (p : Program) (x : Var) : Except Fault Program := do
  let d ← p.definition
  return { p with opened := some { d with params := d.params ++ [x] } }

/-- Assigns to the parameters in turn the arguments that arrive in registers `1`, `2`, … -/
def bindParams (p : Program) : Except Fault Program := do
  let d ← p.definition
  let s ← (d.params.zipIdx 1).foldlM (fun s (x, slot) => s.bindParam x slot) d.body
  return { p with opened := some { d with body := s } }

/-- Completes the open function. -/
def closeFunction (p : Program) : Except Fault Program := do
  let d ← expect p.opened .nothingToClose
  let s ← d.body.complete
  return { p with closed := p.closed ++ [{ d with body := s }], opened := none }

/-! ## The end -/

/-- The variables that may be read before they have been assigned, in any body. -/
def unassigned (p : Program) : List Var :=
  (Table.ofKeys ((p.functions.map Definition.body ++ [p.main]).flatMap Body.unassigned)).keys

/-- Completes the main body and reports the variables that may be read before they have been
assigned. -/
def finish (p : Program) : Except Fault (List Var × Program) := do
  require (!p.inFunction) .definitionOpen
  let main ← p.main.settleWith .halt
  let p := { p with main }
  return (p.unassigned, p)

end Program

end StructuredSSA
