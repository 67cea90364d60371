import StructuredSSA.Operation

/-!
# Instructions

An instruction is an operation with a number and a home block.  It may be *retired*: another
instruction then stands in for it, because it computes the same value earlier.  A retired
instruction keeps its number and its operation, so that it can be revived when the value it was
matched with changes.
-/

set_option autoImplicit false

namespace StructuredSSA

/-- A numbered operation in its block. -/
structure Instr where
  id : InstrId
  /-- The block the instruction was placed in. -/
  block : BlockId
  op : Operation
  /-- The instruction that stands in for this one, if it is retired. -/
  standIn : Option InstrId := none
deriving DecidableEq, Repr

namespace Instr

/-- A retired instruction is computed by its stand-in. -/
def isRetired (ins : Instr) : Bool := ins.standIn.isSome

/-- Changes the operation only. -/
def mapOp (f : Operation → Operation) (ins : Instr) : Instr := { ins with op := f ins.op }

/-- Sets or clears the stand-in. -/
def setStandIn (e : Option InstrId) (ins : Instr) : Instr := { ins with standIn := e }

end Instr

end StructuredSSA
