import StructuredSSA.Fault

/-!
# Available results

The arithmetic that can be seen from a block, one list of instructions for each opcode with the
most recent first.  A block that is created under another starts from that block's lists; from
then on each adds to its own.
-/

set_option autoImplicit false

namespace StructuredSSA

/-- The arithmetic instructions seen from a block, most recent first. -/
structure Available where
  add : List InstrId := []
  sub : List InstrId := []
  mul : List InstrId := []
  div : List InstrId := []
deriving DecidableEq, Repr

/-- How an available instruction answers for a new operation. -/
inductive Match where
  /-- The same opcode on the same operands, read through the same variables. -/
  | identical (i : InstrId)
  /-- The same opcode on the same values. -/
  | equivalent (i : InstrId)
deriving DecidableEq, Repr

/-- Only arithmetic is shared. -/
def BinaryOp.shared (op : BinaryOp) : Except Fault ArithOp := expect op.arith? (.notShared op)

namespace Available

/-- The instructions with opcode `op`, most recent first. -/
def candidates (a : Available) : ArithOp → List InstrId
  | .add => a.add
  | .sub => a.sub
  | .mul => a.mul
  | .div => a.div

/-- Makes `i` the most recent instruction with opcode `op`. -/
def push (a : Available) (op : ArithOp) (i : InstrId) : Available :=
  match op with
  | .add => { a with add := i :: a.add }
  | .sub => { a with sub := i :: a.sub }
  | .mul => { a with mul := i :: a.mul }
  | .div => { a with div := i :: a.div }

@[simp] theorem candidates_empty (op : ArithOp) : ({} : Available).candidates op = [] := by
  cases op <;> rfl

theorem candidates_push (a : Available) (op op' : ArithOp) (i : InstrId) :
    (a.push op i).candidates op' =
      if op = op' then i :: a.candidates op' else a.candidates op' := by
  cases op <;> cases op' <;> rfl

end Available

end StructuredSSA
