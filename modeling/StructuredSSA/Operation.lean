import StructuredSSA.Operand

/-!
# Operations

An operation is what an instruction does, apart from its number and its place: the opcode with
its operands.

## What is here

* `Operation` — constants, unary and binary operations, branches, register moves, calls and input
  and output.
* `Operation.operands`, `Operation.mapOperands` — the values an operation reads.
* `Operation.arith?` — the opcode under which an operation's result may be shared.
* `Operation.sameValue` — equality of opcode and operand values, whatever variables were read.
* `Operation.reads`, `Operation.redirect` — what a new loop phi does to earlier reads.
-/

set_option autoImplicit false

namespace StructuredSSA

/-- Opcodes with one operand. -/
inductive UnaryOp where
  | neg
  | load
  | write
  | ret
deriving DecidableEq, Repr

/-- The opcodes whose results may be shared between equal computations. -/
inductive ArithOp where
  | add
  | sub
  | mul
  | div
deriving DecidableEq, Repr

/-- Opcodes with two operands.  A `phi` selects one of its operands by the edge on which control
arrived. -/
inductive BinaryOp where
  | arith (op : ArithOp)
  | cmp
  | phi
deriving DecidableEq, Repr

/-- A relation between two numbers. -/
inductive Relation where
  | eq
  | ne
  | le
  | lt
  | ge
  | gt
deriving DecidableEq, Repr

/-- When a branch is taken: always, or when the numbers of the latest comparison are so
related. -/
inductive Cond where
  | always
  | whenever (r : Relation)
deriving DecidableEq, Repr

/-- Where a branch goes.  `startOf b` stands for the first instruction of a block that is still
empty. -/
inductive Target where
  | instr (i : InstrId)
  | startOf (b : BlockId)
deriving DecidableEq, Repr

/-- What an instruction does. -/
inductive Operation where
  /-- A constant. -/
  | const (value : Int64)
  /-- An operation on one operand. -/
  | unary (op : UnaryOp) (arg : Operand)
  /-- A branch, without a target until it is aimed. -/
  | branch (cond : Cond) (target : Option Target)
  /-- An operation on two operands. -/
  | binary (op : BinaryOp) (lhs rhs : Operand)
  /-- A copy of a value into a register. -/
  | move (src : Operand) (register : Nat)
  /-- The next number of the input. -/
  | read
  /-- A line break in the output. -/
  | newline
  /-- A call; the arguments are the moves that put them into their registers. -/
  | call (callee : Var) (name : String) (args : List InstrId)
  /-- The argument that arrives in a register. -/
  | argument (slot : Nat)
  /-- The end of the main body. -/
  | halt
deriving DecidableEq, Repr

/-- The opcode's arithmetic, if it is arithmetic. -/
def BinaryOp.arith? : BinaryOp → Option ArithOp
  | .arith op => some op
  | .cmp | .phi => none

namespace Operation

/-- The phi of `x` that selects between two values of it. -/
def phi (x : Var) (first second : Option InstrId) : Operation :=
  .binary .phi (.through x first) (.through x second)

/-- Selects an operand by the edge on which control arrived. -/
def isPhi : Operation → Bool
  | .binary .phi _ _ => true
  | _ => false

/-- Transfers control. -/
def isBranch : Operation → Bool
  | .branch _ _ => true
  | _ => false

/-- Ends a function. -/
def isReturn : Operation → Bool
  | .unary .ret _ => true
  | _ => false

/-- The opcode under which the result may be shared: arithmetic only. -/
def arith? : Operation → Option ArithOp
  | .binary op _ _ => op.arith?
  | _ => none

/-- The operands, from left to right. -/
def operands : Operation → List Operand
  | .binary _ lhs rhs => [lhs, rhs]
  | .unary _ arg => [arg]
  | .move src _ => [src]
  | _ => []

/-- Applies `f` to every operand. -/
def mapOperands (f : Operand → Operand) : Operation → Operation
  | .binary op lhs rhs => .binary op (f lhs) (f rhs)
  | .unary op arg => .unary op (f arg)
  | .move src register => .move (f src) register
  | op => op

/-- Same opcode and same operand values, whatever variables they were read through.  Only binary
operations are compared. -/
def sameValue : Operation → Operation → Bool
  | .binary op lhs rhs, .binary op' lhs' rhs' =>
    op = op' && lhs.value = lhs'.value && rhs.value = rhs'.value
  | _, _ => false

/-- Every operand has a value. -/
def isComplete (op : Operation) : Bool :=
  op.operands.all (·.value.isSome)

/-- Some operand reads `value` through `x`. -/
def reads (x : Var) (value : Option InstrId) (op : Operation) : Bool :=
  op.operands.contains (.through x value)

/-- Every read of `old` through `x` becomes a read of `new` through `x`. -/
def redirect (x : Var) (old : Option InstrId) (new : InstrId) (op : Operation) : Operation :=
  op.mapOperands (·.redirect x old new)

/-- Applies `f` to every value that is read. -/
def mapValues (f : InstrId → InstrId) (op : Operation) : Operation :=
  op.mapOperands (·.mapValue f)

/-- Gives a branch its target; other operations have none to give. -/
def aim (t : Target) : Operation → Operation
  | .branch cond _ => .branch cond (some t)
  | op => op

/-! ## What stays when operands or targets change -/

theorem operands_mapOperands (f : Operand → Operand) (op : Operation) :
    (op.mapOperands f).operands = op.operands.map f := by
  cases op <;> rfl

@[simp] theorem isPhi_mapOperands (f : Operand → Operand) (op : Operation) :
    (op.mapOperands f).isPhi = op.isPhi := by
  cases op with
  | binary op lhs rhs => cases op <;> rfl
  | _ => rfl

@[simp] theorem isBranch_mapOperands (f : Operand → Operand) (op : Operation) :
    (op.mapOperands f).isBranch = op.isBranch := by
  cases op <;> rfl

@[simp] theorem arith?_mapOperands (f : Operand → Operand) (op : Operation) :
    (op.mapOperands f).arith? = op.arith? := by
  cases op <;> rfl

@[simp] theorem isPhi_aim (t : Target) (op : Operation) : (op.aim t).isPhi = op.isPhi := by
  cases op <;> rfl

@[simp] theorem isBranch_aim (t : Target) (op : Operation) :
    (op.aim t).isBranch = op.isBranch := by
  cases op <;> rfl

@[simp] theorem operands_aim (t : Target) (op : Operation) :
    (op.aim t).operands = op.operands := by
  cases op <;> rfl

@[simp] theorem arith?_aim (t : Target) (op : Operation) : (op.aim t).arith? = op.arith? := by
  cases op <;> rfl

end Operation

end StructuredSSA
