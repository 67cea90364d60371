/-!
# Names and operands

Variables, instructions and blocks are numbered.  Variables carry the numbers their source gives
them; instructions count from one in order of creation, and blocks from zero.

## What is here

* `Var`, `InstrId`, `BlockId` — the three kinds of number.
* `Operand` — what an instruction reads: a value, and the variable it was read through.
* `Operand.redirect` — what a new loop phi does to one operand.
-/

set_option autoImplicit false

namespace StructuredSSA

/-- A variable of the source, by its number. -/
abbrev Var := Nat

/-- An instruction, by its position in order of creation; the first one is `1`. -/
abbrev InstrId := Nat

/-- A block, by its position in order of creation; the first one is `0`. -/
abbrev BlockId := Nat

/-- What an instruction reads.  The variable is kept beside the value so that a later phi for that
variable can redirect exactly the reads that went through it: in `a + b` with both variables at
the same value, a phi for `a` leaves the right operand alone. -/
structure Operand where
  /-- The instruction whose result is read; none if the variable had no value. -/
  value : Option InstrId := none
  /-- The variable the value was read through, if it was. -/
  var : Option Var := none
deriving DecidableEq, Repr, Inhabited

namespace Operand

/-- The result of an instruction, read directly. -/
def result (i : InstrId) : Operand := { value := some i }

/-- The value of `x`, read through the variable. -/
def through (x : Var) (value : Option InstrId) : Operand := { value, var := some x }

/-- A read of `old` through `x` becomes a read of `new` through `x`; any other stays. -/
def redirect (x : Var) (old : Option InstrId) (new : InstrId) (o : Operand) : Operand :=
  if o = through x old then through x (some new) else o

/-- Applies `f` to the value that is read. -/
def mapValue (f : InstrId → InstrId) (o : Operand) : Operand :=
  { o with value := o.value.map f }

@[simp] theorem var_redirect (x : Var) (old : Option InstrId) (new : InstrId) (o : Operand) :
    (o.redirect x old new).var = o.var := by
  rw [redirect]
  split
  · rename_i h
    rw [h]
    rfl
  · rfl

@[simp] theorem var_mapValue (f : InstrId → InstrId) (o : Operand) :
    (o.mapValue f).var = o.var := rfl

end Operand

end StructuredSSA
