import StructuredSSA.Body.Basic
import StructuredSSA.Graph.Reuse

/-!
# Adding instructions and sharing results

Arithmetic that has been computed already need not be computed again.

* An identical instruction is returned as it is, and nothing is added.
* If the value is the same but was read through other variables, the new instruction is added and
  at once *retired*: the earlier one stands in for it.  It can be *revived* when a loop phi turns
  up that changes the operands of either.
* An identical instruction from before the innermost open loop is treated in the same way, because
  the loop may still change the operands of the new one.

## What is here

* `Body.emit` — adds an operation to the current block.
* `Body.retire` — lets one instruction stand in for another.
* `Body.revive` — undoes this after the operands of an instruction have changed.
-/

set_option autoImplicit false

namespace StructuredSSA
namespace Body

/-! ## Retiring and reviving -/

/-- Lets `e` stand in for `i`. -/
def retire (s : Body) (i e : InstrId) : Body :=
  { s with
    graph := s.graph.modifyInstr i (·.setStandIn (some e))
    dependents := s.dependents.insert e ((s.dependents.get? e).getD [] ++ [i]) }

/-- Lets `p`, which `i` stands in for, be computed again and stand in for `rest` in place of `i`. -/
def promote (s : Body) (i p : InstrId) (rest : List InstrId) : Body :=
  let others := s.dependents.erase i
  { s with
    graph := rest.foldl (fun g d => g.modifyInstr d (·.setStandIn (some p)))
      (s.graph.modifyInstr p (·.setStandIn none))
    dependents :=
      if rest.isEmpty then others
      else others.insert p ((others.get? p).getD [] ++ rest) }

/-- Releases the instructions that `i` stands in for: the first of them is computed again, and
stands in for the others.  There has to be a first one if there is a list. -/
def promoteDependents (s : Body) (i : InstrId) : Except Fault Body :=
  match s.dependents.get? i with
  | none => .ok s
  | some [] => .error .noDependents
  | some (p :: rest) => .ok (s.promote i p rest)

/-- Releases `i` from its own stand-in. -/
def restore (s : Body) (i : InstrId) : Body :=
  match (s.graph.instr? i).bind (·.standIn) with
  | some e =>
    let left := ((s.dependents.get? e).getD []).filter (· != i)
    { s with
      graph := s.graph.modifyInstr i (·.setStandIn none)
      dependents := s.dependents.update e (if left.isEmpty then none else some left) }
  | none => s

/-- Undoes every sharing that relied on what the operands of `i` used to be. -/
def revive (s : Body) (i : InstrId) : Except Fault Body := do
  return (← s.promoteDependents i).restore i

/-! ## Adding -/

/-- The instruction was there before the innermost open loop was opened. -/
def predatesLoop (s : Body) (i : InstrId) : Bool :=
  match s.loopStarts with
  | [] => false
  | first :: _ => i < first

/-- The available instruction that answers for `op` in the current block. -/
def shareable? (s : Body) (op : Operation) : Except Fault (Option Match) :=
  if s.options.share then do
    let blk ← s.graph.block s.current
    s.graph.match? blk.available op
  else
    .ok none

/-- Adds an operation to the current block and lets `e` stand in for it. -/
def placeRetired (s : Body) (op : Operation) (e : InstrId) : Except Fault (InstrId × Body) := do
  let (i, s) ← s.place s.current op
  return (i, s.retire i e)

/-- Adds an operation to the current block, unless an identical instruction can be returned. -/
def emit (s : Body) (op : Operation) : Except Fault (InstrId × Body) := do
  s.requireOpen
  match ← s.shareable? op with
  | some (.identical e) => if s.predatesLoop e then s.placeRetired op e else return (e, s)
  | some (.equivalent e) => s.placeRetired op e
  | none => s.place s.current op

end Body
end StructuredSSA
