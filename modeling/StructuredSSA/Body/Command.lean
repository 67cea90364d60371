import StructuredSSA.Body.Construct
import StructuredSSA.Body.Settle

/-!
# Construction as a sequence of commands

Every operation on a body as a value, so that a whole construction is a list of them.

## What is here

* `Body.Command`, `Body.Outcome` — the operations and what they return.
* `Body.exec` — carries out one command, `Body.execAll` a list of them.
* `Body.Reachable` — the bodies that some construction leads to.
-/

set_option autoImplicit false

namespace StructuredSSA
namespace Body

/-- An operation on a body under construction. -/
inductive Command where
  | declare (x : Var)
  | constant (v : Int64)
  | argument (slot : Nat)
  | emit (op : Operation)
  | assign (x : Var) (value : Option InstrId)
  | moveTo (b : BlockId)
  | openIf
  | openElse (parent : BlockId)
  | joinAhead
  | openLoop
  | aimBranch (b : BlockId)
  | emitJump (b : BlockId)
  | closeIf (parent : BlockId)
  | closeLoop (head : BlockId)
  | settleWith (last : Operation)
  | settle
deriving DecidableEq, Repr

/-- What a command returns. -/
inductive Outcome where
  | done
  | instr (i : InstrId)
  | block (b : BlockId)
deriving DecidableEq, Repr

/-- A result that is only the new body. -/
def silently (r : Except Fault Body) : Except Fault (Outcome × Body) :=
  r.map fun s => (.done, s)

/-- A result that names an instruction. -/
def namingInstr (r : Except Fault (InstrId × Body)) : Except Fault (Outcome × Body) :=
  r.map fun (i, s) => (.instr i, s)

/-- A result that names a block. -/
def namingBlock (r : Except Fault (BlockId × Body)) : Except Fault (Outcome × Body) :=
  r.map fun (b, s) => (.block b, s)

/-- Carries out one command. -/
def exec (s : Body) : Command → Except Fault (Outcome × Body)
  | .declare x => silently (s.declare x)
  | .constant v => namingInstr (s.constant v)
  | .argument slot => namingInstr (s.argument slot)
  | .emit op => namingInstr (s.emit op)
  | .assign x value => silently (s.assign x value)
  | .moveTo b => .ok (.done, s.moveTo b)
  | .openIf => namingBlock s.openIf
  | .openElse parent => namingBlock (s.openElse parent)
  | .joinAhead => namingBlock (s.joinAhead.map fun b => (b, s))
  | .openLoop => namingBlock s.openLoop
  | .aimBranch b => silently (s.aimBranch b)
  | .emitJump b => namingInstr (s.emitJump b)
  | .closeIf parent => silently (s.closeIf parent)
  | .closeLoop head => silently (s.closeLoop head)
  | .settleWith last => silently (s.settleWith last)
  | .settle => silently s.settle

/-- Carries out a list of commands and returns the body they lead to. -/
def execAll (s : Body) (cs : List Command) : Except Fault Body :=
  cs.foldlM (fun s c => (s.exec c).map Prod.snd) s

/-- Some sequence of commands, none of which stops, builds `s` under the given options. -/
def Reachable (options : Options) (s : Body) : Prop :=
  ∃ cs, (start options).execAll cs = .ok s

end Body
end StructuredSSA
