import StructuredSSA.Body.Command
import StructuredSSA.Program.Call

/-!
# Programs as sequences of commands

Every operation on a program as a value.  An operation on bodies reaches the body that
construction works on.

## What is here

* `Program.Command`, `Program.Outcome` — the operations and what they return.
* `Program.exec` — carries out one command, `Program.execAll` a list of them.
* `Program.Reachable` — the programs that some construction leads to.
-/

set_option autoImplicit false

namespace StructuredSSA
namespace Program

/-- An operation on a program under construction. -/
inductive Command where
  | body (c : Body.Command)
  | openFunction (isVoid : Bool)
  | nameFunction (f : Var)
  | addParam (x : Var)
  | bindParams
  | call (f : Var) (name : String) (args : List Operand)
  | callForValue (f : Var) (name : String) (args : List Operand)
  | closeFunction
  | finish
deriving DecidableEq, Repr

/-- What a command returns. -/
inductive Outcome where
  | body (o : Body.Outcome)
  /-- A call was refused, and nothing was added. -/
  | refused (e : CallError)
  /-- The variables that may be read before they have been assigned. -/
  | report (xs : List Var)
deriving DecidableEq, Repr

/-- A result that is only the new program. -/
def silently (r : Except Fault Program) : Except Fault (Outcome × Program) :=
  r.map fun p => (.body .done, p)

/-- The outcome of a call. -/
def Outcome.ofCall : Except CallError InstrId → Outcome
  | .ok i => .body (.instr i)
  | .error e => .refused e

/-- Carries out one command. -/
def exec (p : Program) : Command → Except Fault (Outcome × Program)
  | .body c => (p.body.exec c).map fun (o, s) => (.body o, p.setBody s)
  | .openFunction isVoid => silently (p.openFunction isVoid)
  | .nameFunction f => silently (p.nameFunction f)
  | .addParam x => silently (p.addParam x)
  | .bindParams => silently p.bindParams
  | .call f name args => (p.call f name args).map fun (r, p) => (.ofCall r, p)
  | .callForValue f name args => (p.callForValue f name args).map fun (r, p) => (.ofCall r, p)
  | .closeFunction => silently p.closeFunction
  | .finish => p.finish.map fun (xs, p) => (.report xs, p)

/-- Carries out a list of commands and returns the program they lead to. -/
def execAll (p : Program) (cs : List Command) : Except Fault Program :=
  cs.foldlM (fun p c => (p.exec c).map Prod.snd) p

/-- Some sequence of commands, none of which stops, builds `p` under the given options. -/
def Reachable (options : Options) (p : Program) : Prop :=
  ∃ cs, (start options).execAll cs = .ok p

end Program
end StructuredSSA
