import StructuredSSA.Program.Basic

/-!
# Calls

A call moves its arguments into the registers `1`, `2`, … and names those moves; the value of a
call is moved into the return register.  A call that does not fit the function it names is refused
before anything is added.

## What is here

* `CallError` — the reasons to refuse a call, with their wording.
* `Body.emitCall` — adds the instructions of a call.
* `Program.refusal?` — whether a call is refused.
* `Program.call`, `Program.callForValue` — add a call to the current block.
-/

set_option autoImplicit false

namespace StructuredSSA

/-- Why a call is refused. -/
inductive CallError where
  /-- No function has the name. -/
  | undeclared (name : String)
  /-- The function has another number of parameters. -/
  | wrongCount (name : String) (params args : Nat)
  /-- The function has no value. -/
  | noValue (name : String)
deriving DecidableEq, Repr

/-- The wording of a refusal. -/
def CallError.message : CallError → String
  | .undeclared name => "call to undeclared function `" ++ name ++ "`"
  | .wrongCount name params args =>
    "`" ++ name ++ s!"` takes {params} arguments but {args} were supplied"
  | .noValue name => "`" ++ name ++ "` does not return a value"

namespace Body

/-- Moves the arguments into the registers from `register` on, and returns the moves. -/
def moveArgs (s : Body) (register : Nat) : List Operand → Except Fault (List InstrId × Body)
  | [] => .ok ([], s)
  | src :: rest => do
    let (i, s) ← s.emit (.move src register)
    let (is, s) ← s.moveArgs (register + 1) rest
    return (i :: is, s)

/-- Adds the moves of the arguments and the call itself, and returns the call. -/
def emitCall (s : Body) (f : Var) (name : String) (args : List Operand) :
    Except Fault (InstrId × Body) := do
  let (moves, s) ← s.moveArgs 1 args
  s.emit (.call f name moves)

end Body

namespace Program

/-- The reason to refuse a call of `f` with `count` arguments, if there is one. -/
def refusal? (p : Program) (f : Var) (name : String) (count : Nat) : Option CallError :=
  match p.function? f with
  | none => some (.undeclared name)
  | some d =>
    if d.params.length = count then none
    else some (.wrongCount name d.params.length count)

/-- Calls `f` from the current block. -/
def call (p : Program) (f : Var) (name : String) (args : List Operand) :
    Except Fault (Except CallError InstrId × Program) :=
  match p.refusal? f name args.length with
  | some e => .ok (.error e, p)
  | none => do
    let (i, s) ← p.body.emitCall f name args
    return (.ok i, p.setBody s)

/-- Calls `f` from the current block and moves its value into the return register. -/
def callForValue (p : Program) (f : Var) (name : String) (args : List Operand) :
    Except Fault (Except CallError InstrId × Program) :=
  if p.isVoid f then
    .ok (.error (.noValue name), p)
  else
    match p.refusal? f name args.length with
    | some e => .ok (.error e, p)
    | none => do
      let (i, s) ← p.body.emitCall f name args
      let (_, s) ← s.emit (.move (.result i) p.options.returnRegister)
      return (.ok i, p.setBody s)

end Program

end StructuredSSA
