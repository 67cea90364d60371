import StructuredSSA.Listing

/-!
# Faults

Construction expects its caller to name blocks and instructions that exist and to open and close
constructs in order.  Where that expectation fails, the operation stops with a `Fault`.

## What is here

* `Fault` — the ways in which an operation can stop.
* `Fault.message` — the wording of each.
* `expect`, `require` — stop where a value is missing or a condition fails.
* `bind_eq_ok_iff`, `bind_eq_error_iff` — steps in sequence succeed if each of them does.
-/

set_option autoImplicit false

namespace StructuredSSA

/-- Why an operation stopped. -/
inductive Fault where
  /-- There are only `count` blocks. -/
  | noBlock (b : BlockId) (count : Nat)
  /-- There are only `count` instructions. -/
  | noInstr (i : InstrId) (count : Nat)
  /-- The body has been settled and takes no more. -/
  | settled
  /-- The chain of blocks that `x` is looked up along never ends. -/
  | scopeCycle (x : Var)
  /-- An else side was opened where no if was. -/
  | noIf (b : BlockId)
  /-- An if block without a branch edge. -/
  | ifWithoutBranch
  /-- A join that no block falls through into. -/
  | joinWithoutThen
  /-- The current block falls through into nothing. -/
  | noJoinAhead
  /-- A branch was to be aimed in a block without a branch edge. -/
  | noBranchEdge
  /-- A block has a branch edge, but no branch to aim along it. -/
  | noBranch (b : BlockId)
  /-- A jump was to be added to a block without a branch edge. -/
  | noJumpEdge (b : BlockId)
  /-- A join without the if it closes. -/
  | joinWithoutOrigin
  /-- A loop header without an exit test. -/
  | noExitTest
  /-- The current block is not the join of the if that was to be closed. -/
  | notTheJoin (current parent : BlockId)
  /-- A loop was to be closed at a block that heads none. -/
  | notALoop (b : BlockId)
  /-- A loop header without an exit edge. -/
  | loopWithoutExit
  /-- A phi that no variable of its block is bound to. -/
  | unboundPhi
  /-- A branch that was never aimed. -/
  | unaimedBranch (i : InstrId)
  /-- An instruction stands in for others, but the list of them is empty. -/
  | noDependents
  /-- The stand-ins of an instruction form a cycle. -/
  | standInCycle (i : InstrId)
  /-- Control that enters a block never reaches an instruction. -/
  | noLanding (b : BlockId)
  /-- A block without the edge that was to be followed. -/
  | noEdge (b : BlockId)
  /-- Results are shared between arithmetic operations only. -/
  | notShared (op : BinaryOp)
  /-- No function definition is open. -/
  | noDefinition
  /-- A function definition was opened inside another. -/
  | nestedDefinition
  /-- A function definition was closed where none was open. -/
  | nothingToClose
  /-- The program was finished inside a function definition. -/
  | definitionOpen
deriving DecidableEq, Repr

namespace Fault

/-- What is reported when position `index` of `count` is asked for. -/
def outOfBounds (count index : Nat) : String :=
  s!"index out of bounds: the len is {count} but the index is {index}"

/-- The wording of a fault. -/
def message : Fault → String
  | .noBlock b count => outOfBounds count b
  | .noInstr i count => outOfBounds count (i - 1)
  | .settled => "builder used after finalization"
  | .scopeCycle x => s!"cycle in upstream links while resolving identifier {x}"
  | .noIf b => "else opened on " ++ BlockId.text b ++ ", which does not end in an if"
  | .ifWithoutBranch => "if block branches to its join until the else exists"
  | .joinWithoutThen => "then side falls through into the join"
  | .noJoinAhead => "the last block of an if side falls through into the join"
  | .noBranchEdge => "a block ending in a conditional branch has a branch target"
  | .noBranch b => BlockId.text b ++ " has no branch instruction to aim"
  | .noJumpEdge b => BlockId.text b ++ " has no branch target to jump to"
  | .joinWithoutOrigin => "an if join remembers its if block"
  | .noExitTest => "a loop header holds its exit test before the body is built"
  | .notTheJoin current parent =>
    "current block " ++ BlockId.text current ++ " is not the join of the if at "
      ++ BlockId.text parent
  | .notALoop b => BlockId.text b ++ " is not a loop header"
  | .loopWithoutExit => "a loop header branches to its follow block"
  | .unboundPhi => "a phi stays bound to the variable it merges"
  | .unaimedBranch i => "branch " ++ InstrId.text i ++ " was never given a target"
  | .noDependents => "removal index (is 0) should be < len (is 0)"
  | .standInCycle i => "elimination chain from " ++ InstrId.text i ++ " loops"
  | .noLanding b => "branch into " ++ BlockId.text b ++ " never reaches an instruction"
  | .noEdge b => BlockId.text b ++ " has no such edge"
  | .notShared op =>
    "internal error: entered unreachable code: " ++ op.name ++ " is never a common subexpression"
  | .noDefinition => "not inside a function definition"
  | .nestedDefinition => "function definitions do not nest"
  | .nothingToClose => "restore_global_ir called outside a function definition"
  | .definitionOpen => "a function definition is still open"

end Fault

/-! ## Stopping -/

/-- The value of `o`, where there has to be one. -/
def expect {α : Type} (o : Option α) (f : Fault) : Except Fault α :=
  match o with
  | some a => .ok a
  | none => .error f

/-- Stops unless `c` holds. -/
def require (c : Bool) (f : Fault) : Except Fault Unit :=
  if c then .ok () else .error f

@[simp] theorem expect_some {α : Type} (a : α) (f : Fault) : expect (some a) f = .ok a := rfl

@[simp] theorem expect_none {α : Type} (f : Fault) : expect (none : Option α) f = .error f := rfl

theorem expect_eq_ok_iff {α : Type} {o : Option α} {f : Fault} {a : α} :
    expect o f = .ok a ↔ o = some a := by
  cases o <;> simp

theorem expect_eq_error_iff {α : Type} {o : Option α} {f f' : Fault} :
    expect o f = .error f' ↔ o = none ∧ f = f' := by
  cases o <;> simp

theorem require_eq_ok_iff {c : Bool} {f : Fault} {u : Unit} :
    require c f = .ok u ↔ c = true := by
  cases c <;> simp [require]

theorem require_eq_error_iff {c : Bool} {f f' : Fault} :
    require c f = .error f' ↔ c = false ∧ f = f' := by
  cases c <;> simp [require]

/-- What a result is seen to have by computing it. -/
theorem exists_ok_of_any {α : Type} {r : Except Fault α} {p : α → Bool}
    (h : r.toOption.any p = true) : ∃ a, r = .ok a ∧ p a = true := by
  cases r with
  | error => cases h
  | ok a => exact ⟨a, rfl, h⟩

/-- Two steps in sequence succeed exactly if the first does and then the second. -/
theorem bind_eq_ok_iff {α β : Type} {r : Except Fault α} {k : α → Except Fault β} {b : β} :
    (r >>= k) = .ok b ↔ ∃ a, r = .ok a ∧ k a = .ok b := by
  cases r <;> simp [bind, Except.bind]

/-- Two steps in sequence stop where the first does, or the second after it. -/
theorem bind_eq_error_iff {α β : Type} {r : Except Fault α} {k : α → Except Fault β} {f : Fault} :
    (r >>= k) = .error f ↔ r = .error f ∨ ∃ a, r = .ok a ∧ k a = .error f := by
  cases r <;> simp [bind, Except.bind]

end StructuredSSA
