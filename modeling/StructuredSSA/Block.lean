import StructuredSSA.Available
import StructuredSSA.Table

/-!
# Blocks

A block lists instructions and is linked to other blocks by two kinds of edge, one *fallthrough*
and one *branch* out of it and into it at most.  It also keeps what construction needs to know
about it: the parts it plays in conditionals and loops, the values its variables are bound to,
and the results that can be shared with it.

## What is here

* `Role` — the parts a block can play; a block can play several.
* `Edge` — the two kinds of edge.
* `Block` — the block, with `Block.next` and `Block.prev` for the ends of its edges.
* `Block.scopeParent` — the block in which a variable is looked up next.
* `Region` — the side of a construct that a block belongs to.
-/

set_option autoImplicit false

namespace StructuredSSA

/-- A part that a block plays. -/
inductive Role where
  /-- A block of straight-line code. -/
  | plain
  /-- Ends in the test of an if. -/
  | ifHead
  /-- Starts the side taken when the test holds. -/
  | thenSide
  /-- Starts the side taken when the test fails. -/
  | elseSide
  /-- The block where the sides of an if meet. -/
  | join
  /-- Holds the exit test of a loop. -/
  | loopHead
  /-- Starts the body of a loop. -/
  | loopBody
  /-- The block after a loop. -/
  | loopExit
deriving DecidableEq, Repr

namespace Role

/-- The roles, in the order in which a block's roles are listed. -/
def all : List Role :=
  [.plain, .ifHead, .thenSide, .elseSide, .join, .loopHead, .loopBody, .loopExit]

end Role

/-- The kinds of edge between blocks. -/
inductive Edge where
  /-- Control runs off the end of the block. -/
  | fall
  /-- Control follows the branch at the end of the block. -/
  | branch
deriving DecidableEq, Repr

/-- A block under construction or finished. -/
structure Block where
  id : BlockId
  /-- The parts the block plays. -/
  roles : List Role
  /-- The instructions, in order of execution. -/
  instrs : List InstrId := []
  /-- A branch waits for the block's first instruction. -/
  awaited : Bool := false
  /-- The variables bound in this block; one that is bound to no value is declared only. -/
  symbols : Table (Option InstrId) := ∅
  /-- The block control falls through to. -/
  fallTo : Option BlockId := none
  /-- The block that falls through to this one. -/
  fallFrom : Option BlockId := none
  /-- The block control branches to. -/
  branchTo : Option BlockId := none
  /-- The block that branches to this one. -/
  branchFrom : Option BlockId := none
  /-- For a join or a loop exit, the block that opened the construct. -/
  origin : Option BlockId := none
  /-- The arithmetic that can be shared with this block. -/
  available : Available := {}
deriving DecidableEq

namespace Block

/-- The block with number `id` that plays one part and holds nothing. -/
def fresh (id : BlockId) (r : Role) : Block := { id, roles := [r] }

/-- The block plays the part `r`. -/
def hasRole (blk : Block) (r : Role) : Bool := blk.roles.contains r

/-- Lets the block play one more part. -/
def addRole (r : Role) (blk : Block) : Block :=
  if blk.hasRole r then blk else { blk with roles := r :: blk.roles }

/-- The parts the block plays, in the order of `Role.all`. -/
def listedRoles (blk : Block) : List Role := Role.all.filter blk.hasRole

/-- Nothing is in the block and nothing waits for it. -/
def isEmpty (blk : Block) : Bool := blk.instrs.isEmpty && !blk.awaited

/-- The first instruction. -/
def first? (blk : Block) : Option InstrId := blk.instrs.head?

/-- The block in which a variable is looked up that this one does not bind: an else side and a
loop exit are entered by a branch, every other block by fallthrough. -/
def scopeParent (blk : Block) : Option BlockId :=
  if blk.hasRole .elseSide || blk.hasRole .loopExit then blk.branchFrom else blk.fallFrom

/-- The least variable bound to `i`. -/
def variableOf? (blk : Block) (i : InstrId) : Option Var :=
  (blk.symbols.entries.find? (fun e => e.2 == some i)).map Prod.fst

/-- Where the block's edge of a kind leads. -/
def next (e : Edge) (blk : Block) : Option BlockId :=
  match e with
  | .fall => blk.fallTo
  | .branch => blk.branchTo

/-- Where the edge of a kind into the block comes from. -/
def prev (e : Edge) (blk : Block) : Option BlockId :=
  match e with
  | .fall => blk.fallFrom
  | .branch => blk.branchFrom

/-- Sets where the block's edge of a kind leads, at this end only. -/
def setNext (e : Edge) (b : Option BlockId) (blk : Block) : Block :=
  match e with
  | .fall => { blk with fallTo := b }
  | .branch => { blk with branchTo := b }

/-- Sets where the edge of a kind into the block comes from, at this end only. -/
def setPrev (e : Edge) (b : Option BlockId) (blk : Block) : Block :=
  match e with
  | .fall => { blk with fallFrom := b }
  | .branch => { blk with branchFrom := b }

/-- Binds `x` to `value` in this block. -/
def bind (x : Var) (value : Option InstrId) (blk : Block) : Block :=
  { blk with symbols := blk.symbols.insert x value }

theorem next_setNext (e e' : Edge) (b : Option BlockId) (blk : Block) :
    (blk.setNext e b).next e' = if e = e' then b else blk.next e' := by
  cases e <;> cases e' <;> rfl

theorem prev_setPrev (e e' : Edge) (b : Option BlockId) (blk : Block) :
    (blk.setPrev e b).prev e' = if e = e' then b else blk.prev e' := by
  cases e <;> cases e' <;> rfl

@[simp] theorem prev_setNext (e e' : Edge) (b : Option BlockId) (blk : Block) :
    (blk.setNext e b).prev e' = blk.prev e' := by
  cases e <;> cases e' <;> rfl

@[simp] theorem next_setPrev (e e' : Edge) (b : Option BlockId) (blk : Block) :
    (blk.setPrev e b).next e' = blk.next e' := by
  cases e <;> cases e' <;> rfl

theorem hasRole_addRole (blk : Block) (r r' : Role) :
    (blk.addRole r).hasRole r' = (blk.hasRole r' || decide (r = r')) := by
  rw [addRole]
  split
  · rename_i h
    by_cases hr : r = r'
    · simp [← hr, h]
    · simp [hr]
  · by_cases hr : r = r'
    · simp [hasRole, hr]
    · simp [hasRole, hr, Ne.symm hr]

end Block

/-- The side of the innermost construct around a block, as its edges tell it. -/
inductive Region where
  /-- The then side of the if that joins at `join`. -/
  | thenSide (join : BlockId)
  /-- The else side of the if that joins at `join`. -/
  | elseSide (join : BlockId)
  /-- The body of the loop that `head` heads. -/
  | loopBody (head : BlockId)
  /-- No construct is open around the block. -/
  | outermost
deriving DecidableEq, Repr

end StructuredSSA
