import StructuredSSA.Block

/-!
# Graphs

The blocks and the instructions of one body.  Both are only ever added, never removed, and each
is found by its number; an instruction that has been dropped from its block can still be found.

## What is here

* `Graph.block?`, `Graph.instr?` — look-ups; `Graph.block` and `Graph.instr` stop with a fault
  where there is nothing to find.
* `Graph.modifyBlock`, `Graph.modifyInstr`, `Graph.mapBlocks`, `Graph.mapInstrs` — changes in
  place, and what they do to a look-up.
* `Graph.addBlock`, `Graph.addInstr`, `Graph.addBlockUnder` — growth.
-/

set_option autoImplicit false

namespace StructuredSSA

/-- The blocks and instructions of one body, in order of creation. -/
structure Graph where
  blocks : Array Block := #[]
  instrs : Array Instr := #[]
deriving DecidableEq

namespace Graph

/-! ## Look-ups -/

/-- The block with number `b`. -/
def block? (g : Graph) (b : BlockId) : Option Block := g.blocks[b]?

/-- The instruction with number `i`; they count from one. -/
def instr? (g : Graph) : InstrId → Option Instr
  | 0 => none
  | k + 1 => g.instrs[k]?

/-- The block that the caller says exists. -/
def block (g : Graph) (b : BlockId) : Except Fault Block :=
  expect (g.block? b) (.noBlock b g.blocks.size)

/-- The instruction that the caller says exists. -/
def instr (g : Graph) (i : InstrId) : Except Fault Instr :=
  expect (g.instr? i) (.noInstr i g.instrs.size)

/-- The number of the next instruction. -/
def nextId (g : Graph) : InstrId := g.instrs.size + 1

/-- The number of the next block. -/
def nextBlock (g : Graph) : BlockId := g.blocks.size

/-- Block `b` exists and plays the part `r`. -/
def hasRole (g : Graph) (b : BlockId) (r : Role) : Bool := (g.block? b).any (·.hasRole r)

/-- Instruction `i` exists and is a phi. -/
def isPhi (g : Graph) (i : InstrId) : Bool := (g.instr? i).any (·.op.isPhi)

/-- Instruction `i` exists and is a branch. -/
def isBranch (g : Graph) (i : InstrId) : Bool := (g.instr? i).any (·.op.isBranch)

/-- The phis a block lists. -/
def phis (g : Graph) (blk : Block) : List InstrId := blk.instrs.filter g.isPhi

/-- The first instruction of a block that is no phi. -/
def firstNonPhi? (g : Graph) (blk : Block) : Option InstrId :=
  blk.instrs.find? (fun i => !g.isPhi i)

/-! ## Changes in place -/

/-- Changes block `b`, if it exists. -/
def modifyBlock (g : Graph) (b : BlockId) (f : Block → Block) : Graph :=
  { g with blocks := g.blocks.modify b f }

/-- Changes instruction `i`, if it exists. -/
def modifyInstr (g : Graph) (i : InstrId) (f : Instr → Instr) : Graph :=
  match i with
  | 0 => g
  | k + 1 => { g with instrs := g.instrs.modify k f }

/-- Changes every block. -/
def mapBlocks (g : Graph) (f : Block → Block) : Graph := { g with blocks := g.blocks.map f }

/-- Changes every instruction. -/
def mapInstrs (g : Graph) (f : Instr → Instr) : Graph := { g with instrs := g.instrs.map f }

/-! ## Growth -/

/-- Adds a block that holds nothing; its number is `nextBlock`. -/
def addBlock (g : Graph) (r : Role) : Graph :=
  { g with blocks := g.blocks.push (.fresh g.nextBlock r) }

/-- Adds an instruction whose home is `b`, without listing it there; its number is `nextId`. -/
def addInstr (g : Graph) (b : BlockId) (op : Operation) : Graph :=
  { g with instrs := g.instrs.push { id := g.nextId, block := b, op } }

/-- Adds a block that `dom` dominates: whatever is available in `dom` is available in it. -/
def addBlockUnder (g : Graph) (dom : BlockId) (r : Role) : Except Fault (BlockId × Graph) := do
  let b := g.nextBlock
  let g := g.addBlock r
  let above ← g.block dom
  return (b, g.modifyBlock b fun blk => { blk with available := above.available })

/-! ## Look-ups after a change -/

theorem block_eq_ok_iff {g : Graph} {b : BlockId} {blk : Block} :
    g.block b = .ok blk ↔ g.block? b = some blk :=
  expect_eq_ok_iff

theorem instr_eq_ok_iff {g : Graph} {i : InstrId} {ins : Instr} :
    g.instr i = .ok ins ↔ g.instr? i = some ins :=
  expect_eq_ok_iff

theorem block?_modifyBlock (g : Graph) (b c : BlockId) (f : Block → Block) :
    (g.modifyBlock b f).block? c = if b = c then (g.block? c).map f else g.block? c := by
  simp [block?, modifyBlock, Array.getElem?_modify]

@[simp] theorem instr?_modifyBlock (g : Graph) (b : BlockId) (f : Block → Block) (i : InstrId) :
    (g.modifyBlock b f).instr? i = g.instr? i := by
  cases i <;> rfl

theorem instr?_modifyInstr (g : Graph) (i j : InstrId) (f : Instr → Instr) :
    (g.modifyInstr i f).instr? j = if i = j then (g.instr? j).map f else g.instr? j := by
  cases i <;> cases j <;> simp [instr?, modifyInstr, Array.getElem?_modify]

@[simp] theorem block?_modifyInstr (g : Graph) (i : InstrId) (f : Instr → Instr) (b : BlockId) :
    (g.modifyInstr i f).block? b = g.block? b := by
  cases i <;> rfl

@[simp] theorem block?_mapBlocks (g : Graph) (f : Block → Block) (b : BlockId) :
    (g.mapBlocks f).block? b = (g.block? b).map f := by
  simp [block?, mapBlocks]

@[simp] theorem instr?_mapBlocks (g : Graph) (f : Block → Block) (i : InstrId) :
    (g.mapBlocks f).instr? i = g.instr? i := by
  cases i <;> rfl

@[simp] theorem instr?_mapInstrs (g : Graph) (f : Instr → Instr) (i : InstrId) :
    (g.mapInstrs f).instr? i = (g.instr? i).map f := by
  cases i <;> simp [instr?, mapInstrs]

@[simp] theorem block?_mapInstrs (g : Graph) (f : Instr → Instr) (b : BlockId) :
    (g.mapInstrs f).block? b = g.block? b := rfl

theorem block?_addBlock (g : Graph) (r : Role) (b : BlockId) :
    (g.addBlock r).block? b =
      if b = g.nextBlock then some (.fresh g.nextBlock r) else g.block? b :=
  Array.getElem?_push

@[simp] theorem instr?_addBlock (g : Graph) (r : Role) (i : InstrId) :
    (g.addBlock r).instr? i = g.instr? i := by
  cases i <;> rfl

theorem instr?_addInstr (g : Graph) (b : BlockId) (op : Operation) (i : InstrId) :
    (g.addInstr b op).instr? i =
      if i = g.nextId then some { id := g.nextId, block := b, op } else g.instr? i := by
  cases i <;> simp [instr?, addInstr, nextId, Array.getElem?_push]

@[simp] theorem block?_addInstr (g : Graph) (b c : BlockId) (op : Operation) :
    (g.addInstr b op).block? c = g.block? c := rfl

end Graph

end StructuredSSA
