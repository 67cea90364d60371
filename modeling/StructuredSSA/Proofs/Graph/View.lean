import StructuredSSA.Graph.Link
import StructuredSSA.Graph.Place
import StructuredSSA.Graph.Scope

/-!
# Looking into a graph

Proofs about a graph ask it one question at a time: where does this edge lead, what does this block
list, what is this variable bound to.  Here every such question is a total function of the graph,
and every change in place is described by the answers it changes.

## What is here

* `Graph.next`, `Graph.prev`, `Graph.originOf` — the links; together with the roles they make up the
  `Graph.skeleton?` of a block, which nothing changes but the opening of constructs.
* `Graph.listed`, `Graph.binding`, `Graph.offered` — what a block holds.
* `Graph.op?`, `Graph.home?`, `Graph.standIn?` — what an instruction is.
* `Graph.SameSkeleton` — two graphs with the same blocks and links, whatever these hold.
* `Graph.SameContents` — two graphs with the same blocks and instructions, however they are linked.
-/

set_option autoImplicit false

namespace StructuredSSA

/-- The block with its links and its roles, and nothing in it. -/
def Block.skeleton (blk : Block) : Block :=
  { blk with instrs := [], awaited := false, symbols := ∅, available := {} }

/-- The block with what is in it and its roles, and no links to other blocks. -/
def Block.unlinked (blk : Block) : Block :=
  { blk with fallTo := none, fallFrom := none, branchTo := none, branchFrom := none }

namespace Graph

/-! ## Questions -/

/-- Where the edge of kind `e` out of `b` leads. -/
def next (g : Graph) (e : Edge) (b : BlockId) : Option BlockId := (g.block? b).bind (·.next e)

/-- Where the edge of kind `e` into `b` comes from. -/
def prev (g : Graph) (e : Edge) (b : BlockId) : Option BlockId := (g.block? b).bind (·.prev e)

/-- The block that opened the construct which `b` closes. -/
def originOf (g : Graph) (b : BlockId) : Option BlockId := (g.block? b).bind (·.origin)

/-- The links and roles of `b`. -/
def skeleton? (g : Graph) (b : BlockId) : Option Block := (g.block? b).map Block.skeleton

/-- The instructions that `b` lists. -/
def listed (g : Graph) (b : BlockId) : List InstrId := ((g.block? b).map (·.instrs)).getD []

/-- What `b` itself binds `x` to. -/
def binding (g : Graph) (b : BlockId) (x : Var) : Option (Option InstrId) :=
  (g.block? b).bind (·.symbols.get? x)

/-- The arithmetic that can be shared with `b`. -/
def offered (g : Graph) (b : BlockId) : Available := ((g.block? b).map (·.available)).getD {}

/-- What instruction `i` does. -/
def op? (g : Graph) (i : InstrId) : Option Operation := (g.instr? i).map (·.op)

/-- The block that instruction `i` was placed in. -/
def home? (g : Graph) (i : InstrId) : Option BlockId := (g.instr? i).map (·.block)

/-- The instruction that stands in for `i`. -/
def standIn? (g : Graph) (i : InstrId) : Option InstrId := (g.instr? i).bind (·.standIn)

/-- The same blocks with the same links and roles. -/
def SameSkeleton (g g' : Graph) : Prop := ∀ b, g'.skeleton? b = g.skeleton? b

/-! ## What a graph has -/

theorem block?_isSome_iff {g : Graph} {b : BlockId} : (g.block? b).isSome ↔ b < g.blocks.size := by
  simp [block?]

theorem block?_eq_none_iff {g : Graph} {b : BlockId} : g.block? b = none ↔ g.blocks.size ≤ b := by
  simp [block?]

theorem exists_block {g : Graph} {b : BlockId} (h : b < g.blocks.size) :
    ∃ blk, g.block? b = some blk :=
  Option.isSome_iff_exists.1 (block?_isSome_iff.2 h)

theorem lt_size_of_block? {g : Graph} {b : BlockId} {blk : Block} (h : g.block? b = some blk) :
    b < g.blocks.size :=
  block?_isSome_iff.1 (by rw [h]; rfl)

theorem instr?_isSome_iff {g : Graph} {i : InstrId} :
    (g.instr? i).isSome ↔ 0 < i ∧ i < g.nextId := by
  cases i with
  | zero => simp [instr?]
  | succ k => simp [instr?, nextId]

theorem exists_instr {g : Graph} {i : InstrId} (h : 0 < i ∧ i < g.nextId) :
    ∃ ins, g.instr? i = some ins :=
  Option.isSome_iff_exists.1 (instr?_isSome_iff.2 h)

theorem lt_nextId_of_instr? {g : Graph} {i : InstrId} {ins : Instr} (h : g.instr? i = some ins) :
    0 < i ∧ i < g.nextId :=
  instr?_isSome_iff.1 (by rw [h]; rfl)

theorem instr?_eq_none_of_le {g : Graph} {i : InstrId} (h : g.nextId ≤ i) : g.instr? i = none := by
  rw [← Option.not_isSome_iff_eq_none, instr?_isSome_iff]
  exact fun h' => Nat.not_lt.2 h h'.2

theorem op?_isSome_iff {g : Graph} {i : InstrId} : (g.op? i).isSome ↔ 0 < i ∧ i < g.nextId := by
  rw [← instr?_isSome_iff, op?, Option.isSome_map]

theorem isPhi_eq (g : Graph) (i : InstrId) : g.isPhi i = (g.op? i).any Operation.isPhi := by
  rw [isPhi, op?, Option.any_map]

theorem isBranch_eq (g : Graph) (i : InstrId) :
    g.isBranch i = (g.op? i).any Operation.isBranch := by
  rw [isBranch, op?, Option.any_map]

theorem lt_nextId_of_op? {g : Graph} {i : InstrId} {op : Operation} (h : g.op? i = some op) :
    i < g.nextId :=
  (op?_isSome_iff.1 (by rw [h]; rfl)).2

theorem lt_nextId_of_home? {g : Graph} {i : InstrId} {b : BlockId} (h : g.home? i = some b) :
    i < g.nextId := by
  rw [home?] at h
  obtain ⟨ins, hins, -⟩ := Option.map_eq_some_iff.1 h
  exact (lt_nextId_of_instr? hins).2

/-! ## Skeletons -/

theorem next_eq_skeleton (g : Graph) (e : Edge) (b : BlockId) :
    g.next e b = (g.skeleton? b).bind (·.next e) := by
  rw [next, skeleton?, Option.bind_map]
  cases e <;> rfl

theorem prev_eq_skeleton (g : Graph) (e : Edge) (b : BlockId) :
    g.prev e b = (g.skeleton? b).bind (·.prev e) := by
  rw [prev, skeleton?, Option.bind_map]
  cases e <;> rfl

theorem originOf_eq_skeleton (g : Graph) (b : BlockId) :
    g.originOf b = (g.skeleton? b).bind (·.origin) := by
  rw [originOf, skeleton?, Option.bind_map]
  rfl

theorem hasRole_eq_skeleton (g : Graph) (b : BlockId) (r : Role) :
    g.hasRole b r = (g.skeleton? b).any (·.hasRole r) := by
  rw [hasRole, skeleton?, Option.any_map]
  rfl

theorem skeleton?_isSome_iff {g : Graph} {b : BlockId} :
    (g.skeleton? b).isSome ↔ b < g.blocks.size := by
  rw [← block?_isSome_iff, skeleton?, Option.isSome_map]

namespace SameSkeleton

variable {g g' g'' : Graph}

theorem refl (g : Graph) : SameSkeleton g g := fun _ => rfl

theorem trans (h : SameSkeleton g g') (h' : SameSkeleton g' g'') : SameSkeleton g g'' :=
  fun b => (h' b).trans (h b)

theorem next_eq (h : SameSkeleton g g') (e : Edge) (b : BlockId) : g'.next e b = g.next e b := by
  rw [next_eq_skeleton, next_eq_skeleton, h b]

theorem prev_eq (h : SameSkeleton g g') (e : Edge) (b : BlockId) : g'.prev e b = g.prev e b := by
  rw [prev_eq_skeleton, prev_eq_skeleton, h b]

theorem originOf_eq (h : SameSkeleton g g') (b : BlockId) : g'.originOf b = g.originOf b := by
  rw [originOf_eq_skeleton, originOf_eq_skeleton, h b]

theorem hasRole_eq (h : SameSkeleton g g') (b : BlockId) (r : Role) :
    g'.hasRole b r = g.hasRole b r := by
  rw [hasRole_eq_skeleton, hasRole_eq_skeleton, h b]

theorem lt_size_iff (h : SameSkeleton g g') (b : BlockId) :
    b < g'.blocks.size ↔ b < g.blocks.size := by
  rw [← skeleton?_isSome_iff, ← skeleton?_isSome_iff, h b]

theorem size_eq (h : SameSkeleton g g') : g'.blocks.size = g.blocks.size := by
  have h₁ : ¬ g.blocks.size < g'.blocks.size := fun h' =>
    Nat.lt_irrefl _ ((h.lt_size_iff _).1 h')
  have h₂ : ¬ g'.blocks.size < g.blocks.size := fun h' =>
    Nat.lt_irrefl _ ((h.lt_size_iff _).2 h')
  omega

end SameSkeleton

/-! ## Contents -/

/-- The same instructions, and the same blocks apart from their links. -/
structure SameContents (g g' : Graph) : Prop where
  instrs_eq : g'.instrs = g.instrs
  unlinked_eq : ∀ b, (g'.block? b).map Block.unlinked = (g.block? b).map Block.unlinked

namespace SameContents

variable {g g' g'' : Graph}

theorem refl (g : Graph) : SameContents g g := ⟨rfl, fun _ => rfl⟩

theorem trans (h : SameContents g g') (h' : SameContents g' g'') : SameContents g g'' :=
  ⟨h'.instrs_eq.trans h.instrs_eq, fun b => (h'.unlinked_eq b).trans (h.unlinked_eq b)⟩

theorem lt_size_iff (h : SameContents g g') (b : BlockId) :
    b < g'.blocks.size ↔ b < g.blocks.size := by
  have hb := congrArg Option.isSome (h.unlinked_eq b)
  rw [Option.isSome_map, Option.isSome_map] at hb
  rw [← block?_isSome_iff, ← block?_isSome_iff, hb]

theorem size_eq (h : SameContents g g') : g'.blocks.size = g.blocks.size := by
  have h₁ : ¬ g.blocks.size < g'.blocks.size := fun h' =>
    Nat.lt_irrefl _ ((h.lt_size_iff _).1 h')
  have h₂ : ¬ g'.blocks.size < g.blocks.size := fun h' =>
    Nat.lt_irrefl _ ((h.lt_size_iff _).2 h')
  omega

theorem listed_eq (h : SameContents g g') (b : BlockId) : g'.listed b = g.listed b := by
  have hb := congrArg (fun o : Option Block => (o.map (·.instrs)).getD []) (h.unlinked_eq b)
  simp only [Option.map_map] at hb
  exact hb

theorem binding_eq (h : SameContents g g') (b : BlockId) (x : Var) :
    g'.binding b x = g.binding b x := by
  have hb := congrArg (fun o : Option Block => o.bind (·.symbols.get? x)) (h.unlinked_eq b)
  simp only [Option.bind_map] at hb
  exact hb

theorem offered_eq (h : SameContents g g') (b : BlockId) : g'.offered b = g.offered b := by
  have hb := congrArg (fun o : Option Block => (o.map (·.available)).getD {}) (h.unlinked_eq b)
  simp only [Option.map_map] at hb
  exact hb

theorem originOf_eq (h : SameContents g g') (b : BlockId) : g'.originOf b = g.originOf b := by
  have hb := congrArg (fun o : Option Block => o.bind (·.origin)) (h.unlinked_eq b)
  simp only [Option.bind_map] at hb
  exact hb

theorem hasRole_eq (h : SameContents g g') (b : BlockId) (r : Role) :
    g'.hasRole b r = g.hasRole b r := by
  have hb := congrArg (fun o : Option Block => o.any (·.hasRole r)) (h.unlinked_eq b)
  simp only [Option.any_map] at hb
  exact hb

theorem instr?_eq (h : SameContents g g') (i : InstrId) : g'.instr? i = g.instr? i := by
  cases i with
  | zero => rfl
  | succ k => rw [instr?, h.instrs_eq, instr?]

end SameContents

/-! ## Answers after a change in place -/

section Change

variable (g : Graph) (b c : BlockId) (f : Block → Block)

theorem next_modifyBlock (e : Edge) : (g.modifyBlock b f).next e c =
    if b = c then (g.block? c).bind (fun blk => (f blk).next e) else g.next e c := by
  rw [next, block?_modifyBlock]
  split
  · rw [Option.bind_map]
    rfl
  · rfl

theorem prev_modifyBlock (e : Edge) : (g.modifyBlock b f).prev e c =
    if b = c then (g.block? c).bind (fun blk => (f blk).prev e) else g.prev e c := by
  rw [prev, block?_modifyBlock]
  split
  · rw [Option.bind_map]
    rfl
  · rfl

theorem sameSkeleton_modifyBlock {f : Block → Block}
    (hf : ∀ blk : Block, (f blk).skeleton = blk.skeleton) :
    SameSkeleton g (g.modifyBlock b f) := by
  intro c
  rw [skeleton?, block?_modifyBlock, skeleton?]
  split
  · rw [Option.map_map]
    exact congrArg (Option.map · (g.block? c)) (funext hf)
  · rfl

theorem sameContents_modifyBlock {f : Block → Block}
    (hf : ∀ blk : Block, (f blk).unlinked = blk.unlinked) :
    SameContents g (g.modifyBlock b f) := by
  refine ⟨rfl, fun c => ?_⟩
  rw [block?_modifyBlock]
  split
  · rw [Option.map_map]
    exact congrArg (Option.map · (g.block? c)) (funext hf)
  · rfl

theorem sameSkeleton_modifyInstr (i : InstrId) (h : Instr → Instr) :
    SameSkeleton g (g.modifyInstr i h) := by
  intro c
  rw [skeleton?, block?_modifyInstr, skeleton?]

theorem listed_modifyBlock : (g.modifyBlock b f).listed c =
    if b = c then ((g.block? c).map (fun blk => (f blk).instrs)).getD [] else g.listed c := by
  rw [listed, block?_modifyBlock]
  split
  · rw [Option.map_map]
    rfl
  · rfl

theorem binding_modifyBlock (x : Var) : (g.modifyBlock b f).binding c x =
    if b = c then (g.block? c).bind (fun blk => (f blk).symbols.get? x) else g.binding c x := by
  rw [binding, block?_modifyBlock]
  split
  · rw [Option.bind_map]
    rfl
  · rfl

theorem offered_modifyBlock : (g.modifyBlock b f).offered c =
    if b = c then ((g.block? c).map (fun blk => (f blk).available)).getD {} else g.offered c := by
  rw [offered, block?_modifyBlock]
  split
  · rw [Option.map_map]
    rfl
  · rfl

@[simp] theorem size_modifyBlock : (g.modifyBlock b f).blocks.size = g.blocks.size := by
  simp [modifyBlock]

@[simp] theorem nextId_modifyBlock : (g.modifyBlock b f).nextId = g.nextId := rfl

@[simp] theorem op?_modifyBlock (i : InstrId) : (g.modifyBlock b f).op? i = g.op? i := by
  rw [op?, instr?_modifyBlock, op?]

@[simp] theorem home?_modifyBlock (i : InstrId) : (g.modifyBlock b f).home? i = g.home? i := by
  rw [home?, instr?_modifyBlock, home?]

@[simp] theorem standIn?_modifyBlock (i : InstrId) :
    (g.modifyBlock b f).standIn? i = g.standIn? i := by
  rw [standIn?, instr?_modifyBlock, standIn?]

end Change

section ChangeInstr

variable (g : Graph) (i j : InstrId) (f : Instr → Instr)

@[simp] theorem size_modifyInstr : (g.modifyInstr i f).blocks.size = g.blocks.size := by
  cases i <;> rfl

@[simp] theorem nextId_modifyInstr : (g.modifyInstr i f).nextId = g.nextId := by
  cases i <;> simp [modifyInstr, nextId]

@[simp] theorem nextId_mapInstrs : (g.mapInstrs f).nextId = g.nextId := by
  simp [mapInstrs, nextId]

@[simp] theorem listed_modifyInstr (b : BlockId) : (g.modifyInstr i f).listed b = g.listed b := by
  rw [listed, block?_modifyInstr, listed]

@[simp] theorem binding_modifyInstr (b : BlockId) (x : Var) :
    (g.modifyInstr i f).binding b x = g.binding b x := by
  rw [binding, block?_modifyInstr, binding]

@[simp] theorem offered_modifyInstr (b : BlockId) :
    (g.modifyInstr i f).offered b = g.offered b := by
  rw [offered, block?_modifyInstr, offered]

theorem op?_modifyInstr_mapOp (h : Operation → Operation) :
    (g.modifyInstr i (·.mapOp h)).op? j = if i = j then (g.op? j).map h else g.op? j := by
  rw [op?, instr?_modifyInstr]
  split
  · rw [op?, Option.map_map, Option.map_map]
    rfl
  · rfl

@[simp] theorem home?_modifyInstr_mapOp (h : Operation → Operation) :
    (g.modifyInstr i (·.mapOp h)).home? j = g.home? j := by
  rw [home?, instr?_modifyInstr]
  split
  · rw [home?, Option.map_map]
    rfl
  · rfl

@[simp] theorem standIn?_modifyInstr_mapOp (h : Operation → Operation) :
    (g.modifyInstr i (·.mapOp h)).standIn? j = g.standIn? j := by
  rw [standIn?, instr?_modifyInstr]
  split
  · rw [standIn?, Option.bind_map]
    rfl
  · rfl

theorem standIn?_modifyInstr_setStandIn (e : Option InstrId) :
    (g.modifyInstr i (·.setStandIn e)).standIn? j =
      if i = j then (g.instr? j).bind (fun _ => e) else g.standIn? j := by
  rw [standIn?, instr?_modifyInstr]
  split
  · rw [Option.bind_map]
    rfl
  · rfl

@[simp] theorem op?_modifyInstr_setStandIn (e : Option InstrId) :
    (g.modifyInstr i (·.setStandIn e)).op? j = g.op? j := by
  rw [op?, instr?_modifyInstr]
  split
  · rw [op?, Option.map_map]
    rfl
  · rfl

@[simp] theorem home?_modifyInstr_setStandIn (e : Option InstrId) :
    (g.modifyInstr i (·.setStandIn e)).home? j = g.home? j := by
  rw [home?, instr?_modifyInstr]
  split
  · rw [home?, Option.map_map]
    rfl
  · rfl

end ChangeInstr

end Graph
end StructuredSSA
