import StructuredSSA.Graph.Construct
import StructuredSSA.Proofs.Graph.Link

/-!
# What opening a construct does to a graph

Opening an if, an else side or a loop adds blocks and moves edges, in a dozen small updates one
after the other: a fresh block, a role, an origin, an edge set, an edge handed on.  This module
turns each of the three sequences into one record of the answers that the new graph gives, in terms
of those that the old graph gave, and everything further on relies on these records alone.

The argument is the same three times.  Each update has its lemmas, one for every kind of look-up
(`next`, `prev`, `hasRole`, `originOf`, `offered`, `listed`, `binding`); the sequence is cut into
named graphs (`withJoin`, `rejoined`, `sidedIf`, ...) with one lemma that tells all edges of each;
and since the graphs stay `Linked`, the edges backward need no lemmas of their own.

## What is here

* `Graph.SameStock` — the instructions, what blocks list and what they bind are left alone, which
  all three do.
* `Graph.PlainExit` — a block that may be split: it has at most one exit.
* `Graph.OpensIf`, `opensIf_openedIf` — the join takes over the exits of the if block.
* `Graph.OpensElse`, `opensElse_openedElse` — the end of the then side branches to the join and the
  else side falls into it.
* `Graph.OpensLoop`, `exists_opensLoop` — the exit of the loop takes over the exits of the block it
  was opened at.  There are two cases: an empty block becomes the header itself
  (`opensLoop_reused`), any other block gets a new one behind it (`opensLoop_added`).

What opening a construct means for where construction stands is not told here, but in
`Proofs.Layout.Open`, and that the block there is a `PlainExit` in `Proofs.Layout.Basic`.
-/

set_option autoImplicit false

namespace StructuredSSA
namespace Graph

/-! ## Adding a block -/

/-- The graph with one more block, from which the results `a` can be seen. -/
def withBlock (g : Graph) (r : Role) (a : Available) : Graph :=
  { g with blocks := g.blocks.push { Block.fresh g.nextBlock r with available := a } }

theorem block?_withBlock (g : Graph) (r : Role) (a : Available) (b : BlockId) :
    (g.withBlock r a).block? b =
      if b = g.nextBlock then some { Block.fresh g.nextBlock r with available := a }
      else g.block? b :=
  Array.getElem?_push

/-- A block can be added under itself: it exists by the time it is looked for. -/
theorem addBlockUnder_eq {g : Graph} {dom : BlockId} (h : dom ≤ g.blocks.size) (r : Role) :
    g.addBlockUnder dom r = .ok (g.nextBlock, g.withBlock r (g.offered dom)) := by
  obtain ⟨above, hdom, habove⟩ : ∃ above, (g.addBlock r).block dom = .ok above ∧
      above.available = g.offered dom := by
    rcases Nat.lt_or_eq_of_le h with h | rfl
    · obtain ⟨above, habove⟩ := exists_block h
      have hne : dom ≠ g.nextBlock := Nat.ne_of_lt h
      refine ⟨above, ?_, by rw [offered, habove]; rfl⟩
      rw [block_eq_ok_iff, block?_addBlock, if_neg hne, habove]
    · refine ⟨.fresh g.nextBlock r, ?_, ?_⟩
      · rw [block_eq_ok_iff, block?_addBlock]
        exact if_pos rfl
      · rw [offered, block?_eq_none_iff.2 (Nat.le_refl _)]
        rfl
  have hgrown : (g.addBlock r).modifyBlock g.nextBlock
      (fun blk => { blk with available := above.available }) =
      g.withBlock r (g.offered dom) := by
    have hblocks : ∀ b, ((g.addBlock r).modifyBlock g.nextBlock
        (fun blk => { blk with available := above.available })).block? b =
        (g.withBlock r (g.offered dom)).block? b := by
      intro b
      rw [block?_modifyBlock, block?_addBlock, block?_withBlock, habove]
      by_cases hb : b = g.nextBlock
      · subst hb
        simp
      · simp [hb, Ne.symm hb]
    have harr : ((g.addBlock r).modifyBlock g.nextBlock
        (fun blk => { blk with available := above.available })).blocks =
        (g.withBlock r (g.offered dom)).blocks := Array.ext_getElem? hblocks
    exact congrArg (fun bs => ({ blocks := bs, instrs := g.instrs } : Graph)) harr
  rw [addBlockUnder]
  simp only [hdom]
  exact congrArg (fun g' => Except.ok (g.nextBlock, g')) hgrown

section WithBlock

variable (g : Graph) (r : Role) (a : Available) (b : BlockId)

theorem block?_nextBlock : g.block? g.nextBlock = none := block?_eq_none_iff.2 (Nat.le_refl _)

@[simp] theorem next_withBlock (e : Edge) : (g.withBlock r a).next e b = g.next e b := by
  rw [next, block?_withBlock]
  split
  · rename_i h
    rw [next, h, block?_nextBlock]
    cases e <;> rfl
  · rfl

@[simp] theorem prev_withBlock (e : Edge) : (g.withBlock r a).prev e b = g.prev e b := by
  rw [prev, block?_withBlock]
  split
  · rename_i h
    rw [prev, h, block?_nextBlock]
    cases e <;> rfl
  · rfl

@[simp] theorem originOf_withBlock : (g.withBlock r a).originOf b = g.originOf b := by
  rw [originOf, block?_withBlock]
  split
  · rename_i h
    rw [originOf, h, block?_nextBlock]
    rfl
  · rfl

@[simp] theorem listed_withBlock : (g.withBlock r a).listed b = g.listed b := by
  rw [listed, block?_withBlock]
  split
  · rename_i h
    rw [listed, h, block?_nextBlock]
    rfl
  · rfl

@[simp] theorem binding_withBlock (x : Var) : (g.withBlock r a).binding b x = g.binding b x := by
  rw [binding, block?_withBlock]
  split
  · rename_i h
    rw [binding, h, block?_nextBlock]
    rfl
  · rfl

theorem offered_withBlock :
    (g.withBlock r a).offered b = if b = g.nextBlock then a else g.offered b := by
  rw [offered, block?_withBlock]
  split <;> rfl

theorem hasRole_withBlock (r' : Role) :
    (g.withBlock r a).hasRole b r' =
      if b = g.nextBlock then decide (r' = r) else g.hasRole b r' := by
  rw [hasRole, block?_withBlock]
  split
  · simp [Block.hasRole, Block.fresh]
  · rfl

@[simp] theorem size_withBlock : (g.withBlock r a).blocks.size = g.blocks.size + 1 := by
  simp [withBlock]

@[simp] theorem instrs_withBlock : (g.withBlock r a).instrs = g.instrs := rfl

theorem Linked.withBlock {g : Graph} (hg : g.Linked) (r : Role) (a : Available) :
    (g.withBlock r a).Linked := by
  intro e c b
  rw [next_withBlock, prev_withBlock]
  exact hg e c b

end WithBlock

/-! ## What is kept -/

/-- The same instructions, listed in the same blocks, with the same bindings.  New blocks are
empty. -/
structure SameStock (g g' : Graph) : Prop where
  instrs_eq : g'.instrs = g.instrs
  listed_eq : ∀ b, g'.listed b = g.listed b
  binding_eq : ∀ b x, g'.binding b x = g.binding b x

namespace SameStock

variable {g g' g'' : Graph}

theorem nextId_eq (h : SameStock g g') : g'.nextId = g.nextId := by
  rw [nextId, h.instrs_eq, nextId]

theorem trans (h : SameStock g g') (h' : SameStock g' g'') : SameStock g g'' :=
  ⟨h'.instrs_eq.trans h.instrs_eq, fun b => (h'.listed_eq b).trans (h.listed_eq b),
    fun b x => (h'.binding_eq b x).trans (h.binding_eq b x)⟩

theorem instr?_eq (h : SameStock g g') (i : InstrId) : g'.instr? i = g.instr? i := by
  cases i with
  | zero => rfl
  | succ k => rw [instr?, h.instrs_eq, instr?]

end SameStock

theorem SameContents.sameStock {g g' : Graph} (h : SameContents g g') : SameStock g g' :=
  ⟨h.instrs_eq, h.listed_eq, h.binding_eq⟩

theorem sameStock_withBlock (g : Graph) (r : Role) (a : Available) :
    SameStock g (g.withBlock r a) :=
  ⟨rfl, listed_withBlock g r a, binding_withBlock g r a⟩

/-! ## Taking over exits -/

/-- A block whose branch edge, if it has one, is the back edge of a loop and its only exit. -/
def PlainExit (g : Graph) (b : BlockId) : Prop :=
  ∀ h, g.next .branch b = some h → g.hasRole h .loopHead = true ∧ g.next .fall b = none

theorem backEdge?_eq {g : Graph} {b : BlockId} {blk : Block} (hblk : g.block? b = some blk)
    (h : g.PlainExit b) : g.backEdge? blk = g.next .branch b := by
  have hnext : g.next .branch b = blk.branchTo := by rw [next, hblk]; rfl
  rw [backEdge?, ← hnext]
  cases hn : g.next .branch b with
  | none => rfl
  | some c => exact if_pos (h c hn).1

theorem fallTo_eq {g : Graph} {b : BlockId} {blk : Block} (hblk : g.block? b = some blk) :
    blk.fallTo = g.next .fall b := by
  rw [next, hblk]
  rfl

theorem sameContents_continueTo (g : Graph) (b : BlockId) (loop fall : Option BlockId) :
    SameContents g (g.continueTo b loop fall) := by
  cases loop with
  | some c => exact sameContents_link g .branch b c
  | none =>
    cases fall with
    | some c => exact sameContents_link g .fall b c
    | none => exact .refl g

/-- The exits `exit`, of which there is at most one, are given to `b`, and taken from the blocks
that had them. -/
theorem next_continueTo {g : Graph} (hg : g.Linked) {b : BlockId} (hb : b < g.blocks.size)
    (exit : Edge → Option BlockId) (hone : exit .branch = none ∨ exit .fall = none)
    (hfree : ∀ e, g.next e b = none) (e : Edge) (a : BlockId) :
    (g.continueTo b (exit .branch) (exit .fall)).next e a =
      if a = b then exit e else if (exit e).isSome ∧ g.next e a = exit e then none
      else g.next e a := by
  cases hbr : exit .branch with
  | some c =>
    have hfall : exit .fall = none := hone.resolve_left (by simp [hbr])
    simp only [continueTo, next_link hg hb]
    cases e with
    | fall => by_cases ha : a = b <;> simp [ha, hfall, hfree]
    | branch => by_cases ha : a = b <;> simp [ha, hbr]
  | none =>
    cases hfall : exit .fall with
    | some c =>
      simp only [continueTo, linkTo, next_link hg hb]
      cases e with
      | fall => by_cases ha : a = b <;> simp [ha, hfall]
      | branch => by_cases ha : a = b <;> simp [ha, hbr, hfree]
    | none =>
      simp only [continueTo, linkTo]
      cases e with
      | fall => by_cases ha : a = b <;> simp [ha, hfall, hfree]
      | branch => by_cases ha : a = b <;> simp [ha, hbr, hfree]

theorem Linked.continueTo {g : Graph} (hg : g.Linked) {b : BlockId} (hb : b < g.blocks.size)
    {loop fall : Option BlockId} (hloop : ∀ c, loop = some c → c < g.blocks.size)
    (hfall : ∀ c, fall = some c → c < g.blocks.size) : (g.continueTo b loop fall).Linked := by
  cases loop with
  | some c => exact hg.link hb (hloop c rfl) .branch
  | none =>
    cases fall with
    | some c => exact hg.link hb (hfall c rfl) .fall
    | none => exact hg

theorem next_setOrigin (g : Graph) (b origin : BlockId) (e : Edge) (c : BlockId) :
    (g.setOrigin b origin).next e c = g.next e c := by
  rw [setOrigin, next_modifyBlock]
  split
  · cases e <;> rfl
  · rfl

theorem prev_setOrigin (g : Graph) (b origin : BlockId) (e : Edge) (c : BlockId) :
    (g.setOrigin b origin).prev e c = g.prev e c := by
  rw [setOrigin, prev_modifyBlock]
  split
  · cases e <;> rfl
  · rfl

theorem sameStock_setOrigin (g : Graph) (b origin : BlockId) :
    SameStock g (g.setOrigin b origin) := by
  refine ⟨rfl, fun c => ?_, fun c x => ?_⟩
  · rw [setOrigin, listed_modifyBlock]
    split <;> rfl
  · rw [setOrigin, binding_modifyBlock]
    split <;> rfl

theorem Linked.setOrigin {g : Graph} (hg : g.Linked) (b origin : BlockId) :
    (g.setOrigin b origin).Linked := by
  intro e c d
  rw [next_setOrigin, prev_setOrigin]
  exact hg e c d

/-! ## Opening an if -/

/-- `g'` is `g` with an if opened at `parent`, whose sides will meet in `join` and whose then side
starts with `side`. -/
structure OpensIf (g : Graph) (parent join side : BlockId) (g' : Graph) : Prop where
  join_eq : join = g.blocks.size
  side_eq : side = g.blocks.size + 1
  size_eq : g'.blocks.size = g.blocks.size + 2
  linked : g'.Linked
  next_join : ∀ e, g'.next e join = g.next e parent
  fall_parent : g'.next .fall parent = some side
  branch_parent : g'.next .branch parent = some join
  fall_side : g'.next .fall side = some join
  branch_side : g'.next .branch side = none
  next_other : ∀ e b, b < g.blocks.size → b ≠ parent → g'.next e b = g.next e b
  hasRole_eq : ∀ b r, g'.hasRole b r =
    (g.hasRole b r || decide (b = parent ∧ r = .ifHead) || decide (b = join ∧ r = .join) ||
      decide (b = side ∧ r = .thenSide))
  originOf_eq : ∀ b, g'.originOf b = if b = join then some parent else g.originOf b
  offered_eq : ∀ b, g'.offered b =
    if b = join ∨ b = side then g.offered parent else g.offered b
  stock : SameStock g g'

theorem hasRole_setOrigin (g : Graph) (b origin c : BlockId) (r : Role) :
    (g.setOrigin b origin).hasRole c r = g.hasRole c r := by
  rw [setOrigin, hasRole, block?_modifyBlock]
  split
  · rw [Option.any_map]
    rfl
  · rfl

theorem offered_setOrigin (g : Graph) (b origin c : BlockId) :
    (g.setOrigin b origin).offered c = g.offered c := by
  rw [setOrigin, offered_modifyBlock]
  split <;> rfl

theorem originOf_setOrigin {g : Graph} {b : BlockId} (hb : b < g.blocks.size)
    (origin c : BlockId) :
    (g.setOrigin b origin).originOf c = if c = b then some origin else g.originOf c := by
  obtain ⟨blk, hblk⟩ := exists_block hb
  rw [setOrigin, originOf, block?_modifyBlock]
  by_cases h : c = b
  · subst h
    simp [hblk]
  · rw [if_neg (Ne.symm h), if_neg h]
    rfl

@[simp] theorem size_setOrigin (g : Graph) (b origin : BlockId) :
    (g.setOrigin b origin).blocks.size = g.blocks.size :=
  size_modifyBlock g b _

theorem hasRole_addRole {g : Graph} {b : BlockId} (hb : b < g.blocks.size) (r : Role)
    (c : BlockId) (r' : Role) :
    (g.modifyBlock b (·.addRole r)).hasRole c r' =
      (g.hasRole c r' || decide (c = b ∧ r' = r)) := by
  obtain ⟨blk, hblk⟩ := exists_block hb
  rw [hasRole, block?_modifyBlock]
  by_cases h : c = b
  · subst h
    simp [hblk, Block.hasRole_addRole, hasRole, eq_comm]
  · simp [h, Ne.symm h, hasRole]

theorem Block.addRole_eq (r : Role) : Block.addRole r = fun blk : Block =>
    { blk with roles := if blk.hasRole r then blk.roles else r :: blk.roles } := by
  funext blk
  rw [Block.addRole]
  split <;> rfl

theorem next_addRole (g : Graph) (b : BlockId) (r : Role) (e : Edge) (c : BlockId) :
    (g.modifyBlock b (·.addRole r)).next e c = g.next e c := by
  rw [Block.addRole_eq, next_modifyBlock]
  split
  · cases e <;> rfl
  · rfl

theorem prev_addRole (g : Graph) (b : BlockId) (r : Role) (e : Edge) (c : BlockId) :
    (g.modifyBlock b (·.addRole r)).prev e c = g.prev e c := by
  rw [Block.addRole_eq, prev_modifyBlock]
  split
  · cases e <;> rfl
  · rfl

theorem Linked.addRole {g : Graph} (hg : g.Linked) (b : BlockId) (r : Role) :
    (g.modifyBlock b (·.addRole r)).Linked := by
  intro e c d
  rw [next_addRole, prev_addRole]
  exact hg e c d

theorem originOf_addRole (g : Graph) (b : BlockId) (r : Role) (c : BlockId) :
    (g.modifyBlock b (·.addRole r)).originOf c = g.originOf c := by
  rw [Block.addRole_eq, originOf, block?_modifyBlock]
  split
  · rw [Option.bind_map]
    rfl
  · rfl

theorem offered_addRole (g : Graph) (b : BlockId) (r : Role) (c : BlockId) :
    (g.modifyBlock b (·.addRole r)).offered c = g.offered c := by
  rw [Block.addRole_eq, offered_modifyBlock]
  split <;> rfl

theorem sameStock_addRole (g : Graph) (b : BlockId) (r : Role) :
    SameStock g (g.modifyBlock b (·.addRole r)) := by
  rw [Block.addRole_eq]
  refine ⟨rfl, fun c => ?_, fun c x => ?_⟩
  · rw [listed_modifyBlock]
    split <;> rfl
  · rw [binding_modifyBlock]
    split <;> rfl

theorem hasRole_nextBlock (g : Graph) (r : Role) : g.hasRole g.nextBlock r = false := by
  rw [hasRole, block?_nextBlock]
  rfl

/-- A block that plays a part is not the next one to be added. -/
theorem ne_nextBlock_of_hasRole {g : Graph} {b : BlockId} {r : Role} (h : g.hasRole b r = true) :
    b ≠ g.nextBlock := by
  rintro rfl
  rw [hasRole_nextBlock] at h
  cases h

theorem PlainExit.mono {g g' : Graph} {b : BlockId} (h : g.PlainExit b)
    (hnext : ∀ e, g'.next e b = g.next e b)
    (hrole : ∀ c, g.hasRole c .loopHead = true → g'.hasRole c .loopHead = true) :
    g'.PlainExit b := by
  intro c hc
  rw [hnext] at hc ⊢
  exact ⟨hrole c (h c hc).1, (h c hc).2⟩

theorem PlainExit.one {g : Graph} {b : BlockId} (h : g.PlainExit b) :
    g.next .branch b = none ∨ g.next .fall b = none := by
  cases hn : g.next .branch b with
  | none => exact .inl rfl
  | some c => exact .inr (h c hn).2

/-- The graph with the join of an if at `parent` added, and not linked yet. -/
def withJoin (g : Graph) (parent : BlockId) : Graph :=
  (g.withBlock .join (g.offered parent)).setOrigin g.blocks.size parent

/-- The graph in which this join has taken over the exits of `parent`, which branches to it. -/
def rejoined (g : Graph) (parent : BlockId) : Graph :=
  ((g.withJoin parent).continueTo g.blocks.size (g.next .branch parent)
    (g.next .fall parent)).link .branch parent g.blocks.size

/-- What `openIf` leads to. -/
def openedIf (g : Graph) (parent : BlockId) : Graph :=
  ((((g.rejoined parent).withBlock .thenSide (g.offered parent)).link
    .fall (g.blocks.size + 1) g.blocks.size).link .fall parent (g.blocks.size + 1)).modifyBlock
      parent (·.addRole .ifHead)

section OpenIf

variable {g : Graph} {parent : BlockId}

@[simp] theorem size_withJoin : (g.withJoin parent).blocks.size = g.blocks.size + 1 := by
  rw [withJoin, size_setOrigin, size_withBlock]

@[simp] theorem next_withJoin (e : Edge) (b : BlockId) :
    (g.withJoin parent).next e b = g.next e b := by
  rw [withJoin, next_setOrigin, next_withBlock]

theorem hasRole_withJoin (b : BlockId) (r : Role) : (g.withJoin parent).hasRole b r =
    if b = g.nextBlock then decide (r = .join) else g.hasRole b r := by
  rw [withJoin, hasRole_setOrigin, hasRole_withBlock]

theorem offered_withJoin (b : BlockId) : (g.withJoin parent).offered b =
    if b = g.nextBlock then g.offered parent else g.offered b := by
  rw [withJoin, offered_setOrigin, offered_withBlock]

theorem originOf_withJoin (b : BlockId) : (g.withJoin parent).originOf b =
    if b = g.nextBlock then some parent else g.originOf b := by
  rw [withJoin, originOf_setOrigin (by rw [size_withBlock]; exact Nat.lt_succ_self _),
    originOf_withBlock, nextBlock]

theorem sameContents_rejoined : SameContents (g.withJoin parent) (g.rejoined parent) :=
  (sameContents_continueTo _ _ _ _).trans (sameContents_link _ _ _ _)

theorem size_rejoined : (g.rejoined parent).blocks.size = g.blocks.size + 1 := by
  rw [sameContents_rejoined.size_eq, size_withJoin]

theorem openIf_eq (hp : parent < g.blocks.size) (hexit : g.PlainExit parent) :
    g.openIf parent = .ok (g.openedIf parent) := by
  have hp₁ : parent < (g.withJoin parent).blocks.size := by
    rw [size_withJoin]
    exact Nat.lt_succ_of_lt hp
  obtain ⟨blk, hblk⟩ := exists_block hp₁
  have hexit₁ : (g.withJoin parent).PlainExit parent := by
    refine hexit.mono (fun e => next_withJoin e parent) fun c hc => ?_
    rw [hasRole_withJoin, if_neg (ne_nextBlock_of_hasRole hc), hc]
  have hback := backEdge?_eq hblk hexit₁
  have hfall := fallTo_eq hblk
  rw [next_withJoin] at hback hfall
  have hne : parent ≠ g.nextBlock := Nat.ne_of_lt hp
  have hside : (g.rejoined parent).addBlockUnder parent .thenSide = .ok (g.blocks.size + 1,
      (g.rejoined parent).withBlock .thenSide (g.offered parent)) := by
    rw [addBlockUnder_eq (Nat.le_of_lt ((sameContents_rejoined.lt_size_iff parent).2 hp₁)),
      nextBlock, size_rejoined, sameContents_rejoined.offered_eq, offered_withJoin, if_neg hne]
  have hblk' : (g.withJoin parent).block parent = .ok blk := block_eq_ok_iff.2 hblk
  simp only [withJoin] at hback hblk'
  simp only [rejoined, withJoin] at hside
  simp only [openIf, addBlockUnder_eq (Nat.le_of_lt hp), bind, Except.bind, pure, Except.pure,
    nextBlock, hblk', hback, hfall, hside]
  rfl

theorem Linked.next_size (hg : g.Linked) (e : Edge) (b : BlockId) :
    g.next e b ≠ some g.blocks.size :=
  fun h => Nat.lt_irrefl _ (hg.target_lt h)

theorem next_eq_none_of_size_le {b : BlockId} (h : g.blocks.size ≤ b) (e : Edge) :
    g.next e b = none := by
  rw [next, block?_eq_none_iff.2 h]
  rfl

theorem Linked.withJoin (hg : g.Linked) : (g.withJoin parent).Linked :=
  (hg.withBlock _ _).setOrigin _ _

/-- The edges when the exits of `parent` have gone to its join, and nothing leads there yet. -/
theorem next_withJoin_continueTo (hg : g.Linked) (hexit : g.PlainExit parent)
    (e : Edge) (b : BlockId) :
    ((g.withJoin parent).continueTo g.blocks.size (g.next .branch parent)
      (g.next .fall parent)).next e b =
      if b = g.blocks.size then g.next e parent else if b = parent then none
      else g.next e b := by
  have hjoin : g.blocks.size < (g.withJoin parent).blocks.size := by
    rw [size_withJoin]
    exact Nat.lt_succ_self _
  have hfree : ∀ e, (g.withJoin parent).next e g.blocks.size = none := fun e => by
    rw [next_withJoin, next_eq_none_of_size_le (Nat.le_refl _)]
  rw [next_continueTo hg.withJoin hjoin (g.next · parent) hexit.one hfree, next_withJoin]
  split
  · rfl
  · split
    · rename_i h
      obtain ⟨c, hc⟩ := Option.isSome_iff_exists.1 h.1
      rw [if_pos (hg.source_unique (h.2.trans hc) hc)]
    · rename_i h
      split
      · rename_i hb
        subst hb
        exact Option.not_isSome_iff_eq_none.1 fun h' => h ⟨h', rfl⟩
      · rfl

theorem linked_withJoin_continueTo (hg : g.Linked) :
    ((g.withJoin parent).continueTo g.blocks.size (g.next .branch parent)
      (g.next .fall parent)).Linked := by
  have hlt : ∀ (e : Edge) c, g.next e parent = some c → c < (g.withJoin parent).blocks.size := by
    intro e c hc
    rw [size_withJoin]
    exact Nat.lt_succ_of_lt (hg.target_lt hc)
  refine hg.withJoin.continueTo ?_ (hlt .branch) (hlt .fall)
  rw [size_withJoin]
  exact Nat.lt_succ_self _

theorem size_withJoin_continueTo : ((g.withJoin parent).continueTo g.blocks.size
    (g.next .branch parent) (g.next .fall parent)).blocks.size = g.blocks.size + 1 := by
  rw [(sameContents_continueTo _ _ _ _).size_eq, size_withJoin]

theorem Linked.rejoined (hg : g.Linked) (hp : parent < g.blocks.size) :
    (g.rejoined parent).Linked := by
  refine (linked_withJoin_continueTo hg).link ?_ ?_ .branch
  · rw [size_withJoin_continueTo]
    exact Nat.lt_succ_of_lt hp
  · rw [size_withJoin_continueTo]
    exact Nat.lt_succ_self _

/-- The edges while `parent` branches to its join and has no then side yet. -/
theorem next_rejoined (hg : g.Linked) (hp : parent < g.blocks.size) (hexit : g.PlainExit parent)
    (e : Edge) (b : BlockId) : (g.rejoined parent).next e b =
      if b = g.blocks.size then g.next e parent
      else if b = parent then (if e = .branch then some g.blocks.size else none)
      else g.next e b := by
  have hp' : parent < ((g.withJoin parent).continueTo g.blocks.size (g.next .branch parent)
      (g.next .fall parent)).blocks.size := by
    rw [size_withJoin_continueTo]
    exact Nat.lt_succ_of_lt hp
  have hne : parent ≠ g.blocks.size := Nat.ne_of_lt hp
  rw [Graph.rejoined, next_link (linked_withJoin_continueTo hg) hp',
    next_withJoin_continueTo hg hexit, next_withJoin_continueTo hg hexit]
  cases e with
  | fall => simp
  | branch =>
    by_cases hb : b = parent
    · subst hb
      simp [hne]
    · by_cases hj : b = g.blocks.size
      · subst hj
        simp [hb, hg.next_size .branch parent]
      · simp [hb, hj, hg.next_size .branch b]

/-- The edges when the then side falls into the join, and nothing leads to it yet. -/
def sidedIf (g : Graph) (parent : BlockId) : Graph :=
  ((g.rejoined parent).withBlock .thenSide (g.offered parent)).link
    .fall (g.blocks.size + 1) g.blocks.size

theorem size_sidedIf : (g.sidedIf parent).blocks.size = g.blocks.size + 2 := by
  rw [sidedIf, (sameContents_link _ _ _ _).size_eq, size_withBlock, size_rejoined]

theorem next_sidedIf (hg : g.Linked) (hp : parent < g.blocks.size) (hexit : g.PlainExit parent)
    (e : Edge) (b : BlockId) : (g.sidedIf parent).next e b =
      if .fall = e ∧ b = g.blocks.size + 1 then some g.blocks.size
      else (g.rejoined parent).next e b := by
  have hg₁ := (hg.rejoined hp).withBlock .thenSide (g.offered parent)
  rw [sidedIf, next_link_fresh hg₁
    (by rw [size_withBlock, size_rejoined]; exact Nat.lt_succ_self _), next_withBlock]
  intro a _
  rw [next_withBlock, next_rejoined hg hp hexit]
  split
  · exact hg.next_size .fall parent
  · split
    · simp
    · exact hg.next_size .fall a

theorem Linked.sidedIf (hg : g.Linked) (hp : parent < g.blocks.size) :
    (g.sidedIf parent).Linked := by
  refine ((hg.rejoined hp).withBlock _ _).link ?_ ?_ .fall
  · rw [size_withBlock, size_rejoined]
    exact Nat.lt_succ_self _
  · rw [size_withBlock, size_rejoined]
    exact Nat.lt_succ_of_lt (Nat.lt_succ_self _)

/-- The edges of the opened if. -/
theorem next_openedIf (hg : g.Linked) (hp : parent < g.blocks.size) (hexit : g.PlainExit parent)
    (e : Edge) (b : BlockId) : (g.openedIf parent).next e b =
      if .fall = e ∧ b = parent then some (g.blocks.size + 1) else (g.sidedIf parent).next e b := by
  rw [openedIf, next_addRole, ← sidedIf, next_link_fresh (hg.sidedIf hp)
    (by rw [size_sidedIf]; exact Nat.lt_succ_of_lt (Nat.lt_succ_of_lt hp))]
  intro a _ h
  rw [next_sidedIf hg hp hexit] at h
  split at h
  · exact absurd (Option.some.inj h) (Nat.ne_of_lt (Nat.lt_succ_self _))
  · have := (hg.rejoined hp).target_lt h
    rw [size_rejoined] at this
    exact Nat.lt_irrefl _ this

/-- **Opening an if** at a block with plain exits succeeds, and does what `OpensIf` says. -/
theorem opensIf_openedIf (hg : g.Linked) (hp : parent < g.blocks.size)
    (hexit : g.PlainExit parent) :
    OpensIf g parent g.blocks.size (g.blocks.size + 1) (g.openedIf parent) := by
  have hne : parent ≠ g.blocks.size := Nat.ne_of_lt hp
  have hne' : parent ≠ g.blocks.size + 1 := Nat.ne_of_lt (Nat.lt_succ_of_lt hp)
  have hnext := next_openedIf hg hp hexit
  simp only [next_sidedIf hg hp hexit, next_rejoined hg hp hexit] at hnext
  -- roles, origins and results do not care about the links
  have hsame : SameContents ((g.rejoined parent).withBlock .thenSide (g.offered parent))
      (((g.sidedIf parent).link .fall parent (g.blocks.size + 1))) :=
    (sameContents_link _ _ _ _).trans (sameContents_link _ _ _ _)
  have hsize : ((g.sidedIf parent).link .fall parent (g.blocks.size + 1)).blocks.size =
      g.blocks.size + 2 := by
    rw [hsame.size_eq, size_withBlock, size_rejoined]
  have hp' : parent < ((g.sidedIf parent).link .fall parent (g.blocks.size + 1)).blocks.size := by
    rw [hsize]
    exact Nat.lt_succ_of_lt (Nat.lt_succ_of_lt hp)
  refine {
    join_eq := rfl
    side_eq := rfl
    size_eq := by rw [openedIf, size_modifyBlock]; exact hsize
    linked := ?_
    next_join := fun e => by rw [hnext]; simp [Ne.symm hne]
    fall_parent := by rw [hnext]; simp
    branch_parent := by rw [hnext]; simp [hne]
    fall_side := by rw [hnext]; simp [Ne.symm hne']
    branch_side := by
      rw [hnext]
      simp [Ne.symm hne', next_eq_none_of_size_le (Nat.le_succ g.blocks.size)]
    next_other := fun e b hb hbp => by
      have h₁ : b ≠ g.blocks.size := Nat.ne_of_lt hb
      have h₂ : b ≠ g.blocks.size + 1 := Nat.ne_of_lt (Nat.lt_succ_of_lt hb)
      rw [hnext]
      simp [h₁, h₂, hbp]
    hasRole_eq := fun b r => ?_
    originOf_eq := fun b => ?_
    offered_eq := fun b => ?_
    stock := ?_ }
  · refine ((hg.sidedIf hp).link ?_ ?_ .fall).addRole _ _
    · rw [size_sidedIf]
      exact Nat.lt_succ_of_lt (Nat.lt_succ_of_lt hp)
    · rw [size_sidedIf]
      exact Nat.lt_succ_self _
  · rw [openedIf, ← sidedIf, hasRole_addRole hp', hsame.hasRole_eq, hasRole_withBlock, nextBlock,
      size_rejoined, sameContents_rejoined.hasRole_eq, hasRole_withJoin, nextBlock]
    by_cases h₁ : b = g.blocks.size
    · subst h₁
      have := hasRole_nextBlock g r
      rw [nextBlock] at this
      simp [this, Ne.symm hne]
    · by_cases h₂ : b = g.blocks.size + 1
      · subst h₂
        have : g.hasRole (g.blocks.size + 1) r = false := by
          rw [hasRole, block?_eq_none_iff.2 (Nat.le_succ _)]
          rfl
        simp [this, Ne.symm hne']
      · simp [h₁, h₂]
  · rw [openedIf, ← sidedIf, originOf_addRole, hsame.originOf_eq, originOf_withBlock,
      sameContents_rejoined.originOf_eq, originOf_withJoin, nextBlock]
  · rw [openedIf, ← sidedIf, offered_addRole, hsame.offered_eq, offered_withBlock, nextBlock,
      size_rejoined, sameContents_rejoined.offered_eq, offered_withJoin, nextBlock]
    by_cases h₁ : b = g.blocks.size <;> by_cases h₂ : b = g.blocks.size + 1 <;> simp [h₁, h₂]
  · exact ((((sameStock_withBlock g .join (g.offered parent)).trans
      (sameStock_setOrigin _ _ _)).trans sameContents_rejoined.sameStock).trans
      ((sameStock_withBlock _ _ _).trans hsame.sameStock)).trans (sameStock_addRole _ _ _)

end OpenIf

/-! ## Opening an else side -/

/-- `g'` is `g` with an else side opened at the if block `parent`: its first block is `side`, and
`thenTail`, at the end of the then side, now branches to the join. -/
structure OpensElse (g : Graph) (parent join thenTail side : BlockId) (g' : Graph) : Prop where
  side_eq : side = g.blocks.size
  size_eq : g'.blocks.size = g.blocks.size + 1
  linked : g'.Linked
  fall_thenTail : g'.next .fall thenTail = none
  branch_thenTail : g'.next .branch thenTail = some join
  fall_parent : g'.next .fall parent = g.next .fall parent
  branch_parent : g'.next .branch parent = some side
  fall_side : g'.next .fall side = some join
  branch_side : g'.next .branch side = none
  next_other : ∀ e b, b < g.blocks.size → b ≠ thenTail → b ≠ parent → g'.next e b = g.next e b
  hasRole_eq : ∀ b r, g'.hasRole b r = (g.hasRole b r || decide (b = side ∧ r = .elseSide))
  originOf_eq : ∀ b, g'.originOf b = g.originOf b
  offered_eq : ∀ b, g'.offered b = if b = side then g.offered parent else g.offered b
  stock : SameStock g g'

/-- The graph in which `thenTail` branches to the join that it fell through into. -/
def turned (g : Graph) (join thenTail : BlockId) : Graph :=
  (g.unlinkNext .fall thenTail).link .branch thenTail join

/-- What `openElse` leads to. -/
def openedElse (g : Graph) (parent join thenTail : BlockId) : Graph :=
  (((g.turned join thenTail).withBlock .elseSide (g.offered parent)).link
    .branch parent g.blocks.size).link .fall g.blocks.size join

section OpenElse

variable {g : Graph} {parent join thenTail : BlockId}

theorem sameContents_turned : SameContents g (g.turned join thenTail) :=
  (sameContents_unlinkNext _ _ _).trans (sameContents_link _ _ _ _)

theorem openElse_eq (hg : g.Linked) (hrole : g.hasRole parent .ifHead = true)
    (hjoin : g.next .branch parent = some join) (htail : g.next .fall thenTail = some join) :
    g.openElse parent = .ok (g.blocks.size, g.openedElse parent join thenTail) := by
  obtain ⟨blk, hblk, hbranch⟩ := Option.bind_eq_some_iff.1 hjoin
  have hblk' : g.block parent = .ok blk := block_eq_ok_iff.2 hblk
  have hrole' : blk.hasRole .ifHead = true := by
    rw [hasRole, hblk] at hrole
    exact hrole
  have hbranch' : blk.branchTo = some join := hbranch
  have hfall : (g.block? join).bind (·.fallFrom) = some thenTail := (hg .fall _ _).1 htail
  have hp : parent < (g.turned join thenTail).blocks.size := by
    rw [sameContents_turned.size_eq]
    exact lt_size_of_next hjoin
  have hside := addBlockUnder_eq (Nat.le_of_lt hp) .elseSide
  rw [nextBlock, sameContents_turned.size_eq, sameContents_turned.offered_eq] at hside
  simp only [turned] at hside
  simp only [openElse, hblk', hrole', hbranch', hfall, hside, require, expect, bind, Except.bind,
    pure, Except.pure, if_true]
  rfl

theorem next_turned (hg : g.Linked) (hjoin : g.next .branch parent = some join)
    (htail : g.next .fall thenTail = some join) (hne : parent ≠ thenTail) (e : Edge)
    (b : BlockId) : (g.turned join thenTail).next e b =
      if b = thenTail then (if e = .branch then some join else none)
      else if b = parent ∧ e = .branch then none else g.next e b := by
  have ht : thenTail < (g.unlinkNext .fall thenTail).blocks.size := by
    rw [(sameContents_unlinkNext _ _ _).size_eq]
    exact lt_size_of_next htail
  rw [turned, next_link (hg.unlinkNext _ _) ht, next_unlinkNext, next_unlinkNext]
  cases e with
  | fall => by_cases hb : b = thenTail <;> simp [hb, Ne.symm]
  | branch =>
    by_cases hb : b = thenTail
    · simp [hb]
    · by_cases hp : b = parent
      · subst hp
        simp [hb, hjoin]
      · have : g.next .branch b ≠ some join := fun h => hp (hg.source_unique h hjoin)
        simp [hb, hp, this]

theorem Linked.turned (hg : g.Linked) (htail : g.next .fall thenTail = some join) :
    (g.turned join thenTail).Linked := by
  refine (hg.unlinkNext _ _).link ?_ ?_ .branch
  · rw [(sameContents_unlinkNext _ _ _).size_eq]
    exact lt_size_of_next htail
  · rw [(sameContents_unlinkNext _ _ _).size_eq]
    exact hg.target_lt htail

/-- **Opening an else side** does what `OpensElse` says. -/
theorem opensElse_openedElse (hg : g.Linked) (hjoin : g.next .branch parent = some join)
    (htail : g.next .fall thenTail = some join) (hne : parent ≠ thenTail) :
    OpensElse g parent join thenTail g.blocks.size (g.openedElse parent join thenTail) := by
  have hp := lt_size_of_next hjoin
  have ht := lt_size_of_next htail
  have hj := hg.target_lt htail
  have hpn : parent ≠ g.blocks.size := Nat.ne_of_lt hp
  have htn : thenTail ≠ g.blocks.size := Nat.ne_of_lt ht
  let g₁ := (g.turned join thenTail).withBlock .elseSide (g.offered parent)
  have hg₁ : g₁.Linked := (hg.turned htail).withBlock _ _
  have hsize₁ : g₁.blocks.size = g.blocks.size + 1 := by
    rw [size_withBlock, sameContents_turned.size_eq]
  have hnext₁ : ∀ e b, g₁.next e b = if b = thenTail then (if e = .branch then some join else none)
      else if b = parent ∧ e = .branch then none else g.next e b := fun e b => by
    rw [next_withBlock, next_turned hg hjoin htail hne]
  have hp₁ : parent < g₁.blocks.size := by
    rw [hsize₁]
    exact Nat.lt_succ_of_lt hp
  have hs₁ : g.blocks.size < g₁.blocks.size := by
    rw [hsize₁]
    exact Nat.lt_succ_self _
  have hg₂ := hg₁.link hp₁ hs₁ .branch
  have hsize₂ := (sameContents_link g₁ .branch parent g.blocks.size).size_eq
  have hnext₂ : ∀ e b, (g₁.link .branch parent g.blocks.size).next e b =
      if .branch = e ∧ b = parent then some g.blocks.size else g₁.next e b := by
    refine next_link_fresh hg₁ hp₁ fun a _ h => ?_
    rw [next_withBlock] at h
    have := (hg.turned htail).target_lt h
    rw [sameContents_turned.size_eq] at this
    exact Nat.lt_irrefl _ this
  have hnext₃ : ∀ e b, (g.openedElse parent join thenTail).next e b =
      if .fall = e ∧ b = g.blocks.size then some join
      else (g₁.link .branch parent g.blocks.size).next e b := by
    refine next_link_fresh hg₂ (by rw [hsize₂]; exact hs₁) fun a _ h => ?_
    rw [hnext₂, hnext₁] at h
    by_cases ha : a = thenTail
    · simp [ha] at h
    · simp only [reduceCtorEq, false_and, and_false, if_false, ha] at h
      exact ha (hg.source_unique h htail)
  have hsame : SameContents g₁ (g.openedElse parent join thenTail) :=
    (sameContents_link _ _ _ _).trans (sameContents_link _ _ _ _)
  simp only [hnext₂, hnext₁] at hnext₃
  refine {
    side_eq := rfl
    size_eq := by rw [hsame.size_eq, hsize₁]
    linked := hg₂.link (by rw [hsize₂]; exact hs₁)
      (by rw [hsize₂, hsize₁]; exact Nat.lt_succ_of_lt hj) .fall
    fall_thenTail := by rw [hnext₃]; simp [htn]
    branch_thenTail := by rw [hnext₃]; simp [Ne.symm hne]
    fall_parent := by rw [hnext₃]; simp [hpn, hne]
    branch_parent := by rw [hnext₃]; simp
    fall_side := by rw [hnext₃]; simp
    branch_side := by
      rw [hnext₃]
      simp [Ne.symm hpn, Ne.symm htn, next_eq_none_of_size_le (Nat.le_refl g.blocks.size)]
    next_other := fun e b hb hbt hbp => by
      have h₁ : b ≠ g.blocks.size := Nat.ne_of_lt hb
      rw [hnext₃]
      simp [h₁, hbt, hbp]
    hasRole_eq := fun b r => ?_
    originOf_eq := fun b => ?_
    offered_eq := fun b => ?_
    stock := (sameContents_turned.sameStock.trans (sameStock_withBlock _ _ _)).trans
      hsame.sameStock }
  · rw [hsame.hasRole_eq, hasRole_withBlock, nextBlock, sameContents_turned.size_eq,
      sameContents_turned.hasRole_eq]
    by_cases h : b = g.blocks.size
    · subst h
      have := hasRole_nextBlock g r
      rw [nextBlock] at this
      simp [this]
    · simp [h]
  · rw [hsame.originOf_eq, originOf_withBlock, sameContents_turned.originOf_eq]
  · rw [hsame.offered_eq, offered_withBlock, nextBlock, sameContents_turned.size_eq,
      sameContents_turned.offered_eq]

end OpenElse

/-! ## Opening a loop -/

/-- `g'` is `g` with a loop opened at `b`.  Either `b` itself, which nothing branches to and which
lists nothing, is the header, or it falls through into the header. -/
structure OpensLoop (g : Graph) (b head body exit : BlockId) (g' : Graph) : Prop where
  head_eq : head = b ∧ body = g.blocks.size ∧ g.listed b = [] ∧ g.prev .branch b = none ∨
    head = g.blocks.size ∧ body = g.blocks.size + 1
  exit_eq : exit = body + 1
  size_eq : g'.blocks.size = body + 2
  linked : g'.Linked
  fall_start : b ≠ head → g'.next .fall b = some head
  branch_start : b ≠ head → g'.next .branch b = none
  fall_head : g'.next .fall head = some body
  branch_head : g'.next .branch head = some exit
  fall_body : g'.next .fall body = none
  branch_body : g'.next .branch body = some head
  next_exit : ∀ e, g'.next e exit = g.next e b
  next_other : ∀ e c, c < g.blocks.size → c ≠ b → g'.next e c = g.next e c
  hasRole_eq : ∀ c r, g'.hasRole c r =
    (g.hasRole c r || decide (c = head ∧ r = .loopHead) || decide (c = body ∧ r = .loopBody) ||
      decide (c = exit ∧ r = .loopExit))
  originOf_eq : ∀ c, g'.originOf c = if c = exit then some head else g.originOf c
  offered_eq : ∀ c, g'.offered c =
    if c = head ∨ c = body ∨ c = exit then g.offered b else g.offered c
  stock : SameStock g g'

namespace OpensLoop

variable {g g' : Graph} {b head body exit : BlockId}

theorem size_le_body (h : OpensLoop g b head body exit g') : g.blocks.size ≤ body := by
  rcases h.head_eq with ⟨-, hb, -⟩ | ⟨-, hb⟩
  · exact Nat.le_of_eq hb.symm
  · exact hb ▸ Nat.le_succ _

theorem size_le_exit (h : OpensLoop g b head body exit g') : g.blocks.size ≤ exit :=
  h.exit_eq ▸ Nat.le_succ_of_le h.size_le_body

theorem size_le (h : OpensLoop g b head body exit g') : g.blocks.size ≤ g'.blocks.size :=
  h.size_eq ▸ Nat.le_add_right_of_le h.size_le_body

/-- The header is the block at which the loop is opened, or it is new. -/
theorem head_cases (h : OpensLoop g b head body exit g') : head = b ∨ g.blocks.size ≤ head :=
  h.head_eq.imp (fun h' => h'.1) fun h' => Nat.le_of_eq h'.1.symm

theorem distinct (h : OpensLoop g b head body exit g') (hb : b < g.blocks.size) :
    head ≠ body ∧ head ≠ exit ∧ body ≠ exit := by
  have hx := h.exit_eq
  have hh := h.head_eq
  dsimp only [BlockId] at *
  omega

end OpensLoop

/-- The graph in which `b` falls through into a new loop header, and leads nowhere else. -/
def withHead (g : Graph) (b : BlockId) : Graph :=
  ((g.unlinkNext .branch b).withBlock .loopHead (g.offered b)).link .fall b g.blocks.size

/-- The graph in which `head` falls through into a new block that branches back to it. -/
def withLoopBody (g : Graph) (head : BlockId) : Graph :=
  ((g.withBlock .loopBody (g.offered head)).link .fall head g.blocks.size).link
    .branch g.blocks.size head

/-- The graph in which `head` branches to a new block behind its loop. -/
def withLoopExit (g : Graph) (head : BlockId) : Graph :=
  ((g.withBlock .loopExit (g.offered head)).setOrigin g.blocks.size head).link
    .branch head g.blocks.size

/-- The graph with the loop that `head` heads, left with the exits `branch` and `fall`. -/
def withLoop (g : Graph) (head : BlockId) (branch fall : Option BlockId) : Graph :=
  ((g.withLoopBody head).withLoopExit head).continueTo (g.blocks.size + 1) branch fall

section OpenLoop

variable {g : Graph} {head : BlockId}

theorem size_withLoopBody : (g.withLoopBody head).blocks.size = g.blocks.size + 1 := by
  rw [withLoopBody, ((sameContents_link _ _ _ _).trans (sameContents_link _ _ _ _)).size_eq,
    size_withBlock]

theorem size_withLoopExit : (g.withLoopExit head).blocks.size = g.blocks.size + 1 := by
  rw [withLoopExit, (sameContents_link _ _ _ _).size_eq, size_setOrigin, size_withBlock]

theorem next_withLoopBody (hg : g.Linked) (hh : head < g.blocks.size)
    (hback : g.prev .branch head = none) (e : Edge) (c : BlockId) :
    (g.withLoopBody head).next e c =
      if c = g.blocks.size then (if e = .branch then some head else none)
      else if c = head ∧ e = .fall then some g.blocks.size else g.next e c := by
  have hne : head ≠ g.blocks.size := Nat.ne_of_lt hh
  have hg₁ := hg.withBlock .loopBody (g.offered head)
  have hh₁ : head < (g.withBlock .loopBody (g.offered head)).blocks.size := by
    rw [size_withBlock]
    exact Nat.lt_succ_of_lt hh
  have hb₁ : g.blocks.size < (g.withBlock .loopBody (g.offered head)).blocks.size := by
    rw [size_withBlock]
    exact Nat.lt_succ_self _
  have hsize₂ := (sameContents_link (g.withBlock .loopBody (g.offered head)) .fall head
    g.blocks.size).size_eq
  have hfresh₂ : ∀ a, a ≠ head →
      (g.withBlock .loopBody (g.offered head)).next .fall a ≠ some g.blocks.size := fun a _ h => by
    rw [next_withBlock] at h
    exact hg.next_size _ _ h
  have hnext₂ := next_link_fresh hg₁ hh₁ hfresh₂
  rw [withLoopBody, next_link_fresh (hg₁.link hh₁ hb₁ .fall) (by rw [hsize₂]; exact hb₁), hnext₂,
    next_withBlock]
  · have hnone := next_eq_none_of_size_le (g := g) (Nat.le_refl g.blocks.size)
    cases e with
    | fall => by_cases hc : c = g.blocks.size <;> simp [hc, hnone, Ne.symm hne]
    | branch => by_cases hc : c = g.blocks.size <;> simp [hc]
  · intro a _ h
    rw [hnext₂, next_withBlock] at h
    simp only [reduceCtorEq, false_and, if_false] at h
    rw [(hg _ _ _).1 h] at hback
    cases hback

theorem Linked.withLoopBody (hg : g.Linked) (hh : head < g.blocks.size) :
    (g.withLoopBody head).Linked := by
  have hh₁ : head < (g.withBlock .loopBody (g.offered head)).blocks.size := by
    rw [size_withBlock]
    exact Nat.lt_succ_of_lt hh
  have hb₁ : g.blocks.size < (g.withBlock .loopBody (g.offered head)).blocks.size := by
    rw [size_withBlock]
    exact Nat.lt_succ_self _
  refine ((hg.withBlock _ _).link hh₁ hb₁ .fall).link ?_ ?_ .branch
  · rw [(sameContents_link _ _ _ _).size_eq]
    exact hb₁
  · rw [(sameContents_link _ _ _ _).size_eq]
    exact hh₁

theorem next_withLoopExit (hg : g.Linked) (hh : head < g.blocks.size) (e : Edge) (c : BlockId) :
    (g.withLoopExit head).next e c =
      if .branch = e ∧ c = head then some g.blocks.size else g.next e c := by
  rw [withLoopExit, next_link_fresh ((hg.withBlock _ _).setOrigin _ _)
    (by rw [size_setOrigin, size_withBlock]; exact Nat.lt_succ_of_lt hh), next_setOrigin,
    next_withBlock]
  intro a _ h
  rw [next_setOrigin, next_withBlock] at h
  exact hg.next_size _ _ h

theorem Linked.withLoopExit (hg : g.Linked) (hh : head < g.blocks.size) :
    (g.withLoopExit head).Linked := by
  refine ((hg.withBlock _ _).setOrigin _ _).link ?_ ?_ .branch
  · rw [size_setOrigin, size_withBlock]
    exact Nat.lt_succ_of_lt hh
  · rw [size_setOrigin, size_withBlock]
    exact Nat.lt_succ_self _

theorem size_withLoop {branch fall : Option BlockId} :
    (g.withLoop head branch fall).blocks.size = g.blocks.size + 2 := by
  rw [withLoop, (sameContents_continueTo _ _ _ _).size_eq, size_withLoopExit, size_withLoopBody]

theorem Linked.withLoop (hg : g.Linked) (hh : head < g.blocks.size) (exit : Edge → Option BlockId)
    (hexit : ∀ e t, exit e = some t → t < g.blocks.size) :
    (g.withLoop head (exit .branch) (exit .fall)).Linked := by
  have hlt : ∀ e t, exit e = some t →
      t < ((g.withLoopBody head).withLoopExit head).blocks.size := fun e t h => by
    rw [size_withLoopExit, size_withLoopBody]
    exact Nat.lt_succ_of_lt (Nat.lt_succ_of_lt (hexit e t h))
  refine Linked.continueTo ((hg.withLoopBody hh).withLoopExit ?_) ?_ (hlt .branch) (hlt .fall)
  · rw [size_withLoopBody]
    exact Nat.lt_succ_of_lt hh
  · rw [size_withLoopExit, size_withLoopBody]
    exact Nat.lt_succ_self _

/-- The edges of the opened loop, if the exits that it is left with are not in use elsewhere. -/
theorem next_withLoop (hg : g.Linked) (hh : head < g.blocks.size)
    (hback : g.prev .branch head = none) (exit : Edge → Option BlockId)
    (hone : exit .branch = none ∨ exit .fall = none) (hself : exit .branch ≠ some head)
    (hlt : ∀ e t, exit e = some t → t < g.blocks.size)
    (hfree : ∀ e t c, exit e = some t → c ≠ head → g.next e c ≠ some t) (e : Edge) (c : BlockId) :
    (g.withLoop head (exit .branch) (exit .fall)).next e c =
      if c = g.blocks.size + 1 then exit e
      else if c = g.blocks.size then (if e = .branch then some head else none)
      else if c = head then (if e = .branch then some (g.blocks.size + 1) else some g.blocks.size)
      else g.next e c := by
  have hne : head ≠ g.blocks.size := Nat.ne_of_lt hh
  have hne' : head ≠ g.blocks.size + 1 := Nat.ne_of_lt (Nat.lt_succ_of_lt hh)
  have hg₁ := hg.withLoopBody hh
  have hh₁ : head < (g.withLoopBody head).blocks.size := by
    rw [size_withLoopBody]
    exact Nat.lt_succ_of_lt hh
  have hg₂ := hg₁.withLoopExit hh₁
  have hx : g.blocks.size + 1 < ((g.withLoopBody head).withLoopExit head).blocks.size := by
    rw [size_withLoopExit, size_withLoopBody]
    exact Nat.lt_succ_self _
  have hnext : ∀ e c, ((g.withLoopBody head).withLoopExit head).next e c =
      if c = g.blocks.size then (if e = .branch then some head else none)
      else if c = head then (if e = .branch then some (g.blocks.size + 1) else some g.blocks.size)
      else g.next e c := fun e c => by
    rw [next_withLoopExit hg₁ hh₁, size_withLoopBody, next_withLoopBody hg hh hback]
    cases e with
    | fall => by_cases hc : c = g.blocks.size <;> simp [hc]
    | branch =>
      by_cases hc : c = g.blocks.size
      · simp [hc, Ne.symm hne]
      · simp [hc]
  have hnone : ∀ e,
      ((g.withLoopBody head).withLoopExit head).next e (g.blocks.size + 1) = none := by
    intro e
    rw [hnext]
    simp [Ne.symm hne', next_eq_none_of_size_le (Nat.le_succ g.blocks.size)]
  rw [withLoop, next_continueTo hg₂ hx exit hone hnone, hnext]
  by_cases hcx : c = g.blocks.size + 1
  · simp [hcx]
  · rw [if_neg hcx, if_neg hcx, if_neg]
    rintro ⟨hsome, heq⟩
    obtain ⟨t, ht⟩ := Option.isSome_iff_exists.1 hsome
    rw [ht] at heq
    have htlt := hlt e t ht
    split at heq
    · -- the back edge leads to `head`, which no exit leads to
      split at heq
      · rename_i he
        rw [he] at ht
        exact hself (ht.trans heq.symm)
      · cases heq
    · split at heq
      · split at heq
        · cases heq
          exact absurd htlt (Nat.not_lt_of_lt (Nat.lt_succ_self _))
        · cases heq
          exact absurd htlt (Nat.lt_irrefl _)
      · rename_i hch
        exact hfree e t c ht hch heq

theorem hasRole_eq_false_of_size_le {b : BlockId} (h : g.blocks.size ≤ b) (r : Role) :
    g.hasRole b r = false := by
  rw [hasRole, block?_eq_none_iff.2 h]
  rfl

theorem lt_size_of_hasRole {b : BlockId} {r : Role} (h : g.hasRole b r = true) :
    b < g.blocks.size :=
  Nat.not_le.1 fun hle => by simp [hasRole_eq_false_of_size_le hle] at h

theorem hasRole_withLoop {branch fall : Option BlockId} (c : BlockId) (r : Role) :
    (g.withLoop head branch fall).hasRole c r =
      (g.hasRole c r || decide (c = g.blocks.size ∧ r = .loopBody) ||
        decide (c = g.blocks.size + 1 ∧ r = .loopExit)) := by
  rw [withLoop, (sameContents_continueTo _ _ _ _).hasRole_eq, withLoopExit,
    (sameContents_link _ _ _ _).hasRole_eq, hasRole_setOrigin, hasRole_withBlock, nextBlock,
    size_withLoopBody, withLoopBody,
    ((sameContents_link _ _ _ _).trans (sameContents_link _ _ _ _)).hasRole_eq, hasRole_withBlock,
    nextBlock]
  by_cases h₁ : c = g.blocks.size
  · subst h₁
    simp [hasRole_eq_false_of_size_le (Nat.le_refl g.blocks.size)]
  · by_cases h₂ : c = g.blocks.size + 1
    · subst h₂
      simp [hasRole_eq_false_of_size_le (Nat.le_succ g.blocks.size)]
    · simp [h₁, h₂]

theorem originOf_withLoop {branch fall : Option BlockId} (c : BlockId) :
    (g.withLoop head branch fall).originOf c =
      if c = g.blocks.size + 1 then some head else g.originOf c := by
  have hx : g.blocks.size + 1 < ((g.withLoopBody head).withBlock .loopExit
      ((g.withLoopBody head).offered head)).blocks.size := by
    rw [size_withBlock, size_withLoopBody]
    exact Nat.lt_succ_self _
  rw [withLoop, (sameContents_continueTo _ _ _ _).originOf_eq, withLoopExit,
    (sameContents_link _ _ _ _).originOf_eq, size_withLoopBody, originOf_setOrigin hx,
    originOf_withBlock, withLoopBody,
    ((sameContents_link _ _ _ _).trans (sameContents_link _ _ _ _)).originOf_eq,
    originOf_withBlock]

theorem offered_withLoop (hh : head < g.blocks.size) {branch fall : Option BlockId}
    (c : BlockId) : (g.withLoop head branch fall).offered c =
      if c = g.blocks.size ∨ c = g.blocks.size + 1 then g.offered head else g.offered c := by
  have hne : head ≠ g.blocks.size := Nat.ne_of_lt hh
  have hbody : ∀ c, (g.withLoopBody head).offered c =
      if c = g.blocks.size then g.offered head else g.offered c := fun c => by
    rw [withLoopBody, ((sameContents_link _ _ _ _).trans (sameContents_link _ _ _ _)).offered_eq,
      offered_withBlock, nextBlock]
  rw [withLoop, (sameContents_continueTo _ _ _ _).offered_eq, withLoopExit,
    (sameContents_link _ _ _ _).offered_eq, offered_setOrigin, offered_withBlock, nextBlock,
    size_withLoopBody, hbody, hbody, if_neg hne]
  by_cases h₁ : c = g.blocks.size <;> by_cases h₂ : c = g.blocks.size + 1 <;> simp [h₁, h₂]

theorem sameStock_withLoop {branch fall : Option BlockId} :
    SameStock g (g.withLoop head branch fall) := by
  have hbody : SameStock g (g.withLoopBody head) := (sameStock_withBlock _ _ _).trans
    ((sameContents_link _ _ _ _).trans (sameContents_link _ _ _ _)).sameStock
  exact (hbody.trans (((sameStock_withBlock _ _ _).trans (sameStock_setOrigin _ _ _)).trans
    (sameContents_link _ _ _ _).sameStock)).trans (sameContents_continueTo _ _ _ _).sameStock

/-- What is left to do once the header is there. -/
theorem openLoop_eq {b : BlockId} {g₁ : Graph} (hb : b < g.blocks.size) (hexit : g.PlainExit b)
    (hopen : (g.unlinkNext .branch b).openHead b = .ok (head, g₁)) (hh : head < g₁.blocks.size) :
    g.openLoop b = .ok (head, g₁.withLoop head (g.next .branch b) (g.next .fall b)) := by
  obtain ⟨blk, hblk⟩ := exists_block hb
  have hblk' : g.block b = .ok blk := block_eq_ok_iff.2 hblk
  have hback := backEdge?_eq hblk hexit
  have hfall := fallTo_eq hblk
  have hstart : (if (g.next .branch b).isSome then g.unlinkNext .branch b else g) =
      g.unlinkNext .branch b := by
    split
    · rfl
    · rename_i h
      have hnone : (g.block? b).bind (·.next .branch) = none :=
        Option.not_isSome_iff_eq_none.1 h
      rw [unlinkNext, hnone]
  have hbody : g₁.addBlockUnder head .loopBody =
      .ok (g₁.blocks.size, g₁.withBlock .loopBody (g₁.offered head)) :=
    addBlockUnder_eq (Nat.le_of_lt hh) _
  have hexit' : (g₁.withLoopBody head).addBlockUnder head .loopExit = .ok (g₁.blocks.size + 1,
      (g₁.withLoopBody head).withBlock .loopExit ((g₁.withLoopBody head).offered head)) := by
    rw [addBlockUnder_eq (by rw [size_withLoopBody]; exact Nat.le_succ_of_le (Nat.le_of_lt hh)),
      nextBlock, size_withLoopBody]
  simp only [withLoopBody] at hexit'
  simp only [openLoop, hblk', hback, hstart, hopen, hbody, hexit', hfall, bind, Except.bind, pure,
    Except.pure]
  rw [withLoop, withLoopExit, size_withLoopBody]
  rfl

/-- The block itself becomes the header. -/
theorem opensLoop_reused {b : BlockId} (hg : g.Linked) (hb : b < g.blocks.size)
    (hexit : g.PlainExit b) (hself : g.next .branch b ≠ some b) (hlist : g.listed b = [])
    (hprev : g.prev .branch b = none) :
    OpensLoop g b b g.blocks.size (g.blocks.size + 1)
      (((g.unlinkNext .branch b).modifyBlock b (·.addRole .loopHead)).withLoop b
        (g.next .branch b) (g.next .fall b)) := by
  have hsame := sameContents_unlinkNext g .branch b
  have hg₁ := (hg.unlinkNext .branch b).addRole b .loopHead
  have hsize₁ : ((g.unlinkNext .branch b).modifyBlock b (·.addRole .loopHead)).blocks.size =
      g.blocks.size := by
    rw [size_modifyBlock, hsame.size_eq]
  have hb₁ : b < ((g.unlinkNext .branch b).modifyBlock b (·.addRole .loopHead)).blocks.size := by
    rw [hsize₁]
    exact hb
  have hback : ((g.unlinkNext .branch b).modifyBlock b (·.addRole .loopHead)).prev .branch b =
      none := by
    rw [prev_addRole, prev_unlinkNext]
    split
    · rfl
    · exact hprev
  have hlt : ∀ e t, g.next e b = some t →
      t < ((g.unlinkNext .branch b).modifyBlock b (·.addRole .loopHead)).blocks.size := by
    intro e t ht
    rw [hsize₁]
    exact hg.target_lt ht
  have hnext := next_withLoop hg₁ hb₁ hback (g.next · b) hexit.one hself hlt
    (fun e t c ht hc h => by
      rw [next_addRole, next_unlinkNext] at h
      split at h
      · cases h
      · exact hc (hg.source_unique h ht))
  simp only [hsize₁, next_addRole, next_unlinkNext] at hnext
  have hne : b ≠ g.blocks.size := Nat.ne_of_lt hb
  have hne' : b ≠ g.blocks.size + 1 := Nat.ne_of_lt (Nat.lt_succ_of_lt hb)
  refine {
    head_eq := .inl ⟨rfl, rfl, hlist, hprev⟩
    exit_eq := rfl
    size_eq := by rw [size_withLoop, hsize₁]
    linked := hg₁.withLoop hb₁ (g.next · b) hlt
    fall_start := fun h => absurd rfl h
    branch_start := fun h => absurd rfl h
    fall_head := by rw [hnext]; simp [hne, hne']
    branch_head := by rw [hnext]; simp [hne, hne']
    fall_body := by rw [hnext]; simp
    branch_body := by rw [hnext]; simp
    next_exit := fun e => by rw [hnext]; simp
    next_other := fun e c hc hcb => by
      have h₁ : c ≠ g.blocks.size := Nat.ne_of_lt hc
      have h₂ : c ≠ g.blocks.size + 1 := Nat.ne_of_lt (Nat.lt_succ_of_lt hc)
      rw [hnext]
      simp [h₁, h₂, hcb, Ne.symm hcb]
    hasRole_eq := fun c r => ?_
    originOf_eq := fun c => ?_
    offered_eq := fun c => ?_
    stock := (hsame.sameStock.trans (sameStock_addRole _ _ _)).trans sameStock_withLoop }
  · rw [hasRole_withLoop, hsize₁, hasRole_addRole (by rw [hsame.size_eq]; exact hb),
      hsame.hasRole_eq]
  · rw [originOf_withLoop, hsize₁, originOf_addRole, hsame.originOf_eq]
  · rw [offered_withLoop hb₁, hsize₁, offered_addRole, offered_addRole, hsame.offered_eq,
      hsame.offered_eq]
    by_cases hc : c = b
    · simp [hc]
    · simp [hc]

section WithHead

variable {b : BlockId}

theorem sameContents_withHead : SameContents
    ((g.unlinkNext .branch b).withBlock .loopHead (g.offered b)) (g.withHead b) :=
  sameContents_link _ .fall b g.blocks.size

theorem sameStock_withHead : SameStock g (g.withHead b) :=
  ((sameContents_unlinkNext g .branch b).sameStock.trans (sameStock_withBlock _ _ _)).trans
    sameContents_withHead.sameStock

theorem size_withHead : (g.withHead b).blocks.size = g.blocks.size + 1 := by
  rw [sameContents_withHead.size_eq, size_withBlock, (sameContents_unlinkNext g .branch b).size_eq]

theorem hasRole_withHead (c : BlockId) (r : Role) : (g.withHead b).hasRole c r =
    (g.hasRole c r || decide (c = g.blocks.size ∧ r = .loopHead)) := by
  have hsame := sameContents_unlinkNext g .branch b
  rw [sameContents_withHead.hasRole_eq, hasRole_withBlock, nextBlock, hsame.size_eq,
    hsame.hasRole_eq]
  by_cases hc : c = g.blocks.size
  · simp [hc, hasRole_eq_false_of_size_le (Nat.le_refl g.blocks.size)]
  · simp [hc]

theorem originOf_withHead (c : BlockId) : (g.withHead b).originOf c = g.originOf c := by
  rw [sameContents_withHead.originOf_eq, originOf_withBlock,
    (sameContents_unlinkNext g .branch b).originOf_eq]

theorem offered_withHead (c : BlockId) : (g.withHead b).offered c =
    if c = g.blocks.size then g.offered b else g.offered c := by
  have hsame := sameContents_unlinkNext g .branch b
  rw [sameContents_withHead.offered_eq, offered_withBlock, nextBlock, hsame.size_eq,
    hsame.offered_eq]

theorem next_withHead (hg : g.Linked) (hb : b < g.blocks.size) (e : Edge) (c : BlockId) :
    (g.withHead b).next e c = if .fall = e ∧ c = b then some g.blocks.size
      else if b = c ∧ .branch = e then none else g.next e c := by
  have hsame := sameContents_unlinkNext g .branch b
  have hg₀ := hg.unlinkNext .branch b
  have hfresh : ∀ a, a ≠ b →
      ((g.unlinkNext .branch b).withBlock .loopHead (g.offered b)).next .fall a ≠
        some g.blocks.size := fun a _ h => by
    rw [next_withBlock] at h
    exact hg₀.next_size _ _ (by rw [h, hsame.size_eq])
  have hb₁ : b < ((g.unlinkNext .branch b).withBlock .loopHead (g.offered b)).blocks.size := by
    rw [size_withBlock, hsame.size_eq]
    exact Nat.lt_succ_of_lt hb
  rw [withHead, next_link_fresh (hg₀.withBlock _ _) hb₁ hfresh, next_withBlock, next_unlinkNext]

theorem Linked.withHead (hg : g.Linked) (hb : b < g.blocks.size) : (g.withHead b).Linked := by
  have hsize : ((g.unlinkNext .branch b).withBlock .loopHead (g.offered b)).blocks.size =
      g.blocks.size + 1 := by
    rw [size_withBlock, (sameContents_unlinkNext g .branch b).size_eq]
  exact ((hg.unlinkNext .branch b).withBlock _ _).link (hsize ▸ Nat.lt_succ_of_lt hb)
    (hsize ▸ Nat.lt_succ_self _) .fall

/-- Nothing branches to the new header yet. -/
theorem prev_withHead (hg : g.Linked) (hb : b < g.blocks.size) :
    (g.withHead b).prev .branch g.blocks.size = none := by
  cases h : (g.withHead b).prev .branch g.blocks.size with
  | none => rfl
  | some a =>
    have h' := (hg.withHead hb .branch _ _).2 h
    rw [next_withHead hg hb] at h'
    simp only [reduceCtorEq, false_and, if_false, and_true] at h'
    split at h'
    · cases h'
    · exact absurd h' (hg.next_size _ _)

end WithHead

/-- The block falls through into a new header. -/
theorem opensLoop_added {b : BlockId} (hg : g.Linked) (hb : b < g.blocks.size)
    (hexit : g.PlainExit b) :
    OpensLoop g b g.blocks.size (g.blocks.size + 1) (g.blocks.size + 1 + 1)
      ((g.withHead b).withLoop g.blocks.size (g.next .branch b) (g.next .fall b)) := by
  have hg₁ := hg.withHead hb
  have hh : g.blocks.size < (g.withHead b).blocks.size := by
    rw [size_withHead]
    exact Nat.lt_succ_self _
  have hlt : ∀ e t, g.next e b = some t → t < (g.withHead b).blocks.size := fun e t ht => by
    rw [size_withHead]
    exact Nat.lt_succ_of_lt (hg.target_lt ht)
  have hnext := next_withLoop hg₁ hh (prev_withHead hg hb) (g.next · b) hexit.one
    (hg.next_size _ _) hlt (fun e t c ht _ h => by
      rw [next_withHead hg hb] at h
      split at h
      · cases h
        exact hg.next_size _ _ ht
      · split at h
        · cases h
        · obtain rfl := hg.source_unique h ht
          cases e <;> simp_all)
  simp only [size_withHead, next_withHead hg hb] at hnext
  have hne : b ≠ g.blocks.size := Nat.ne_of_lt hb
  have hne' : b ≠ g.blocks.size + 1 := Nat.ne_of_lt (Nat.lt_succ_of_lt hb)
  have hne'' : b ≠ g.blocks.size + 1 + 1 :=
    Nat.ne_of_lt (Nat.lt_succ_of_lt (Nat.lt_succ_of_lt hb))
  have hhx : g.blocks.size ≠ g.blocks.size + 1 + 1 := by omega
  exact {
    head_eq := .inr ⟨rfl, rfl⟩
    exit_eq := rfl
    size_eq := by rw [size_withLoop, size_withHead]
    linked := hg₁.withLoop hh (g.next · b) hlt
    fall_start := fun _ => by rw [hnext]; simp [hne, hne', hne'']
    branch_start := fun _ => by rw [hnext]; simp [hne, hne', hne'']
    fall_head := by rw [hnext]; simp [hhx]
    branch_head := by rw [hnext]; simp [hhx]
    fall_body := by rw [hnext]; simp
    branch_body := by rw [hnext]; simp
    next_exit := fun e => by rw [hnext]; simp
    next_other := fun e c hc hcb => by
      have h₁ : c ≠ g.blocks.size := Nat.ne_of_lt hc
      have h₂ : c ≠ g.blocks.size + 1 := Nat.ne_of_lt (Nat.lt_succ_of_lt hc)
      have h₃ : c ≠ g.blocks.size + 1 + 1 :=
        Nat.ne_of_lt (Nat.lt_succ_of_lt (Nat.lt_succ_of_lt hc))
      rw [hnext]
      simp [h₁, h₂, h₃, hcb, Ne.symm hcb]
    hasRole_eq := fun c r => by rw [hasRole_withLoop, size_withHead, hasRole_withHead]
    originOf_eq := fun c => by rw [originOf_withLoop, size_withHead, originOf_withHead]
    offered_eq := fun c => by
      rw [offered_withLoop hh, size_withHead, offered_withHead, offered_withHead]
      by_cases hc : c = g.blocks.size <;> simp [hc]
    stock := sameStock_withHead.trans sameStock_withLoop }

/-- **Opening a loop** at a block with plain exits succeeds, and does what `OpensLoop` says. -/
theorem exists_opensLoop {b : BlockId} (hg : g.Linked) (hb : b < g.blocks.size)
    (hexit : g.PlainExit b) (hself : g.next .branch b ≠ some b) :
    ∃ head body exit g', g.openLoop b = .ok (head, g') ∧ OpensLoop g b head body exit g' := by
  have hsame := sameContents_unlinkNext g .branch b
  obtain ⟨blk, hblk⟩ := exists_block ((hsame.lt_size_iff b).2 hb)
  have hblk' : (g.unlinkNext .branch b).block b = .ok blk := block_eq_ok_iff.2 hblk
  by_cases hempty : (blk.isEmpty && blk.branchFrom.isNone) = true
  · have hopen : (g.unlinkNext .branch b).openHead b =
        .ok (b, (g.unlinkNext .branch b).modifyBlock b (·.addRole .loopHead)) := by
      simp only [openHead, hblk', hempty, bind, Except.bind, pure, Except.pure, if_true]
    rw [Bool.and_eq_true, Block.isEmpty, Bool.and_eq_true] at hempty
    have hlist : g.listed b = [] := by
      rw [← hsame.listed_eq, listed, hblk]
      exact List.isEmpty_iff.1 hempty.1.1
    have hprev : g.prev .branch b = none := by
      have h : (g.unlinkNext .branch b).prev .branch b = none := by
        rw [prev, hblk]
        exact Option.isNone_iff_eq_none.1 hempty.2
      rw [prev_unlinkNext, if_neg (fun h => hself h.1)] at h
      exact h
    exact ⟨_, _, _, _, openLoop_eq hb hexit hopen
      (by rw [size_modifyBlock, hsame.size_eq]; exact hb),
      opensLoop_reused hg hb hexit hself hlist hprev⟩
  · have hopen : (g.unlinkNext .branch b).openHead b = .ok (g.blocks.size, g.withHead b) := by
      have hadd := addBlockUnder_eq (Nat.le_of_lt ((hsame.lt_size_iff b).2 hb)) .loopHead
      rw [nextBlock, hsame.size_eq, hsame.offered_eq] at hadd
      simp only [openHead, hblk', hempty, hadd, bind, Except.bind, pure, Except.pure]
      rfl
    refine ⟨_, _, _, _, openLoop_eq hb hexit hopen ?_, opensLoop_added hg hb hexit⟩
    rw [size_withHead]
    exact Nat.lt_succ_self _

end OpenLoop

end Graph
end StructuredSSA
