import StructuredSSA.Proofs.Graph.View

/-!
# What placing an instruction does to a graph

`Graph.place` always succeeds on a block that exists.  `Graph.Places` says what the graph answers
afterwards: the new instruction is at home in the block and listed there, arithmetic is offered by
the block from then on, and the only other instructions that change are branches that waited for the
start of the block.
-/

set_option autoImplicit false

namespace StructuredSSA

/-- What is available after `i`, an `op`, has been placed. -/
def Available.with (a : Available) (i : InstrId) (op : Operation) : Available :=
  match op.arith? with
  | some k => a.push k i
  | none => a

theorem Available.candidates_with (a : Available) (i : InstrId) (op : Operation) (k : ArithOp) :
    (a.with i op).candidates k =
      if op.arith? = some k then i :: a.candidates k else a.candidates k := by
  rw [Available.with]
  split
  · rename_i k' hk'
    rw [candidates_push]
    simp only [hk', Option.some.injEq]
  · rename_i hnone
    rw [if_neg (by simp [hnone])]

theorem Available.mem_candidates_with {a : Available} {k : ArithOp} {j : InstrId}
    (h : j ∈ a.candidates k) (i : InstrId) (op : Operation) : j ∈ (a.with i op).candidates k := by
  rw [candidates_with]
  split
  · exact List.mem_cons_of_mem _ h
  · exact h

namespace Graph

/-- The branch that waits for the start of `b` has been pointed at `i`. -/
def Arrives (b : BlockId) (i : InstrId) (ins ins' : Instr) : Prop :=
  ∃ c, ins.op = .branch c (some (.startOf b)) ∧
    ins' = { ins with op := .branch c (some (.instr i)) }

/-- The instructions of `b` with the new instruction `i`, an `op`, in its place among them. -/
def listedWith (g : Graph) (b : BlockId) (i : InstrId) (op : Operation) : List InstrId :=
  if op.isPhi && g.hasRole b .loopHead then
    (g.listed b).takeWhile g.isPhi ++ i :: (g.listed b).dropWhile g.isPhi
  else
    g.listed b ++ [i]

/-- `g'` is `g` with `op` added to `b`. -/
structure Places (g : Graph) (b : BlockId) (op : Operation) (g' : Graph) : Prop where
  skeleton : SameSkeleton g g'
  nextId_eq : g'.nextId = g.nextId + 1
  instr?_new : g'.instr? g.nextId = some { id := g.nextId, block := b, op }
  instr?_old : ∀ j, j ≠ g.nextId → g'.instr? j = g.instr? j ∨
    ∃ ins ins', g.instr? j = some ins ∧ g'.instr? j = some ins' ∧ Arrives b g.nextId ins ins'
  listed_eq : ∀ c, g'.listed c = if c = b then g.listedWith b g.nextId op else g.listed c
  binding_eq : ∀ c x, g'.binding c x = g.binding c x
  offered_eq : ∀ c, g'.offered c =
    if c = b then (g.offered b).with g.nextId op else g.offered c

theorem instr?_arrive (g : Graph) (b : BlockId) (blk : Block) (i j : InstrId) :
    (g.arrive b blk i).instr? j = g.instr? j ∨
      ∃ ins ins', g.instr? j = some ins ∧ (g.arrive b blk i).instr? j = some ins' ∧
        Arrives b i ins ins' := by
  rw [arrive]
  split
  · rename_i src _
    rw [instr?_mapInstrs]
    cases hins : g.instr? j with
    | none => exact .inl rfl
    | some ins =>
      rw [Option.map_some]
      split
      · rw [Instr.mapOp]
        cases hop : ins.op with
        | branch c t =>
          simp only [Operation.arrive]
          split
          · rename_i ht
            subst ht
            exact .inr ⟨ins, _, rfl, rfl, c, hop, rfl⟩
          · rw [← hop]
            exact .inl rfl
        | _ =>
          left
          simp only [Operation.arrive]
          rw [← hop]
      · exact .inl rfl
  · exact .inl rfl

theorem block?_arrive (g : Graph) (b : BlockId) (blk : Block) (i : InstrId) (c : BlockId) :
    (g.arrive b blk i).block? c = g.block? c := by
  rw [arrive]
  split <;> rfl

theorem nextId_arrive (g : Graph) (b : BlockId) (blk : Block) (i : InstrId) :
    (g.arrive b blk i).nextId = g.nextId := by
  rw [arrive]
  split
  · exact nextId_mapInstrs _ _
  · rfl

/-- The operation `op`, placed in `b` as instruction `i`, becomes `op'`: a branch that waits for the
start of its own block may be pointed at itself. -/
def Lands (b : BlockId) (i : InstrId) (op op' : Operation) : Prop :=
  op' = op ∨ ∃ c, op = .branch c (some (.startOf b)) ∧ op' = .branch c (some (.instr i))

theorem Lands.isPhi_eq {b : BlockId} {i : InstrId} {op op' : Operation} (h : Lands b i op op') :
    op'.isPhi = op.isPhi := by
  rcases h with rfl | ⟨c, rfl, rfl⟩ <;> rfl

theorem Lands.arith?_eq {b : BlockId} {i : InstrId} {op op' : Operation} (h : Lands b i op op') :
    op'.arith? = op.arith? := by
  rcases h with rfl | ⟨c, rfl, rfl⟩ <;> rfl

/-- **Placing** succeeds on a block that exists, and does what `Places` says. -/
theorem exists_place {g : Graph} {b : BlockId} (hb : b < g.blocks.size) (op : Operation) :
    ∃ op' g', g.place b op = .ok (g.nextId, g') ∧ Lands b g.nextId op op' ∧ Places g b op' g' := by
  obtain ⟨blk, hblk⟩ := exists_block hb
  have hblk' : g.block b = .ok blk := block_eq_ok_iff.2 hblk
  -- the graph with the instruction and with the branches pointed at it, before it is listed
  let mid := if blk.awaited then (g.addInstr b op).arrive b blk g.nextId else g.addInstr b op
  have hmid : mid = if blk.awaited then (g.addInstr b op).arrive b blk g.nextId
    else g.addInstr b op := rfl
  have hblock : ∀ c, mid.block? c = g.block? c := by
    intro c
    rw [hmid]
    split
    · rw [block?_arrive, block?_addInstr]
    · rw [block?_addInstr]
  have hinstr : ∀ j, mid.instr? j = (g.addInstr b op).instr? j ∨
      ∃ ins ins', (g.addInstr b op).instr? j = some ins ∧ mid.instr? j = some ins' ∧
        Arrives b g.nextId ins ins' := by
    intro j
    rw [hmid]
    split
    · exact instr?_arrive _ _ _ _ _
    · exact .inl rfl
  have hnext : mid.nextId = g.nextId + 1 := by
    rw [hmid]
    split
    · rw [nextId_arrive]
      simp [nextId, addInstr]
    · simp [nextId, addInstr]
  obtain ⟨op', hlands, hnew⟩ : ∃ op', Lands b g.nextId op op' ∧
      mid.instr? g.nextId = some { id := g.nextId, block := b, op := op' } := by
    have hadded : (g.addInstr b op).instr? g.nextId = some { id := g.nextId, block := b, op } := by
      rw [instr?_addInstr, if_pos rfl]
    rcases hinstr g.nextId with h | ⟨ins, ins', h, h', c, hc, rfl⟩
    · exact ⟨op, .inl rfl, h.trans hadded⟩
    · rw [hadded] at h
      cases h
      exact ⟨_, .inr ⟨c, hc, rfl⟩, h'⟩
  have hlist : g.sequenceWith blk g.nextId op = g.listedWith b g.nextId op' := by
    simp only [sequenceWith, listedWith, hasRole, listed, hblk, Option.any_some, Option.map_some,
      Option.getD_some, hlands.isPhi_eq]
  refine ⟨op', mid.modifyBlock b (·.receive (g.sequenceWith blk g.nextId op) g.nextId op), ?_,
    hlands, ?_⟩
  · simp only [place, hblk', bind, Except.bind, pure, Except.pure]
    rfl
  · refine {
      skeleton := fun c => ?_
      nextId_eq := hnext
      instr?_new := ?_
      instr?_old := fun j hj => ?_
      listed_eq := fun c => ?_
      binding_eq := fun c x => ?_
      offered_eq := fun c => ?_ }
    · rw [skeleton?, block?_modifyBlock, hblock, skeleton?]
      split
      · rw [Option.map_map]
        rfl
      · rfl
    · rw [instr?_modifyBlock]
      exact hnew
    · rw [instr?_modifyBlock]
      have hold : (g.addInstr b op).instr? j = g.instr? j := by
        rw [instr?_addInstr, if_neg hj]
      rw [← hold]
      exact hinstr j
    · rw [listed_modifyBlock, hblock]
      by_cases hc : c = b
      · subst hc
        simp [hblk, Block.receive, hlist]
      · rw [if_neg (Ne.symm hc), if_neg hc, listed, hblock]
        rfl
    · rw [binding_modifyBlock, hblock, binding]
      split
      · rfl
      · rw [binding, hblock]
    · rw [offered_modifyBlock, hblock]
      by_cases hc : c = b
      · subst hc
        rw [if_pos rfl, if_pos rfl, hblk, offered, hblk, Available.with, hlands.arith?_eq]
        rfl
      · rw [if_neg (Ne.symm hc), if_neg hc, offered, hblock]
        rfl

/-- Placing an operation that does not wait for the start of its own block. -/
theorem exists_places {g : Graph} {b : BlockId} (hb : b < g.blocks.size) (op : Operation)
    (hop : ∀ c, op ≠ .branch c (some (.startOf b))) :
    ∃ g', g.place b op = .ok (g.nextId, g') ∧ Places g b op g' := by
  obtain ⟨op', g', hplace, hlands, hplaces⟩ := exists_place hb op
  rcases hlands with rfl | ⟨c, hc, -⟩
  · exact ⟨g', hplace, hplaces⟩
  · exact absurd hc (hop c)

/-- What has been placed. -/
theorem places_of_place {g g' : Graph} {b : BlockId} {op : Operation} {i : InstrId}
    (h : g.place b op = .ok (i, g')) :
    i = g.nextId ∧ ∃ op', Lands b g.nextId op op' ∧ Places g b op' g' := by
  obtain ⟨blk, hblk, -⟩ := bind_eq_ok_iff.1 h
  obtain ⟨op', g'', hplace, hlands, hplaces⟩ :=
    exists_place (lt_size_of_block? (block_eq_ok_iff.1 hblk)) op
  rw [h, Except.ok.injEq, Prod.mk.injEq] at hplace
  obtain ⟨rfl, rfl⟩ := hplace
  exact ⟨rfl, op', hlands, hplaces⟩

namespace Places

variable {g g' : Graph} {b : BlockId} {op : Operation}

theorem op?_new (h : Places g b op g') : g'.op? g.nextId = some op := by
  rw [op?, h.instr?_new]
  rfl

theorem instr?_nextId (g : Graph) : g.instr? g.nextId = none := by
  cases h : g.instr? g.nextId with
  | none => rfl
  | some ins => exact absurd (lt_nextId_of_instr? h).2 (Nat.lt_irrefl _)

theorem home?_eq (h : Places g b op g') (j : InstrId) :
    g'.home? j = if j = g.nextId then some b else g.home? j := by
  by_cases hj : j = g.nextId
  · rw [if_pos hj, hj, home?, h.instr?_new]
    rfl
  · rw [if_neg hj, home?, home?]
    rcases h.instr?_old j hj with h' | ⟨ins, ins', hins, hins', c, -, rfl⟩
    · rw [h']
    · rw [hins, hins']
      rfl

@[simp] theorem standIn?_eq (h : Places g b op g') (j : InstrId) :
    g'.standIn? j = g.standIn? j := by
  by_cases hj : j = g.nextId
  · rw [hj, standIn?, h.instr?_new, standIn?, instr?_nextId]
    rfl
  · rw [standIn?, standIn?]
    rcases h.instr?_old j hj with h' | ⟨ins, ins', hins, hins', c, -, rfl⟩
    · rw [h']
    · rw [hins, hins']
      rfl

/-- An operation that was there is the same, or it is a branch that waited for the start of `b`. -/
theorem op?_old (h : Places g b op g') {j : InstrId} (hj : j ≠ g.nextId) : g'.op? j = g.op? j ∨
    ∃ c, g.op? j = some (.branch c (some (.startOf b))) ∧
      g'.op? j = some (.branch c (some (.instr g.nextId))) := by
  rw [op?, op?]
  rcases h.instr?_old j hj with h' | ⟨ins, ins', hins, hins', c, hop, rfl⟩
  · exact .inl (by rw [h'])
  · exact .inr ⟨c, by rw [hins, Option.map_some, hop], by rw [hins']; rfl⟩

/-- An operation that was there reads what it read. -/
theorem operands_eq (h : Places g b op g') {j : InstrId} {o : Operation} (hj : g.op? j = some o) :
    ∃ o', g'.op? j = some o' ∧ o'.operands = o.operands := by
  rcases h.op?_old (Nat.ne_of_lt (lt_nextId_of_op? hj)) with heq | ⟨c, hold, hnew⟩
  · exact ⟨o, heq.trans hj, rfl⟩
  · obtain rfl := Option.some.inj (hj.symm.trans hold)
    exact ⟨_, hnew, rfl⟩

/-- The operations of the new graph other than branches. -/
theorem op?_eq (h : Places g b op g') {j : InstrId} {o : Operation} (ho : o.isBranch = false) :
    g'.op? j = some o ↔ j = g.nextId ∧ o = op ∨ j ≠ g.nextId ∧ g.op? j = some o := by
  by_cases hj : j = g.nextId
  · simp [hj, h.op?_new, eq_comm]
  · simp only [hj, false_and, false_or, ne_eq, not_false_eq_true, true_and]
    rcases h.op?_old hj with h' | ⟨c, h₁, h₂⟩
    · rw [h']
    · rw [h₁, h₂]
      constructor
      · rintro ⟨⟩
        cases ho
      · rintro ⟨⟩
        cases ho

theorem isPhi_old (h : Places g b op g') {j : InstrId} (hj : j ≠ g.nextId) :
    g'.isPhi j = g.isPhi j := by
  rw [isPhi_eq, isPhi_eq]
  rcases h.op?_old hj with h' | ⟨c, h₁, h₂⟩
  · rw [h']
  · rw [h₁, h₂]
    rfl

theorem isBranch_old (h : Places g b op g') {j : InstrId} (hj : j ≠ g.nextId) :
    g'.isBranch j = g.isBranch j := by
  rw [isBranch_eq, isBranch_eq]
  rcases h.op?_old hj with h' | ⟨c, h₁, h₂⟩
  · rw [h']
  · rw [h₁, h₂]
    rfl

theorem isBranch_new (h : Places g b op g') : g'.isBranch g.nextId = op.isBranch := by
  rw [isBranch_eq, h.op?_new]
  rfl

theorem op?_isSome_eq (h : Places g b op g') (j : InstrId) :
    (g'.op? j).isSome = (decide (j = g.nextId) || (g.op? j).isSome) := by
  rw [Bool.eq_iff_iff, op?_isSome_iff, h.nextId_eq, Bool.or_eq_true, op?_isSome_iff,
    decide_eq_true_iff, nextId]
  dsimp only [InstrId] at *
  omega

theorem mem_listed (h : Places g b op g') {c : BlockId} {j : InstrId} :
    j ∈ g'.listed c ↔ j ∈ g.listed c ∨ j = g.nextId ∧ c = b := by
  rw [h.listed_eq]
  by_cases hc : c = b
  · subst hc
    rw [if_pos rfl, listedWith]
    split
    · have := List.takeWhile_append_dropWhile (p := g.isPhi) (l := g.listed c)
      have hmem : j ∈ g.listed c ↔
          j ∈ (g.listed c).takeWhile g.isPhi ∨ j ∈ (g.listed c).dropWhile g.isPhi := by
        rw [← List.mem_append, this]
      simp only [List.mem_append, List.mem_cons, and_true, hmem]
      grind
    · simp
  · simp [hc]

/-- What is offered afterwards is the new instruction or was offered before. -/
theorem offered_cases (h : Places g b op g') {c : BlockId} {k : ArithOp} {i : InstrId}
    (hi : i ∈ (g'.offered c).candidates k) :
    i = g.nextId ∧ op.arith? = some k ∨ i ∈ (g.offered c).candidates k := by
  rw [h.offered_eq] at hi
  split at hi
  · rename_i hc
    subst hc
    rw [Available.candidates_with] at hi
    split at hi
    · rename_i hk
      exact (List.mem_cons.1 hi).imp_left fun hi => ⟨hi, hk⟩
    · exact .inr hi
  · exact .inr hi

/-- What was listed stays listed, in the same order. -/
theorem listed_sublist (h : Places g b op g') (c : BlockId) :
    (g.listed c).Sublist (g'.listed c) := by
  rw [h.listed_eq]
  split
  · rename_i hc
    subst hc
    rw [listedWith]
    split
    · conv => lhs; rw [← List.takeWhile_append_dropWhile (p := g.isPhi) (l := g.listed c)]
      exact (List.sublist_cons_self _ _).append_left _
    · exact List.sublist_append_left _ _
  · exact List.Sublist.refl _

end Places

end Graph
end StructuredSSA
