import StructuredSSA.Proofs.Graph.Place

/-!
# Appending operations to a block

Most operations neither stand ahead of others nor can be shared: they go to the end of their block,
one after the other.  `Graph.Appends` says what the whole graph is afterwards.  Only a branch that
waited for the start of the block tells the difference, and it sees no more than the first of them.
-/

set_option autoImplicit false

namespace StructuredSSA

/-- The operation goes to the end of its block, and nothing can be shared with it. -/
structure Operation.IsPlain (op : Operation) : Prop where
  isPhi_eq : op.isPhi = false
  isBranch_eq : op.isBranch = false
  arith?_eq : op.arith? = none

/-- The block with `ops` behind what it lists, numbered from `i` on.  Nothing waits for its start
any longer if there is one of them. -/
def Block.append (i : InstrId) (ops : List Operation) (blk : Block) : Block :=
  { blk with
    instrs := blk.instrs ++ List.range' i ops.length
    awaited := blk.awaited && ops.isEmpty }

theorem Block.append_append (i : InstrId) (ops ops' : List Operation) (blk : Block) :
    (blk.append i ops).append (i + ops.length) ops' = blk.append i (ops ++ ops') := by
  cases ops <;> simp [append, List.range'_append_1, Nat.add_right_comm]

namespace Graph

/-- **`g'` is `g` with `ops` appended to `b`**, numbered in a row.  No other block changes, and no
other instruction but for branches that waited for the start of `b`. -/
structure Appends (g : Graph) (b : BlockId) (ops : List Operation) (g' : Graph) : Prop where
  nextId_eq : g'.nextId = g.nextId + ops.length
  block?_eq : ∀ c, g'.block? c =
    if c = b then (g.block? c).map (Block.append g.nextId ops) else g.block? c
  instr?_new : ∀ k op, ops[k]? = some op →
    g'.instr? (g.nextId + k) = some { id := g.nextId + k, block := b, op }
  instr?_old : ∀ j, j < g.nextId → g'.instr? j = g.instr? j ∨
    ops ≠ [] ∧ (g.block? b).any (·.awaited) = true ∧
      ∃ ins ins', g.instr? j = some ins ∧ g'.instr? j = some ins' ∧ Arrives b g.nextId ins ins'

/-- A plain operation is appended. -/
theorem exists_appends {g : Graph} {b : BlockId} (hb : b < g.blocks.size) {op : Operation}
    (hop : op.IsPlain) : ∃ g', g.place b op = .ok (g.nextId, g') ∧ g.Appends b [op] g' := by
  obtain ⟨blk, hblk⟩ := exists_block hb
  -- the graph with the instruction and with the branches pointed at it, before it is listed
  let mid := if blk.awaited then (g.addInstr b op).arrive b blk g.nextId else g.addInstr b op
  have hmid : mid = if blk.awaited then (g.addInstr b op).arrive b blk g.nextId
    else g.addInstr b op := rfl
  have hblock : ∀ c, mid.block? c = g.block? c := fun c => by
    rw [hmid]
    split
    · rw [block?_arrive, block?_addInstr]
    · rw [block?_addInstr]
  have hinstr : ∀ j, mid.instr? j = (g.addInstr b op).instr? j ∨ blk.awaited = true ∧
      ∃ ins ins', (g.addInstr b op).instr? j = some ins ∧ mid.instr? j = some ins' ∧
        Arrives b g.nextId ins ins' := fun j => by
    rw [hmid]
    split
    · rename_i hawaited
      exact (instr?_arrive _ b blk g.nextId j).imp_right fun h => ⟨hawaited, h⟩
    · exact .inl rfl
  have hnext : mid.nextId = g.nextId + 1 := by
    rw [hmid]
    split
    · rw [nextId_arrive]
      simp [nextId, addInstr]
    · simp [nextId, addInstr]
  have hadded : (g.addInstr b op).instr? g.nextId = some { id := g.nextId, block := b, op } := by
    rw [instr?_addInstr, if_pos rfl]
  refine ⟨mid.modifyBlock b (·.receive (g.sequenceWith blk g.nextId op) g.nextId op), ?_, {
    nextId_eq := hnext
    block?_eq := fun c => ?_
    instr?_new := fun k o hk => ?_
    instr?_old := fun j hj => ?_ }⟩
  · simp only [place, block_eq_ok_iff.2 hblk, bind, Except.bind, pure, Except.pure]
    rfl
  · rw [block?_modifyBlock, hblock]
    by_cases hc : c = b
    · subst hc
      rw [if_pos rfl, if_pos rfl, hblk]
      simp [Block.receive, Block.append, sequenceWith, hop.isPhi_eq, hop.arith?_eq]
    · rw [if_neg hc, if_neg (Ne.symm hc)]
  · obtain ⟨rfl, rfl⟩ : k = 0 ∧ op = o := by
      cases k with
      | zero => exact ⟨rfl, Option.some.inj hk⟩
      | succ k => cases hk
    rw [instr?_modifyBlock]
    rcases hinstr g.nextId with h | ⟨-, ins, ins', h, -, c, hc, -⟩
    · exact h.trans hadded
    · rw [hadded] at h
      cases h
      have hbranch := hop.isBranch_eq
      rw [show op = _ from hc] at hbranch
      cases hbranch
  · rw [instr?_modifyBlock]
    have hold : (g.addInstr b op).instr? j = g.instr? j := by
      rw [instr?_addInstr, if_neg (Nat.ne_of_lt hj)]
    rw [← hold]
    rcases hinstr j with h | ⟨hawaited, h⟩
    · exact .inl h
    · refine .inr ⟨by simp, ?_, h⟩
      rw [hblk]
      exact hawaited

namespace Appends

variable {g g' g'' : Graph} {b : BlockId} {ops ops' : List Operation}

theorem nil (g : Graph) (b : BlockId) : g.Appends b [] g where
  nextId_eq := rfl
  block?_eq c := by
    split
    · cases h : g.block? c with
      | none => rfl
      | some blk => simp [Block.append]
    · rfl
  instr?_new k op h := by cases h
  instr?_old j hj := .inl rfl

theorem lt_size_iff (h : g.Appends b ops g') (c : BlockId) :
    c < g'.blocks.size ↔ c < g.blocks.size := by
  rw [← block?_isSome_iff, ← block?_isSome_iff, h.block?_eq]
  split
  · rw [Option.isSome_map]
  · rfl

/-- What waited for the start of the block has been served by the first operation. -/
theorem any_awaited (h : g.Appends b ops g') :
    (g'.block? b).any (·.awaited) = ((g.block? b).any (·.awaited) && ops.isEmpty) := by
  rw [h.block?_eq, if_pos rfl]
  cases g.block? b <;> rfl

/-- Operations appended in two parts are appended in a row. -/
theorem trans (h : g.Appends b ops g') (h' : g'.Appends b ops' g'') :
    g.Appends b (ops ++ ops') g'' where
  nextId_eq := by rw [h'.nextId_eq, h.nextId_eq, List.length_append, Nat.add_assoc]
  block?_eq c := by
    rw [h'.block?_eq, h.block?_eq]
    split
    · rw [Option.map_map, h.nextId_eq]
      exact congrArg (fun f => (g.block? c).map f)
        (funext fun blk => Block.append_append g.nextId ops ops' blk)
    · rfl
  instr?_new k op hk := by
    rw [List.getElem?_append] at hk
    split at hk
    · rename_i hlt
      have hnew := h.instr?_new k op hk
      rcases h'.instr?_old (g.nextId + k) (by rw [h.nextId_eq]; exact Nat.add_lt_add_left hlt _)
        with heq | ⟨-, hawaited, -⟩
      · exact heq.trans hnew
      · rw [h.any_awaited, Bool.and_eq_true, List.isEmpty_iff] at hawaited
        rw [hawaited.2] at hlt
        cases hlt
    · rename_i hle
      have hnew := h'.instr?_new _ op hk
      rw [h.nextId_eq, Nat.add_assoc, Nat.add_sub_cancel' (Nat.le_of_not_lt hle)] at hnew
      exact hnew
  instr?_old j hj := by
    have hj' : j < g'.nextId := by
      rw [h.nextId_eq]
      exact Nat.lt_of_lt_of_le hj (Nat.le_add_right _ _)
    rcases h'.instr?_old j hj' with heq | ⟨hne, hawaited, hins⟩
    · rcases h.instr?_old j hj with hold | ⟨hne, hawaited, hins⟩
      · exact .inl (heq.trans hold)
      · rw [heq]
        exact .inr ⟨fun hnil => hne (List.append_eq_nil_iff.1 hnil).1, hawaited, hins⟩
    · -- nothing has been appended before, or else nothing would wait any longer
      rw [h.any_awaited, Bool.and_eq_true, List.isEmpty_iff] at hawaited
      obtain ⟨hawaited, rfl⟩ := hawaited
      rw [h.nextId_eq, List.length_nil, Nat.add_zero] at hins
      rcases h.instr?_old j hj with hold | ⟨hnil, -⟩
      · rw [hold] at hins
        exact .inr ⟨hne, hawaited, hins⟩
      · exact absurd rfl hnil

end Appends
end Graph
end StructuredSSA
