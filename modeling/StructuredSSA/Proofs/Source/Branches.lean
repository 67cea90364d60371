import StructuredSSA.Proofs.Body.Steered
import StructuredSSA.Proofs.Source.Compile

/-!
# Branches of finished programs

In a finished program, branch instructions say the same as branch edges: a block with a branch edge
ends in its only branch, which leads to where control arrives along the edge, and other blocks have
no branch.

## What is here

* `Graph.Guided` — a block whose branches and edges agree.
* `Complete.guided` — every block of a settled body is one.
* `Stmt.branches_agree` — the blocks of a finished program.
-/

set_option autoImplicit false

namespace StructuredSSA

namespace Graph

variable {g g' : Graph}

/-- The branches of the block `blk`, which is `b`, agree with its edges.  The program ends in
`current`. -/
structure Guided (g : Graph) (current b : BlockId) (blk : Block) : Prop where
  /-- A block with a branch edge ends in its only branch. -/
  branches : ∀ dst, blk.branchTo = some dst → ∃ is i j c, blk.instrs = is ++ [i] ∧
    (∀ k ∈ is, g.isBranch k = false) ∧ g.op? i = some (.branch c (some (.instr j))) ∧
    g.landing dst = .ok j ∧ (c = .always ↔ blk.fallTo = none)
  /-- A block without a branch edge has no branch, and control falls through it. -/
  plain : blk.branchTo = none → (∀ k ∈ blk.instrs, g.isBranch k = false) ∧
    (b ≠ current → blk.fallTo.isSome = true)
  ended : b = current → blk.branchTo = none ∧ blk.fallTo = none ∧
    ∃ is i, blk.instrs = is ++ [i] ∧ g.op? i = some .halt
  awaited_eq : blk.awaited = false

namespace Settles

/-- What comes last and is not retired still comes last. -/
theorem listed_concat (h : g.Settles g') {b : BlockId} {is : List InstrId} {i : InstrId}
    (his : g.listed b = is ++ [i]) (hi : g.isRetired i = false) :
    g'.listed b = is.filter (fun k => !g.isRetired k) ++ [i] := by
  rw [h.listed_eq, his, List.filter_append]
  simp [hi]

end Settles
end Graph

namespace Complete

variable {w : Site} {u : Body} {g : Graph}

/-- When every construct is closed, construction has passed every block but the last. -/
theorem mem_passed (c : Complete w u) {b : BlockId} (hb : b < u.graph.blocks.size)
    (hne : b ≠ w.tail) : b ∈ w.passed := by
  have := (c.built.layout.mem_order b).2 hb
  simpa [Site.order, Site.targets, c.frames_eq, hne] using this

/-- There is no way on from the last block. -/
theorem next_tail (c : Complete w u) (e : Edge) : u.graph.next e w.tail = none := by
  rw [c.built.layout.next_tail, c.frames_eq]
  rfl

/-- **The branches of a settled body agree with its edges**, if the body ends with `halt`. -/
theorem guided (c : Complete w u) (hs : Steered u.graph w) {ks : List InstrId} {k : InstrId}
    (hlast : u.graph.listed w.tail = ks ++ [k])
    (hhalt : u.graph.op? k = some .halt) (h : u.graph.Settles g) {b : BlockId} {blk : Block}
    (hblk : g.block? b = some blk) : g.Guided w.tail b blk := by
  have hlt : b < u.graph.blocks.size :=
    (h.skeleton.lt_size_iff b).1 (Graph.lt_size_of_block? hblk)
  have hlisted : blk.instrs = g.listed b := by
    rw [Graph.listed, hblk]
    rfl
  have hnext : ∀ e, blk.next e = u.graph.next e b := fun e => by
    rw [← h.skeleton.next_eq, Graph.next, hblk]
    rfl
  have hbranchTo : blk.branchTo = u.graph.next .branch b := hnext .branch
  have hfallTo : blk.fallTo = u.graph.next .fall b := hnext .fall
  refine ⟨fun dst hdst => ?_, fun hnone => ?_, fun htail => ?_, h.awaited_eq b blk hblk⟩
  · rw [hbranchTo] at hdst
    have hpassed : b ∈ w.passed := c.mem_passed hlt fun heq => by
      rw [heq, c.next_tail] at hdst
      cases hdst
    have hhas : u.graph.HasBranch b :=
      (hs.branched b hpassed (by rw [hdst]; rfl)).resolve_right <| by
        rintro ⟨f, hf, -⟩
        rw [c.frames_eq] at hf
        cases hf
    obtain ⟨i, cond, t, hi⟩ := hhas.exists_branchAt
    obtain ⟨is, his, hnot⟩ := hs.last b i cond t hi
    obtain ⟨dst', s, hdst', rfl, hnames⟩ := hs.steers b (fun f hf => by
      rw [c.frames_eq] at hf
      cases hf) i cond t hi.1 hi.2
    obtain rfl : dst' = dst := Option.some.inj (hdst'.symm.trans hdst)
    obtain ⟨j, hj, hop⟩ := h.landing i cond s dst' hi.2 hnames
    have hret := c.built.matched.isRetired_of_branch hi.isBranch
    refine ⟨_, i, j, cond, hlisted.trans (h.listed_concat his hret), fun k hk => ?_, hop, hj, ?_⟩
    · -- a block has one branch at most
      have hk' := (List.mem_filter.1 hk).1
      rw [h.isBranch_eq, Bool.eq_false_iff]
      intro hbr
      have hhome : u.graph.home? k = some b :=
        (c.built.contents.mem_listed b k).1 (by rw [his]; exact List.mem_append_left _ hk')
      obtain rfl := c.built.contents.one_branch k i hbr hi.isBranch (hhome.trans hi.1.symm)
      exact hnot hk'
    · rw [hfallTo]
      exact hs.cond b i cond _ hi
  · rw [hbranchTo] at hnone
    have hhas : ¬ u.graph.HasBranch b := fun hb => by
      obtain ⟨i, cond, t, hi⟩ := hb.exists_branchAt
      have := hs.edge b i cond t hi
      rw [hnone] at this
      cases this
    refine ⟨fun k hk => ?_, fun hne => ?_⟩
    · rw [h.isBranch_eq, Bool.eq_false_iff]
      intro hbr
      rw [hlisted, h.listed_eq] at hk
      exact hhas ⟨k, hbr, (c.built.contents.mem_listed b k).1 (List.mem_filter.1 hk).1⟩
    · rw [hfallTo]
      rcases c.built.closable.onward b (c.mem_passed hlt hne) with h' | h' | ⟨f, hf, -⟩
      · exact h'
      · exact absurd h' hhas
      · rw [c.frames_eq] at hf
        cases hf
  · subst htail
    have hret := c.built.matched.isRetired_eq_false hhalt rfl
    obtain ⟨ins, hins, hop⟩ := Option.map_eq_some_iff.1 hhalt
    obtain ⟨ins', hins', hsettles⟩ := h.instr k ins hins
    refine ⟨by rw [hbranchTo, c.next_tail], by rw [hfallTo, c.next_tail], _, k,
      hlisted.trans (h.listed_concat hlast hret), ?_⟩
    rw [Graph.op?, hins', Option.map_some, hsettles.op_eq (by rw [hop]; rfl), hop]
    rfl

end Complete

namespace Stmt

/-- **Instructions and edges of a finished program agree.**  A block with a branch edge has one
branch, which is its last instruction and leads to the first instruction that control reaches along
the edge; it is a jump just if control cannot fall through the block.  A block without a branch edge
has no branch, and control falls through it unless it is the last block, which ends with `halt`.  No
block is waited for. -/
theorem branches_agree (options : Options) (s : Stmt) : ∃ xs p, s.compile options = .ok (xs, p) ∧
    ∀ b blk, p.main.graph.block? b = some blk →
      p.main.graph.Guided p.main.current b blk := by
  obtain ⟨w, t, g₁, g, h⟩ := s.exists_compiles options
  refine ⟨_, _, h.compile_eq, fun b blk hblk => ?_⟩
  have hs : Steered t.body.graph w :=
    Steered.run h.run (.start options) (.start options) (.start options)
  have hkeep : t.body.graph.KeepsBranches g₁ := .of_places h.ended rfl (.inl h.ready.clear)
  have hlast : g₁.listed w.tail = t.body.graph.listed w.tail ++ [t.body.graph.nextId] := by
    rw [h.ended.listed_eq, if_pos rfl]
    rfl
  have hcurrent : (settled options t.body g).main.current = w.tail := h.ready.current_eq
  rw [hcurrent]
  exact h.complete.guided (hs.keep hkeep) hlast h.ended.op?_new h.settles hblk

end Stmt
end StructuredSSA
