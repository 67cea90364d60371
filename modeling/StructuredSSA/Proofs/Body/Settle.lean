import StructuredSSA.Proofs.Body.Run
import StructuredSSA.Proofs.Body.Settled

/-!
# Settling succeeds

When every construct has been closed, each retired instruction has a live one in its stead, each
branch has a target, and control that enters a block comes to an instruction: it falls forward, and
the last block holds the end of the program.

## What is here

* `Complete` — a body whose constructs have all been closed.
* `Complete.exists_landing` — control lands somewhere.
* `Complete.settle`, `Built.settleWith` — settling succeeds.
-/

set_option autoImplicit false

namespace StructuredSSA

/-- What a body needs to be settled: all constructs are closed, and the last block holds an
instruction that is computed. -/
structure Complete (w : Site) (u : Body) : Prop where
  built : Built w u
  frames_eq : w.frames = []
  ended : ∃ i ∈ u.graph.listed w.tail, u.graph.isRetired i = false

namespace Graph.Matched

variable {g : Graph} (h : g.Matched) {i : InstrId}
include h

/-- Only arithmetic is ever retired. -/
theorem isRetired_eq_false {op : Operation} (hop : g.op? i = some op) (harith : op.arith? = none) :
    g.isRetired i = false := by
  rw [Graph.isRetired_eq]
  cases hstand : g.standIn? i with
  | none => rfl
  | some e =>
    obtain ⟨od, -, hod, -, hsome, -⟩ := h i e hstand
    obtain rfl : op = od := Option.some.inj (hop.symm.trans hod)
    rw [harith] at hsome
    cases hsome

/-- A phi is never retired. -/
theorem isRetired_of_phi (hi : g.isPhi i = true) : g.isRetired i = false := by
  rw [Graph.isPhi_eq, Option.any_eq_true] at hi
  obtain ⟨op, hop, hphi⟩ := hi
  refine h.isRetired_eq_false hop ?_
  cases op with
  | binary k l r => cases k <;> first | rfl | cases hphi
  | _ => rfl

/-- A branch is never retired. -/
theorem isRetired_of_branch (hi : g.isBranch i = true) : g.isRetired i = false := by
  rw [Graph.isBranch_eq, Option.any_eq_true] at hi
  obtain ⟨op, hop, hbr⟩ := hi
  exact h.isRetired_eq_false hop (by cases op <;> first | rfl | cases hbr)

end Graph.Matched

namespace Complete

variable {w : Site} {u : Body}

/-- A block in which nothing is computed falls through to a later one. -/
theorem exists_fall (c : Complete w u) {b : BlockId} (hb : b < u.graph.blocks.size)
    (hempty : u.graph.withRoots.listed b = []) :
    ∃ d, u.graph.next .fall b = some d ∧ w.order.idxOf b < w.order.idxOf d := by
  rw [Graph.listed_withRoots, List.filter_eq_nil_iff] at hempty
  have hlive : ∀ i ∈ u.graph.listed b, u.graph.isRetired i = true := fun i hi => by
    simpa using hempty i hi
  have hne : b ≠ w.tail := by
    rintro rfl
    obtain ⟨i, hi, hret⟩ := c.ended
    rw [hlive i hi] at hret
    cases hret
  have hpassed : b ∈ w.passed := by
    have := (c.built.layout.mem_order b).2 hb
    simpa [Site.order, Site.targets, c.frames_eq, hne] using this
  rcases c.built.closable.onward b hpassed with h | ⟨i, hi, hhome⟩ | ⟨f, hf, -⟩
  · obtain ⟨d, hd⟩ := Option.isSome_iff_exists.1 h
    exact ⟨d, hd, idxOf_lt_of_pair c.built.layout.nodup (c.built.layout.fall_forward b d hd)⟩
  · have := hlive i ((c.built.contents.mem_listed b i).2 hhome)
    rw [c.built.matched.isRetired_of_branch hi] at this
    cases this
  · rw [c.frames_eq] at hf
    cases hf

theorem exists_landingWithin (c : Complete w u) (fuel : Nat) {b : BlockId} {blk : Block}
    (hblk : u.graph.withRoots.block? b = some blk)
    (hfuel : w.order.length < fuel + w.order.idxOf b) :
    ∃ i, u.graph.withRoots.landingWithin fuel blk = some i := by
  have hb : b < u.graph.blocks.size :=
    ((Graph.sameSkeleton_withRoots u.graph).lt_size_iff b).1 (Graph.lt_size_of_block? hblk)
  induction fuel generalizing b blk with
  | zero =>
    have := List.idxOf_le_length (a := b) (l := w.order)
    omega
  | succ fuel ih =>
    unfold Graph.landingWithin
    cases hfirst : blk.first? with
    | some i => exact ⟨i, rfl⟩
    | none =>
      have hempty : u.graph.withRoots.listed b = [] := by
        rw [Graph.listed, hblk]
        exact List.head?_eq_none_iff.1 hfirst
      obtain ⟨d, hd, hlt⟩ := c.exists_fall hb hempty
      have hd' : u.graph.withRoots.next .fall b = some d := by
        rw [(Graph.sameSkeleton_withRoots u.graph).next_eq, hd]
      have hto : blk.fallTo = some d := by rw [Graph.fallTo_eq hblk, hd']
      have hdlt := c.built.layout.linked.target_lt hd
      obtain ⟨blk', hblk'⟩ := Graph.exists_block
        (((Graph.sameSkeleton_withRoots u.graph).lt_size_iff d).2 hdlt)
      obtain ⟨i, hi⟩ := ih hblk' (by omega) hdlt
      refine ⟨i, ?_⟩
      simp only [hto, Option.bind_some, hblk']
      exact hi

/-- **Control that enters a block lands** on an instruction. -/
theorem exists_landing (c : Complete w u) {b : BlockId} (hb : b < u.graph.blocks.size) :
    ∃ i, u.graph.withRoots.landing b = .ok i := by
  have hskel := Graph.sameSkeleton_withRoots u.graph
  obtain ⟨blk, hblk, hblk'⟩ := Graph.exists_block_ok ((hskel.lt_size_iff b).2 hb)
  have hlen := c.built.layout.length_order_le
  obtain ⟨i, hi⟩ := c.exists_landingWithin (u.graph.withRoots.blocks.size + 1) hblk'
    (by rw [hskel.size_eq]; omega)
  refine ⟨i, ?_⟩
  simp only [Graph.landing, hblk, Graph.landing?, hi, expect, bind, Except.bind]

/-- Every instruction can be settled. -/
theorem exists_aimed (c : Complete w u) {i : InstrId} {ins : Instr}
    (hins : u.graph.withRoots.instr? i = some ins) :
    ∃ ins', u.graph.withRoots.aimed ins = .ok ins' := by
  rw [Graph.aimed]
  split
  · rename_i cond target hbranch
    have hop : u.graph.op? i = some (.branch cond target) := by
      rw [Graph.instr?_withRoots] at hins
      obtain ⟨ins₀, hins₀, rfl⟩ := Option.map_eq_some_iff.1 hins
      rw [Graph.op?, hins₀, Option.map_some, Operation.mapValues_eq_branch_iff.1 hbranch]
    cases target with
    | none =>
      obtain ⟨f, hf, -⟩ := c.built.closable.unaimed i cond hop
      rw [c.frames_eq] at hf
      cases hf
    | some t =>
      have hexists := c.built.contents.aimed i cond t hop
      obtain ⟨b, hb, htarget⟩ : ∃ b, b < u.graph.blocks.size ∧
          u.graph.withRoots.targetBlock t = .ok b := by
        cases t with
        | startOf b => exact ⟨b, hexists, rfl⟩
        | instr j =>
          obtain ⟨b, hhome, hb⟩ := c.built.contents.home?_isSome hexists
          rw [Graph.home?] at hhome
          obtain ⟨insj, hj, hjb⟩ := Option.map_eq_some_iff.1 hhome
          have hj' : u.graph.withRoots.instr j = .ok (insj.mapOp (·.mapValues u.graph.liveOf)) := by
            rw [Graph.instr_eq_ok_iff, Graph.instr?_withRoots, hj]
            rfl
          refine ⟨b, hb, ?_⟩
          simp only [Graph.targetBlock, hj', bind, Except.bind, pure, Except.pure]
          rw [← hjb]
          rfl
      obtain ⟨j, hj⟩ := c.exists_landing hb
      exact ⟨{ ins with op := .branch cond (some (.instr j)) }, by
        simp only [htarget, hj, expect, bind, Except.bind, pure, Except.pure]⟩
  · exact ⟨ins, rfl⟩

/-- Every branch can be pointed at its landing. -/
theorem exists_withLandings (c : Complete w u) :
    ∃ g, u.graph.withRoots.withLandings = .ok g := by
  cases hys : u.graph.withRoots.instrs.toList.mapM u.graph.withRoots.aimed with
  | ok ys =>
    exact ⟨_, by
      simp only [Graph.withLandings, hys, bind, Except.bind, pure, Except.pure]
      rfl⟩
  | error e =>
    obtain ⟨ins, hmem, herror⟩ := Graph.exists_of_mapM_error hys
    obtain ⟨k, hk⟩ := List.mem_iff_getElem?.1 hmem
    have hins : u.graph.withRoots.instr? (k + 1) = some ins := by
      rw [Graph.instr?, ← Array.getElem?_toList]
      exact hk
    obtain ⟨ins', hins'⟩ := c.exists_aimed hins
    rw [herror] at hins'
    cases hins'

/-- **Settling a complete body succeeds.** -/
theorem settle (c : Complete w u) :
    ∃ g, u.settle = .ok { u with graph := g, isSettled := true } ∧ u.graph.Settles g := by
  obtain ⟨g, hg⟩ := c.exists_withLandings
  have hroots := Graph.forM_requireRoot c.built.books.rooted
  refine ⟨g, ?_, Graph.settles_of_withLandings hg⟩
  simp only [Body.settle, c.built.requireOpen_eq, hroots, hg, bind, Except.bind, pure, Except.pure]

end Complete

/-- **Ending a body** with a last instruction and settling it. -/
theorem Built.settleWith {w : Site} {u : Body} (b : Built w u) (hframes : w.frames = [])
    (hcurrent : u.current = w.tail) (op : Operation) (hphi : op.isPhi = false)
    (hbr : op.isBranch = false) : ∃ g₁ g, u.graph.Places w.tail op g₁ ∧ g₁.Settles g ∧
      Complete w { u with graph := g₁ } ∧
      u.settleWith op = .ok { u with graph := g, isSettled := true } := by
  obtain ⟨g₁, hplace, hplaces, hb⟩ := b.place b.layout.tail_lt op hphi hbr
  have hcomplete : Complete w { u with graph := g₁ } := by
    refine ⟨hb, hframes, u.graph.nextId, (hb.contents.mem_listed _ _).2 ?_, ?_⟩
    · rw [hplaces.home?_eq, if_pos rfl]
    · rw [Graph.isRetired_eq, hplaces.standIn?_eq, Graph.standIn?, Graph.Places.instr?_nextId]
      rfl
  obtain ⟨g, hsettle, hsettles⟩ := hcomplete.settle
  refine ⟨g₁, g, hplaces, hsettles, hcomplete, ?_⟩
  rw [← hcurrent] at hplace
  simp only [Body.settleWith, b.requireOpen_eq, hplace, bind, Except.bind]
  exact hsettle

end StructuredSSA
