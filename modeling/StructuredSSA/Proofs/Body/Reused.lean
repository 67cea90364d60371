import StructuredSSA.Proofs.Body.Dominance
import StructuredSSA.Proofs.Body.Fate

/-!
# Instructions that are reused

An instruction that is returned in place of a new one could just as well have been added now: it
reads in the end what the new one would read.  It is not older than the innermost open loop, so it
was added when the same loops were open that are open now, and what it reads now has not been
replaced yet.

This takes two facts about open loops.  The body keeps the number of the first instruction of each,
which is what reuse goes by; and every instruction that was added in a loop comes after the first
one of the test of the loop, because construction begins with the test.

## What is here

* `Looped` — the two facts, and `Looped.run` that they always hold.
* `Stands.reused` — an instruction that is reused stands for a new one.
* `Run.growth` — what dominated before still does, along a run.
-/

set_option autoImplicit false

namespace StructuredSSA

/-- **What is known of open loops.** -/
structure Looped (w : Site) (u : Body) : Prop where
  starts_eq : u.loopStarts = w.loops.map Frame.start
  /-- Arithmetic in a loop comes after the first instruction of the test of the loop. -/
  begun : ∀ i op, u.graph.op? i = some op → op.arith?.isSome = true → ∀ f ∈ w.loops, f.start ≤ i →
    ∃ j, (u.graph.plain f.test).head? = some j ∧ j ≤ i

variable {w w' : Site} {u u' : Body} {i : InstrId} {op : Operation}

/-- A block that holds a branch lists an instruction that is no phi. -/
theorem Graph.Contents.plain_ne_nil {g : Graph} (hc : g.Contents) {b : BlockId}
    (h : g.HasBranch b) : g.plain b ≠ [] := by
  obtain ⟨i, hi, hhome⟩ := h
  have hphi : g.isPhi i = false := by
    rw [isBranch_eq] at hi
    rw [isPhi_eq]
    cases hop : g.op? i with
    | none => rfl
    | some op =>
      rw [hop] at hi
      cases op <;> first | rfl | cases hi
  refine List.ne_nil_of_mem (a := i) (List.mem_filter.2 ⟨(hc.mem_listed b i).2 hhome, ?_⟩)
  rw [hphi]
  rfl

/-- Every test has begun when an instruction has been added. -/
theorem Built.exists_first (b : Built w u) (b' : Built w u')
    (hreceives : u.graph.Receives u.current op u'.graph) (hphi : op.isPhi = false)
    (hclear : u.current = Body.head ∨ ¬ u.graph.HasBranch u.current) {f : Frame}
    (hf : f ∈ w.frames) :
    ∃ j, (u'.graph.plain f.test).head? = some j ∧ j ≤ u.graph.nextId := by
  have hne : u'.graph.plain f.test ≠ [] := by
    rw [hreceives.plain_eq hphi hclear]
    split
    · exact List.append_ne_nil_of_right_ne_nil _ (List.cons_ne_nil _ _)
    · rename_i hne
      exact b.contents.plain_ne_nil ((b.closable.tested f hf).resolve_left hne)
  obtain ⟨j, hj⟩ := Option.isSome_iff_exists.1 (List.isSome_head?.2 hne)
  have hlisted : j ∈ u'.graph.listed f.test := List.mem_of_mem_filter (List.mem_of_mem_head? hj)
  have hlt := Graph.lt_nextId_of_home? ((b'.contents.mem_listed _ _).1 hlisted)
  rw [hreceives.nextId_eq] at hlt
  exact ⟨j, hj, Nat.le_of_lt_succ hlt⟩

/-- A new instruction that is no phi is one that the current graph receives. -/
theorem Shift.receives_of_new (h : Shift w u w' u') (b : Built w u) (b' : Built w' u')
    (hi : u.graph.nextId ≤ i) (hop : u'.graph.op? i = some op) (harith : op.arith?.isSome = true) :
    w' = w ∧ i = u.graph.nextId ∧ ∃ op', u.graph.Receives u.current op' u'.graph ∧
      op'.isPhi = false ∧ (u.current = Body.head ∨ ¬ u.graph.HasBranch u.current) := by
  obtain ⟨c, hc, -⟩ := b'.contents.home?_isSome (by rw [hop]; rfl)
  have hphi : u'.graph.isPhi i = false := by
    rw [Graph.isPhi_eq, hop, Option.any_some, Operation.isPhi_of_arith harith]
  have hmem : i ∈ u'.graph.plain c :=
    List.mem_filter.2 ⟨(b'.contents.mem_listed c i).2 hc, by rw [hphi]; rfl⟩
  have hnot : u'.graph.plain c ≠ u.graph.plain c := fun heq => by
    have hmem' := List.mem_of_mem_filter (heq ▸ hmem)
    exact Nat.not_lt.2 hi (Graph.lt_nextId_of_home? ((b.contents.mem_listed c i).1 hmem'))
  cases h with
  | retarget h => exact absurd (h.plain_eq c) hnot
  | @receive _ d op' h hphi' hfills hclear hreads =>
    have hop' : i = u.graph.nextId ∧ op = op' := by
      rcases (h.op?_iff i op (Operation.isBranch_of_arith harith)).1 hop with h | ⟨-, h⟩
      · exact h
      · exact absurd (Graph.lt_nextId_of_op? h) (Nat.not_lt.2 hi)
    obtain ⟨rfl, rfl⟩ := hop'
    have hne : op.operands ≠ [] := by
      cases op with
      | binary => exact List.cons_ne_nil _ _
      | _ => cases harith
    obtain ⟨rfl, -, -⟩ := hreads.resolve_left hne
    exact ⟨rfl, rfl, op, h, hphi', hclear⟩
  | assign _ hv _ hmerges =>
    exact absurd (((b.withBinding _ hv).plain_merges hmerges c).trans
      ((Graph.rebinds_bindIn _ _ _ _).plain_eq c)) hnot
  | openIf _ hopens => exact absurd (hopens.stock.plain_eq c) hnot
  | openElse _ _ _ hopens => exact absurd (hopens.stock.plain_eq c) hnot
  | openLoop _ hopens => exact absurd (hopens.stock.plain_eq c) hnot
  | close _ hgraph hleft _ hcarries =>
    exact absurd (hgraph ▸ hleft.plain_carries hcarries c) hnot

theorem Step.keeps {c : Body.Command} (h : Step w u c w' u') (hwired : u.graph.Wired) :
    u.graph.Keeps u'.graph := by
  obtain ⟨o, ho⟩ := Body.exists_of_map_snd h.exec_eq
  exact (Body.exec_advances ho hwired).keeps

namespace Looped

theorem start (options : Options) : Looped .start (Body.start options) where
  starts_eq := rfl
  begun i op hop := by
    rw [Graph.op?, Body.instr?_start] at hop
    cases hop

/-- The numbers that the body keeps are those of the open loops. -/
theorem starts_step {c : Body.Command} (h : Step w u c w' u')
    (hstarts : u.loopStarts = w.loops.map Frame.start) :
    u'.loopStarts = w'.loops.map Frame.start := by
  cases h.change with
  | found | constant | test | moveTo | joinAhead | aimBranch | emitJump => exact hstarts
  | emit _ _ _ _ _ hemits => cases hemits <;> exact hstarts
  | assign _ _ _ hmerges => exact hmerges.setting.loopStarts_eq.trans hstarts
  | openIf => rw [Site.openIf, Site.loops_push_of_ne _ _ Part.noConfusion]; exact hstarts
  | openElse hframes hpart =>
    rw [Site.loops_openElse hframes (by simp [hpart])]
    exact hstarts
  | openLoop =>
    rw [Site.openLoop, Site.loops_push_loop _ _ rfl, List.map_cons, ← hstarts]
  | closeIf hframes hpart _ _ _ hcarries =>
    rw [hcarries.setting.loopStarts_eq, hstarts,
      Site.loops_cons_of_ne (Site.frames_eq_cons_pop hframes) hpart]
  | closeLoop hframes hpart _ _ _ hcarries =>
    rw [hcarries.setting.loopStarts_eq]
    change u.loopStarts.tail = _
    rw [hstarts, Site.loops_cons (Site.frames_eq_cons_pop hframes) hpart, List.map_cons,
      List.tail_cons]

theorem step {c : Body.Command} (l : Looped w u) (b : Built w u) (hwired : u.graph.Wired)
    (h : Step w u c w' u') : Looped w' u' where
  starts_eq := starts_step h l.starts_eq
  begun i op hop harith f hf hstart := by
    have hshift := h.shift b
    rcases Nat.lt_or_ge i u.graph.nextId with hlt | hge
    · -- the instruction was there, and the loop was open
      obtain ⟨newer, older, heq, hsuffix, hnewer⟩ := hshift.reloops b
      rcases List.mem_append.1 (heq ▸ hf) with hf | hf
      · exact absurd hlt (Nat.not_lt.2 (Nat.le_trans (hnewer f hf).1 hstart))
      · obtain ⟨ins', hins', rfl⟩ := Option.map_eq_some_iff.1 hop
        obtain ⟨ins, hins⟩ := Graph.exists_instr ⟨(Graph.lt_nextId_of_instr? hins').1, hlt⟩
        obtain ⟨ins₁, hins₁, hkeeps⟩ := h.keeps hwired i ins hins
        obtain rfl : ins' = ins₁ := Option.some.inj (hins'.symm.trans hins₁)
        obtain ⟨j, hj, hle⟩ := l.begun i ins.op (by rw [Graph.op?, hins]; rfl)
          (hkeeps.arith?_eq ▸ harith) f (hsuffix.subset hf) hstart
        obtain ⟨is, his⟩ := hshift.plain_prefix b f.test
        exact ⟨j, by rw [← his, List.head?_append, hj, Option.some_or], hle⟩
    · obtain ⟨rfl, rfl, op', hreceives, hphi, hclear⟩ :=
        hshift.receives_of_new b h.built hge hop harith
      exact b.exists_first h.built hreceives hphi hclear (Site.mem_loops.1 hf).1

/-- **What is known of open loops** is known all along. -/
theorem run {options : Options} {cs : List Body.Command}
    (h : Run .start (Body.start options) cs w u) : Looped w u := by
  refine h.preserves_along (P := Looped) (.start options) (.start options) ?_
  intro cs₁ c cs₂ w₁ u₁ w₂ u₂ _ hrun hb hl hstep
  exact hl.step hb (Body.wired_execAll hrun.execAll_eq (Body.wired_start options)) hstep

end Looped

/-- What is not older than the innermost loop is not older than any open loop. -/
theorem Looped.start_le (l : Looped w u) (n : Numbered u.graph w)
    (hnew : u.predatesLoop i = false) : ∀ f ∈ w.loops, f.start ≤ i := by
  have hnested := n.nested.filter (·.part = .loopBody)
  change w.loops.Pairwise _ at hnested
  have hstarts := l.starts_eq
  rw [Body.predatesLoop] at hnew
  cases hloops : w.loops with
  | nil => exact fun f hf => absurd hf List.not_mem_nil
  | cons F rest =>
    rw [hloops] at hstarts hnested
    rw [hstarts] at hnew
    have hle : F.start ≤ i := Nat.le_of_not_lt (of_decide_eq_false hnew)
    exact List.forall_mem_cons.2
      ⟨hle, fun f hf => Nat.le_trans ((List.pairwise_cons.1 hnested).1 f hf).1 hle⟩

/-- **An instruction that is reused** reads in the end what a new one would read. -/
theorem Stands.reused (o : Orderly w u) (l : Looped w u) (hop : u.graph.op? i = some op)
    (harith : op.arith?.isSome = true) (hnew : u.predatesLoop i = false) :
    Stands u.graph u.graph w w.loops i op := by
  have hinside := l.start_le o.numbered hnew
  have hphi := Operation.isPhi_of_arith harith
  exact
    { around := .start o.built.layout o.numbered o.precedes hinside (Graph.lt_nextId_of_op? hop)
      op_eq := by
        rw [Operation.fated_eq_self (.of_samePhis (.refl _)), hop]
      isBranch := Operation.isBranch_of_arith harith
      begun := .inr (.inr fun f hf => l.begun i op hop harith f hf (hinside f hf))
      housed := fun hphi' => by
        rw [hphi] at hphi'
        cases hphi'
      gained := fun _ _ _ => id
      waits := List.pairwise_of_forall fun _ _ _ _ => id }

theorem Shift.size_le (h : Shift w u w' u') (b : Built w u) :
    u.graph.blocks.size ≤ u'.graph.blocks.size := by
  cases h with
  | retarget h => exact Nat.le_of_eq h.skeleton.size_eq.symm
  | receive h => exact Nat.le_of_eq h.skeleton.size_eq.symm
  | @assign _ x v _ hv _ hmerges =>
    have hskel := (Graph.rebinds_bindIn u.graph w.tail x v).skeleton.trans
      ((b.withBinding x hv).skeleton_merges hmerges)
    exact Nat.le_of_eq hskel.size_eq.symm
  | openIf _ hopens => rw [hopens.size_eq]; exact Nat.le_add_right _ _
  | openElse _ _ _ hopens => rw [hopens.size_eq]; exact Nat.le_add_right _ _
  | openLoop _ hopens => exact hopens.size_le
  | close _ hgraph hleft _ hcarries =>
    rw [← hgraph]
    exact Nat.le_of_eq (hleft.growth_carries hcarries).2.1.size_eq.symm

/-- What dominated before still does at the end of a run. -/
theorem Run.growth {cs : List Body.Command} (h : Run w u cs w' u') (b : Built w u) :
    u.graph.Extends u'.graph ∧ u.graph.blocks.size ≤ u'.graph.blocks.size := by
  induction h with
  | nil => exact ⟨.refl _, Nat.le_refl _⟩
  | cons step _ ih =>
    have hsize := (step.shift b).size_le b
    obtain ⟨hgrowth, hsize'⟩ := ih step.built
    exact ⟨(step.advances b).growth.trans hgrowth hsize, Nat.le_trans hsize hsize'⟩

end StructuredSSA
