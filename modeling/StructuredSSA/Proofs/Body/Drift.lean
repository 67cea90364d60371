import StructuredSSA.Proofs.Body.Closed

/-!
# How phis of closed constructs change

A phi of a closed construct can still change: a loop around it gets a phi, and what the instructions
of the loop read from before the loop is redirected to it.  This may change an operand, what the
variable means in the block that the operand comes from, or both; and whatever changes becomes the
new phi.  So a side that is wrong stays wrong, and a side that is right stays right unless its
operand is changed.

## What is here

* `PhiSide` — one side of a phi, with the block that it comes from.
* `PhiSide.Drift`, `PhiSide.Drifts` — how a side can change.
* `Built.drifts_merges` — what a merge does to it.
* `Levelled.drifts_shift` — what any step does to it.
-/

set_option autoImplicit false

namespace StructuredSSA

/-- A variable means something that exists. -/
theorem Layout.meaning_lt {g : Graph} {w : Site} (l : Layout g w) (hc : g.Contents) {b : BlockId}
    (hb : b < g.blocks.size) {x : Var} {k : InstrId} (h : g.meaning b x = some k) :
    k < g.nextId := by
  have hres := l.resolves_meaning hb x
  rw [h] at hres
  obtain ⟨c, hc'⟩ := hres.exists_binding (by simp)
  exact (Graph.op?_isSome_iff.1 (hc.bound c x k hc')).2

/-- One side of a phi, with the block that it comes from. -/
structure PhiSide where
  block : BlockId
  var : Var
  phi : InstrId
  side : Side
  source : BlockId

namespace PhiSide

/-- The side is there and selects `v`. -/
structure Selects (p : PhiSide) (g : Graph) (v : Option InstrId) : Prop where
  phiOf : g.PhiOf p.block p.var p.phi
  entry : g.entry p.side p.block = some p.source
  operand : g.phiOperand? p.phi p.side = some (.through p.var v)
  bound : ∀ k, v = some k → k < g.nextId

/-- What the variable means where the side comes from. -/
def meant (p : PhiSide) (g : Graph) : Option InstrId := g.meaning p.source p.var

/-- **How a side can change** from selecting `v` to selecting `v'`. -/
structure Drift (p : PhiSide) (g g' : Graph) (v v' : Option InstrId) : Prop where
  /-- If it is right afterwards, it was right before. -/
  wrong : v' = p.meant g' → v = p.meant g
  /-- If it was right and selects the same as before, it is right. -/
  right : v = p.meant g → v' = v → v' = p.meant g'
  /-- It selects nothing else that existed before. -/
  fresh : v' = v ∨ ∃ k, g.nextId ≤ k ∧ v' = some k
  nextId_le : g.nextId ≤ g'.nextId

/-- The side is kept, and it drifts. -/
def Drifts (p : PhiSide) (g g' : Graph) : Prop :=
  ∀ v, p.Selects g v → ∃ v', p.Selects g' v' ∧ p.Drift g g' v v'

variable {p : PhiSide} {g g' g'' : Graph}

theorem Selects.home? {v : Option InstrId} (h : p.Selects g v) (hc : g.Contents) :
    g.home? p.phi = some p.block :=
  (hc.mem_listed _ _).1 h.phiOf.1

theorem Selects.brings_iff {w : Site} {v : Option InstrId} (h : p.Selects g v) (l : Layout g w)
    (hc : g.Contents) : g.Brings p.phi p.side ↔ v = p.meant g :=
  l.brings_iff (h.home? hc) h.entry (l.entry_lt h.entry) h.operand

namespace Drifts

/-- Nothing changes. -/
theorem of_same (hphi : g.PhiOf p.block p.var p.phi → g'.PhiOf p.block p.var p.phi)
    (hentry : g'.entry p.side p.block = g.entry p.side p.block)
    (hoperand : g'.phiOperand? p.phi p.side = g.phiOperand? p.phi p.side)
    (hmeant : ∀ q, g.entry p.side p.block = some q → q = p.source → p.meant g' = p.meant g)
    (hnext : g.nextId ≤ g'.nextId) : p.Drifts g g' := by
  intro v hs
  have hm := hmeant _ hs.entry rfl
  refine ⟨v, ⟨hphi hs.phiOf, by rw [hentry, hs.entry], by rw [hoperand, hs.operand],
    fun k hk => Nat.lt_of_lt_of_le (hs.bound k hk) hnext⟩, ?_⟩
  exact ⟨fun h => h.trans hm, fun h _ => h.trans hm.symm, .inl rfl, hnext⟩

theorem refl (p : PhiSide) (g : Graph) : p.Drifts g g :=
  .of_same id rfl rfl (fun _ _ _ => rfl) (Nat.le_refl _)

theorem trans (h : p.Drifts g g') (h' : p.Drifts g' g'') : p.Drifts g g'' := by
  intro v hs
  obtain ⟨v₁, hs₁, hd₁⟩ := h v hs
  obtain ⟨v₂, hs₂, hd₂⟩ := h' v₁ hs₁
  refine ⟨v₂, hs₂, fun heq => hd₁.wrong (hd₂.wrong heq), fun hright hsame => ?_, ?_,
    Nat.le_trans hd₁.nextId_le hd₂.nextId_le⟩
  · -- a value that was there before does not come back
    have hold : v₁ = v := by
      rcases hd₂.fresh with heq | ⟨k, hk, heq⟩
      · exact heq.symm.trans hsame
      · have := hs.bound k (hsame.symm.trans heq)
        exact absurd (Nat.lt_of_lt_of_le this hd₁.nextId_le) (Nat.not_lt.2 hk)
    exact hd₂.right (hd₁.right hright hold) (hsame.trans hold.symm)
  · rcases hd₂.fresh with heq | ⟨k, hk, heq⟩
    · rw [heq]
      exact hd₁.fresh
    · exact .inr ⟨k, Nat.le_trans hd₁.nextId_le hk, heq⟩

end Drifts
end PhiSide

/-! ## Merging -/

namespace Built

variable {w : Site} {u u' : Body} {f : Frame} {fs : List Frame} {y : Var} {p : PhiSide}

/-- What a new phi does to the operand of a phi of another block. -/
theorem operand_absorbs {before v val : Option InstrId} {start : InstrId} {g : Graph}
    (h : u.graph.Absorbs f y before val start g) (hs : p.Selects u.graph v) :
    ∃ v', g.phiOperand? p.phi p.side = some (.through p.var v') ∧
      (v' = v ∧ ¬ (p.var = y ∧ start ≤ p.phi ∧ v = before) ∨
        v' = some u.graph.nextId ∧ p.var = y ∧ v = before) := by
  obtain ⟨-, op, hop, hisPhi⟩ := hs.phiOf
  have hne : p.phi ≠ u.graph.nextId := Nat.ne_of_lt (Graph.lt_nextId_of_op? hop)
  have hside : op.side? p.side = some (.through p.var v) := by
    have := hs.operand
    rwa [Graph.phiOperand?, hop] at this
  have hnew : ∀ op', op' = (if start ≤ p.phi then op.redirect y before u.graph.nextId else op) →
      g.phiOperand? p.phi p.side = op'.side? p.side := by
    rintro op' rfl
    rw [Graph.phiOperand?, (h.op?_old p.phi _ hne ?_).2 ⟨op, hop, rfl⟩, Option.bind_some]
    split
    · exact (hisPhi.of_similar (Operation.similar_redirect y before u.graph.nextId op)).isBranch
    · exact hisPhi.isBranch
  rw [hnew _ rfl]
  by_cases hge : start ≤ p.phi
  · rw [if_pos hge, Operation.redirect, Operation.side?_mapOperands, hside, Option.map_some]
    by_cases hread : p.var = y ∧ v = before
    · obtain ⟨rfl, rfl⟩ := hread
      exact ⟨some u.graph.nextId, by rw [Operand.redirect, if_pos rfl], .inr ⟨rfl, rfl, rfl⟩⟩
    · refine ⟨v, ?_, .inl ⟨rfl, fun h' => hread ⟨h'.1, h'.2.2⟩⟩⟩
      rw [Operand.redirect, if_neg]
      intro heq
      simp only [Operand.through, Operand.mk.injEq, Option.some.injEq] at heq
      exact hread ⟨heq.2, heq.1⟩
  · rw [if_neg hge]
    exact ⟨v, hside, .inl ⟨rfl, fun h' => hge h'.2.1⟩⟩

/-- What a new phi does to the meaning of a variable in a block that has been passed. -/
theorem meant_absorbs (b : Built w u) (hframes : w.frames = f :: fs)
    {before val : Option InstrId} {start : InstrId} {g : Graph}
    (h : u.graph.Absorbs f y before val start g) (hpassed : p.source ∈ w.passed) :
    p.meant g = p.meant u.graph ∨ p.var = y ∧ p.meant u.graph = before ∧
      p.meant g = some u.graph.nextId ∧ f.part = .loopBody ∧ u.graph.Above f.test p.source := by
  have l := b.layout
  have hf : f ∈ w.frames := by simp [hframes]
  have hlt := l.passed_lt hpassed
  by_cases hread : p.var = y ∧ f.part = .loopBody
  · obtain ⟨hvar, hpart⟩ := hread
    have htest : f.phiBlock = f.test := Frame.phiBlock_eq_test hpart
    have hbind : ∀ d, g.binding d p.var =
        if d = f.test then some (some u.graph.nextId) else u.graph.binding d p.var := fun d => by
      rw [h.binding_eq, htest]
      simp [hvar]
    rcases Graph.Resolves.rebind hbind h.skeleton.parent_eq (hvar ▸ h.resolves)
        (l.resolves_meaning hlt p.var) with hsame | ⟨heq, hnew, habove⟩
    · exact .inl ((l.of_sameSkeleton h.skeleton).meaning_eq
        ((h.skeleton.lt_size_iff _).2 hlt) hsame)
    · exact .inr ⟨hvar, heq,
        (l.of_sameSkeleton h.skeleton).meaning_eq ((h.skeleton.lt_size_iff _).2 hlt) hnew,
        hpart, habove⟩
  · refine .inl (l.meaning_of_skeleton h.skeleton hlt (c := f.phiBlock)
      (fun d hd => by rw [h.binding_eq, if_neg fun h' => hd h'.1]) fun habove => ?_)
    by_cases hvar : p.var = y
    · rw [Frame.phiBlock_eq_target fun hpart => hread ⟨hvar, hpart⟩] at habove
      exact absurd habove (l.not_above_target hf (List.mem_cons_of_mem _ hpassed))
    · rw [h.binding_eq, if_neg fun h' => hvar h'.2]

/-- **What a merge does** to a phi of a closed construct. -/
theorem drifts_merges (b : Built w u) (n : Numbered u.graph w)
    (hh : Housed u.graph w p.block p.phi) {val : Option InstrId} (h : u.Merges w y val u') :
    p.Drifts u.graph u'.graph := by
  have l := b.layout
  cases hframes : w.frames with
  | nil =>
    rw [h.eq_of_outermost hframes]
    exact .refl _ _
  | cons f fs =>
    have hf : f ∈ w.frames := by simp [hframes]
    have hne : p.block ≠ f.phiBlock := fun heq => hh.isSealed.closed.closed f hf heq.symm
    have hgrows := b.grows hframes h
    have hphi := (b.gains hframes h).phiOf_iff (y := p.var) (i := p.phi) hne
    have hentry := hgrows.skeleton.entry_eq p.side p.block
    rcases b.merge_cases n hframes h with ⟨j, hown, hg⟩ | ⟨before, start, habsorbs⟩
    · -- the phi of another block gets a new operand
      have hshape := Graph.sameShape_mapOp u.graph j (Operation.similar_setSide f.side val)
      intro v hs
      have hij : j ≠ p.phi := by
        rintro rfl
        exact hne (Option.some.inj ((hs.home? b.contents).symm.trans hown.2.2))
      refine PhiSide.Drifts.of_same hphi.2 hentry ?_ (fun q hq hqp => ?_) ?_ v hs
      · rw [hg, Graph.phiOperand?, Graph.op?_modifyInstr_mapOp, if_neg hij, Graph.phiOperand?]
      · rw [hg]
        exact l.meaning_of_skeleton hshape.skeleton (hqp ▸ l.entry_lt hq) (c := p.source)
          (fun d _ => hshape.binding_eq d _) fun _ => hshape.binding_eq _ _
      · rw [hg]
        exact Nat.le_of_eq (Graph.nextId_modifyInstr _ _ _).symm
    · intro v hs
      have hpassed := hh.isSealed.entry_passed l hs.entry
      have hmeant_lt : p.meant u.graph ≠ some u.graph.nextId := fun heq =>
        Nat.lt_irrefl _ (l.meaning_lt b.contents (l.passed_lt hpassed) heq)
      have hv_lt : v ≠ some u.graph.nextId := fun heq => Nat.lt_irrefl _ (hs.bound _ heq)
      have hle : u.graph.nextId ≤ u'.graph.nextId := by
        rw [habsorbs.nextId_eq]
        exact Nat.le_succ _
      -- in the loop, reads by the phi are redirected
      have hstart : f.part = .loopBody → u.graph.Above f.test p.source → start ≤ p.phi :=
        fun hpart habove => habsorbs.start_le hpart _ hs.phiOf.isPhi
          (hh.inside p.side p.source hs.entry f hf hpart habove)
      obtain ⟨v', hoperand, hv'⟩ := operand_absorbs habsorbs hs
      have hbound : ∀ k, v' = some k → k < u'.graph.nextId := fun k hk => by
        rcases hv' with ⟨rfl, -⟩ | ⟨rfl, -⟩
        · exact Nat.lt_of_lt_of_le (hs.bound k hk) hle
        · cases hk
          rw [habsorbs.nextId_eq]
          exact Nat.lt_succ_self _
      have hfresh : v' = v ∨ ∃ k, u.graph.nextId ≤ k ∧ v' = some k := by
        rcases hv' with ⟨rfl, -⟩ | ⟨rfl, -⟩
        · exact .inl rfl
        · exact .inr ⟨_, Nat.le_refl _, rfl⟩
      refine ⟨v', ⟨hphi.2 hs.phiOf, hentry.trans hs.entry, hoperand, hbound⟩, ?_, ?_, hfresh, hle⟩
      · intro hright
        rcases b.meant_absorbs hframes habsorbs hpassed with hm | ⟨hvar, hm, hm', hpart, habove⟩
        · rcases hv' with ⟨rfl, -⟩ | ⟨rfl, -⟩
          · exact hright.trans hm
          · exact absurd (hright.trans hm).symm hmeant_lt
        · rcases hv' with ⟨rfl, -⟩ | ⟨-, -, rfl⟩
          · exact absurd (hright.trans hm') hv_lt
          · exact hm.symm
      · rintro hright rfl
        rcases b.meant_absorbs hframes habsorbs hpassed with hm | ⟨hvar, hm, hm', hpart, habove⟩
        · exact hright.trans hm.symm
        · rcases hv' with ⟨-, hkept⟩ | ⟨rfl, -⟩
          · exact absurd ⟨hvar, hstart hpart habove, hright.trans hm⟩ hkept
          · exact absurd rfl hv_lt

theorem drifts_carriesEach (b : Built w u) (n : Numbered u.graph w)
    (htested : ∀ f ∈ w.frames, u.graph.HasBranch f.test) (hframes : w.frames = f :: fs)
    (hh : Housed u.graph w p.block p.phi) {c : BlockId} {is : List InstrId}
    (h : Body.CarriesEach w c is u u') : p.Drifts u.graph u'.graph := by
  induction h with
  | nil => exact .refl _ _
  | cons _ hmerge _ ih =>
    have hgrows := b.grows hframes hmerge
    exact (b.drifts_merges n hh hmerge).trans (ih (b.of_merges hmerge)
      (n.grow b.layout hframes htested hgrows)
      (fun f' hf' => (hgrows.hasBranch_iff _).2 (htested f' hf')) (hh.of_skeleton hgrows.skeleton))

end Built

/-! ## Steps -/

namespace PhiSide.Drifts

variable {p : PhiSide} {g g' : Graph} {w w' : Site}

theorem calm (l : Layout g w) (h : g.Calm g') (hphis : g.SamePhis g') : p.Drifts g g' := by
  refine .of_same (hphis _ _ _).2 (h.skeleton.entry_eq _ _)
    (Graph.phiOperand?_congr (fun o ho => h.op?_phi ho) _) (fun q hq hqp => ?_) h.nextId_le
  exact l.meaning_of_skeleton h.skeleton (hqp ▸ l.entry_lt hq) (c := p.source)
    (fun d _ => h.binding_eq d _) fun _ => h.binding_eq _ _

/-- Other bindings at the tail. -/
theorem rebindTail (l : Layout g w) (h : g.Rebinds w.tail g')
    (hs : Sealed g w p.block) : p.Drifts g g' := by
  refine .of_same (h.samePhis _ _ _).2 (h.skeleton.entry_eq _ _)
    (Graph.phiOperand?_congr (fun o _ => by rw [h.op?_eq]) _) (fun q hq hqp => ?_)
    (Nat.le_of_eq h.nextId_eq.symm)
  have hpassed := hs.entry_passed l hq
  rw [hqp] at hpassed
  exact l.meaning_of_skeleton h.skeleton (l.passed_lt hpassed) (fun d hd => h.binding_eq d _ hd)
    fun habove => absurd (l.above_passed hpassed habove) l.tail_not_passed

/-- A construct or a side is opened. -/
theorem opened (l : Layout g w) (l' : Layout g' w') (hstock : g.SameStock g')
    (hsize : g.blocks.size ≤ g'.blocks.size) (hsame : Undisturbed g w g')
    (hs : Sealed g w p.block) : p.Drifts g g' := by
  refine .of_same (hstock.samePhis _ _ _).2 (hsame.entry_eq _ hs _)
    (Graph.phiOperand?_congr (fun o _ => by rw [Graph.op?, hstock.instr?_eq, Graph.op?]) _)
    (fun q hq hqp => ?_) (Nat.le_of_eq (by rw [Graph.nextId, Graph.nextId, hstock.instrs_eq]))
  have hpassed := hs.entry_passed l hq
  rw [hqp] at hpassed
  exact l.meaning_of_parent l' hstock hsize hsame.parent_eq (List.mem_cons_of_mem _ hpassed) _

end PhiSide.Drifts

namespace Levelled

variable {w w' : Site} {u u' : Body} {p : PhiSide}

/-- A construct is closed, which may be the one of the phi itself. -/
theorem drifts_close (hl : Levelled u.graph w) (b : Built w u) (n : Numbered u.graph w) {f : Frame}
    {fs : List Frame} {u₀ : Body} (hframes : w.frames = f :: fs) (hgraph : u₀.graph = u.graph)
    (hleft : Built w.pop u₀) (htested : ∀ f' ∈ fs, u.graph.HasBranch f'.test)
    (h : u₀.Carries w.pop f.phiBlock f.test u') (hh : Housed u.graph w.pop p.block p.phi) :
    p.Drifts u.graph u'.graph := by
  have l := b.layout
  have hpop := Site.pop_eq hframes
  cases h with
  | outermost =>
    have hre := Graph.rebinds_inheritScope u.graph f.target f.test
    have htarget : f.target < u.graph.blocks.size :=
      l.target_lt (List.mem_map_of_mem (by simp [hframes]))
    rw [hgraph, show w.pop.tail = f.target by rw [hpop]]
    refine .of_same (hre.samePhis _ _ _).2 (hre.skeleton.entry_eq _ _)
      (Graph.phiOperand?_congr (fun o _ => by rw [hre.op?_eq]) _) (fun q hq hqp => ?_)
      (Nat.le_of_eq hre.nextId_eq.symm)
    have hlt : p.source < u.graph.blocks.size := hqp ▸ l.entry_lt hq
    refine (l.of_sameSkeleton hre.skeleton).meaning_eq ((hre.skeleton.lt_size_iff _).2 hlt) ?_
    exact l.resolves_inheritScope htarget
      (fun v hnone hv => hl.resolves_target l hframes hnone hv) (l.resolves_meaning hlt _)
  | inner hne each =>
    obtain ⟨f', fs', hframes'⟩ := List.exists_cons_of_ne_nil hne
    rw [← hgraph] at hh ⊢
    refine hleft.drifts_carriesEach (hgraph ▸ n.pop) (fun f'' hf'' => hgraph ▸ htested f'' ?_)
      hframes' hh each
    rw [hpop] at hf''
    exact hf''

/-- **What a step does** to a phi of a closed construct. -/
theorem drifts_shift (hl : Levelled u.graph w) (b : Built w u) (n : Numbered u.graph w)
    (hh : Housed u.graph w p.block p.phi) (h : Shift w u w' u') : p.Drifts u.graph u'.graph := by
  have l := b.layout
  have hsame := h.undisturbed b
  cases h with
  | retarget h => exact .calm l (.of_retargets h) h.samePhis
  | receive h hphi _ hclear => exact .calm l (.of_receives h hphi hclear) (h.samePhis hphi)
  | @assign _ x v _ hv _ hmerges =>
    have hre := Graph.rebinds_bindIn u.graph w.tail x v
    exact (PhiSide.Drifts.rebindTail l hre hh.isSealed).trans
      ((b.withBinding x hv).drifts_merges (n.rebind l hre) (hh.of_skeleton hre.skeleton) hmerges)
  | openIf _ hopens =>
    refine .opened l (l.openIf hopens (u.graph.meaning w.tail) u.graph.nextId) hopens.stock ?_ hsame
      hh.isSealed
    rw [hopens.size_eq]
    exact Nat.le_add_right _ _
  | openElse hframes hpart _ hopens =>
    refine .opened l (l.openElse hframes hpart hopens) hopens.stock ?_ hsame hh.isSealed
    rw [hopens.size_eq]
    exact Nat.le_succ _
  | openLoop _ hopens =>
    refine .opened l (l.openLoop hopens (u.graph.meaning w.tail) u.graph.nextId) hopens.stock ?_
      hsame hh.isSealed
    have := hopens.size_eq
    have := hopens.head_eq
    dsimp only [BlockId] at *
    omega
  | close hframes hgraph hleft htested hcarries =>
    exact hl.drifts_close b n hframes hgraph hleft htested hcarries (hh.leave b.layout hframes)

/-! ## Outer constructs -/

theorem sameView_carriesEach (b : Built w u) (n : Numbered u.graph w)
    (htested : ∀ f ∈ w.frames, u.graph.HasBranch f.test) {f : Frame} {fs : List Frame}
    (hframes : w.frames = f :: fs) {c : BlockId} {is : List InstrId}
    (h : Body.CarriesEach w c is u u') {f' : Frame} (hf' : f' ∈ fs) :
    f'.SameView u.graph u'.graph := by
  induction h with
  | nil => exact .refl _ _
  | cons _ hmerge _ ih =>
    have hgrows := b.grows hframes hmerge
    exact (b.sameView_merges n hframes hmerge hf').trans (ih (b.of_merges hmerge)
      (n.grow b.layout hframes htested hgrows)
      fun f'' hf'' => (hgrows.hasBranch_iff _).2 (htested f'' hf''))

/-- **The constructs around the innermost one** see nothing of the step that leads there. -/
theorem sameView_shift (b : Built w u) (n : Numbered u.graph w) (h : Shift w u w' u') {f : Frame}
    (hf : f ∈ w'.frames.tail) : f ∈ w.frames ∧ f.SameView u.graph u'.graph := by
  have l := b.layout
  have hsame := h.undisturbed b
  cases h with
  | retarget h =>
    have hmem := List.mem_of_mem_tail hf
    exact ⟨hmem, sameView_calm l (.of_retargets h) hmem⟩
  | receive h hphi _ hclear =>
    have hmem := List.mem_of_mem_tail hf
    exact ⟨hmem, sameView_calm l (.of_receives h hphi hclear) hmem⟩
  | @assign _ x v _ hv _ hmerges =>
    have hmem := List.mem_of_mem_tail hf
    have hre := Graph.rebinds_bindIn u.graph w.tail x v
    obtain ⟨f', fs, hframes⟩ := List.exists_cons_of_ne_nil (List.ne_nil_of_mem hmem)
    rw [hframes] at hf
    exact ⟨hmem, (sameView_rebindTail l hre hmem).trans
      ((b.withBinding x hv).sameView_merges (n.rebind l hre) hframes hmerges hf)⟩
  | openIf _ hopens =>
    have hf : f ∈ w.frames := hf
    refine ⟨hf, sameView_opened l hopens.stock (fun c hc x => ?_) hf⟩
    refine l.meaning_of_parent (l.openIf hopens (u.graph.meaning w.tail) u.graph.nextId)
      hopens.stock ?_ hsame.parent_eq hc x
    rw [hopens.size_eq]
    exact Nat.le_add_right _ _
  | @openElse f₀ fs _ _ hframes hpart _ hopens =>
    rw [Site.openElse, hframes] at hf
    have hmem : f ∈ w.frames := by
      rw [hframes]
      exact List.mem_cons_of_mem _ hf
    exact ⟨hmem, sameView_opened l hopens.stock
      (fun c hc x => meaning_openElse l hframes hpart hopens hc x) hmem⟩
  | openLoop _ hopens =>
    have hf : f ∈ w.frames := hf
    refine ⟨hf, sameView_opened l hopens.stock (fun c hc x => ?_) hf⟩
    refine l.meaning_of_parent (l.openLoop hopens (u.graph.meaning w.tail) u.graph.nextId)
      hopens.stock ?_ hsame.parent_eq hc x
    have := hopens.size_eq
    have := hopens.head_eq
    dsimp only [BlockId] at *
    omega
  | @close f₀ fs u₀ _ hframes hgraph hleft htested hcarries =>
    have hpop := Site.pop_eq hframes
    have hmem : f ∈ w.frames := by
      rw [hpop] at hf
      simp [hframes, List.mem_of_mem_tail hf]
    refine ⟨hmem, ?_⟩
    cases hcarries with
    | outermost hnil =>
      rw [hnil] at hf
      cases hf
    | inner hne each =>
      obtain ⟨f', fs', hframes'⟩ := List.exists_cons_of_ne_nil hne
      rw [hframes'] at hf
      rw [← hgraph]
      refine sameView_carriesEach hleft (hgraph ▸ n.pop) (fun f'' hf'' => hgraph ▸ htested f'' ?_)
        hframes' each hf
      rw [hpop] at hf''
      exact hf''

end Levelled
end StructuredSSA
