import StructuredSSA.Proofs.Body.Entries
import StructuredSSA.Proofs.Body.Phis

/-!
# Phis of closed constructs

While a construct is open and no other inside of it, its phis agree with the blocks that lead to
them.  When it is closed, its phis and the edges into their block stay as they are.  A new loop phi
may still redirect their operands, if they are in the loop, which the numbers of instructions tell.

## What is here

* `Levelled.brings_own` — the phis of the innermost construct agree with their blocks.
* `Undisturbed` — what no step changes about the blocks that construction has come to.
* `Housed` — a phi of a closed construct, and the open loops that it is in.
* `Located` — every phi is in an open construct or in a closed one.
-/

set_option autoImplicit false

namespace StructuredSSA

/-! ## The innermost construct -/

namespace Levelled

variable {g : Graph} {w : Site} {f : Frame} {fs : List Frame}

/-- A checked side of a loop header is the one that comes from its body. -/
theorem side_of_checked (l : Layout g w) (hf : f ∈ w.frames) (hpart : f.part = .loopBody)
    {side : Side} (h : g.Checked f.phiBlock side) : side = f.side := by
  rw [Frame.phiBlock_eq_test hpart] at h
  rcases h with hjoin | ⟨-, rfl⟩
  · rw [(l.headed _ (l.framed_loopBody hf hpart).1).2.2] at hjoin
    cases hjoin
  · simp [Frame.side, hpart]

/-- **The phis of the innermost construct agree with the blocks that lead to them.** -/
theorem brings_own (hl : Levelled g w) (l : Layout g w) (hbound : g.PhiBound f.phiBlock)
    (hframes : w.frames = f :: fs) {i : InstrId} (hi : g.isPhi i = true)
    (hhome : g.home? i = some f.phiBlock) {side : Side} (h : g.Checked f.phiBlock side) :
    g.Brings i side := by
  have hf : f ∈ w.frames := by simp [hframes]
  have hlevels := hl.levels
  rw [hframes] at hlevels
  have hi' := hi
  rw [Graph.isPhi_eq, Option.any_eq_true] at hi'
  obtain ⟨op, hop, hphi⟩ := hi'
  obtain ⟨x, -, hx, -⟩ := hbound i op hop hphi hhome
  have hown := Graph.phiOperand?_phi (hlevels.1.own x i ⟨hx, hi, hhome⟩) side
  by_cases hside : side = f.side
  · subst hside
    rw [l.brings_iff hhome (hl.bare.entry_side l hframes) l.tail_lt hown]
    cases hpart : f.part <;> simp [Frame.side, Frame.operands, hpart]
  · have hpart : f.part ≠ .loopBody := fun hpart => hside (side_of_checked l hf hpart h)
    obtain ⟨q, hq, hentry, hmeaning⟩ := hl.bare.entry_other l hf hpart hside
    rw [l.brings_iff hhome hentry (l.passed_lt (l.behind f hf q hq)) hown,
      ← hmeaning x (hlevels.1.test hpart x)]
    cases side <;> cases hp : f.part <;> simp_all [Frame.side, Frame.operands]

end Levelled

/-! ## Blocks that construction has come to -/

namespace Sealed

variable {g : Graph} {w : Site} {b : BlockId}

/-- No edge into a sealed block will be moved. -/
theorem kept (hs : Sealed g w b) (e : Edge) : w.Kept e b where
  reached := hs.closed.reached
  steady _ f hf hpart heq :=
    hs.closed.closed f hf (by rw [Frame.phiBlock_eq_test hpart, heq])

/-- The sides of the phis of a sealed block come from blocks that have been passed. -/
theorem entry_passed (hs : Sealed g w b) (l : Layout g w) {side : Side} {q : BlockId}
    (hq : g.entry side b = some q) : q ∈ w.passed := by
  obtain ⟨e, he⟩ := Graph.succ_iff.1 (l.succ_of_entry hq)
  exact l.source_passed (hs.kept e) he

end Sealed

/-- **What no step changes** about the blocks that construction has come to. -/
structure Undisturbed (g : Graph) (w : Site) (g' : Graph) : Prop where
  parent_eq : ∀ c ∈ w.tail :: w.passed, g'.parent c = g.parent c
  entry_eq : ∀ b, Sealed g w b → ∀ side, g'.entry side b = g.entry side b
  checked_iff : ∀ b, Sealed g w b → ∀ side, g'.Checked b side ↔ g.Checked b side

namespace Undisturbed

variable {g g' : Graph} {w : Site}

theorem of_sameSkeleton (h : g.SameSkeleton g') : Undisturbed g w g' where
  parent_eq c _ := h.parent_eq c
  entry_eq b _ side := h.entry_eq side b
  checked_iff _ _ _ := h.checked_iff

/-- A construct is opened that leaves alone the edges into sealed blocks, and their roles. -/
theorem of_prev (hparent : ∀ c ∈ w.tail :: w.passed, g'.parent c = g.parent c)
    (hprev : ∀ b, Sealed g w b → ∀ e, g'.prev e b = g.prev e b)
    (hrole : ∀ b, Sealed g w b → ∀ r, r = .join ∨ r = .loopHead → g'.hasRole b r = g.hasRole b r)
    (horigin : ∀ b, Sealed g w b → g'.originOf b = g.originOf b) : Undisturbed g w g' where
  parent_eq := hparent
  entry_eq b hb := Graph.entry_congr (hprev b hb) (hrole b hb _ (.inr rfl)) (horigin b hb)
  checked_iff b hb side := by
    rw [Graph.Checked, Graph.Checked, hrole b hb _ (.inl rfl), hrole b hb _ (.inr rfl)]

theorem openIf (l : Layout g w) {join side : BlockId} (h : g.OpensIf w.tail join side g') :
    Undisturbed g w g' := by
  have hne : ∀ b, Sealed g w b → b ≠ join := by
    rintro b hb rfl
    exact absurd (hb.closed.lt_size l) (by rw [h.join_eq]; exact Nat.lt_irrefl _)
  refine .of_prev (fun c hc => l.parent_openIf h hc) (fun b hb e => l.prev_openIf h (hb.kept e))
    (fun b hb r hr => ?_) fun b hb => by rw [h.originOf_eq, if_neg (hne b hb)]
  rw [h.hasRole_eq]
  rcases hr with rfl | rfl <;> simp [hne b hb]

theorem openElse (l : Layout g w) {f : Frame} {fs : List Frame} (hframes : w.frames = f :: fs)
    (hpart : f.part = .thenSide) {side : BlockId}
    (h : g.OpensElse f.test f.target w.tail side g') : Undisturbed g w g' := by
  refine .of_prev (fun c hc => l.parent_openElse hframes hpart h hc)
    (fun b hb e => l.prev_openElse hframes hpart h (hb.kept e)) (fun b hb r hr => ?_)
    fun b _ => h.originOf_eq b
  rw [h.hasRole_eq]
  rcases hr with rfl | rfl <;> simp

theorem openLoop (l : Layout g w) {head body exit : BlockId}
    (h : g.OpensLoop w.tail head body exit g') : Undisturbed g w g' := by
  have hhead : ∀ b, Sealed g w b → b ≠ head := by
    rintro b hb rfl
    rcases h.head_eq with ⟨heq, -, -, hprev⟩ | ⟨heq, -⟩
    · exact hb.entered heq (heq ▸ hprev)
    · exact absurd (hb.closed.lt_size l) (by rw [heq]; exact Nat.lt_irrefl _)
  have hexit : ∀ b, Sealed g w b → b ≠ exit := by
    rintro b hb rfl
    exact absurd (hb.closed.lt_size l) (Nat.not_lt.2 h.size_le_exit)
  refine .of_prev (fun c hc => l.parent_openLoop h hc)
    (fun b hb e => l.prev_openLoop h (hb.kept e) fun _ => hhead b hb) (fun b hb r hr => ?_)
    fun b hb => by rw [h.originOf_eq, if_neg (hexit b hb)]
  rw [h.hasRole_eq]
  rcases hr with rfl | rfl <;> simp [hhead b hb, hexit b hb]

/-- Scopes are the same. -/
theorem above (h : Undisturbed g w g') (l : Layout g w) {a b : BlockId}
    (hb : b ∈ w.tail :: w.passed) (hab : g'.Above a b) : g.Above a b :=
  hab.congr (S := (· ∈ w.tail :: w.passed))
    (fun _ _ hc hp => List.mem_cons_of_mem _ (l.parent_passed hc hp)) h.parent_eq hb

end Undisturbed

namespace Shift

variable {w w' : Site} {u u' : Body}

theorem undisturbed (h : Shift w u w' u') (b : Built w u) : Undisturbed u.graph w u'.graph := by
  cases h with
  | retarget h => exact .of_sameSkeleton h.skeleton
  | receive h => exact .of_sameSkeleton h.skeleton
  | @assign _ x v _ hv _ hmerges =>
    exact .of_sameSkeleton ((Graph.rebinds_bindIn u.graph w.tail x v).skeleton.trans
      ((b.withBinding x hv).skeleton_merges hmerges))
  | openIf _ hopens => exact .openIf b.layout hopens
  | openElse hframes hpart _ hopens => exact .openElse b.layout hframes hpart hopens
  | openLoop _ hopens => exact .openLoop b.layout hopens
  | close _ hgraph hleft _ hcarries =>
    exact .of_sameSkeleton (hgraph ▸ hleft.skeleton_carries hcarries)

/-- An open loop was open before, or construction had not passed its header. -/
theorem loop_cases (h : Shift w u w' u') (b : Built w u) {f : Frame} (hf : f ∈ w'.frames)
    (hpart : f.part = .loopBody) : f ∈ w.frames ∨ f.test ∉ w.passed := by
  cases h with
  | retarget | receive | assign => exact .inl hf
  | openIf =>
    rcases List.mem_cons.1 hf with rfl | hf
    · cases hpart
    · exact .inl hf
  | openElse hframes =>
    rw [Site.openElse, hframes] at hf
    rcases List.mem_cons.1 hf with rfl | hf
    · cases hpart
    · exact .inl (by simp [hframes, hf])
  | @openLoop head body exit _ _ hopens =>
    rcases List.mem_cons.1 hf with rfl | hf
    · exact .inr (b.layout.head_not_passed hopens)
    · exact .inl hf
  | close hframes =>
    rw [Site.pop, hframes] at hf
    exact .inl (by simp [hframes, show f ∈ _ from hf])

end Shift

/-! ## Closed constructs -/

/-- The phi `i` is in the sealed block `b`.  Where one of its sides comes from an open loop, it was
added in the loop. -/
structure Housed (g : Graph) (w : Site) (b : BlockId) (i : InstrId) : Prop where
  isSealed : Sealed g w b
  inside : ∀ side q, g.entry side b = some q → ∀ f ∈ w.frames, f.part = .loopBody →
    g.Above f.test q → f.start ≤ i

namespace Housed

variable {g g' : Graph} {w w' : Site} {u u' : Body} {b : BlockId} {i : InstrId}

theorem of_skeleton (h : Housed g w b i) (hskel : g.SameSkeleton g') : Housed g' w b i where
  isSealed := h.isSealed.of_skeleton hskel
  inside side q hq f hf hpart habove :=
    h.inside side q (by rw [← hskel.entry_eq, hq]) f hf hpart (hskel.above_iff.1 habove)

/-- The phis of a construct that is left. -/
theorem of_pop (l : Layout g w) (n : Numbered g w) {f : Frame} {fs : List Frame}
    (hframes : w.frames = f :: fs) (hi : g.home? i = some f.phiBlock) :
    Housed g w.pop f.phiBlock i where
  isSealed := .of_pop l hframes
  inside side q _ f' hf' _ _ := by
    rw [Site.pop, hframes] at hf'
    have hnested := n.nested
    rw [hframes] at hnested
    exact Nat.le_trans ((List.pairwise_cons.1 hnested).1 f' hf').1
      (n.own_ge f (by simp [hframes]) i hi)

/-- Another construct is left. -/
theorem leave (h : Housed g w b i) (l : Layout g w) {f : Frame} {fs : List Frame}
    (hframes : w.frames = f :: fs) : Housed g w.pop b i := by
  have hpop := Site.pop_eq hframes
  have hsub : ∀ f' ∈ fs, f' ∈ w.frames := fun f' hf' => by simp [hframes, hf']
  rw [hpop]
  refine ⟨h.isSealed.of_passed [w.tail] rfl (by simp) (fun heq => ?_) fun f' hf' =>
    h.isSealed.closed.closed f' (hsub f' hf'), fun side q hq f' hf' =>
    h.inside side q hq f' (hsub f' hf')⟩
  exact l.target_not_reached h.isSealed.closed.reached
    (heq ▸ List.mem_map_of_mem (by simp [hframes]))

theorem shift (h : Housed u.graph w b i) (hb : Built w u) (hstep : Shift w u w' u') :
    Housed u'.graph w' b i where
  isSealed := (h.isSealed.shift hb hstep).1
  inside side q hq f hf hpart habove := by
    have hsame := hstep.undisturbed hb
    rw [hsame.entry_eq b h.isSealed] at hq
    have hpassed := h.isSealed.entry_passed hb.layout hq
    have habove' := hsame.above hb.layout (List.mem_cons_of_mem _ hpassed) habove
    rcases hstep.loop_cases hb hf hpart with hf | hnew
    · exact h.inside side q hq f hf hpart habove'
    · exact absurd (hb.layout.above_passed hpassed habove') hnew

end Housed

/-- **Every phi** is one of an open construct, or housed in a closed one. -/
def Located (g : Graph) (w : Site) : Prop :=
  ∀ b x i, g.PhiOf b x i → (∃ f ∈ w.frames, f.phiBlock = b) ∨ Housed g w b i

/-- A step adds phis to the innermost construct only. -/
theorem Shift.phiOf_cases {w w' : Site} {u u' : Body} (h : Shift w u w' u') (hb : Built w u)
    {b : BlockId} {x : Var} {i : InstrId} (hphi : u'.graph.PhiOf b x i) :
    (∃ f ∈ w'.frames, f.phiBlock = b) ∨ u.graph.PhiOf b x i := by
  cases h with
  | retarget h => exact .inr ((h.samePhis b x i).1 hphi)
  | receive h hr => exact .inr ((h.samePhis hr b x i).1 hphi)
  | @assign _ y v _ hv _ hmerges =>
    have hre := Graph.rebinds_bindIn u.graph w.tail y v
    cases hframes : w.frames with
    | nil =>
      rw [hmerges.eq_of_outermost hframes] at hphi
      exact .inr ((hre.samePhis b x i).1 hphi)
    | cons f fs =>
      by_cases hbf : b = f.phiBlock
      · exact .inl ⟨f, by simp, hbf.symm⟩
      · rw [((hb.withBinding y hv).gains hframes hmerges).phiOf_iff hbf] at hphi
        exact .inr ((hre.samePhis b x i).1 hphi)
  | openIf _ hopens => exact .inr ((hopens.stock.samePhis b x i).1 hphi)
  | openElse _ _ _ hopens => exact .inr ((hopens.stock.samePhis b x i).1 hphi)
  | openLoop _ hopens => exact .inr ((hopens.stock.samePhis b x i).1 hphi)
  | close _ hgraph hleft _ hcarries =>
    rw [← hgraph]
    cases hcarries with
    | outermost => exact .inr (((Graph.rebinds_inheritScope _ _ _).samePhis b x i).1 hphi)
    | inner hne each =>
      obtain ⟨f, fs, hframes⟩ := List.exists_cons_of_ne_nil hne
      by_cases hbf : b = f.phiBlock
      · exact .inl ⟨f, by simp [hframes], hbf.symm⟩
      · exact .inr ((hleft.phiOf_carriesEach hframes hbf each).1 hphi)

namespace Built

variable {w : Site} {u u' : Body} {b : BlockId} {x : Var} {i : InstrId}

/-- Merging removes no phi. -/
theorem phiOf_merges (hb : Built w u) {y : Var} {v : Option InstrId} (h : u.Merges w y v u')
    (hphi : u.graph.PhiOf b x i) : u'.graph.PhiOf b x i := by
  cases hframes : w.frames with
  | nil =>
    rw [h.eq_of_outermost hframes]
    exact hphi
  | cons f fs => exact (hb.gains hframes h b x i).2 (.inl hphi)

theorem phiOf_merged (hb : Built w u) {c : BlockId} {is : List InstrId}
    (h : Body.CarriesEach w c is u u') (hphi : u.graph.PhiOf b x i) : u'.graph.PhiOf b x i := by
  induction h with
  | nil => exact hphi
  | cons _ hmerge _ ih => exact ih (hb.of_merges hmerge) (hb.phiOf_merges hmerge hphi)

end Built

/-- **Phis are never removed.** -/
theorem Shift.phiOf_mono {w w' : Site} {u u' : Body} (h : Shift w u w' u') (hb : Built w u)
    {b : BlockId} {x : Var} {i : InstrId} (hphi : u.graph.PhiOf b x i) : u'.graph.PhiOf b x i := by
  cases h with
  | retarget h => exact (h.samePhis b x i).2 hphi
  | receive h hr => exact (h.samePhis hr b x i).2 hphi
  | @assign _ y v _ hv _ hmerges =>
    exact (hb.withBinding y hv).phiOf_merges hmerges
      (((Graph.rebinds_bindIn u.graph w.tail y v).samePhis b x i).2 hphi)
  | openIf _ hopens => exact (hopens.stock.samePhis b x i).2 hphi
  | openElse _ _ _ hopens => exact (hopens.stock.samePhis b x i).2 hphi
  | openLoop _ hopens => exact (hopens.stock.samePhis b x i).2 hphi
  | close _ hgraph hleft _ hcarries =>
    rw [← hgraph] at hphi
    cases hcarries with
    | outermost => exact ((Graph.rebinds_inheritScope _ _ _).samePhis b x i).2 hphi
    | inner _ each => exact hleft.phiOf_merged each hphi

/-- Blocks keep the parts they play. -/
theorem Shift.checked_mono {w w' : Site} {u u' : Body} (h : Shift w u w' u') (hb : Built w u)
    {b : BlockId} {side : Side} (hchecked : u.graph.Checked b side) : u'.graph.Checked b side := by
  have hmono : (∀ r, u.graph.hasRole b r = true → u'.graph.hasRole b r = true) →
      u'.graph.Checked b side := fun hr =>
    hchecked.imp (hr _) fun h' => ⟨hr _ h'.1, h'.2⟩
  cases h with
  | retarget h => exact h.skeleton.checked_iff.2 hchecked
  | receive h => exact h.skeleton.checked_iff.2 hchecked
  | @assign _ x v _ hv _ hmerges =>
    exact ((Graph.rebinds_bindIn u.graph w.tail x v).skeleton.trans
      ((hb.withBinding x hv).skeleton_merges hmerges)).checked_iff.2 hchecked
  | openIf _ hopens => exact hmono fun r hr => by simp [hopens.hasRole_eq, hr]
  | openElse _ _ _ hopens => exact hmono fun r hr => by simp [hopens.hasRole_eq, hr]
  | openLoop _ hopens => exact hmono fun r hr => by simp [hopens.hasRole_eq, hr]
  | close _ hgraph hleft _ hcarries =>
    rw [← hgraph] at hchecked
    exact (hleft.skeleton_carries hcarries).checked_iff.2 hchecked

/-- A step leaves a construct open, or it closes the construct. -/
theorem Shift.open_cases {w w' : Site} {u u' : Body} (h : Shift w u w' u') {f : Frame}
    (hf : f ∈ w.frames) : (∃ f' ∈ w'.frames, f'.phiBlock = f.phiBlock) ∨
      ∃ fs u₀, w.frames = f :: fs ∧ w' = w.pop ∧ u₀.graph = u.graph ∧ Built w.pop u₀ ∧
        (∀ f' ∈ fs, u.graph.HasBranch f'.test) ∧ u₀.Carries w.pop f.phiBlock f.test u' := by
  cases h with
  | retarget | receive | assign => exact .inl ⟨f, hf, rfl⟩
  | openIf | openLoop => exact .inl ⟨f, List.mem_cons_of_mem _ hf, rfl⟩
  | @openElse f₀ fs side _ hframes hpart =>
    refine .inl ?_
    rw [Site.openElse, hframes]
    rw [hframes] at hf
    rcases List.mem_cons.1 hf with rfl | hf
    · refine ⟨_, List.mem_cons_self, ?_⟩
      rw [Frame.phiBlock_eq_target (by simp), Frame.phiBlock_eq_target (by simp [hpart])]
    · exact ⟨f, List.mem_cons_of_mem _ hf, rfl⟩
  | @close f₀ fs u₀ _ hframes hgraph hleft htested hcarries =>
    have hf' := hf
    rw [hframes] at hf'
    rcases List.mem_cons.1 hf' with rfl | hf'
    · exact .inr ⟨fs, u₀, hframes, rfl, hgraph, hleft, htested, hcarries⟩
    · rw [Site.pop, hframes]
      exact .inl ⟨f, hf', rfl⟩

namespace Located

variable {w w' : Site} {u u' : Body}

theorem start (options : Options) : Located (Body.start options).graph .start := by
  rintro b x i ⟨-, op, hop, -⟩
  rw [Graph.op?, Body.instr?_start] at hop
  cases hop

theorem shift (h : Located u.graph w) (hb : Built w u) (n : Numbered u.graph w)
    (hstep : Shift w u w' u') : Located u'.graph w' := by
  intro b x i hphi
  rcases hstep.phiOf_cases hb hphi with hopen | hphi
  · exact .inl hopen
  rcases h b x i hphi with ⟨f, hf, rfl⟩ | hhoused
  · rcases hstep.open_cases hf with hopen | ⟨fs, u₀, hframes, rfl, hgraph, hleft, -, hcarries⟩
    · exact .inl hopen
    · exact .inr ((Housed.of_pop hb.layout n hframes
        ((hb.contents.mem_listed _ _).1 hphi.1)).of_skeleton
        (hgraph ▸ hleft.skeleton_carries hcarries))
  · exact .inr (hhoused.shift hb hstep)

/-- **Every phi is located** in every state of a construction. -/
theorem run {options : Options} {cs : List Body.Command}
    (h : Run .start (Body.start options) cs w u) : Located u.graph w := by
  refine h.preserves_along (P := fun w u => Located u.graph w) (.start options) (.start options) ?_
  intro cs₁ c cs₂ w₁ u₁ w₂ u₂ _ hrun hb hl hstep
  obtain ⟨n, -⟩ := Levelled.run hrun (.start options) (.start options) (.start options)
  exact hl.shift hb n (hstep.shift hb)

end Located
end StructuredSSA
