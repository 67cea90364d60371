import StructuredSSA.Proofs.Body.Advance
import StructuredSSA.Proofs.Body.Loops
import StructuredSSA.Proofs.Body.Steered

/-!
# What stays as construction goes on

Once construction has passed a block, the block gets phis and a jump at most, and phis only as long
as the construct is open that has its phis there; its edges stay, but for those of an if that may
still get an else side.

## What is here

* `Shift.plain_cases` — the instructions other than phis that a step adds.
* `Site.Steady`, `Filled`, `Frozen` — edges and blocks that stay as they are.
* `Orderly`, `Proceeds` — a construction goes on, step by step.
* `Proceeds.plain_prefix`, `Proceeds.frozen`, `Proceeds.filled`, `Proceeds.steady`,
  `Proceeds.entered` — what stays.
-/

set_option autoImplicit false

namespace StructuredSSA

namespace Graph

variable {g g' : Graph} {b c : BlockId} {op : Operation}

theorem SameShape.plain_eq (h : SameShape g g') (b : BlockId) : g'.plain b = g.plain b :=
  plain_congr (h.listed_eq b) fun i _ => h.isPhi_eq i

theorem SameStock.plain_eq (h : SameStock g g') (b : BlockId) : g'.plain b = g.plain b :=
  plain_congr (h.listed_eq b) fun i _ => by rw [isPhi, isPhi, h.instr?_eq]

theorem Rebinds.plain_eq (h : Rebinds g c g') (b : BlockId) : g'.plain b = g.plain b :=
  plain_congr (h.listed_eq b) fun i _ => h.isPhi_eq i

theorem Retargets.plain_eq (h : Retargets g g') (b : BlockId) : g'.plain b = g.plain b :=
  plain_congr (h.listed_eq b) fun i _ => h.isPhi_eq i

theorem Receives.plain_eq (h : Receives g c op g') (hphi : op.isPhi = false)
    (hclear : c = Body.head ∨ ¬ g.HasBranch c) (b : BlockId) :
    g'.plain b = if b = c then g.plain b ++ [g.nextId] else g.plain b := by
  have hisPhi := (Calm.of_receives h hphi hclear).isPhi_eq
  split
  · rename_i hbc
    have hnew : g.isPhi g.nextId = false := by
      rw [isPhi, instr?_eq_none_of_le (Nat.le_refl _)]
      rfl
    rw [plain, h.listed_eq, if_pos hbc, List.filter_append, plain, hbc]
    simp only [hisPhi, List.filter_cons, hnew, Bool.not_false, if_true, List.filter_nil]
  · rename_i hbc
    exact plain_congr (by rw [h.listed_eq, if_neg hbc]) fun i _ => hisPhi i

end Graph

namespace Built

variable {w : Site} {u u' : Body} {x : Var} {v : Option InstrId}

/-- Merging adds phis only. -/
theorem plain_merges (b : Built w u) (h : u.Merges w x v u') (c : BlockId) :
    u'.graph.plain c = u.graph.plain c := by
  have hplaced : ∀ {f : Frame} {fs : List Frame} {g : Graph} {ops : Option
    InstrId × Option InstrId},
      w.frames = f :: fs → u.graph.Places f.phiBlock (.phi x ops.1 ops.2) g →
      (u.withPhi g f.phiBlock x ops).graph.plain c = u.graph.plain c := fun _ hplace =>
    ((Body.rebinds_withPhi u _ _ x _).plain_eq c).trans (hplace.plain_eq b.contents rfl c)
  cases h with
  | outermost => rfl
  | replaced _ hown =>
    exact (Graph.sameShape_mapOp u.graph _ (Operation.similar_setSide _ v)).plain_eq c
  | joined hframes _ _ _ hplace => exact hplaced hframes hplace
  | @looped f fs before g start hframes _ hnone _ hplace =>
    have hb := b.withPhi (b.phiBlock_lt (by simp [hframes])) hnone hplace
    exact ((hb.redirected_redirectFrom x before u.graph.nextId start).1.shape.plain_eq c).trans
      (hplaced hframes hplace)

theorem plain_carries (b : Built w u) {d origin : BlockId} (h : u.Carries w d origin u')
    (c : BlockId) : u'.graph.plain c = u.graph.plain c := by
  cases h with
  | outermost => exact (Graph.rebinds_inheritScope _ _ _).plain_eq c
  | inner hne each =>
    obtain ⟨f, fs, hframes⟩ := List.exists_cons_of_ne_nil hne
    generalize (u.graph.listed d).filter u.graph.isPhi = is at each
    induction each with
    | nil => rfl
    | cons _ hmerge _ ih => exact (ih (b.of_merges hmerge)).trans (b.plain_merges hmerge c)

end Built

namespace Shift

variable {w w' : Site} {u u' : Body}

/-- **A step adds one instruction at most** that is no phi, at the end of a block that construction
fills. -/
theorem plain_cases (h : Shift w u w' u') (hb : Built w u) (c : BlockId) :
    u'.graph.plain c = u.graph.plain c ∨ ∃ i op, w.Fills c op ∧
      (c = Body.head ∨ ¬ u.graph.HasBranch c) ∧ u'.graph.plain c = u.graph.plain c ++ [i] ∧
      (op.isBranch = true → u'.graph.HasBranch c) ∧
      (op.isBranch = false → u'.graph.op? i = some op) := by
  cases h with
  | retarget h => exact .inl (h.plain_eq c)
  | @receive _ d op h hphi hfills hclear =>
    rw [h.plain_eq hphi hclear]
    split
    · rename_i heq
      subst heq
      exact .inr ⟨_, op, hfills, hclear, rfl, fun hop => ⟨u.graph.nextId, by
        rw [h.isBranch_eq, if_pos rfl, hop], by rw [h.home?_eq, if_pos rfl]⟩,
        fun hop => (h.op?_iff _ _ hop).2 (.inl ⟨rfl, rfl⟩)⟩
    · exact .inl rfl
  | assign _ hv _ hmerges =>
    exact .inl (((hb.withBinding _ hv).plain_merges hmerges c).trans
      ((Graph.rebinds_bindIn _ _ _ _).plain_eq c))
  | openIf _ hopens => exact .inl (hopens.stock.plain_eq c)
  | openElse _ _ _ hopens => exact .inl (hopens.stock.plain_eq c)
  | openLoop _ hopens => exact .inl (hopens.stock.plain_eq c)
  | close _ hgraph hleft _ hcarries =>
    rw [← hgraph]
    exact .inl (hleft.plain_carries hcarries c)

theorem plain_prefix (h : Shift w u w' u') (hb : Built w u) (c : BlockId) :
    u.graph.plain c <+: u'.graph.plain c := by
  rcases h.plain_cases hb c with hsame | ⟨i, -, -, -, hsame, -⟩
  · exact hsame ▸ List.prefix_refl _
  · exact hsame ▸ List.prefix_append _ _

/-- Branches stay in their blocks. -/
theorem hasBranch_mono (h : Shift w u w' u') (hb : Built w u) {c : BlockId}
    (hc : u.graph.HasBranch c) : u'.graph.HasBranch c := by
  cases h with
  | retarget h => exact (h.hasBranch_iff c).2 hc
  | receive h => exact h.hasBranch hc
  | @assign _ x v _ hv _ hmerges =>
    have hre := Graph.rebinds_bindIn u.graph w.tail x v
    refine ((hb.withBinding x hv).keepsBranches_merges hmerges).hasBranch_iff c |>.2 ?_
    exact (Closable.hasBranch_congr hre.isBranch_eq hre.home?_eq c).2 hc
  | openIf _ hopens => exact (Closable.hasBranch_sameStock hopens.stock c).2 hc
  | openElse _ _ _ hopens => exact (Closable.hasBranch_sameStock hopens.stock c).2 hc
  | openLoop _ hopens => exact (Closable.hasBranch_sameStock hopens.stock c).2 hc
  | close _ hgraph hleft _ hcarries =>
    rw [hleft.hasBranch_carries hcarries, hgraph]
    exact hc

theorem passed_subset (h : Shift w u w' u') : w.passed ⊆ w'.passed := by
  cases h with
  | retarget | receive | assign => exact fun _ hc => hc
  | openIf | openLoop => exact List.subset_append_left _ _
  | openElse hframes =>
    rw [Site.openElse, hframes]
    exact List.subset_append_left _ _
  | close hframes =>
    rw [Site.pop, hframes]
    exact List.subset_append_left _ _

/-- A then side that an else side has behind it had an else side before, or construction had not
passed its end. -/
theorem elseSide_cases (h : Shift w u w' u') (hb : Built w u) {f : Frame} (hf : f ∈ w'.frames)
    {c : BlockId} (hpart : f.part = .elseSide c) (hpassed : c ∈ w.passed) : f ∈ w.frames := by
  cases h with
  | retarget | receive | assign => exact hf
  | openIf =>
    rcases List.mem_cons.1 hf with rfl | hf
    · cases hpart
    · exact hf
  | @openElse f₀ fs _ _ hframes =>
    rw [Site.openElse, hframes] at hf
    rcases List.mem_cons.1 hf with rfl | hf
    · cases hpart
      exact absurd hpassed hb.layout.tail_not_passed
    · simp [hframes, hf]
  | openLoop =>
    rcases List.mem_cons.1 hf with rfl | hf
    · cases hpart
    · exact hf
  | close hframes =>
    rw [Site.pop, hframes] at hf
    simp [hframes, show f ∈ _ from hf]

/-- An open construct was open before, or construction had not passed its test. -/
theorem test_cases (h : Shift w u w' u') (hb : Built w u) {f : Frame} (hf : f ∈ w'.frames) :
    (∃ f' ∈ w.frames, f'.test = f.test) ∨ f.test ∉ w.passed := by
  cases h with
  | retarget | receive | assign => exact .inl ⟨f, hf, rfl⟩
  | openIf =>
    rcases List.mem_cons.1 hf with rfl | hf
    · exact .inr hb.layout.tail_not_passed
    · exact .inl ⟨f, hf, rfl⟩
  | @openElse f₀ fs _ _ hframes =>
    rw [Site.openElse, hframes] at hf
    rcases List.mem_cons.1 hf with rfl | hf
    · exact .inl ⟨f₀, by simp [hframes], rfl⟩
    · exact .inl ⟨f, by simp [hframes, hf], rfl⟩
  | @openLoop head body exit _ _ hopens =>
    rcases List.mem_cons.1 hf with rfl | hf
    · exact .inr (hb.layout.head_not_passed hopens)
    · exact .inl ⟨f, hf, rfl⟩
  | close hframes =>
    rw [Site.pop, hframes] at hf
    exact .inl ⟨f, by simp [hframes, show f ∈ _ from hf], rfl⟩

end Shift

/-! ## What stays -/

/-- Construction has passed `b`, and the edge of kind `e` out of it stays: it is not the edge that
an else side can still take over. -/
structure Site.Steady (w : Site) (e : Edge) (b : BlockId) : Prop where
  passed : b ∈ w.passed
  settled : e = .branch → ∀ f ∈ w.frames, f.part = .thenSide → f.test ≠ b

/-- No phi will be added to `b` any more, because it is closed, and no loop can be opened with it as
the header. -/
structure Filled (g : Graph) (w : Site) (b : BlockId) : Prop where
  closed : w.Closed b
  occupied : b = w.tail → g.prev .branch b ≠ none ∨ g.plain b ≠ []

/-- Nothing but phis and a jump will be added to `b` any more. -/
structure Frozen (g : Graph) (w : Site) (b : BlockId) : Prop where
  passed : b ∈ w.passed
  ne_head : b ≠ Body.head
  tested : ∀ f ∈ w.frames, f.test = b → g.HasBranch b

namespace Shift

variable {w w' : Site} {u u' : Body} {b : BlockId}

/-- **Edges that stay** are as they were. -/
theorem steady {e : Edge} (h : Shift w u w' u') (hb : Built w u) (hs : w.Steady e b) :
    w'.Steady e b ∧ u'.graph.next e b = u.graph.next e b := by
  have hlt := hb.layout.passed_lt hs.passed
  have htail : b ≠ w.tail := fun heq => hb.layout.tail_not_passed (heq ▸ hs.passed)
  have hpassed := h.passed_subset hs.passed
  cases h with
  | retarget h => exact ⟨hs, h.skeleton.next_eq e b⟩
  | receive h => exact ⟨hs, h.skeleton.next_eq e b⟩
  | @assign _ x v _ hv _ hmerges =>
    have hre := Graph.rebinds_bindIn u.graph w.tail x v
    exact ⟨hs, (hre.skeleton.trans ((hb.withBinding x hv).skeleton_merges hmerges)).next_eq e b⟩
  | openIf _ hopens =>
    exact ⟨⟨hpassed, fun he => List.forall_mem_cons.2 ⟨fun _ => htail.symm, hs.settled he⟩⟩,
      hopens.next_other e b hlt htail⟩
  | @openElse f fs side _ hframes hpart _ hopens =>
    have hsettled := hs.settled
    rw [hframes] at hsettled
    have hw := Site.openElse_eq hframes side
    rw [hw] at hpassed ⊢
    refine ⟨⟨hpassed, fun he => List.forall_mem_cons.2
      ⟨Part.noConfusion, (List.forall_mem_cons.1 (hsettled he)).2⟩⟩, ?_⟩
    by_cases htest : b = f.test
    · cases e with
      | fall => rw [htest, hopens.fall_parent]
      | branch => exact absurd htest.symm (hsettled rfl f List.mem_cons_self hpart)
    · exact hopens.next_other e b hlt htail htest
  | openLoop _ hopens =>
    exact ⟨⟨hpassed, fun he => List.forall_mem_cons.2 ⟨Part.noConfusion, hs.settled he⟩⟩,
      hopens.next_other e b hlt htail⟩
  | @close f fs _ _ hframes hgraph hleft _ hcarries =>
    have hw := Site.pop_eq hframes
    refine ⟨⟨hpassed, fun he f' hf' => hs.settled he f' ?_⟩, ?_⟩
    · rw [hw] at hf'
      simp [hframes, show f' ∈ fs from hf']
    · rw [(hleft.skeleton_carries hcarries).next_eq, hgraph]

/-- **Filled blocks** keep their phis. -/
theorem filled (h : Shift w u w' u') (hb : Built w u) (hs : Filled u.graph w b) :
    Filled u'.graph w' b ∧ ∀ x i, u'.graph.PhiOf b x i ↔ u.graph.PhiOf b x i := by
  have hfixed : b = w.tail → u.graph.prev .branch b ≠ none ∨ u.graph.listed b ≠ [] := fun heq =>
    (hs.occupied heq).imp_right fun hplain hnil => hplain (by rw [Graph.plain, hnil]; rfl)
  obtain ⟨hclosed, hphis, htail⟩ := hs.closed.shift hfixed hb h
  refine ⟨⟨hclosed, fun heq => ?_⟩, hphis⟩
  obtain ⟨heq', hskel⟩ := htail heq
  refine (hs.occupied heq').imp (fun hprev => by rwa [hskel.prev_eq]) fun hplain => ?_
  rcases h.plain_cases hb b with hsame | ⟨i, -, -, -, hsame, -⟩
  · rwa [hsame]
  · rw [hsame]
    exact List.append_ne_nil_of_right_ne_nil _ (List.cons_ne_nil i [])

/-- **Frozen blocks** get no more than phis, but for the jump at the end of a then side. -/
theorem frozen (h : Shift w u w' u') (hb : Built w u) (hs : Frozen u.graph w b) :
    Frozen u'.graph w' b ∧ (u'.graph.plain b = u.graph.plain b ∨
      ¬ u.graph.HasBranch b ∧ u'.graph.HasBranch b ∧ ∃ f ∈ w.frames, f.part = .elseSide b) := by
  refine ⟨⟨h.passed_subset hs.passed, hs.ne_head, fun f hf htest => ?_⟩, ?_⟩
  · rcases h.test_cases hb hf with ⟨f', hf', htest'⟩ | hnot
    · exact h.hasBranch_mono hb (hs.tested f' hf' (htest'.trans htest))
    · exact absurd (htest ▸ hs.passed) hnot
  · refine (h.plain_cases hb b).imp_right ?_
    rintro ⟨-, op, hfills, hclear, -, hbranch, -⟩
    have hclear := hclear.resolve_left hs.ne_head
    rcases hfills with ⟨hhead, -⟩ | (htail | ⟨f, fs, hframes, htest⟩) | ⟨hop, hpart⟩
    · exact absurd hhead hs.ne_head
    · exact absurd (htail ▸ hs.passed) hb.layout.tail_not_passed
    · exact absurd (hs.tested f (by simp [hframes]) htest.symm) hclear
    · exact ⟨hclear, hbranch hop, hpart⟩

end Shift

/-! ## Constructions that go on -/

/-- What is known of a construction whose steps are to be followed. -/
structure Orderly (w : Site) (u : Body) : Prop where
  built : Built w u
  numbered : Numbered u.graph w
  levelled : Levelled u.graph w
  phis : PhiLayout u.graph w
  precedes : w.Precedes

/-- `Proceeds w u w' u'`: construction goes on from `w` and `u` to `w'` and `u'`. -/
inductive Proceeds (w : Site) (u : Body) : Site → Body → Prop where
  | refl : Proceeds w u w u
  | step {w₁ w' : Site} {u₁ u' : Body} (before : Proceeds w u w₁ u₁) (orderly : Orderly w₁ u₁)
      (keeps : u₁.graph.Keeps u'.graph) (shift : Shift w₁ u₁ w' u') : Proceeds w u w' u'

namespace Proceeds

variable {w w₁ w' : Site} {u u₁ u' : Body} {b : BlockId}

theorem trans (h : Proceeds w u w₁ u₁) (h' : Proceeds w₁ u₁ w' u') : Proceeds w u w' u' := by
  induction h' with
  | refl => exact h
  | step _ ho hkeeps hshift ih => exact ih.step ho hkeeps hshift

theorem keeps (h : Proceeds w u w' u') : u.graph.Keeps u'.graph := by
  induction h with
  | refl => exact .refl _
  | step _ _ hkeeps _ ih => exact ih.trans hkeeps

theorem passed_subset (h : Proceeds w u w' u') : w.passed ⊆ w'.passed := by
  induction h with
  | refl => exact fun _ hc => hc
  | step _ _ _ hshift ih => exact fun _ hc => hshift.passed_subset (ih hc)

theorem hasBranch_mono (h : Proceeds w u w' u') (hb : u.graph.HasBranch b) :
    u'.graph.HasBranch b := by
  induction h with
  | refl => exact hb
  | step _ ho _ hshift ih => exact hshift.hasBranch_mono ho.built ih

theorem plain_prefix (h : Proceeds w u w' u') (b : BlockId) :
    u.graph.plain b <+: u'.graph.plain b := by
  induction h with
  | refl => exact List.prefix_refl _
  | step _ ho _ hshift ih => exact ih.trans (hshift.plain_prefix ho.built b)

theorem elseSide_cases (h : Proceeds w u w' u') {f : Frame} (hf : f ∈ w'.frames)
    (hpart : f.part = .elseSide b) (hpassed : b ∈ w.passed) : f ∈ w.frames := by
  induction h with
  | refl => exact hf
  | step before ho _ hshift ih =>
    exact ih (hshift.elseSide_cases ho.built hf hpart (before.passed_subset hpassed))

/-- **Frozen blocks** get no more than phis, but for the jump at the end of a then side. -/
theorem frozen (h : Proceeds w u w' u') (hs : Frozen u.graph w b) :
    Frozen u'.graph w' b ∧ (u'.graph.plain b = u.graph.plain b ∨
      ¬ u.graph.HasBranch b ∧ u'.graph.HasBranch b ∧ ∃ f ∈ w.frames, f.part = .elseSide b) := by
  induction h with
  | refl => exact ⟨hs, .inl rfl⟩
  | step before ho _ hshift ih =>
    obtain ⟨hs₁, hcases⟩ := ih
    obtain ⟨hs', hcases'⟩ := hshift.frozen ho.built hs₁
    refine ⟨hs', ?_⟩
    rcases hcases' with hsame | ⟨hclear, hbranch, f, hf, hpart⟩
    · rw [hsame]
      exact hcases.imp_right (.imp_right (.imp_left (hshift.hasBranch_mono ho.built)))
    · exact .inr ⟨fun hb => hclear (before.hasBranch_mono hb), hbranch, f,
        before.elseSide_cases hf hpart hs.passed, hpart⟩

theorem filled (h : Proceeds w u w' u') (hs : Filled u.graph w b) :
    Filled u'.graph w' b ∧ ∀ x i, u'.graph.PhiOf b x i ↔ u.graph.PhiOf b x i := by
  induction h with
  | refl => exact ⟨hs, fun _ _ => Iff.rfl⟩
  | step _ ho _ hshift ih =>
    have h := hshift.filled ho.built ih.1
    exact ⟨h.1, fun x i => (h.2 x i).trans (ih.2 x i)⟩

theorem steady (h : Proceeds w u w' u') {e : Edge} (hs : w.Steady e b) :
    w'.Steady e b ∧ u'.graph.next e b = u.graph.next e b := by
  induction h with
  | refl => exact ⟨hs, rfl⟩
  | step _ ho _ hshift ih =>
    have h := hshift.steady ho.built ih.1
    exact ⟨h.1, h.2.trans ih.2⟩

/-- The sides of the phis of a sealed block come from where they came from. -/
theorem entered (h : Proceeds w u w' u') (hs : Sealed u.graph w b) :
    Sealed u'.graph w' b ∧ ∀ side, u'.graph.entry side b = u.graph.entry side b := by
  induction h with
  | refl => exact ⟨hs, fun _ => rfl⟩
  | step _ ho _ hshift ih =>
    exact ⟨(ih.1.shift ho.built hshift).1, fun side =>
      ((hshift.undisturbed ho.built).entry_eq b ih.1 side).trans (ih.2 side)⟩

end Proceeds
end StructuredSSA
