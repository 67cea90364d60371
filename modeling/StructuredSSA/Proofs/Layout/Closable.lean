import StructuredSSA.Proofs.Graph.Contents
import StructuredSSA.Proofs.Layout.Open

/-!
# Phis and branches of open constructs

What has to be true of a graph so that open constructs can be closed: the phis of a construct stay
bound to their variables, its test ends in a branch, and no branch stays without a target once the
construct is closed.

## What is here

* `Graph.PhiBound` — a block binds the variable of each of its phis to that phi.
* `Graph.Steers` — the branches of a block follow its branch edge.
* `Closable` — the invariant.
* `Closable.place`, `Closable.placeBranch`, `Closable.insertPhi`, `Closable.rebind`, `Closable.aim`,
  `Closable.pop` — the changes that keep it.
-/

set_option autoImplicit false

namespace StructuredSSA

namespace Graph

/-- Each phi of `b` is what `b` binds its variable to, and no other. -/
def PhiBound (g : Graph) (b : BlockId) : Prop :=
  ∀ i op, g.op? i = some op → op.isPhi = true → g.home? i = some b →
    ∃ x, op.phiVar? = some x ∧ g.binding b x = some (some i) ∧
      ∀ y, g.binding b y = some (some i) → y = x

/-- Some branch is at home in `b`. -/
def HasBranch (g : Graph) (b : BlockId) : Prop :=
  ∃ i, g.isBranch i = true ∧ g.home? i = some b

/-- Every branch at home in `b` has a target. -/
def Aimed (g : Graph) (b : BlockId) : Prop :=
  ∀ i c, g.home? i = some b → g.op? i ≠ some (.branch c none)

/-- Every branch at home in `b` has a target, along the branch edge of `b`. -/
def Steers (g : Graph) (b : BlockId) : Prop :=
  ∀ i c t, g.home? i = some b → g.op? i = some (.branch c t) →
    ∃ dst t', g.next .branch b = some dst ∧ t = some t' ∧ g.Names t' dst

theorem Steers.aimed {g : Graph} {b : BlockId} (h : g.Steers b) : g.Aimed b := by
  intro i c hi hop
  obtain ⟨dst, t', -, ht, -⟩ := h i c none hi hop
  cases ht

section PhiBound

variable {g g' : Graph} {b c : BlockId}

theorem PhiBound.of_sameShape (h : SameShape g g') (hb : g.PhiBound b) : g'.PhiBound b := by
  intro i op' hop' hphi hhome
  obtain ⟨op, hop, hsim⟩ := h.op?_similar hop'
  rw [hsim.isPhi_eq] at hphi
  rw [h.home?_eq] at hhome
  obtain ⟨x, hx, hbind, hunique⟩ := hb i op hop hphi hhome
  refine ⟨x, by rw [hsim.phiVar?_eq, hx], by rw [h.binding_eq, hbind], fun y hy => ?_⟩
  rw [h.binding_eq] at hy
  exact hunique y hy

theorem PhiBound.rebind (h : Rebinds g c g') (hne : b ≠ c) (hb : g.PhiBound b) :
    g'.PhiBound b := by
  intro i op hop hphi hhome
  rw [h.op?_eq] at hop
  rw [h.home?_eq] at hhome
  obtain ⟨x, hx, hbind, hunique⟩ := hb i op hop hphi hhome
  refine ⟨x, hx, by rw [h.binding_eq b x hne, hbind], fun y hy => ?_⟩
  rw [h.binding_eq b y hne] at hy
  exact hunique y hy

theorem PhiBound.place {op : Operation} (h : Places g c op g')
    (hop : op.isPhi = false ∨ b ≠ c) (hb : g.PhiBound b) : g'.PhiBound b := by
  intro i o ho hphi hhome
  have hbr : o.isBranch = false := by cases o <;> first | rfl | cases hphi
  have hi : i ≠ g.nextId := by
    rintro rfl
    rw [h.home?_eq, if_pos rfl, Option.some.injEq] at hhome
    rw [h.op?_new, Option.some.injEq] at ho
    rcases hop with hop | hop
    · rw [ho, hphi] at hop
      cases hop
    · exact hop hhome.symm
  rcases (h.op?_eq hbr).1 ho with ⟨hi', -⟩ | ⟨-, ho'⟩
  · exact absurd hi' hi
  · rw [h.home?_eq, if_neg hi] at hhome
    obtain ⟨x, hx, hbind, hunique⟩ := hb i o ho' hphi hhome
    refine ⟨x, hx, by rw [h.binding_eq, hbind], fun y hy => ?_⟩
    rw [h.binding_eq] at hy
    exact hunique y hy

theorem PhiBound.of_sameStock (h : SameStock g g') (hb : g.PhiBound b) : g'.PhiBound b := by
  intro i op hop hphi hhome
  rw [op?, h.instr?_eq] at hop
  rw [home?, h.instr?_eq] at hhome
  obtain ⟨x, hx, hbind, hunique⟩ := hb i op hop hphi hhome
  refine ⟨x, hx, by rw [h.binding_eq, hbind], fun y hy => ?_⟩
  rw [h.binding_eq] at hy
  exact hunique y hy

/-- A block that lists nothing has no phis to bind. -/
theorem PhiBound.of_listed_nil (hc : Contents g) (h : g.listed b = []) : g.PhiBound b := by
  intro i op _ _ hhome
  rw [← hc.mem_listed, h] at hhome
  cases hhome

theorem PhiBound.aim (i : InstrId) (t : Target) (hb : g.PhiBound b) :
    (g.modifyInstr i (·.mapOp (·.aim t))).PhiBound b := by
  intro j op hop hphi hhome
  rw [op?_aim] at hop
  rw [home?_modifyInstr_mapOp] at hhome
  have hop' : g.op? j = some op := by
    split at hop
    · obtain ⟨o, ho, rfl⟩ := Option.map_eq_some_iff.1 hop
      rw [ho]
      cases o <;> first | rfl | cases hphi
    · exact hop
  obtain ⟨x, hx, hbind, hunique⟩ := hb j op hop' hphi hhome
  refine ⟨x, hx, by rw [binding_modifyInstr, hbind], fun y hy => ?_⟩
  rw [binding_modifyInstr] at hy
  exact hunique y hy

/-- A new phi of `x` in `b` is bound there, if `b` had no phi of `x` of its own. -/
theorem PhiBound.insertPhi (hc : Contents g) (hlt : b < g.blocks.size) {x : Var}
    {first second : Option InstrId} (h : Places g b (.phi x first second) g')
    (hown : ∀ i, g.isPhi i = true → g.home? i = some b → g.binding b x ≠ some (some i))
    (hb : g.PhiBound b) : (g'.bindIn b x (some g.nextId)).PhiBound b := by
  have hlt' : b < g'.blocks.size := by
    rw [h.skeleton.size_eq]
    exact hlt
  have hre := rebinds_bindIn g' b x (some g.nextId)
  have hbinding := binding_bindIn hlt' x (some g.nextId) b
  have hfresh : ∀ y, g.binding b y ≠ some (some g.nextId) := fun y hy => by
    have := hc.bound b y _ hy
    rw [op?_isSome_iff] at this
    exact absurd this.2 (Nat.lt_irrefl _)
  intro i op hop hphi hhome
  rw [hre.op?_eq] at hop
  rw [hre.home?_eq] at hhome
  have hbr : op.isBranch = false := by cases op <;> first | rfl | cases hphi
  rcases (h.op?_eq hbr).1 hop with ⟨rfl, rfl⟩ | ⟨hi, hop'⟩
  · refine ⟨x, rfl, by rw [hbinding]; simp, fun y hy => ?_⟩
    rw [hbinding, h.binding_eq] at hy
    by_cases hyx : y = x
    · exact hyx
    · rw [if_neg (by simp [hyx])] at hy
      exact absurd hy (hfresh y)
  · rw [h.home?_eq, if_neg hi] at hhome
    obtain ⟨y, hy, hbind, hunique⟩ := hb i op hop' hphi hhome
    have hphi' : g.isPhi i = true := by rw [Graph.isPhi_eq, hop']; exact hphi
    have hyx : y ≠ x := fun heq => hown i hphi' hhome (heq ▸ hbind)
    refine ⟨y, hy, by rw [hbinding, h.binding_eq, if_neg (by simp [hyx]), hbind], fun z hz => ?_⟩
    rw [hbinding, h.binding_eq] at hz
    split at hz
    · exact absurd (Option.some.inj (Option.some.inj hz)).symm hi
    · exact hunique z hz

end PhiBound
end Graph

/-- The block that holds the phis of a construct. -/
def Frame.phiBlock (f : Frame) : BlockId :=
  match f.part with
  | .loopBody => f.test
  | _ => f.target

theorem Frame.phiBlock_eq_test {f : Frame} (h : f.part = .loopBody) : f.phiBlock = f.test := by
  rw [phiBlock, h]

theorem Frame.phiBlock_eq_target {f : Frame} (h : f.part ≠ .loopBody) : f.phiBlock = f.target := by
  rw [phiBlock]
  split
  · rename_i hloop
    exact absurd hloop h
  · rfl

/-- **The closing invariant**, with construction standing at `current`. -/
structure Closable (g : Graph) (w : Site) (current : BlockId) : Prop where
  phi_bound : ∀ f ∈ w.frames, g.PhiBound f.phiBlock
  /-- Only the tests of open constructs wait for their targets. -/
  unaimed : ∀ i c, g.op? i = some (.branch c none) → ∃ f ∈ w.frames, g.home? i = some f.test
  /-- No branch is in a block that construction has not come to. -/
  targets_clear : ∀ b ∈ w.targets, ¬ g.HasBranch b
  /-- A test ends in a branch, unless it is being built. -/
  tested : ∀ f ∈ w.frames, f.test = current ∨ g.HasBranch f.test
  /-- There is a way on from each block behind construction. -/
  onward : ∀ b ∈ w.passed, (g.next .fall b).isSome = true ∨ g.HasBranch b ∨
    ∃ f ∈ w.frames, f.part = .elseSide b

namespace Closable

variable {g g' : Graph} {w : Site} {current : BlockId}

theorem phiBlock_mem (l : Layout g w) {f : Frame} (hf : f ∈ w.frames) :
    f.phiBlock ∈ w.passed ∨ f.phiBlock ∈ w.targets := by
  simp only [Frame.phiBlock]
  split
  · exact .inl (l.behind f hf _ (Layout.test_mem_behind f))
  · exact .inr (List.mem_map_of_mem hf)

theorem phiBlock_ne_tail (l : Layout g w) {f : Frame} (hf : f ∈ w.frames) :
    f.phiBlock ≠ w.tail := by
  intro h
  rcases phiBlock_mem l hf with h' | h'
  · exact l.tail_not_passed (h ▸ h')
  · exact l.tail_not_target (h ▸ h')

theorem hasBranch_congr (hbr : ∀ i, g'.isBranch i = g.isBranch i)
    (hhome : ∀ i, g'.home? i = g.home? i) (b : BlockId) : g'.HasBranch b ↔ g.HasBranch b := by
  simp only [Graph.HasBranch, hbr, hhome]

/-- Nothing changes here if branches and their homes do not. -/
theorem of_branches (cl : Closable g w current) (hphi : ∀ f ∈ w.frames, g'.PhiBound f.phiBlock)
    (hskel : g.SameSkeleton g') (hhome : ∀ i, g'.home? i = g.home? i)
    (hbr : ∀ i, g'.isBranch i = g.isBranch i)
    (hnone : ∀ i c, g'.op? i = some (.branch c none) → g.op? i = some (.branch c none)) :
    Closable g' w current where
  phi_bound := hphi
  unaimed i c hi := by
    rw [hhome]
    exact cl.unaimed i c (hnone i c hi)
  targets_clear b hb := by
    rw [hasBranch_congr hbr hhome]
    exact cl.targets_clear b hb
  tested f hf := by
    rw [hasBranch_congr hbr hhome]
    exact cl.tested f hf
  onward b hb := by
    rw [hasBranch_congr hbr hhome, hskel.next_eq]
    exact cl.onward b hb

theorem of_sameShape (h : g.SameShape g') (cl : Closable g w current) : Closable g' w current :=
  cl.of_branches (fun f hf => (cl.phi_bound f hf).of_sameShape h) h.skeleton h.home?_eq
    h.isBranch_eq fun i c hi => by
      obtain ⟨op, hop, hsim⟩ := h.op?_similar hi
      rw [hop, (hsim.branch_iff c none).1 rfl]

theorem rebind {b : BlockId} (h : g.Rebinds b g') (hb : ∀ f ∈ w.frames, f.phiBlock ≠ b)
    (cl : Closable g w current) : Closable g' w current :=
  cl.of_branches (fun f hf => (cl.phi_bound f hf).rebind h (hb f hf)) h.skeleton h.home?_eq
    h.isBranch_eq fun i c hi => by
      rw [h.op?_eq] at hi
      exact hi

/-- Placing an operation adds a branch to its block if it is one, and touches no other. -/
theorem hasBranch_place {b : BlockId} {op : Operation} (h : g.Places b op g') (c : BlockId) :
    g'.HasBranch c ↔ g.HasBranch c ∨ op.isBranch = true ∧ c = b := by
  constructor
  · rintro ⟨i, hi, hhome⟩
    rw [h.home?_eq] at hhome
    split at hhome
    · rename_i heq
      cases hhome
      rw [heq, h.isBranch_new] at hi
      exact .inr ⟨hi, rfl⟩
    · rename_i hne
      rw [h.isBranch_old hne] at hi
      exact .inl ⟨i, hi, hhome⟩
  · rintro (⟨i, hi, hhome⟩ | ⟨hop, rfl⟩)
    · have hne : i ≠ g.nextId := by
        rintro rfl
        rw [Graph.home?, Graph.Places.instr?_nextId] at hhome
        cases hhome
      exact ⟨i, by rw [h.isBranch_old hne, hi], by rw [h.home?_eq, if_neg hne, hhome]⟩
    · exact ⟨g.nextId, by rw [h.isBranch_new, hop], by rw [h.home?_eq, if_pos rfl]⟩

theorem unaimed_place {b : BlockId} {op : Operation} (h : g.Places b op g') {i : InstrId}
    {c : Cond} (hi : g'.op? i = some (.branch c none)) :
    i = g.nextId ∧ op = .branch c none ∨ i ≠ g.nextId ∧ g.op? i = some (.branch c none) := by
  by_cases hne : i = g.nextId
  · subst hne
    rw [h.op?_new, Option.some.injEq] at hi
    exact .inl ⟨rfl, hi⟩
  · refine .inr ⟨hne, ?_⟩
    rcases h.op?_old hne with h' | ⟨c', -, h₂⟩
    · rw [← h', hi]
    · rw [h₂] at hi
      cases hi

/-- The invariant after an operation has been placed, a branch only where nothing has to stay
clear, and the block has been given new bindings. -/
theorem placeBinding {g₁ : Graph} {b : BlockId} {op : Operation} (h : g.Places b op g₁)
    (hre : g₁.Rebinds b g') (cl : Closable g w current)
    (hphi : ∀ f ∈ w.frames, g'.PhiBound f.phiBlock)
    (hunaimed : ∀ c, op = .branch c none → ∃ f ∈ w.frames, b = f.test)
    (hclear : op.isBranch = true → b ∉ w.targets) : Closable g' w current := by
  have hbr := hasBranch_congr hre.isBranch_eq hre.home?_eq
  refine {
    phi_bound := hphi
    unaimed := fun i c hi => ?_
    targets_clear := fun c hc hbranch => ?_
    tested := fun f hf => (cl.tested f hf).imp_right fun hb =>
      (hbr _).2 ((hasBranch_place h _).2 (.inl hb))
    onward := fun c hc => ?_ }
  · rw [hre.op?_eq] at hi
    rw [hre.home?_eq, h.home?_eq]
    rcases unaimed_place h hi with ⟨rfl, hop⟩ | ⟨hne, hi'⟩
    · obtain ⟨f, hf, hb⟩ := hunaimed c hop
      exact ⟨f, hf, by rw [if_pos rfl, hb]⟩
    · rw [if_neg hne]
      exact cl.unaimed i c hi'
  · rcases (hasBranch_place h c).1 ((hbr c).1 hbranch) with hb | ⟨hop, rfl⟩
    · exact cl.targets_clear c hc hb
    · exact hclear hop hc
  · rw [hre.skeleton.next_eq, h.skeleton.next_eq]
    exact (cl.onward c hc).imp_right (Or.imp_left fun hb =>
      (hbr _).2 ((hasBranch_place h _).2 (.inl hb)))

theorem place {b : BlockId} {op : Operation} (h : g.Places b op g') (cl : Closable g w current)
    (hphi : ∀ f ∈ w.frames, g'.PhiBound f.phiBlock)
    (hunaimed : ∀ c, op = .branch c none → ∃ f ∈ w.frames, b = f.test)
    (hclear : op.isBranch = true → b ∉ w.targets) : Closable g' w current :=
  cl.placeBinding h (.refl g' b) hphi hunaimed hclear

theorem placePlain {b : BlockId} {op : Operation} (h : g.Places b op g') (cl : Closable g w current)
    (hphi : op.isPhi = false) (hbr : op.isBranch = false) : Closable g' w current :=
  cl.place h (fun f hf => (cl.phi_bound f hf).place h (.inl hphi))
    (fun c hc => by rw [hc] at hbr; cases hbr) (fun hop => by rw [hop] at hbr; cases hbr)

/-- A new phi in a block that had no phi of the variable of its own. -/
theorem insertPhi (hc : g.Contents) {b : BlockId} (hb : b < g.blocks.size) {x : Var}
    {first second : Option InstrId} {g₁ : Graph} (h : g.Places b (.phi x first second) g₁)
    (hown : ∀ i, g.isPhi i = true → g.home? i = some b → g.binding b x ≠ some (some i))
    (cl : Closable g w current) : Closable (g₁.bindIn b x (some g.nextId)) w current := by
  refine cl.placeBinding h (Graph.rebinds_bindIn g₁ b x _) (fun f hf => ?_)
    (fun c hc => by cases hc) (fun hop => by cases hop)
  by_cases hfb : f.phiBlock = b
  · rw [hfb]
    exact (hfb ▸ cl.phi_bound f hf).insertPhi hc hb h hown
  · exact ((cl.phi_bound f hf).place h (.inr hfb)).rebind (Graph.rebinds_bindIn g₁ b x _) hfb

theorem aim (i : InstrId) (t : Target) (cl : Closable g w current) :
    Closable (g.modifyInstr i (·.mapOp (·.aim t))) w current :=
  cl.of_branches (fun f hf => (cl.phi_bound f hf).aim i t) (Graph.sameSkeleton_modifyInstr g i _)
    (fun j => Graph.home?_modifyInstr_mapOp g i j _)
    (fun j => Graph.isBranch_modifyInstr_aim g i j t)
    fun j c hj => by
      rw [Graph.op?_aim] at hj
      split at hj
      · obtain ⟨op, hop, heq⟩ := Option.map_eq_some_iff.1 hj
        cases op <;> cases heq
      · exact hj

theorem moveTo (cl : Closable g w current) (h : ∀ f ∈ w.frames, g.HasBranch f.test) (b : BlockId) :
    Closable g w b :=
  { cl with tested := fun f hf => .inr (h f hf) }

/-- Leaving a construct whose branches are all there and aimed. -/
theorem pop {f : Frame} {fs : List Frame} (hframes : w.frames = f :: fs) (cl : Closable g w current)
    (haimed : g.Aimed f.test) (hon : (g.next .fall w.tail).isSome = true ∨ g.HasBranch w.tail)
    (hthen : ∀ tt, f.part = .elseSide tt → g.HasBranch tt) : Closable g w.pop current := by
  have hw := Site.pop_eq hframes
  have hsub : ∀ f' ∈ fs, f' ∈ w.frames := fun f' h => by simp [hframes, h]
  rw [hw]
  refine {
    phi_bound := fun f' hf' => cl.phi_bound f' (hsub f' hf')
    unaimed := fun i c hi => ?_
    targets_clear := fun b hb => ?_
    tested := fun f' hf' => cl.tested f' (hsub f' hf')
    onward := fun b hb => ?_ }
  · obtain ⟨f', hf', hhome⟩ := cl.unaimed i c hi
    rw [hframes] at hf'
    rcases List.mem_cons.1 hf' with rfl | hf'
    · exact absurd hi (haimed i c hhome)
    · exact ⟨f', hf', hhome⟩
  · refine cl.targets_clear b ?_
    rw [Site.targets_of_cons hframes]
    exact List.mem_cons_of_mem _ hb
  · rcases List.mem_append.1 hb with hb | hb
    · rcases cl.onward b hb with h | h | ⟨f', hf', hpart⟩
      · exact .inl h
      · exact .inr (.inl h)
      · rw [hframes] at hf'
        rcases List.mem_cons.1 hf' with rfl | hf'
        · exact .inr (.inl (hthen b hpart))
        · exact .inr (.inr ⟨f', hf', hpart⟩)
    · rw [List.mem_singleton] at hb
      rw [hb]
      exact hon.imp_right .inl

/-! ## Opening constructs -/

theorem hasBranch_sameStock (h : g.SameStock g') (b : BlockId) :
    g'.HasBranch b ↔ g.HasBranch b := by
  refine hasBranch_congr (fun i => ?_) (fun i => ?_) b
  · rw [Graph.isBranch, Graph.isBranch, h.instr?_eq]
  · rw [Graph.home?, Graph.home?, h.instr?_eq]

theorem not_hasBranch_of_size_le (hc : g.Contents) {b : BlockId} (h : g.blocks.size ≤ b) :
    ¬ g.HasBranch b := by
  rintro ⟨i, -, hhome⟩
  exact Nat.not_lt.2 h (hc.home_lt i b hhome)

theorem phiBound_of_size_le (hc : g.Contents) {b : BlockId} (h : g.blocks.size ≤ b) :
    g.PhiBound b := by
  intro i _ _ _ hhome
  exact absurd (hc.home_lt i b hhome) (Nat.not_lt.2 h)

theorem unaimed_sameStock (h : g.SameStock g') (cl : Closable g w current) {i : InstrId} {c : Cond}
    (hi : g'.op? i = some (.branch c none)) : ∃ f ∈ w.frames, g'.home? i = some f.test := by
  rw [Graph.op?, h.instr?_eq] at hi
  rw [Graph.home?, h.instr?_eq]
  exact cl.unaimed i c hi

theorem openIf (l : Layout g w) (hc : g.Contents) (cl : Closable g w current)
    (hcurrent : current = w.tail) {join side : BlockId} (h : g.OpensIf w.tail join side g')
    (before : Var → Option InstrId) (start : InstrId) :
    Closable g' (w.openIf join side before start) current where
  phi_bound f hf := by
    rcases List.mem_cons.1 hf with rfl | hf
    · exact (phiBound_of_size_le hc (Nat.le_of_eq h.join_eq.symm)).of_sameStock h.stock
    · exact (cl.phi_bound f hf).of_sameStock h.stock
  unaimed i c hi := by
    obtain ⟨f, hf, hhome⟩ := cl.unaimed_sameStock h.stock hi
    exact ⟨f, List.mem_cons_of_mem _ hf, hhome⟩
  targets_clear b hb := by
    rw [hasBranch_sameStock h.stock]
    rcases List.mem_cons.1 hb with rfl | hb
    · exact not_hasBranch_of_size_le hc (Nat.le_of_eq h.join_eq.symm)
    · exact cl.targets_clear b hb
  tested f hf := by
    rw [hasBranch_sameStock h.stock]
    rcases List.mem_cons.1 hf with rfl | hf
    · exact .inl hcurrent.symm
    · exact cl.tested f hf
  onward b hb := by
    rw [hasBranch_sameStock h.stock]
    rcases List.mem_append.1 hb with hb | hb
    · have hne : b ≠ w.tail := fun heq => l.tail_not_passed (heq ▸ hb)
      rw [h.next_other _ b (l.passed_lt hb) hne]
      exact (cl.onward b hb).imp_right (Or.imp_right fun ⟨f, hf, hpart⟩ =>
        ⟨f, List.mem_cons_of_mem _ hf, hpart⟩)
    · rw [List.mem_singleton] at hb
      rw [hb, h.fall_parent]
      exact .inl rfl

theorem openElse (l : Layout g w) {f : Frame} {fs : List Frame} (hframes : w.frames = f :: fs)
    (hpart : f.part = .thenSide) (cl : Closable g w current) {side : BlockId}
    (h : g.OpensElse f.test f.target w.tail side g') : Closable g' (w.openElse side) current := by
  have hw := Site.openElse_eq hframes side
  have hf : f ∈ w.frames := by simp [hframes]
  have hsub : ∀ f' ∈ fs, f' ∈ w.frames := fun f' h => by simp [hframes, h]
  rw [hw]
  refine {
    phi_bound := fun f' hf' => ?_
    unaimed := fun i c hi => ?_
    targets_clear := fun b hb => ?_
    tested := fun f' hf' => ?_
    onward := fun b hb => ?_ }
  · rcases List.mem_cons.1 hf' with rfl | hf'
    · have := (cl.phi_bound f hf).of_sameStock h.stock
      simpa only [Frame.phiBlock, hpart] using this
    · exact (cl.phi_bound f' (hsub f' hf')).of_sameStock h.stock
  · obtain ⟨f', hf', hhome⟩ := cl.unaimed_sameStock h.stock hi
    rw [hframes] at hf'
    rcases List.mem_cons.1 hf' with rfl | hf'
    · exact ⟨_, List.mem_cons_self, hhome⟩
    · exact ⟨f', List.mem_cons_of_mem _ hf', hhome⟩
  · rw [hasBranch_sameStock h.stock]
    refine cl.targets_clear b ?_
    rw [Site.targets_of_cons hframes]
    exact hb
  · rw [hasBranch_sameStock h.stock]
    rcases List.mem_cons.1 hf' with rfl | hf'
    · exact cl.tested f hf
    · exact cl.tested f' (hsub f' hf')
  · rw [hasBranch_sameStock h.stock]
    rcases List.mem_append.1 hb with hb | hb
    · have hne : b ≠ w.tail := fun heq => l.tail_not_passed (heq ▸ hb)
      have hfall : g'.next .fall b = g.next .fall b := by
        by_cases hbt : b = f.test
        · rw [hbt, h.fall_parent]
        · exact h.next_other _ b (l.passed_lt hb) hne hbt
      rw [hfall]
      refine (cl.onward b hb).imp_right (Or.imp_right ?_)
      rintro ⟨f', hf', hpart'⟩
      rw [hframes] at hf'
      rcases List.mem_cons.1 hf' with rfl | hf'
      · rw [hpart] at hpart'
        cases hpart'
      · exact ⟨f', List.mem_cons_of_mem _ hf', hpart'⟩
    · rw [List.mem_singleton] at hb
      rw [hb]
      exact .inr (.inr ⟨_, List.mem_cons_self, rfl⟩)

theorem openLoop (l : Layout g w) (hc : g.Contents) (cl : Closable g w current)
    (hcurrent : current = w.tail) {head body exit : BlockId}
    (h : g.OpensLoop w.tail head body exit g') (before : Var → Option InstrId) (start : InstrId) :
    Closable g' (w.openLoop head body exit before start) head where
  phi_bound f hf := by
    rcases List.mem_cons.1 hf with rfl | hf
    · refine Graph.PhiBound.of_sameStock h.stock ?_
      rcases h.head_eq with ⟨heq, -, hlist, -⟩ | ⟨heq, -⟩
      · exact .of_listed_nil hc (by rw [Frame.phiBlock, heq]; exact hlist)
      · exact phiBound_of_size_le hc (Nat.le_of_eq heq.symm)
    · exact (cl.phi_bound f hf).of_sameStock h.stock
  unaimed i c hi := by
    obtain ⟨f, hf, hhome⟩ := cl.unaimed_sameStock h.stock hi
    exact ⟨f, List.mem_cons_of_mem _ hf, hhome⟩
  targets_clear b hb := by
    rw [hasBranch_sameStock h.stock]
    rcases List.mem_cons.1 hb with heq | hb
    · exact not_hasBranch_of_size_le hc (heq ▸ h.size_le_exit)
    · exact cl.targets_clear b hb
  tested f hf := by
    rw [hasBranch_sameStock h.stock]
    rcases List.mem_cons.1 hf with rfl | hf
    · exact .inl rfl
    · refine .inr ((cl.tested f hf).resolve_left fun heq => ?_)
      exact l.tail_not_passed ((heq.trans hcurrent) ▸ l.behind f hf _ (Layout.test_mem_behind f))
  onward b hb := by
    rw [hasBranch_sameStock h.stock]
    rcases List.mem_append.1 hb with hb | hb
    · have hne : b ≠ w.tail := fun heq => l.tail_not_passed (heq ▸ hb)
      rw [h.next_other _ b (l.passed_lt hb) hne]
      exact (cl.onward b hb).imp_right (Or.imp_right fun ⟨f, hf, hpart⟩ =>
        ⟨f, List.mem_cons_of_mem _ hf, hpart⟩)
    · have hb' : b = w.tail ∨ b = head := by
        split at hb
        · exact .inl (List.mem_singleton.1 hb)
        · simpa using hb
      left
      by_cases hbh : b = head
      · rw [hbh, h.fall_head]
        rfl
      · have htail := hb'.resolve_right hbh
        rw [htail, h.fall_start (fun heq => hbh (htail.trans heq))]
        rfl

end Closable
end StructuredSSA
