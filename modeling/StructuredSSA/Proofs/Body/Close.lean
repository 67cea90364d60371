import StructuredSSA.Proofs.Body.Merge

/-!
# Assigning and closing constructs

An assignment binds the variable at the tail and merges the value into the innermost construct.
When a construct is closed, its phis are merged one by one into the construct around it; where there
is none, the block behind it takes over the bindings in force.

## What is here

* `Graph.Grows` — what a merge into a block leaves alone.
* `Built.assign` — an assignment succeeds.
* `Body.Carries` — what closing a construct does.
* `Built.closeIf`, `Built.closeLoop` — closing succeeds.
-/

set_option autoImplicit false

namespace StructuredSSA

namespace Graph

open Operation (Similar)

/-- `g'` is `g` with more phis in `b`, and other values in the instructions there were. -/
structure Grows (g : Graph) (b : BlockId) (g' : Graph) : Prop where
  skeleton : SameSkeleton g g'
  nextId_le : g.nextId ≤ g'.nextId
  home?_old : ∀ i, i < g.nextId → g'.home? i = g.home? i
  home?_new : ∀ i c, g.nextId ≤ i → g'.home? i = some c → c = b ∧ g'.isPhi i = true
  similar : ∀ i op', i < g.nextId → op'.isBranch = false → g'.op? i = some op' →
    ∃ op, g.op? i = some op ∧ Similar op op'
  isBranch_eq : ∀ i, g'.isBranch i = g.isBranch i
  binding_eq : ∀ c x, c ≠ b → g'.binding c x = g.binding c x
  offered_eq : ∀ c, g'.offered c = g.offered c

namespace Grows

variable {g g' g'' : Graph} {b c : BlockId}

theorem of_sameShape (h : SameShape g g') (b : BlockId) : Grows g b g' where
  skeleton := h.skeleton
  nextId_le := Nat.le_of_eq h.nextId_eq.symm
  home?_old i _ := h.home?_eq i
  home?_new i c hi hhome := by
    rw [h.home?_eq, home?, instr?_eq_none_of_le hi] at hhome
    cases hhome
  similar i op' _ _ hop' := h.op?_similar hop'
  isBranch_eq := h.isBranch_eq
  binding_eq c x _ := h.binding_eq c x
  offered_eq := h.offered_eq

theorem isPhi_old (h : Grows g b g') {i : InstrId} (hi : i < g.nextId) :
    g'.isPhi i = g.isPhi i := by
  by_cases hpos : 0 < i
  · have hsome := op?_isSome_iff.2 ⟨hpos, Nat.lt_of_lt_of_le hi h.nextId_le⟩
    obtain ⟨op', hop'⟩ := Option.isSome_iff_exists.1 hsome
    cases hbr : op'.isBranch with
    | false =>
      obtain ⟨op, hop, hsim⟩ := h.similar i op' hi hbr hop'
      rw [Graph.isPhi_eq, Graph.isPhi_eq, hop, hop', Option.any_some, Option.any_some,
        hsim.isPhi_eq]
    | true =>
      have hbr' : g.isBranch i = true := by
        rw [← h.isBranch_eq, Graph.isBranch_eq, hop']
        exact hbr
      rw [Graph.isBranch_eq, Option.any_eq_true] at hbr'
      obtain ⟨op, hop, hop₂⟩ := hbr'
      rw [Graph.isPhi_eq, Graph.isPhi_eq, hop, hop', Option.any_some, Option.any_some,
        Operation.isPhi_of_isBranch hbr, Operation.isPhi_of_isBranch hop₂]
  · obtain rfl : i = 0 := Nat.eq_zero_of_not_pos hpos
    rfl

theorem trans (h : Grows g b g') (h' : Grows g' b g'') : Grows g b g'' where
  skeleton := h.skeleton.trans h'.skeleton
  nextId_le := Nat.le_trans h.nextId_le h'.nextId_le
  home?_old i hi := (h'.home?_old i (Nat.lt_of_lt_of_le hi h.nextId_le)).trans (h.home?_old i hi)
  home?_new i c hi hhome := by
    by_cases hlt : i < g'.nextId
    · rw [h'.home?_old i hlt] at hhome
      obtain ⟨hc, hphi⟩ := h.home?_new i c hi hhome
      exact ⟨hc, by rw [h'.isPhi_old hlt, hphi]⟩
    · exact h'.home?_new i c (Nat.le_of_not_lt hlt) hhome
  similar i op'' hi hbr hop'' := by
    obtain ⟨op', hop', hsim'⟩ :=
      h'.similar i op'' (Nat.lt_of_lt_of_le hi h.nextId_le) hbr hop''
    obtain ⟨op, hop, hsim⟩ := h.similar i op' hi (by rw [← hsim'.isBranch_eq]; exact hbr) hop'
    exact ⟨op, hop, hsim.trans hsim'⟩
  isBranch_eq i := (h'.isBranch_eq i).trans (h.isBranch_eq i)
  binding_eq c x hc := (h'.binding_eq c x hc).trans (h.binding_eq c x hc)
  offered_eq c := (h'.offered_eq c).trans (h.offered_eq c)

/-- Placing a phi in `b` and binding a variable to it there. -/
theorem of_places {x : Var} {first second : Option InstrId}
    (h : Places g b (.phi x first second) g') (v : Option InstrId) :
    Grows g b (g'.bindIn b x v) := by
  have hre := rebinds_bindIn g' b x v
  refine {
    skeleton := h.skeleton.trans hre.skeleton
    nextId_le := by
      rw [hre.nextId_eq, h.nextId_eq]
      exact Nat.le_succ _
    home?_old := fun i hi => by
      rw [hre.home?_eq, h.home?_eq, if_neg (Nat.ne_of_lt hi)]
    home?_new := fun i c hi hhome => ?_
    similar := fun i op' hi hbr hop' => ?_
    isBranch_eq := fun i => ?_
    binding_eq := fun c y hc => by rw [hre.binding_eq c y hc, h.binding_eq]
    offered_eq := fun c => ?_ }
  · rw [hre.home?_eq, h.home?_eq] at hhome
    split at hhome
    · rename_i hi'
      cases hhome
      refine ⟨rfl, ?_⟩
      rw [hre.isPhi_eq, hi', Graph.isPhi_eq, h.op?_new]
      rfl
    · rw [home?, instr?_eq_none_of_le hi] at hhome
      cases hhome
  · rw [hre.op?_eq] at hop'
    rcases (h.op?_eq hbr).1 hop' with ⟨heq, -⟩ | ⟨-, hop⟩
    · exact absurd heq (Nat.ne_of_lt hi)
    · exact ⟨op', hop, .refl op'⟩
  · rw [hre.isBranch_eq]
    by_cases hi : i = g.nextId
    · subst hi
      rw [h.isBranch_new, isBranch, Places.instr?_nextId]
      rfl
    · exact h.isBranch_old hi
  · rw [hre.offered_eq, h.offered_eq]
    split
    · rename_i hc
      rw [hc]
      rfl
    · rfl

theorem hasBranch_iff (h : Grows g b g') (d : BlockId) : g'.HasBranch d ↔ g.HasBranch d := by
  have hhome : ∀ i, g.isBranch i = true → g'.home? i = g.home? i := fun i hi => by
    rw [Graph.isBranch_eq, Option.any_eq_true] at hi
    obtain ⟨op, hop, -⟩ := hi
    exact h.home?_old i (lt_nextId_of_op? hop)
  constructor
  · rintro ⟨i, hi, hd⟩
    rw [h.isBranch_eq] at hi
    exact ⟨i, hi, by rw [← hhome i hi, hd]⟩
  · rintro ⟨i, hi, hd⟩
    exact ⟨i, by rw [h.isBranch_eq, hi], by rw [hhome i hi, hd]⟩

theorem phiBound (h : Grows g b g') (hne : c ≠ b) (hb : g.PhiBound c) : g'.PhiBound c := by
  intro i op' hop' hphi hhome
  have hi : i < g.nextId := by
    by_contra hlt
    exact hne (h.home?_new i c (Nat.le_of_not_lt hlt) hhome).1
  have hbr : op'.isBranch = false := by cases op' <;> first | rfl | cases hphi
  obtain ⟨op, hop, hsim⟩ := h.similar i op' hi hbr hop'
  rw [hsim.isPhi_eq] at hphi
  rw [h.home?_old i hi] at hhome
  obtain ⟨x, hx, hbind, hunique⟩ := hb i op hop hphi hhome
  refine ⟨x, by rw [hsim.phiVar?_eq, hx], by rw [h.binding_eq c x hne, hbind], fun y hy => ?_⟩
  rw [h.binding_eq c y hne] at hy
  exact hunique y hy

end Grows
end Graph

namespace Body

/-! ## What a merge leaves alone -/

theorem Merges.setting {w : Site} {x : Var} {v : Option InstrId} {u u' : Body}
    (h : u.Merges w x v u') : SameSetting u u' := by
  cases h with
  | outermost => exact .refl u
  | replaced => exact ⟨rfl, rfl, rfl⟩
  | joined => exact ⟨rfl, rfl, rfl⟩
  | @looped f fs before g start =>
    have hv : SameSetting u (u.withPhi g f.phiBlock x (f.operands before v)) := ⟨rfl, rfl, rfl⟩
    exact hv.trans (.redirectFrom x before u.graph.nextId start _)

/-- Outside of all constructs there is nothing to merge into. -/
theorem Merges.eq_of_outermost {w : Site} {x : Var} {v : Option InstrId} {u u' : Body}
    (h : u.Merges w x v u') (hframes : w.frames = []) : u' = u := by
  cases h with
  | outermost => rfl
  | replaced hf =>
    rw [hframes] at hf
    cases hf
  | joined hf =>
    rw [hframes] at hf
    cases hf
  | looped hf =>
    rw [hframes] at hf
    cases hf

end Body

namespace Built

variable {w : Site} {u : Body}

theorem phiBlock_lt (b : Built w u) {f : Frame} (hf : f ∈ w.frames) :
    f.phiBlock < u.graph.blocks.size := by
  rcases Closable.phiBlock_mem b.layout hf with h | h
  · exact b.layout.passed_lt h
  · exact b.layout.target_lt h

/-- A merge touches one block only. -/
theorem grows (b : Built w u) {f : Frame} {fs : List Frame} (hframes : w.frames = f :: fs) {x : Var}
    {v : Option InstrId} {u' : Body} (h : u.Merges w x v u') :
    u.graph.Grows f.phiBlock u'.graph := by
  have hsame : ∀ {f' : Frame} {fs' : List Frame}, w.frames = f' :: fs' → f' = f := fun h' => by
    rw [hframes] at h'
    exact (List.cons.inj h').1.symm
  cases h with
  | outermost hnil =>
    rw [hframes] at hnil
    cases hnil
  | replaced _ hown =>
    exact .of_sameShape (Graph.sameShape_mapOp u.graph _ (Operation.similar_setSide _ _)) _
  | joined hf' _ _ _ hplace =>
    obtain rfl := hsame hf'
    exact .of_places hplace _
  | @looped f' fs' before g start hf' _ hnone _ hplace _ =>
    obtain rfl := hsame hf'
    have hb := b.withPhi (b.phiBlock_lt (by rw [hframes]; exact List.mem_cons_self)) hnone hplace
    exact (Graph.Grows.of_places hplace _).trans
      (.of_sameShape (hb.redirected_redirectFrom x before u.graph.nextId start).1.shape _)

/-- A merge keeps the invariant. -/
theorem of_merges (b : Built w u) {x : Var} {v : Option InstrId} {u' : Body}
    (h : u.Merges w x v u') : Built w u' := by
  cases h with
  | outermost => exact b
  | replaced _ hown => exact b.setPhiSide hown.2.1 _ _ _
  | joined hframes _ hnone _ hplace =>
    exact b.withPhi (b.phiBlock_lt (by rw [hframes]; exact List.mem_cons_self)) hnone hplace
  | looped hframes _ hnone _ hplace _ =>
    have hb := b.withPhi (b.phiBlock_lt (by rw [hframes]; exact List.mem_cons_self)) hnone hplace
    exact (hb.redirected_redirectFrom _ _ _ _).2

/-- Where construction stands at the tail, every test is complete. -/
theorem tested (b : Built w u) (hcurrent : u.current = w.tail) :
    ∀ f ∈ w.frames, u.graph.HasBranch f.test := by
  intro f hf
  refine (b.closable.tested f hf).resolve_left fun h => b.layout.tail_not_passed ?_
  rw [← hcurrent, ← h]
  exact b.layout.behind f hf _ (Layout.test_mem_behind f)

end Built

/-! ## Assigning -/

/-- The body with `x` bound to `v` in `c`. -/
def Body.withBinding (u : Body) (c : BlockId) (x : Var) (v : Option InstrId) : Body :=
  { u with graph := u.graph.bindIn c x v }

namespace Built

variable {w : Site} {u : Body}

/-- New bindings at the tail. -/
theorem rebindTail (b : Built w u) {g : Graph} (h : u.graph.Rebinds w.tail g)
    (hbound : ∀ x i, g.binding w.tail x = some (some i) → (u.graph.op? i).isSome = true) :
    Built w { u with graph := g } :=
  b.withGraph h.skeleton (b.contents.rebind h hbound)
    (b.closable.rebind h fun _ hf => Closable.phiBlock_ne_tail b.layout hf) h.standIn?_eq
    (b.matched.of_op (fun j op _ hj => by rw [h.op?_eq]; exact hj) h.standIn?_eq)

theorem withBinding (b : Built w u) (x : Var) {v : Option InstrId}
    (hv : ∀ i, v = some i → (u.graph.op? i).isSome = true) :
    Built w (u.withBinding w.tail x v) := by
  refine b.rebindTail (Graph.rebinds_bindIn u.graph w.tail x v) fun y i hy => ?_
  rw [Graph.binding_bindIn b.layout.tail_lt] at hy
  split at hy
  · exact hv i (Option.some.inj hy)
  · exact b.contents.bound w.tail y i hy

/-- **An assignment** at the tail. -/
theorem assign (b : Built w u) (hcurrent : u.current = w.tail) (x : Var) {v : Option InstrId}
    (hv : ∀ i, v = some i → (u.graph.op? i).isSome = true) :
    ∃ u', u.assign x v = .ok u' ∧ (u.withBinding w.tail x v).Merges w x v u' ∧ Built w u' := by
  have hb := b.withBinding x hv
  obtain ⟨u', hmerge, hmerges, hb'⟩ := hb.merge (hb.tested hcurrent) x v
  obtain ⟨blk₀, hblk₀, -⟩ := Graph.exists_block_ok b.layout.tail_lt
  obtain ⟨blk, hblk, hblk'⟩ := Graph.exists_block_ok hb.layout.tail_lt
  refine ⟨u', ?_, hmerges, hb'⟩
  rw [← hb.layout.region_tail hblk'] at hmerge
  simp only [Body.withBinding, ← hcurrent] at hblk₀ hblk hmerge
  simp only [Body.assign, b.requireOpen_eq, hblk₀, hblk, bind, Except.bind]
  exact hmerge

end Built

/-! ## Closing -/

namespace Body

/-- The phis of `c` are merged one after another into the innermost construct of `w`. -/
inductive CarriesEach (w : Site) (c : BlockId) : List InstrId → Body → Body → Prop where
  | nil {u : Body} : CarriesEach w c [] u u
  | cons {i : InstrId} {is : List InstrId} {x : Var} {u u₁ u₂ : Body}
      (hown : u.graph.OwnPhi c x i) (hmerge : u.Merges w x (some i) u₁)
      (rest : CarriesEach w c is u₁ u₂) : CarriesEach w c (i :: is) u u₂

/-- `Carries w c origin u u'`: with the construct opened at `origin` left for the site `w`, carrying
the phis of `c` outward takes `u` to `u'`. -/
inductive Carries (w : Site) (c origin : BlockId) (u : Body) : Body → Prop where
  /-- No construct is around, and the tail takes over the bindings in force. -/
  | outermost (h : w.frames = []) :
      Carries w c origin u { u with graph := u.graph.inheritScope w.tail origin }
  /-- The phis are merged into the construct around. -/
  | inner {u' : Body} (h : w.frames ≠ [])
      (each : CarriesEach w c ((u.graph.listed c).filter u.graph.isPhi) u u') :
      Carries w c origin u u'

theorem CarriesEach.setting {w : Site} {c : BlockId} {is : List InstrId} {u u' : Body}
    (h : CarriesEach w c is u u') : SameSetting u u' := by
  induction h with
  | nil => exact .refl _
  | cons _ hmerge _ ih => exact hmerge.setting.trans ih

theorem Carries.setting {w : Site} {c origin : BlockId} {u u' : Body}
    (h : u.Carries w c origin u') : SameSetting u u' := by
  cases h with
  | outermost => exact ⟨rfl, rfl, rfl⟩
  | inner _ each => exact each.setting

end Body

namespace Built

variable {w : Site} {u : Body}

/-- The variable of a phi can be found. -/
theorem exists_variableOf {c : BlockId} {blk : Block} (hblk : u.graph.block? c = some blk)
    (hphi : u.graph.PhiBound c) {i : InstrId} (hi : u.graph.isPhi i = true)
    (hhome : u.graph.home? i = some c) :
    ∃ x, blk.variableOf? i = some x ∧ u.graph.OwnPhi c x i := by
  have hi' := hi
  rw [Graph.isPhi_eq, Option.any_eq_true] at hi'
  obtain ⟨op, hop, hop'⟩ := hi'
  obtain ⟨x, -, hbind, -⟩ := hphi i op hop hop' hhome
  have hget : ∀ y, u.graph.binding c y = blk.symbols.get? y := fun y => by
    rw [Graph.binding, hblk]
    rfl
  cases hfind : blk.symbols.entries.find? (fun e => e.2 == some i) with
  | none =>
    rw [hget, Table.get?_eq_some_iff] at hbind
    have := List.find?_eq_none.1 hfind _ hbind
    simp at this
  | some e =>
    have hmem := List.mem_of_find?_eq_some hfind
    have heq := List.find?_some hfind
    rw [beq_iff_eq] at heq
    refine ⟨e.1, by rw [Block.variableOf?, hfind]; rfl, ?_, hi, hhome⟩
    rw [hget, Table.get?_eq_some_iff, ← heq]
    exact hmem

/-- Merging the phis `is` of `c` outward, one after another. -/
theorem carryEach (b : Built w u) {f : Frame} {fs : List Frame} (hframes : w.frames = f :: fs)
    (htested : ∀ f ∈ w.frames, u.graph.HasBranch f.test) {c : BlockId}
    (hc : c < u.graph.blocks.size) (hne : f.phiBlock ≠ c) (hphi : u.graph.PhiBound c)
    (is : List InstrId) (his : ∀ i ∈ is, u.graph.isPhi i = true ∧ u.graph.home? i = some c) :
    ∃ u', is.foldlM (Body.carryPhi c w.region) u = .ok u' ∧ Body.CarriesEach w c is u u' ∧
      Built w u' := by
  induction is generalizing u with
  | nil => exact ⟨u, rfl, .nil, b⟩
  | cons i is ih =>
    obtain ⟨hi, hhome⟩ := his i (by simp)
    obtain ⟨blk, hblk, hblk'⟩ := Graph.exists_block_ok hc
    obtain ⟨x, hvar, hown⟩ := exists_variableOf hblk' hphi hi hhome
    obtain ⟨u₁, hmerge, hmerges, hb₁⟩ := b.merge htested x (some i)
    have hgrows := b.grows hframes hmerges
    obtain ⟨u', hfold, hcarries, hb'⟩ := ih hb₁
      (fun f' hf' => (hgrows.hasBranch_iff _).2 (htested f' hf'))
      ((hgrows.skeleton.lt_size_iff c).2 hc) (hgrows.phiBound (Ne.symm hne) hphi)
      fun j hj => by
        obtain ⟨hj₁, hj₂⟩ := his j (List.mem_cons_of_mem _ hj)
        have hlt := Graph.lt_nextId_of_home? hj₂
        exact ⟨by rw [hgrows.isPhi_old hlt, hj₁], by rw [hgrows.home?_old j hlt, hj₂]⟩
    refine ⟨u', ?_, .cons hown hmerges hcarries, hb'⟩
    rw [List.foldlM_cons]
    simp only [Body.carryPhi, hblk, hvar, expect, hmerge, bind, Except.bind]
    exact hfold

theorem of_carriesEach (b : Built w u) {f : Frame} {fs : List Frame} (hframes : w.frames = f :: fs)
    {c : BlockId} {is : List InstrId} {u' : Body} (h : Body.CarriesEach w c is u u') :
    u.graph.Grows f.phiBlock u'.graph ∧ Built w u' := by
  induction h with
  | nil => exact ⟨.of_sameShape (.refl _) _, b⟩
  | cons _ hmerge _ ih =>
    obtain ⟨hgrows, hb⟩ := ih (b.of_merges hmerge)
    exact ⟨(b.grows hframes hmerge).trans hgrows, hb⟩

/-- Carrying phis outward adds no branch. -/
theorem hasBranch_carries (b : Built w u) {c origin : BlockId} {u' : Body}
    (h : u.Carries w c origin u') (d : BlockId) :
    u'.graph.HasBranch d ↔ u.graph.HasBranch d := by
  cases h with
  | outermost =>
    have hre := Graph.rebinds_inheritScope u.graph w.tail origin
    exact Closable.hasBranch_congr hre.isBranch_eq hre.home?_eq d
  | inner hne each =>
    obtain ⟨f, fs, hframes⟩ := List.exists_cons_of_ne_nil hne
    exact (b.of_carriesEach hframes each).1.hasBranch_iff d

theorem skeleton_carries (b : Built w u) {c origin : BlockId} {u' : Body}
    (h : u.Carries w c origin u') : u.graph.SameSkeleton u'.graph := by
  cases h with
  | outermost => exact (Graph.rebinds_inheritScope u.graph w.tail origin).skeleton
  | inner hne each =>
    obtain ⟨f, fs, hframes⟩ := List.exists_cons_of_ne_nil hne
    exact (b.of_carriesEach hframes each).1.skeleton

/-- **Carrying the phis of a construct outward**, once it has been left. -/
theorem carryPhis (b : Built w u) (htested : ∀ f ∈ w.frames, u.graph.HasBranch f.test)
    {c : BlockId} (origin : BlockId) (hc : c < u.graph.blocks.size)
    (hne : ∀ f ∈ w.frames, f.phiBlock ≠ c) (hphi : u.graph.PhiBound c) :
    ∃ u', u.carryPhis c w.tail origin = .ok u' ∧ u.Carries w c origin u' ∧ Built w u' := by
  obtain ⟨last, hlast, hlast'⟩ := Graph.exists_block_ok b.layout.tail_lt
  have hregion := b.layout.region_tail hlast'
  cases hframes : w.frames with
  | nil =>
    have houter : w.region = .outermost := by
      rw [Site.region, hframes]
      rfl
    refine ⟨_, ?_, .outermost hframes, b.rebindTail (Graph.rebinds_inheritScope _ _ _) ?_⟩
    · simp only [Body.carryPhis, hlast, hregion, houter, bind, Except.bind, pure, Except.pure]
    · intro x i hx
      obtain ⟨d, hd⟩ := Graph.exists_binding_of_inheritScope b.layout.tail_lt hx
      exact b.contents.bound d x i hd
  | cons f fs =>
    obtain ⟨blk, hblk, hblk'⟩ := Graph.exists_block_ok hc
    have hlisted : u.graph.listed c = blk.instrs := by
      rw [Graph.listed, hblk']
      rfl
    obtain ⟨u', hfold, hcarries, hb'⟩ := b.carryEach hframes htested hc
      (hne f (by rw [hframes]; exact List.mem_cons_self)) hphi
      ((u.graph.listed c).filter u.graph.isPhi) fun i hi => by
        obtain ⟨hmem, hi⟩ := List.mem_filter.1 hi
        exact ⟨hi, (b.contents.mem_listed c i).1 hmem⟩
    refine ⟨u', ?_, .inner (by simp [hframes]) hcarries, hb'⟩
    have hinner : w.region ≠ .outermost := by
      rw [Site.region, hframes]
      simp only [List.head?_cons, Option.map_some, Option.getD_some, Frame.region]
      split <;> simp
    rw [hlisted] at hfold
    simp only [Body.carryPhis, hlast, hregion, hblk, bind, Except.bind]
    exact hfold

/-- **Closing an if** whose last block has been reached. -/
theorem closeIf (b : Built w u) {f : Frame} {fs : List Frame} (hframes : w.frames = f :: fs)
    (hpart : f.part ≠ .loopBody) (hcurrent : u.current = f.target)
    (htested : ∀ f ∈ w.frames, u.graph.HasBranch f.test) (haimed : u.graph.Aimed f.test)
    (hthen : ∀ tt, f.part = .elseSide tt → u.graph.HasBranch tt) :
    ∃ u', u.closeIf f.test = .ok u' ∧ u.Carries w.pop f.target f.test u' ∧ Built w.pop u' := by
  have hf : f ∈ w.frames := by simp [hframes]
  have hpop := Site.pop_eq hframes
  have hphiBlock := Frame.phiBlock_eq_target hpart
  have hfall : (u.graph.next .fall w.tail).isSome = true := by
    rw [(b.layout.next_tail_if hframes hpart).1]
    rfl
  have hframed := b.layout.framed_join hf hpart
  have hb := b.pop hframes haimed (.inl hfall) hthen
  have htail : w.pop.tail = f.target := by rw [hpop]
  have hlt : f.target < u.graph.blocks.size := b.layout.target_lt (List.mem_map_of_mem hf)
  obtain ⟨blk, hblk, hblk'⟩ := Graph.exists_block_ok hlt
  obtain ⟨u', hcarry, hcarries, hb'⟩ := hb.carryPhis
    (fun f' hf' => htested f' (by rw [hpop] at hf'; simp [hframes, hf'])) f.test hlt
    (fun f' hf' => htail ▸ Closable.phiBlock_ne_tail hb.layout hf')
    (hphiBlock ▸ b.closable.phi_bound f hf)
  refine ⟨u', ?_, hcarries, hb'⟩
  have hguard : (blk.hasRole .join && decide (blk.origin = some f.test)) = true := by
    have h₁ := hframed.1
    have h₂ := hframed.2
    rw [Graph.originOf, hblk'] at h₁
    rw [Graph.hasRole, hblk'] at h₂
    rw [Bool.and_eq_true, decide_eq_true_eq]
    exact ⟨h₂, h₁⟩
  rw [htail] at hcarry
  simp only [Body.closeIf, b.requireOpen_eq, hcurrent, hblk, hguard, require, bind, Except.bind,
    if_true]
  exact hcarry

/-- **Closing a loop** whose body ends in a jump. -/
theorem closeLoop (b : Built w u) {f : Frame} {fs : List Frame} (hframes : w.frames = f :: fs)
    (hpart : f.part = .loopBody) (htested : ∀ f ∈ w.frames, u.graph.HasBranch f.test)
    (haimed : u.graph.Aimed f.test) (hjump : u.graph.HasBranch w.tail) :
    ∃ u', u.closeLoop f.test = .ok u' ∧
      ({ u with loopStarts := u.loopStarts.tail } : Body).Carries w.pop f.test f.test u' ∧
      Built w.pop u' := by
  have hf : f ∈ w.frames := by simp [hframes]
  have hpop := Site.pop_eq hframes
  have hphiBlock := Frame.phiBlock_eq_test hpart
  have hframed := b.layout.framed_loopBody hf hpart
  have hpassed : f.test ∈ w.passed := b.layout.behind f hf _ (Layout.test_mem_behind f)
  have hb := b.pop hframes haimed (.inr hjump) fun tt h => by rw [hpart] at h; cases h
  let v : Body := { u with loopStarts := u.loopStarts.tail }
  have hbv : Built w.pop v := { hb with books := hb.books.of_standIn rfl fun _ => rfl }
  have htail : w.pop.tail = f.target := by rw [hpop]
  have hlt := b.layout.passed_lt hpassed
  obtain ⟨blk, hblk, hblk'⟩ := Graph.exists_block_ok hlt
  have houter : ∀ f' ∈ w.pop.frames, f'.phiBlock ≠ f.test := by
    intro f' hf'
    rw [hpop] at hf'
    have hnested := b.layout.nested
    rw [hframes] at hnested
    have hbefore := (List.pairwise_cons.1 hnested).1 f' hf' _ (Layout.test_mem_behind f')
    rw [Frame.phiBlock]
    split
    · exact b.layout.ne_of_sublist hbefore
    · intro heq
      refine b.layout.passed_not_target hpassed ?_
      rw [← heq, Site.targets_of_cons hframes]
      exact List.mem_cons_of_mem _ (List.mem_map_of_mem hf')
  obtain ⟨u', hcarry, hcarries, hb'⟩ := hbv.carryPhis
    (fun f' hf' => htested f' (by rw [hpop] at hf'; simp [hframes, hf'])) f.test hlt houter
    (hphiBlock ▸ b.closable.phi_bound f hf)
  refine ⟨u', ?_, hcarries, hb'⟩
  have hrole : blk.hasRole .loopHead = true := by
    have h := hframed.1
    rw [Graph.hasRole, hblk'] at h
    exact h
  have hbranch : blk.branchTo = some f.target := by
    have h := hframed.2
    rw [Graph.next, hblk'] at h
    exact h
  rw [htail] at hcarry
  simp only [Body.closeLoop, b.requireOpen_eq, hblk, hrole, hbranch, require, expect, bind,
    Except.bind, if_true]
  exact hcarry

end Built
end StructuredSSA
