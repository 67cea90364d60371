import StructuredSSA.Proofs.Body.Built
import StructuredSSA.Proofs.Body.Redirect

/-!
# Merging values into constructs

`Body.merge` makes a value known behind the innermost construct.  There are four cases, which
`Body.Merges` lists: no construct is open, the construct has a phi of the variable already, a join
gets a new one, or a loop header gets a new one and the reads inside the loop are redirected to it.

## What is here

* `Body.Merges` — what a merge does.
* `Built.merge`, `Built.assign` — a merge and an assignment succeed.
* `Body.Carries`, `Built.carryPhis` — closing a construct merges its phis into the next one.
-/

set_option autoImplicit false

namespace StructuredSSA

namespace Graph

theorem exists_ownPhi {g : Graph} (hc : g.Contents) {b : BlockId} (hb : b < g.blocks.size)
    (x : Var) : ∃ r, g.ownPhi? b x = .ok r ∧ ∀ i, r = some i ↔ g.OwnPhi b x i := by
  obtain ⟨r, hr⟩ : ∃ r, g.ownPhi? b x = .ok r := by
    obtain ⟨blk, hblk, hblk'⟩ := exists_block_ok hb
    simp only [ownPhi?, hblk, bind, Except.bind, pure, Except.pure]
    split
    · rename_i j hget
      have hj := hc.bound b x j (by rw [binding, hblk', Option.bind_some, hget])
      rw [op?, Option.isSome_map] at hj
      obtain ⟨ins, hins⟩ := Option.isSome_iff_exists.1 hj
      exact ⟨_, by rw [instr_eq_ok_iff.2 hins]⟩
    · exact ⟨none, rfl⟩
  exact ⟨r, hr, eq_some_iff_of_ownPhi? hr⟩

/-- A block that holds a branch lists an instruction that is no phi. -/
theorem exists_firstNonPhi {g : Graph} (hc : g.Contents) {b : BlockId} {blk : Block}
    (hblk : g.block? b = some blk) (hbranch : g.HasBranch b) :
    ∃ i, g.firstNonPhi? blk = some i ∧ g.home? i = some b ∧ g.isPhi i = false := by
  have hlist : g.listed b = blk.instrs := by
    rw [listed, hblk]
    rfl
  obtain ⟨i, hi, hhome⟩ := hbranch
  have hmem : i ∈ blk.instrs := by
    rw [← hlist, hc.mem_listed]
    exact hhome
  have hnot : g.isPhi i = false := by
    rw [isBranch_eq] at hi
    rw [isPhi_eq]
    cases hop : g.op? i with
    | none => rfl
    | some op =>
      rw [hop] at hi
      cases op <;> first | rfl | cases hi
  cases hfirst : g.firstNonPhi? blk with
  | none =>
    have := List.find?_eq_none.1 hfirst i hmem
    simp [hnot] at this
  | some j =>
    refine ⟨j, rfl, ?_, ?_⟩
    · rw [← hc.mem_listed, hlist]
      exact List.mem_of_find?_eq_some hfirst
    · have := List.find?_some hfirst
      simpa using this

end Graph

namespace Frame

/-- The side of the phis that the part being built belongs to. -/
def side (f : Frame) : Side :=
  match f.part with
  | .thenSide => .first
  | _ => .second

/-- The operands of a phi, if the part being built brings `value` and the other side brings
`before`. -/
def operands (f : Frame) (before value : Option InstrId) : Option InstrId × Option InstrId :=
  match f.part with
  | .thenSide => (value, before)
  | _ => (before, value)

end Frame

namespace Body

/-- The body whose graph has become `g` by placing a phi of `x` in `b`. -/
def withPhi (u : Body) (g : Graph) (b : BlockId) (x : Var) (ops : Option InstrId × Option InstrId) :
    Body :=
  { u with
    graph := g.bindIn b x (some u.graph.nextId)
    incomplete :=
      if ops.1.isSome && ops.2.isSome then u.incomplete else u.incomplete.insert u.graph.nextId x }

theorem rebinds_withPhi (u : Body) (g : Graph) (b : BlockId) (x : Var)
    (ops : Option InstrId × Option InstrId) : g.Rebinds b (u.withPhi g b x ops).graph :=
  Graph.rebinds_bindIn g b x (some u.graph.nextId)

/-- The number of the first instruction that a new phi of `head` may redirect. -/
def IsStart (g : Graph) (head : BlockId) (start : InstrId) : Prop :=
  (g.listed head).find? (fun i => !g.isPhi i) = some start

/-- `Merges w x v u u'`: at the site `w`, making `v` the value of `x` behind the innermost
construct takes `u` to `u'`. -/
inductive Merges (w : Site) (x : Var) (v : Option InstrId) (u : Body) : Body → Prop where
  /-- No construct is open. -/
  | outermost (h : w.frames = []) : Merges w x v u u
  /-- The construct has a phi of the variable. -/
  | replaced {f : Frame} {fs : List Frame} {i : InstrId} (hframes : w.frames = f :: fs)
      (hown : u.graph.OwnPhi f.phiBlock x i) : Merges w x v u (u.setPhiSide i x f.side v)
  /-- A join gets a phi. -/
  | joined {f : Frame} {fs : List Frame} {before : Option InstrId} {g : Graph}
      (hframes : w.frames = f :: fs) (hpart : f.part ≠ .loopBody)
      (hnone : ∀ i, ¬ u.graph.OwnPhi f.phiBlock x i)
      (hbefore : u.graph.Resolves x f.test before)
      (hplace : u.graph.Places f.phiBlock
        (.phi x (f.operands before v).1 (f.operands before v).2) g) :
      Merges w x v u (u.withPhi g f.phiBlock x (f.operands before v))
  /-- A loop header gets a phi, and reads in the loop are redirected to it. -/
  | looped {f : Frame} {fs : List Frame} {before : Option InstrId} {g : Graph} {start : InstrId}
      (hframes : w.frames = f :: fs) (hpart : f.part = .loopBody)
      (hnone : ∀ i, ¬ u.graph.OwnPhi f.phiBlock x i)
      (hbefore : u.graph.Resolves x f.test before)
      (hplace : u.graph.Places f.phiBlock
        (.phi x (f.operands before v).1 (f.operands before v).2) g)
      (hstart : IsStart (u.withPhi g f.phiBlock x (f.operands before v)).graph f.phiBlock start) :
      Merges w x v u (redirectFrom x before u.graph.nextId start
        (u.withPhi g f.phiBlock x (f.operands before v)))

end Body

namespace Built

variable {w : Site} {u : Body}

/-- Only the books on incomplete phis differ. -/
theorem withIncomplete (b : Built w u) (t : Table Var) : Built w { u with incomplete := t } :=
  { b with books := b.books.of_standIn rfl fun _ => rfl }

/-! ## New operands of a phi -/

theorem setPhiSide (b : Built w u) {i : InstrId} (hphi : u.graph.isPhi i = true) (x : Var)
    (side : Side) (v : Option InstrId) : Built w (u.setPhiSide i x side v) := by
  have hshape := Graph.sameShape_mapOp u.graph i (Operation.similar_setSide side v)
  refine (b.withGraph hshape.skeleton (b.contents.of_sameShape hshape)
    (b.closable.of_sameShape hshape) (fun j => Graph.standIn?_modifyInstr_mapOp _ _ _ _)
    (b.matched.of_op (fun j op harith hj => ?_)
      fun j => Graph.standIn?_modifyInstr_mapOp _ _ _ _)).withIncomplete _
  rw [Graph.op?_modifyInstr_mapOp, if_neg, hj]
  rintro rfl
  rw [Graph.isPhi_eq, hj, Option.any_some, Operation.isPhi_of_arith harith] at hphi
  cases hphi

/-! ## New phis -/

/-- A phi has been put into a block that had none of the variable. -/
theorem withPhi (b : Built w u) {c : BlockId} (hc : c < u.graph.blocks.size) {x : Var}
    {ops : Option InstrId × Option InstrId} (hnone : ∀ i, ¬ u.graph.OwnPhi c x i) {g : Graph}
    (h : u.graph.Places c (.phi x ops.1 ops.2) g) : Built w (u.withPhi g c x ops) := by
  have hfits : Graph.Contents.Fits u.graph c (.phi x ops.1 ops.2) := {
    phi_vars := fun l r heq => by
      cases heq
      exact ⟨x, rfl, rfl⟩
    aimed := fun c t heq => by cases heq
    one_branch := fun heq => by cases heq }
  have hre := Graph.rebinds_bindIn g c x (some u.graph.nextId)
  have hcontents := b.contents.place hc hfits h
  have hcontents' : (g.bindIn c x (some u.graph.nextId)).Contents := by
    refine hcontents.rebind hre fun y i hy => ?_
    rw [Graph.binding_bindIn ((h.skeleton.lt_size_iff c).2 hc)] at hy
    split at hy
    · cases hy
      rw [h.op?_new]
      rfl
    · exact hcontents.bound c y i hy
  refine (b.withGraph (h.skeleton.trans hre.skeleton) hcontents'
    (b.closable.insertPhi b.contents hc h fun i hphi hhome hbind => hnone i ⟨hbind, hphi, hhome⟩)
    (fun j => by rw [hre.standIn?_eq, h.standIn?_eq]) ?_).withIncomplete _
  exact (b.matched.place h).of_op (fun j op _ hj => by rw [hre.op?_eq]; exact hj) hre.standIn?_eq

/-- Putting a phi into a block that has none of the variable. -/
theorem insertPhi (b : Built w u) {c : BlockId} (hc : c < u.graph.blocks.size) (x : Var)
    (ops : Option InstrId × Option InstrId) (hnone : ∀ i, ¬ u.graph.OwnPhi c x i) :
    ∃ g, u.insertPhi c x ops.1 ops.2 = .ok (u.graph.nextId, u.withPhi g c x ops) ∧
      u.graph.Places c (.phi x ops.1 ops.2) g ∧ Built w (u.withPhi g c x ops) := by
  obtain ⟨g, hplace, h⟩ := Graph.exists_places hc (.phi x ops.1 ops.2)
    (fun cond heq => by cases heq)
  refine ⟨g, ?_, h, b.withPhi hc hnone h⟩
  simp only [Body.insertPhi, Body.place, hplace, bind, Except.bind, pure, Except.pure]
  rfl

/-! ## Redirected reads -/

theorem withRead (b : Built w u) (x : Var) (before : Option InstrId) (phi i : InstrId) :
    Built w (u.withRead x before phi i) := by
  have hshares := b.shares.withRead x before phi i
  have hshape := (b.shares.redirected_withRead x before phi i).shape
  exact {
    layout := b.layout.of_sameSkeleton hshape.skeleton
    contents := b.contents.of_sameShape hshape
    closable := by
      rw [(Body.SameSetting.withRead x before phi u i).current_eq]
      exact b.closable.of_sameShape hshape
    books := hshares.books
    matched := hshares.matched
    isOpen := by
      rw [Body.isSettled_withRead]
      exact b.isOpen
    current_lt := by
      rw [(Body.SameSetting.withRead x before phi u i).current_eq]
      exact (hshape.skeleton.lt_size_iff _).2 b.current_lt }

theorem redirected_foldl (b : Built w u) (x : Var) (before : Option InstrId) (phi : InstrId)
    {is : List InstrId} (hnodup : is.Nodup) :
    u.graph.Redirected x before phi is (is.foldl (Body.withRead x before phi) u).graph ∧
      Built w (is.foldl (Body.withRead x before phi) u) := by
  refine ⟨(b.shares.redirected_foldl x before phi hnodup).1, ?_⟩
  clear hnodup
  induction is generalizing u with
  | nil => exact b
  | cons i is ih => exact ih (b.withRead x before phi i)

theorem redirected_redirectFrom (b : Built w u) (x : Var) (before : Option InstrId)
    (phi start : InstrId) :
    u.graph.Redirected x before phi (List.range' start (phi - start))
        (Body.redirectFrom x before phi start u).graph ∧
      Built w (Body.redirectFrom x before phi start u) :=
  b.redirected_foldl x before phi List.nodup_range'

/-! ## Merging -/

/-- Merging into a join. -/
theorem mergeIntoJoin (b : Built w u) {f : Frame} {fs : List Frame} (hframes : w.frames = f :: fs)
    (hpart : f.part ≠ .loopBody) (x : Var) (v : Option InstrId) :
    ∃ u', u.mergeIntoJoin f.target x v f.side = .ok u' ∧ u.Merges w x v u' ∧ Built w u' := by
  have hf : f ∈ w.frames := by simp [hframes]
  have hphiBlock := Frame.phiBlock_eq_target hpart
  obtain ⟨horigin, -⟩ := b.layout.framed_join hf hpart
  have hlt : f.target < u.graph.blocks.size := b.layout.target_lt (List.mem_map_of_mem hf)
  obtain ⟨r, hown, hr⟩ := Graph.exists_ownPhi b.contents hlt x
  cases r with
  | some i =>
    have hi := (hr i).1 rfl
    refine ⟨u.setPhiSide i x f.side v, ?_, .replaced hframes (by rw [hphiBlock]; exact hi),
      b.setPhiSide hi.2.1 x f.side v⟩
    simp only [Body.mergeIntoJoin, hown, bind, Except.bind, pure, Except.pure]
  | none =>
    have hnone : ∀ i, ¬ u.graph.OwnPhi f.target x i := fun i h => by
      have := (hr i).2 h
      cases this
    obtain ⟨blk, hblk, hblk'⟩ := Graph.exists_block_ok hlt
    have horigin' : blk.origin = some f.test := by
      rw [Graph.originOf, hblk'] at horigin
      exact horigin
    obtain ⟨before, hres, hres'⟩ := b.layout.exists_resolve
      (b.layout.passed_lt (b.layout.behind f hf _ (Layout.test_mem_behind f))) x
    obtain ⟨g, hinsert, hplace, hb⟩ := b.insertPhi hlt x (f.operands before v) hnone
    refine ⟨u.withPhi g f.target x (f.operands before v), ?_, ?_, hb⟩
    · simp only [Body.mergeIntoJoin, hown, hblk, horigin', expect, hres, bind, Except.bind, pure,
        Except.pure]
      simp only [Frame.operands, Frame.side] at hinsert ⊢
      split at hinsert
      · simp only [hinsert]
      · simp only [hinsert]
    · rw [← hphiBlock] at hnone hplace ⊢
      exact .joined hframes hpart hnone hres' hplace

/-- Merging into a loop. -/
theorem mergeIntoLoop (b : Built w u) {f : Frame} {fs : List Frame} (hframes : w.frames = f :: fs)
    (hpart : f.part = .loopBody) (htested : u.graph.HasBranch f.test) (x : Var)
    (v : Option InstrId) :
    ∃ u', u.mergeIntoLoop f.test x v = .ok u' ∧ u.Merges w x v u' ∧ Built w u' := by
  have hf : f ∈ w.frames := by simp [hframes]
  have hphiBlock := Frame.phiBlock_eq_test hpart
  have hside : f.side = .second := by rw [Frame.side, hpart]
  have hoperands : ∀ before, f.operands before v = (before, v) := fun before => by
    rw [Frame.operands, hpart]
  have hlt : f.test < u.graph.blocks.size :=
    b.layout.passed_lt (b.layout.behind f hf _ (Layout.test_mem_behind f))
  obtain ⟨r, hown, hr⟩ := Graph.exists_ownPhi b.contents hlt x
  cases r with
  | some i =>
    have hi := (hr i).1 rfl
    refine ⟨u.setPhiSide i x .second v, ?_, ?_, b.setPhiSide hi.2.1 x .second v⟩
    · simp only [Body.mergeIntoLoop, hown, bind, Except.bind, pure, Except.pure]
    · have := Body.Merges.replaced (v := v) hframes (by rw [hphiBlock]; exact hi)
      rwa [hside] at this
  | none =>
    have hnone : ∀ i, ¬ u.graph.OwnPhi f.test x i := fun i h => by
      have := (hr i).2 h
      cases this
    obtain ⟨before, hres, hres'⟩ := b.layout.exists_resolve hlt x
    obtain ⟨g, hinsert, hplace, hb⟩ := b.insertPhi hlt x (f.operands before v) hnone
    have hlt' := (hb.layout.passed_lt (hb.layout.behind f hf _ (Layout.test_mem_behind f)))
    obtain ⟨blk, hblk, hblk'⟩ := Graph.exists_block_ok hlt'
    have hbranch : (u.withPhi g f.test x (f.operands before v)).graph.HasBranch f.test := by
      have hre := Graph.rebinds_bindIn g f.test x (some u.graph.nextId)
      exact (Closable.hasBranch_congr hre.isBranch_eq hre.home?_eq _).2
        ((Closable.hasBranch_place hplace _).2 (.inl htested))
    obtain ⟨start, hstart, -, -⟩ := Graph.exists_firstNonPhi hb.contents hblk' hbranch
    refine ⟨_, ?_, ?_, (hb.redirected_redirectFrom x before u.graph.nextId start).2⟩
    · rw [hoperands] at hinsert hblk hstart hb ⊢
      simp only [Body.mergeIntoLoop, hown, hres, hinsert, Body.redirectReads, hblk, hstart, expect,
        bind, Except.bind]
      exact hb.shares.foldlM_redirectRead_eq x before _ _
    · have hstart' :
          Body.IsStart (u.withPhi g f.test x (f.operands before v)).graph f.test start := by
        rw [Body.IsStart, Graph.listed, hblk']
        exact hstart
      rw [← hphiBlock] at hnone hplace hstart' ⊢
      exact .looped hframes hpart hnone hres' hplace hstart'

/-- **Merging a value** into the innermost construct. -/
theorem merge (b : Built w u) (htested : ∀ f ∈ w.frames, u.graph.HasBranch f.test) (x : Var)
    (v : Option InstrId) :
    ∃ u', u.merge w.region x v = .ok u' ∧ u.Merges w x v u' ∧ Built w u' := by
  cases hframes : w.frames with
  | nil =>
    refine ⟨u, ?_, .outermost hframes, b⟩
    rw [Site.region, hframes]
    rfl
  | cons f fs =>
    have hregion : w.region = f.region := by
      rw [Site.region, hframes]
      rfl
    rw [hregion]
    cases hpart : f.part with
    | thenSide =>
      have := b.mergeIntoJoin hframes (by simp [hpart]) x v
      simpa only [Frame.region, Frame.side, hpart, Body.merge] using this
    | elseSide tt =>
      have := b.mergeIntoJoin hframes (by simp [hpart]) x v
      simpa only [Frame.region, Frame.side, hpart, Body.merge] using this
    | loopBody =>
      have := b.mergeIntoLoop hframes hpart (htested f (by simp [hframes])) x v
      simpa only [Frame.region, hpart, Body.merge] using this

end Built
end StructuredSSA
