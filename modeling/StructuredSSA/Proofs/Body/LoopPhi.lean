import StructuredSSA.Proofs.Body.Merge
import StructuredSSA.Proofs.Body.Retired
import StructuredSSA.Proofs.Body.Sequence

/-!
# What a new loop phi does

The first assignment to a variable at the end of a loop body puts a phi of the variable into the
header.  Seen from outside this is one simultaneous substitution: every read of the old value
through the variable, anywhere in the loop, reads the phi, and no sharing with an instruction that
was changed is left.  This holds of any body, whether or not its constructs are nested in order.

## What is here

* `Graph.GainsPhi` — a loop header gets a phi that takes over the reads in the loop.
* `Graph.SameSkeleton.region_eq` — binding a variable does not move construction elsewhere.
* `Body.assign_gains_phi` — what the first assignment to a variable at the end of a loop body does.
-/

set_option autoImplicit false

namespace StructuredSSA

namespace Graph

/-- `g'` is `g` with a phi of `x` in the loop header `head`.  The phi selects between `before` and
`value`, and takes over the reads of `before` through `x` from `start` on. -/
structure GainsPhi (g : Graph) (head : BlockId) (x : Var) (before value : Option InstrId)
    (start : InstrId) (g' : Graph) : Prop where
  skeleton : g.SameSkeleton g'
  nextId_eq : g'.nextId = g.nextId + 1
  op?_new : g'.op? g.nextId = some (.phi x before value)
  home?_new : g'.home? g.nextId = some head
  /-- The phi comes behind the phis that the header had, and ahead of `start`, the first instruction
  that is no phi. -/
  header : ∃ phis rest, g.listed head = phis ++ start :: rest ∧
    (∀ i ∈ phis, g.isPhi i = true) ∧ (∀ i ∈ start :: rest, g.isPhi i = false) ∧
    g'.listed head = phis ++ g.nextId :: start :: rest
  listed_eq : ∀ b, b ≠ head → g'.listed b = g.listed b
  binding_eq : ∀ b y,
    g'.binding b y = if b = head ∧ y = x then some (some g.nextId) else g.binding b y
  keeps : g.Keeps g'
  operands_eq : ∀ i op op', g.op? i = some op → g'.op? i = some op' →
    op'.operands = if start ≤ i then
      op.operands.map fun o => if o = .through x before then .through x (some g.nextId) else o
    else op.operands

/-! ## The region around a block -/

variable {g g' : Graph}

theorem SameSkeleton.region_eq (h : g.SameSkeleton g') {blk blk' : Block}
    (hblk : blk'.skeleton = blk.skeleton) : g'.region blk' = g.region blk := by
  have hrole : ∀ r, (g'.hasRole · r) = (g.hasRole · r) := fun r => funext fun b => h.hasRole_eq b r
  have hfall : blk'.fallTo = blk.fallTo := congrArg (·.fallTo) hblk
  have hbranch : blk'.branchTo = blk.branchTo := congrArg (·.branchTo) hblk
  have hfrom : ∀ join, g'.branchedFromIf join = g.branchedFromIf join := fun join => by
    have hprev := h.prev_eq .branch join
    change (g'.prev .branch join).any _ = (g.prev .branch join).any _
    rw [hprev, hrole]
  rw [region, region, joinAhead?, joinAhead?, backEdge?, backEdge?, hfall, hbranch, hrole, hrole]
  simp only [hfrom]

theorem hasRole_of_region {blk : Block} {head : BlockId} (h : g.region blk = .loopBody head) :
    g.hasRole head .loopHead = true := by
  rw [region] at h
  split at h
  · split at h <;> cases h
  · split at h
    · rename_i hback
      cases h
      rw [backEdge?] at hback
      exact (Option.filter_eq_some_iff.1 hback).2
    · cases h

end Graph

namespace Body

variable {u u' : Body} {head : BlockId} {x : Var} {before value : Option InstrId} {start : InstrId}

/-! ## The steps of the assignment -/

theorem withPhi_of_insertPhi {b : BlockId} {first second : Option InstrId} {i : InstrId}
    (h : u.insertPhi b x first second = .ok (i, u')) : i = u.graph.nextId ∧
      ∃ g, u.graph.Places b (.phi x first second) g ∧ u' = u.withPhi g b x (first, second) := by
  obtain ⟨⟨j, v⟩, hplace, h⟩ := bind_eq_ok_iff.1 h
  cases h
  obtain ⟨rfl, op, g, hlands, hplaces, rfl⟩ := places_of_place hplace
  rcases hlands with rfl | ⟨c, hc, -⟩
  · exact ⟨rfl, g, hplaces, rfl⟩
  · cases hc

theorem shares_withPhi {g : Graph} (s : u.Shares)
    (h : u.graph.Places head (.phi x before value) g) :
    (u.withPhi g head x (before, value)).Shares := by
  have hre := u.rebinds_withPhi g head x (before, value)
  exact (s.withPlaced h).of_op rfl hre.standIn?_eq fun j op _ hj => (hre.op?_eq j).trans hj

/-- Where the header has no phi of the variable, merging into the loop puts one there and redirects
reads to it. -/
theorem redirectFrom_of_mergeIntoLoop (s : u.Shares) (h : u.mergeIntoLoop head x value = .ok u')
    (hnone : ∀ i, ¬ u.graph.OwnPhi head x i) : ∃ before g start,
      u.graph.resolve head x = .ok before ∧ u.graph.Places head (.phi x before value) g ∧
      IsStart (u.withPhi g head x (before, value)).graph head start ∧
      u' = redirectFrom x before u.graph.nextId start (u.withPhi g head x (before, value)) := by
  obtain ⟨own, hown, h⟩ := bind_eq_ok_iff.1 h
  cases own with
  | some phi => exact absurd ((Graph.eq_some_iff_of_ownPhi? hown phi).1 rfl) (hnone phi)
  | none =>
    obtain ⟨before, hbefore, h⟩ := bind_eq_ok_iff.1 h
    obtain ⟨⟨phi, v⟩, hinsert, h⟩ := bind_eq_ok_iff.1 h
    obtain ⟨rfl, g, hplaces, rfl⟩ := withPhi_of_insertPhi hinsert
    obtain ⟨blk, hblk, h⟩ := bind_eq_ok_iff.1 h
    obtain ⟨start, hstart, h⟩ := bind_eq_ok_iff.1 h
    rw [(shares_withPhi s hplaces).foldlM_redirectRead_eq] at h
    cases h
    refine ⟨before, g, start, hbefore, hplaces, ?_, rfl⟩
    rw [IsStart, Graph.listed, Graph.block_eq_ok_iff.1 hblk]
    exact expect_eq_ok_iff.1 hstart

/-! ## What they amount to -/

/-- The new phi finds its place between the phis of the header and the first other instruction. -/
theorem header_withPhi {g : Graph} (s : u.graph.Sequenced fun _ => False)
    (hrole : u.graph.hasRole head .loopHead = true)
    (hplaces : u.graph.Places head (.phi x before value) g)
    (hstart : IsStart (u.withPhi g head x (before, value)).graph head start) :
    ∃ phis rest, u.graph.listed head = phis ++ start :: rest ∧
      u.graph.PhisFirst phis (start :: rest) ∧
      (u.withPhi g head x (before, value)).graph.listed head =
        phis ++ u.graph.nextId :: start :: rest := by
  have hre := u.rebinds_withPhi g head x (before, value)
  obtain ⟨phis, rest, hsplit, hfirst⟩ := (s.inOrder head).header hrole
  have hlisted : (u.withPhi g head x (before, value)).graph.listed head =
      phis ++ u.graph.nextId :: rest := by
    rw [hre.listed_eq, hplaces.listed_eq, if_pos rfl, Graph.listedWith, hrole, hsplit,
      hfirst.takeWhile_eq, hfirst.dropWhile_eq]
    rfl
  have hphi : ∀ i ∈ phis ++ rest, (u.withPhi g head x (before, value)).graph.isPhi i =
      u.graph.isPhi i := fun i hi => by
    rw [← hsplit] at hi
    rw [hre.isPhi_eq, hplaces.isPhi_old (Nat.ne_of_lt (s.lt_of_listed hi))]
  have hnew : (u.withPhi g head x (before, value)).graph.isPhi u.graph.nextId = true := by
    rw [hre.isPhi_eq, Graph.isPhi_eq, hplaces.op?_new]
    rfl
  have hphis : phis.find? (fun i =>
      !(u.withPhi g head x (before, value)).graph.isPhi i) = none := by
    refine List.find?_eq_none.2 fun i hi => ?_
    rw [hphi i (List.mem_append_left _ hi), hfirst.isPhi i hi]
    decide
  rw [IsStart, hlisted, List.find?_append, hphis, Option.none_or, List.find?_cons, hnew] at hstart
  cases rest with
  | nil => cases hstart
  | cons i rest =>
    rw [List.find?_cons, hphi i (by simp), hfirst.not_isPhi i (by simp)] at hstart
    cases hstart
    exact ⟨phis, rest, hsplit, hfirst, hlisted⟩

/-- An instruction from before the phi, before and after the pass. -/
theorem op?_redirectFrom_withPhi {g : Graph} (s : u.Shares)
    (h : u.graph.Places head (.phi x before value) g) {i : InstrId} {op op' : Operation}
    (hop : u.graph.op? i = some op)
    (hop' : (redirectFrom x before u.graph.nextId start
      (u.withPhi g head x (before, value))).graph.op? i = some op') :
    ∃ op₁, (u.withPhi g head x (before, value)).graph.op? i = some op₁ ∧
      op₁.operands = op.operands ∧
      op' = if start ≤ i then op₁.redirect x before u.graph.nextId else op₁ := by
  have hre := u.rebinds_withPhi g head x (before, value)
  have hred := (shares_withPhi s h).redirected_redirectFrom x before u.graph.nextId start
  obtain ⟨op₁, hop₁, hoperands⟩ := h.operands_eq hop
  obtain ⟨op₂, hop₂, heq⟩ := hred.op?_iff.1 hop'
  have hv : (u.withPhi g head x (before, value)).graph.op? i = some op₁ :=
    (hre.op?_eq i).trans hop₁
  obtain rfl := Option.some.inj (hv.symm.trans hop₂)
  simp only [Graph.lt_nextId_of_op? hop, and_true] at heq
  exact ⟨op₁, hv, hoperands, heq⟩

/-- An instruction whose operands have changed is in the loop and read the variable. -/
theorem apart_redirectFrom_withPhi {g : Graph} (s : u.Shares)
    (h : u.graph.Places head (.phi x before value) g) {i : InstrId} {op op' : Operation}
    (hop : u.graph.op? i = some op)
    (hop' : (redirectFrom x before u.graph.nextId start
      (u.withPhi g head x (before, value))).graph.op? i = some op')
    (hne : op'.operands ≠ op.operands) :
    (redirectFrom x before u.graph.nextId start
      (u.withPhi g head x (before, value))).graph.Apart i := by
  obtain ⟨op₁, hop₁, hoperands, rfl⟩ := op?_redirectFrom_withPhi s h hop hop'
  have hstart : start ≤ i := by
    by_contra hlt
    rw [if_neg hlt] at hne
    exact hne hoperands
  rw [if_pos hstart, ← hoperands] at hne
  have hreads : op₁.reads x before = true := by
    by_contra hnot
    exact hne (by rw [Operation.redirect_eq_self (Bool.eq_false_iff.2 hnot)])
  refine (shares_withPhi s h).apart_foldl u.graph.nextId List.nodup_range' ?_ ?_
  · have hi := Graph.lt_nextId_of_op? hop
    rw [List.mem_range'_1]
    dsimp only [InstrId] at *
    omega
  · rw [hop₁]
    exact hreads

/-- Merging into a loop whose header has no phi of the variable. -/
theorem gainsPhi_of_mergeIntoLoop (hopen : u.isSettled = false) (hw : u.graph.Wired)
    (s : u.graph.Sequenced fun _ => False) (hs : u.Shares)
    (hrole : u.graph.hasRole head .loopHead = true) (hnone : ∀ i, ¬ u.graph.OwnPhi head x i)
    (h : u.mergeIntoLoop head x value = .ok u') :
    ∃ before start, u.graph.resolve head x = .ok before ∧
      u.graph.GainsPhi head x before value start u'.graph ∧
      ∀ i op op', u.graph.op? i = some op → u'.graph.op? i = some op' →
        op'.operands ≠ op.operands → u'.graph.Apart i := by
  have hworks : Works (fun _ => True) u u' := mergeIntoLoop_works h
  have hkeeps : u.graph.Keeps u'.graph := (hworks.develops hopen hw).2.keeps
  obtain ⟨before, g, start, hbefore, hplaces, hstart, rfl⟩ :=
    redirectFrom_of_mergeIntoLoop hs h hnone
  refine ⟨before, start, hbefore, ?_, fun i op op' => apart_redirectFrom_withPhi hs hplaces⟩
  obtain ⟨phis, rest, hsplit, hfirst, hlisted⟩ := header_withPhi s hrole hplaces hstart
  have hlt : head < g.blocks.size := by
    rw [hplaces.skeleton.lt_size_iff]
    by_contra hle
    rw [Graph.hasRole_eq_false_of_size_le (Nat.le_of_not_lt hle)] at hrole
    cases hrole
  have hre := u.rebinds_withPhi g head x (before, value)
  have hred := (shares_withPhi hs hplaces).redirected_redirectFrom x before u.graph.nextId start
  refine {
    skeleton := (hplaces.skeleton.trans hre.skeleton).trans hred.shape.skeleton
    nextId_eq := hred.shape.nextId_eq.trans (hre.nextId_eq.trans hplaces.nextId_eq)
    op?_new := hred.op?_iff.2 ⟨_, (hre.op?_eq _).trans hplaces.op?_new, ?_⟩
    home?_new := (hred.shape.home?_eq _).trans ((hre.home?_eq _).trans ?_)
    header := ⟨phis, rest, hsplit, hfirst.isPhi, hfirst.not_isPhi,
      (hred.shape.listed_eq head).trans hlisted⟩
    listed_eq := fun b hb => (hred.shape.listed_eq b).trans ((hre.listed_eq b).trans ?_)
    binding_eq := fun b y => (hred.shape.binding_eq b y).trans
      ((Graph.binding_bindIn hlt x _ b y).trans ?_)
    keeps := hkeeps
    operands_eq := fun i op op' hop hop' => ?_ }
  · rw [if_neg fun hlt => Nat.lt_irrefl _ hlt.2]
  · rw [hplaces.home?_eq, if_pos rfl]
  · rw [hplaces.listed_eq, if_neg hb]
  · rw [hplaces.binding_eq]
  · obtain ⟨op₁, -, hoperands, rfl⟩ := op?_redirectFrom_withPhi hs hplaces hop hop'
    rw [← hoperands]
    split
    · exact Operation.operands_mapOperands _ op₁
    · rfl

/-- **The first assignment to a variable at the end of a loop body** puts a phi of the variable into
the header, in any construction.  Every read of its old value through the variable in the loop
becomes a read of the phi, no other operand changes, and nothing is shared any longer with an
instruction whose operands have changed. -/
theorem assign_gains_phi {options : Options} (h : Reachable options u) {blk : Block}
    (hassign : u.assign x value = .ok u') (hblk : u.graph.block? u.current = some blk)
    (hregion : u.graph.region blk = .loopBody head)
    (hnone : ∀ i, ¬ (u.graph.bindIn u.current x value).OwnPhi head x i) :
    ∃ before start, (u.graph.bindIn u.current x value).resolve head x = .ok before ∧
      (u.graph.bindIn u.current x value).GainsPhi head x before value start u'.graph ∧
      ∀ i op op', u.graph.op? i = some op → u'.graph.op? i = some op' →
        op'.operands ≠ op.operands → u'.graph.Apart i ∧ u'.dependents.get? i = none := by
  have hworks : Works (fun _ => True) u u' := assign_works hassign
  have hs' : u'.Shares := hworks.effects.shares h.shares
  obtain ⟨w, hrequire, hrest⟩ := bind_eq_ok_iff.1 hassign
  have hopen := isSettled_of_requireOpen hrequire
  -- the body in which the variable is bound already
  let v : Body := { u with graph := u.graph.bindIn u.current x value }
  have hre : u.graph.Rebinds u.current v.graph := Graph.rebinds_bindIn _ _ _ _
  have hs : v.Shares := h.shares.of_op rfl hre.standIn?_eq fun j op _ hj => (hre.op?_eq j).trans hj
  have hseq : v.graph.Sequenced fun _ => False :=
    ((sequenced_iff_of_open hopen).1 h.sequenced).reworks (.of_rebinds hre)
  have hmerge : v.mergeIntoLoop head x value = .ok u' := by
    obtain ⟨-, -, hrest⟩ := bind_eq_ok_iff.1 hrest
    obtain ⟨blk', hblk', hmerge⟩ := bind_eq_ok_iff.1 hrest
    have hbound : v.graph.block? u.current = some (blk.bind x value) := by
      change (u.graph.modifyBlock u.current _).block? u.current = _
      rw [Graph.block?_modifyBlock, if_pos rfl, hblk, Option.map_some]
    obtain rfl := Option.some.inj (hbound.symm.trans (Graph.block_eq_ok_iff.1 hblk'))
    have hregion' : v.graph.region (blk.bind x value) = .loopBody head :=
      (hre.skeleton.region_eq rfl).trans hregion
    have hmerge : v.merge (v.graph.region (blk.bind x value)) x value = .ok u' := hmerge
    rwa [hregion'] at hmerge
  have hrole : v.graph.hasRole head .loopHead = true :=
    (hre.skeleton.hasRole_eq _ _).trans (Graph.hasRole_of_region hregion)
  obtain ⟨before, start, hbefore, hgains, hapart⟩ := gainsPhi_of_mergeIntoLoop (u := v)
    hopen (h.wired.of_sameSkeleton hre.skeleton) hseq hs hrole hnone hmerge
  refine ⟨before, start, hbefore, hgains, fun i op op' hop hop' hne => ?_⟩
  have hi := hapart i op op' ((hre.op?_eq i).trans hop) hop' hne
  exact ⟨hi, hs'.books.get?_eq_none hi.alone⟩

/-- In a loop the same sum is added three times, read through three variables, so that each stands
in for the next.  The first variable is assigned after that. -/
def sharedSums : List Command := loopSums.dropLast

theorem exists_sharedSums : ∃ u u' blk, Reachable {} u ∧ u.assign 0 (some 4) = .ok u' ∧
    u.graph.block? u.current = some blk ∧ u.graph.region blk = .loopBody 2 ∧
    (u.graph.bindIn u.current 0 (some 4)).binding 2 0 = none ∧
    u.graph.standIn? 5 = some 4 ∧ u.graph.standIn? 6 = some 5 ∧
    u'.graph.op? 4 = some (.binary (.arith .add) (.through 0 (some 7)) (.through 0 (some 7))) := by
  have h : ((start {}).execAll sharedSums).toOption.any (fun u =>
      (u.assign 0 (some 4)).toOption.any fun u' => (u.graph.block? u.current).any fun blk =>
        u.graph.region blk = .loopBody 2 ∧
        (u.graph.bindIn u.current 0 (some 4)).binding 2 0 = none ∧
        u.graph.standIn? 5 = some 4 ∧ u.graph.standIn? 6 = some 5 ∧
        u'.graph.op? 4 =
          some (.binary (.arith .add) (.through 0 (some 7)) (.through 0 (some 7)))) = true := by
    decide +kernel
  obtain ⟨u, hu, h⟩ := exists_ok_of_any h
  obtain ⟨u', hu', h⟩ := exists_ok_of_any h
  obtain ⟨blk, hblk, h⟩ := (Option.any_eq_true _ _).1 h
  exact ⟨u, u', blk, ⟨_, hu⟩, hu', hblk, of_decide_eq_true h⟩

theorem assign_gains_phi_sharedSums : ∃ u u' blk, Reachable {} u ∧
    u.assign 0 (some 4) = .ok u' ∧ u.graph.block? u.current = some blk ∧
    u.graph.region blk = .loopBody 2 ∧
    (∀ i, ¬ (u.graph.bindIn u.current 0 (some 4)).OwnPhi 2 0 i) ∧
    u.graph.standIn? 5 = some 4 ∧ u.graph.standIn? 6 = some 5 ∧
    u'.graph.op? 4 = some (.binary (.arith .add) (.through 0 (some 7)) (.through 0 (some 7))) ∧
    ∃ before start, (u.graph.bindIn u.current 0 (some 4)).resolve 2 0 = .ok before ∧
      (u.graph.bindIn u.current 0 (some 4)).GainsPhi 2 0 before (some 4) start u'.graph ∧
      ∀ i op op', u.graph.op? i = some op → u'.graph.op? i = some op' →
        op'.operands ≠ op.operands → u'.graph.Apart i ∧ u'.dependents.get? i = none := by
  obtain ⟨u, u', blk, hu, hassign, hblk, hregion, hfree, h5, h6, h4⟩ := exists_sharedSums
  have hnone : ∀ i, ¬ (u.graph.bindIn u.current 0 (some 4)).OwnPhi 2 0 i := fun i hi => by
    rw [Graph.OwnPhi, hfree] at hi
    cases hi.1
  exact ⟨u, u', blk, hu, hassign, hblk, hregion, hnone, h5, h6, h4,
    assign_gains_phi hu hassign hblk hregion hnone⟩

end Body

end StructuredSSA
