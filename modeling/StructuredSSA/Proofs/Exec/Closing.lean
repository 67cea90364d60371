import StructuredSSA.Proofs.Body.Entries
import StructuredSSA.Proofs.Exec.Tracks

/-!
# Executing the phis of a construct

When a construct is closed, its phis say what its variables mean at the end of each side.  Loops
around it may still get phis of their own, and then they say what has become of this.  So control
that comes from one of the sides gives each variable the value that it has there.

A construct is looked at in three states: `u`, when its last side has been built, `v`, when it has
been closed, and `U`, the finished body.  From `u` to `v` its phis are carried to the construct
around; from `v` to `U` they change with the loops around and in no other way, and the blocks that
lie behind have got all that they hold.  `Closing` holds the three together, so that each fact about
the finished graph can be asked for by what was there before the construct was closed.

## What is here

* `Frame.brings` — what a side of a construct brings, and `Frame.selected` what a variable has
  become behind its phis.
* `Closing` — a construct is closed.
* `Closing.op?_phi` — what its phis read in the end.
* `Closing.fate_tail` — what becomes of the variables behind the construct.
* `Closing.enters` — **control comes from one of the sides**, and all phis are executed at once.
* `Closing.next_tail`, `plain_tail`, `arrives` — the end of the side that was built last: where it
  leads, what it holds, and which side its edge belongs to.

Ifs and loops use the same lemmas.  What they do not share is in `Proofs.Exec.Ifs` and
`Proofs.Exec.Loops`: how control gets to the sides, and that it comes back.
-/

set_option autoImplicit false

namespace StructuredSSA

/-- What a side of the construct brings, if the variables mean `σ` at the end of the side being
built. -/
def Frame.brings (f : Frame) (g : Graph) (σ : Var → Option InstrId) (side : Side) (x : Var) :
    Option InstrId :=
  if side = f.side then σ x else f.other g x

/-- What becomes of a variable at the phis of the construct, which is in the loops `ls` and was
closed in `g₀`. -/
def Frame.selected (f : Frame) (g g₀ : Graph) (ls : List Frame) (x : Var) : Option InstrId :=
  (g.phi? f.phiBlock x).or (g.fate g₀ ls x (f.before x))

/-- In a loop that has no phis yet, a variable from before the loop becomes what will have become of
it at the phis. -/
theorem Frame.fate_cons_selected {f : Frame} (hpart : f.part = .loopBody) {g g₀ g₁ : Graph}
    {ls : List Frame} (hsame : Graph.SameRenewals ls g₀ g₁) {x : Var}
    (hnone : ¬ g₁.HasPhi f.test x) :
    g.fate g₁ (f :: ls) x (f.before x) = f.selected g g₀ ls x := by
  rw [Graph.fate_cons_before hnone, Frame.selected, Frame.phiBlock_eq_test hpart,
    Graph.fate_since fun f' hf' => hsame f' hf' x]

/-- The edge from the end of the side being built to the phis. -/
def Frame.back (f : Frame) : Edge := if f.part = .loopBody then .branch else .fall

theorem Frame.exit_eq (f : Frame) (e : Edge) :
    f.exit e = if e = f.back then some f.phiBlock else none := by
  cases hpart : f.part <;> cases e <;> simp [exit, back, phiBlock, hpart]

/-- The two edges into a block belong to different sides. -/
theorem Graph.arrivesFirst_fall (blk : Block) :
    arrivesFirst blk .fall = !arrivesFirst blk .branch := by
  rw [arrivesFirst, arrivesFirst]
  split
  · rfl
  · split <;> rfl

/-- No construct has its phis at the tail. -/
theorem Layout.closed_tail {g : Graph} {w : Site} (l : Layout g w) : w.Closed w.tail where
  reached := List.mem_cons_self
  closed f hf heq := by
    rcases Closable.phiBlock_mem l hf with h | h
    · exact l.tail_not_passed (heq ▸ h)
    · exact l.tail_not_target (heq ▸ h)

/-- The tail is not the test of an open construct. -/
theorem Layout.test_ne_tail {g : Graph} {w : Site} (l : Layout g w) {f : Frame}
    (hf : f ∈ w.frames) : f.test ≠ w.tail := fun heq =>
  l.tail_not_passed (heq ▸ l.behind f hf _ (Layout.test_mem_behind f))

/-- Nor the end of a then side that has been left. -/
theorem Layout.elseSide_ne_tail {g : Graph} {w : Site} (l : Layout g w) {f : Frame}
    (hf : f ∈ w.frames) : f.part ≠ .elseSide w.tail := fun hpart =>
  l.tail_not_passed (l.behind f hf _ (by simp [Frame.behind, hpart]))

/-- **The innermost construct `f` is closed**: this takes `u` to `v`. -/
structure Closing (w : Site) (f : Frame) (u v : Body) (wE : Site) (U : Body) : Prop where
  before : Leads w u wE U
  after : Leads w.pop v wE U
  frames_eq : w.frames = f :: w.pop.frames
  tested : ∀ f' ∈ w.pop.frames, u.graph.HasBranch f'.test
  carried : ∃ u₀ u', u₀.graph = u.graph ∧ Built w.pop u₀ ∧
    u₀.Carries w.pop f.phiBlock f.test u' ∧ v.graph = u'.graph

namespace Closing

variable {w wE : Site} {f : Frame} {u v U : Body} {x : Var} {i : InstrId}

theorem mem_frames (c : Closing w f u v wE U) : f ∈ w.frames := by
  rw [c.frames_eq]
  exact List.mem_cons_self

theorem mem_frames_of_pop (c : Closing w f u v wE U) {f' : Frame} (hf' : f' ∈ w.pop.frames) :
    f' ∈ w.frames := by
  rw [c.frames_eq]
  exact List.mem_cons_of_mem _ hf'

theorem loops_eq (c : Closing w f u v wE U) (hpart : f.part = .loopBody) :
    w.loops = f :: w.pop.loops :=
  Site.loops_cons c.frames_eq hpart

theorem loops_eq_pop (c : Closing w f u v wE U) (hpart : f.part ≠ .loopBody) :
    w.loops = w.pop.loops :=
  Site.loops_cons_of_ne c.frames_eq hpart

theorem sealed (c : Closing w f u v wE U) : Sealed v.graph w.pop f.phiBlock ∧
    ∀ x i, v.graph.PhiOf f.phiBlock x i ↔ u.graph.PhiOf f.phiBlock x i := by
  obtain ⟨u₀, u', hgraph, hleft, hcarries, hv⟩ := c.carried
  have hs : Sealed u₀.graph w.pop f.phiBlock := by
    rw [hgraph]
    exact .of_pop c.before.orderly.built.layout c.frames_eq
  rw [hv, ← hgraph]
  exact hs.carries hleft hcarries

/-- The phis of the construct stay as they are. -/
theorem phiOf_iff (c : Closing w f u v wE U) :
    U.graph.PhiOf f.phiBlock x i ↔ u.graph.PhiOf f.phiBlock x i := by
  obtain ⟨hsealed, hphis⟩ := c.sealed
  rw [← hphis]
  exact (c.after.proceeds.filled ⟨hsealed.closed, fun h => .inl (hsealed.entered h)⟩).2 x i

/-- Its sides come from where they came from. -/
theorem entry_eq (c : Closing w f u v wE U) (side : Side) :
    U.graph.entry side f.phiBlock = u.graph.entry side f.phiBlock := by
  obtain ⟨u₀, u', hgraph, hleft, hcarries, hv⟩ := c.carried
  rw [(c.after.proceeds.entered c.sealed.1).2 side, hv,
    (hleft.skeleton_carries hcarries).entry_eq, hgraph]

theorem mem_loops (c : Closing w f u v wE U) {f' : Frame} (hf' : f' ∈ w.pop.loops) :
    f' ∈ w.frames ∧ f' ∈ w.pop.frames ∧ f'.part = .loopBody := by
  obtain ⟨hframes, hpart⟩ := Site.mem_loops.1 hf'
  exact ⟨c.mem_frames_of_pop hframes, hframes, hpart⟩

theorem start_le (c : Closing w f u v wE U) {f' : Frame} (hf' : f' ∈ w.pop.loops) :
    f'.start ≤ f.start := by
  have hnested := c.before.orderly.numbered.nested
  rw [c.frames_eq] at hnested
  exact ((List.pairwise_cons.1 hnested).1 f' (c.mem_loops hf').2.1).1

theorem own_ge (c : Closing w f u v wE U) (hi : u.graph.PhiOf f.phiBlock x i) : f.start ≤ i :=
  c.before.orderly.numbered.own_ge f c.mem_frames i
    ((c.before.orderly.built.contents.mem_listed _ _).1 hi.1)

/-- The operation of a phi, by what the sides bring. -/
def phi (f : Frame) (g : Graph) (σ : Var → Option InstrId) (x : Var) : Operation :=
  .phi x (f.brings g σ .first x) (f.brings g σ .second x)

theorem op?_before (c : Closing w f u v wE U) (hi : u.graph.PhiOf f.phiBlock x i) :
    u.graph.op? i = some (phi f u.graph (u.graph.meaning w.tail) x) := by
  have hlevels := c.before.orderly.levelled.levels
  rw [c.frames_eq] at hlevels
  rw [hlevels.1.own x i ((c.before.orderly.built.phiOf_iff_ownPhi c.mem_frames).1 hi), phi,
    Frame.brings, Frame.brings, Frame.side, Frame.operands]
  cases f.part <;> rfl

/-- **What the phis of a closed construct read in the end.** -/
theorem op?_phi (c : Closing w f u v wE U) (hi : u.graph.PhiOf f.phiBlock x i) :
    U.graph.op? i =
      some ((phi f u.graph (u.graph.meaning w.tail) x).fated U.graph u.graph w.pop.loops) := by
  obtain ⟨u₀, u', hgraph, hleft, hcarries, hv⟩ := c.carried
  have o := c.before.orderly
  have hhome := (o.built.contents.mem_listed _ _).1 hi.1
  have hprecedes : w.pop.Precedes := fun f' hf' => o.precedes f' (c.mem_frames_of_pop hf')
  have hstands : Stands u.graph u.graph w.pop w.pop.loops i
      (phi f u.graph (u.graph.meaning w.tail) x) :=
    { around := .start o.built.layout.pop o.numbered.pop hprecedes
        (fun f' hf' => Nat.le_trans (c.start_le hf') (c.own_ge hi))
        (Graph.lt_nextId_of_home? hhome)
      op_eq := by
        rw [Operation.fated_eq_self (.of_samePhis (.refl _))]
        exact c.op?_before hi
      isBranch := rfl
      begun := .inl rfl
      housed := fun _ => ⟨f.phiBlock, hhome, .of_pop o.built.layout c.frames_eq⟩
      gained := fun _ _ _ h => h
      waits := List.pairwise_of_forall fun _ _ _ _ h => h }
  have hlevels := o.levelled.levels
  rw [c.frames_eq] at hlevels
  rw [← hgraph] at hstands hlevels
  have hcarried := hstands.carries hleft (hgraph ▸ o.numbered.pop) (hgraph ▸ o.phis.pop)
    (hgraph ▸ c.tested) hlevels.2 hcarries
  rw [← hv, hgraph] at hcarried
  exact (hcarried.proceeds c.after.proceeds).op_eq

theorem phiOperand?_eq (c : Closing w f u v wE U) (hi : U.graph.PhiOf f.phiBlock x i)
    (side : Side) : U.graph.phiOperand? i side =
      some ((Operand.through x (f.brings u.graph (u.graph.meaning w.tail) side x)).fated U.graph
        u.graph w.pop.loops) := by
  rw [Graph.phiOperand?, c.op?_phi (c.phiOf_iff.1 hi)]
  cases side <;> rfl

/-! ## What becomes of the variables -/

theorem pop_tail (c : Closing w f u v wE U) : w.pop.tail = f.target := by
  rw [Site.pop, c.frames_eq]

/-- The phis of the construct are carried to the construct around it. -/
theorem hasPhi_iff (c : Closing w f u v wE U) (d : BlockId) : v.graph.HasPhi d x ↔
    u.graph.HasPhi d x ∨ w.pop.phiBlock? = some d ∧ u.graph.HasPhi f.phiBlock x := by
  obtain ⟨u₀, u', hgraph, hleft, hcarries, hv⟩ := c.carried
  have b := c.before.orderly.built
  have hne : w.pop.phiBlock? ≠ some f.phiBlock := fun heq => by
    rw [Site.phiBlock?] at heq
    obtain ⟨f', hf', heq⟩ := Option.map_eq_some_iff.1 heq
    exact b.layout.phiBlock_ne c.frames_eq (List.mem_of_mem_head? hf') heq
  rw [hv, ← hgraph]
  exact hleft.hasPhi_carries hne (hgraph ▸ b.closable.phi_bound f c.mem_frames) hcarries d x

/-- Behind the construct, a variable means what has become of it at the phis. -/
theorem fate_tail (c : Closing w f u v wE U) (x : Var) :
    U.graph.fate v.graph w.pop.loops x (v.graph.meaning w.pop.tail x) =
      f.selected U.graph u.graph w.pop.loops x := by
  obtain ⟨u₀, u', hgraph, hleft, hcarries, hv⟩ := c.carried
  have o := c.before.orderly
  have hmeaning := o.levelled.meaning_close o.built o.numbered c.frames_eq hgraph hleft c.tested
    hcarries x
  rw [← hv, ← c.pop_tail] at hmeaning
  rw [hmeaning, c.pop_tail, Frame.selected]
  obtain ⟨hown, hkept⟩ := o.levelled.meaning_target o.built.layout c.frames_eq x
  cases hphi : U.graph.phi? f.phiBlock x with
  | some i =>
    -- a phi of the construct is newer than what was there before the loops around
    have hi := c.phiOf_iff.1 (Graph.phiOf_of_phi? hphi)
    rw [hown i ((o.built.phiOf_iff_ownPhi c.mem_frames).1 hi)]
    refine Graph.fate_eq_self fun f' hf' hbefore => ?_
    have hlt := o.precedes f' (c.mem_loops hf').1 x i hbefore.symm
    exact absurd (Nat.le_trans (c.start_le hf') (c.own_ge hi)) (Nat.not_le.2 hlt)
  | none =>
    -- without a phi of the construct, the loops around get none
    have hnone : ¬ u.graph.HasPhi f.phiBlock x := by
      rintro ⟨i, hi⟩
      exact Graph.phi?_eq_none_iff.1 hphi ⟨i, c.phiOf_iff.2 hi⟩
    rw [hkept fun i hi => hnone ⟨i, (o.built.phiOf_iff_ownPhi c.mem_frames).2 hi⟩]
    exact Graph.fate_since fun f' _ => (c.hasPhi_iff f'.test).trans
      (or_iff_left fun h => hnone h.2)

/-- The end of a loop brings to its phis what the variables have there. -/
theorem agrees_loop (c : Closing w f u v wE U) (hpart : f.part = .loopBody)
    {st : Store} {m : Machine}
    (h : Agrees U.graph u.graph w.loops (u.graph.meaning w.tail) st m) :
    Agrees U.graph u.graph w.pop.loops (f.brings u.graph (u.graph.meaning w.tail) .second) st
      m := by
  refine h.congr fun x => ?_
  have hside : f.side = .second := by rw [Frame.side, hpart]
  rw [Frame.brings, if_pos hside.symm, c.loops_eq hpart, Graph.fate_cons,
    Graph.replacement?_eq_none, Option.none_or]
  rintro - ⟨i, hi⟩
  rw [← Frame.phiBlock_eq_test hpart] at hi ⊢
  exact ⟨i, c.phiOf_iff.1 hi⟩

/-! ## Entering -/

/-- Where the construct has no phi, its sides bring what was there before. -/
theorem brings_eq (c : Closing w f u v wE U) (hnone : ¬ U.graph.HasPhi f.phiBlock x) (side : Side) :
    f.brings u.graph (u.graph.meaning w.tail) side x = f.before x := by
  have hlevels := c.before.orderly.levelled.levels
  rw [c.frames_eq] at hlevels
  obtain ⟨hσ, hother, -⟩ := hlevels.1.kept x fun i hi => hnone
    ⟨i, c.phiOf_iff.2 ((c.before.orderly.built.phiOf_iff_ownPhi c.mem_frames).2 hi)⟩
  rw [Frame.brings]
  split
  · exact hσ
  · exact hother

/-- What becomes of a variable from before the construct is none of its phis. -/
theorem not_phi_of_fate (c : Closing w f u v wE U) {j : InstrId}
    (hj : U.graph.fate u.graph w.pop.loops x (f.before x) = some j) :
    ¬ (j ∈ U.graph.listed f.phiBlock ∧ U.graph.isPhi j = true) := by
  rintro ⟨hlisted, hphi⟩
  have hc := c.after.finished.built.contents
  obtain ⟨y, hy⟩ := hc.exists_phiOf hlisted hphi
  rcases U.graph.fate_cases u.graph w.pop.loops x (f.before x) with heq | ⟨f', hf', k, hk, heq⟩
  · rw [heq] at hj
    exact Nat.not_lt.2 (c.own_ge (c.phiOf_iff.1 hy))
      (c.before.orderly.precedes f c.mem_frames x j hj)
  · obtain rfl : k = j := Option.some.inj (heq.symm.trans hj)
    obtain ⟨-, hpop, hpart⟩ := c.mem_loops hf'
    refine c.before.orderly.built.layout.phiBlock_ne c.frames_eq hpop ?_
    have hhome := (hc.mem_listed _ _).1 (Graph.phiOf_of_phi? hk).1
    rw [Frame.phiBlock_eq_test hpart]
    exact Option.some.inj (hhome.symm.trans ((hc.mem_listed _ _).1 hlisted))

/-- **Control comes from one of the sides** and gives each variable the value that it has there. -/
theorem enters (c : Closing w f u v wE U) (input : Nat → Int64) {e : Edge}
    {side : Side} {blk : Block} (hblk : U.graph.block? f.phiBlock = some blk)
    (hside : Graph.arrivesFirst blk e = true ↔ side = .first) {st : Store} {m : Machine}
    (hagrees : Agrees U.graph u.graph w.pop.loops
      (f.brings u.graph (u.graph.meaning w.tail) side) st m)
    (hdefined : ∀ x, U.graph.HasPhi f.phiBlock x → (st.values x).isSome = true) :
    ∃ m', U.graph.Goes input (.entering f.phiBlock e, m)
        (.inside f.phiBlock (U.graph.plain f.phiBlock), m') ∧
      ∀ g₁ ls σ, (∀ x, U.graph.fate g₁ ls x (σ x) = f.selected U.graph u.graph w.pop.loops x) →
        Agrees U.graph g₁ ls σ st m' := by
  have hc := c.after.finished.built.contents
  have hread : ∀ x i, U.graph.PhiOf f.phiBlock x i → ∀ a, st.values x = some a →
      (U.graph.phiOperand? i side).bind m.read = some a := by
    intro x i hi a ha
    rw [c.phiOperand?_eq hi]
    exact hagrees.vars x a ha
  refine ⟨U.graph.selected f.phiBlock side m, .single (Graph.moves_enter hc hblk hside ?_),
    fun g₁ ls σ hσ => ⟨hagrees.taken, hagrees.written, ?_, ?_⟩⟩
  · intro i hi hphi
    obtain ⟨x, hx⟩ := hc.exists_phiOf hi hphi
    obtain ⟨a, ha⟩ := Option.isSome_iff_exists.1 (hdefined x ⟨i, hx⟩)
    rw [hread x i hx a ha]
    rfl
  · intro i v hop hhome
    rw [← hagrees.consts i v hop hhome]
    refine if_neg fun hphi => ?_
    rw [Graph.isPhi_eq, hop] at hphi
    cases hphi.2
  · intro x a ha
    change (U.graph.fate g₁ ls x (σ x)).bind _ = some a
    rw [hσ x, Frame.selected]
    cases hphi : U.graph.phi? f.phiBlock x with
    | some i =>
      have hi := Graph.phiOf_of_phi? hphi
      exact (if_pos ⟨hi.1, hi.isPhi⟩).trans (hread x i hi a ha)
    | none =>
      have hvar := hagrees.vars x a ha
      rw [c.brings_eq (Graph.phi?_eq_none_iff.1 hphi) side] at hvar
      change (U.graph.fate u.graph w.pop.loops x (f.before x)).bind _ = some a at hvar
      cases hfate : U.graph.fate u.graph w.pop.loops x (f.before x) with
      | none =>
        rw [hfate] at hvar
        cases hvar
      | some j =>
        rw [hfate] at hvar
        exact (if_neg (c.not_phi_of_fate hfate)).trans hvar

/-! ## The end of the side being built -/

theorem tail_passed (c : Closing w f u v wE U) : w.tail ∈ w.pop.passed := by
  rw [Site.pop, c.frames_eq]
  exact List.mem_append_right _ (List.mem_singleton_self _)

theorem skeleton (c : Closing w f u v wE U) : u.graph.SameSkeleton v.graph := by
  obtain ⟨u₀, u', hgraph, hleft, hcarries, hv⟩ := c.carried
  rw [hv, ← hgraph]
  exact hleft.skeleton_carries hcarries

/-- Closing a construct adds nothing but phis. -/
theorem plain_eq (c : Closing w f u v wE U) (b : BlockId) :
    v.graph.plain b = u.graph.plain b := by
  obtain ⟨u₀, u', hgraph, hleft, hcarries, hv⟩ := c.carried
  rw [hv, ← hgraph]
  exact hleft.plain_carries hcarries b

/-- The phis of a block where no construct has its phis stay as they are. -/
theorem hasPhi_of_closed (c : Closing w f u v wE U) {b : BlockId} (hclosed : w.pop.Closed b)
    (h : v.graph.HasPhi b x) : u.graph.HasPhi b x := by
  obtain ⟨u₀, u', hgraph, hleft, hcarries, hv⟩ := c.carried
  obtain ⟨i, hi⟩ := h
  rw [hv] at hi
  rw [← hgraph]
  exact ⟨i, (hclosed.phiOf_carries hleft hcarries x i).1 hi⟩

/-- The end of the side leads to the phis. -/
theorem next_tail (c : Closing w f u v wE U) (e : Edge) : U.graph.next e w.tail = f.exit e := by
  have l := c.before.orderly.built.layout
  have hsteady : w.pop.Steady e w.tail :=
    ⟨c.tail_passed, fun _ f' hf' _ => l.test_ne_tail (c.mem_frames_of_pop hf')⟩
  rw [(c.after.proceeds.steady hsteady).2, c.skeleton.next_eq, l.next_tail, c.frames_eq]
  rfl

/-- The test leads where it led. -/
theorem next_test (c : Closing w f u v wE U) (e : Edge) :
    U.graph.next e f.test = u.graph.next e f.test := by
  have l := c.before.orderly.built.layout
  have hpassed : f.test ∈ w.pop.passed := by
    rw [Site.pop, c.frames_eq]
    exact List.mem_append_left _ (l.behind f c.mem_frames _ (Layout.test_mem_behind f))
  have hnested := l.nested
  rw [c.frames_eq, List.pairwise_cons] at hnested
  have hsteady : w.pop.Steady e f.test := ⟨hpassed, fun _ f' hf' _ =>
    l.ne_of_sublist (hnested.1 f' hf' _ (Layout.test_mem_behind f'))⟩
  rw [(c.after.proceeds.steady hsteady).2]
  exact c.skeleton.next_eq e f.test

/-- Only a jump may have been added to the end of the side. -/
theorem plain_tail (c : Closing w f u v wE U) :
    U.graph.plain w.tail = u.graph.plain w.tail := by
  have l := c.before.orderly.built.layout
  rw [← c.plain_eq]
  refine c.after.plain_eq ⟨c.tail_passed, c.before.orderly.numbered.tail_ne_head l, ?_⟩ (.inr ?_)
  · exact fun f' hf' heq => absurd heq (l.test_ne_tail (c.mem_frames_of_pop hf'))
  · exact fun f' hf' => l.elseSide_ne_tail (c.mem_frames_of_pop hf')

theorem closed_pop_tail (c : Closing w f u v wE U) : w.pop.Closed w.tail where
  reached := List.mem_cons_of_mem _ c.tail_passed
  closed f' hf' := c.before.orderly.built.layout.closed_tail.closed f' (c.mem_frames_of_pop hf')

/-- The end of the side has no phis if it had none. -/
theorem not_isPhi_tail (c : Closing w f u v wE U) (hnone : ∀ x, ¬ u.graph.HasPhi w.tail x) :
    ∀ i ∈ U.graph.listed w.tail, U.graph.isPhi i = false :=
  c.after.not_isPhi_of_passed c.tail_passed c.closed_pop_tail fun x hx =>
    hnone x (c.hasPhi_of_closed c.closed_pop_tail hx)

/-- The edge from the end of the side belongs to the side. -/
theorem arrives (c : Closing w f u v wE U) {blk : Block}
    (hblk : U.graph.block? f.phiBlock = some blk) :
    Graph.arrivesFirst blk f.back = true ↔ f.side = .first := by
  have hentry : U.graph.entry f.side f.phiBlock = some w.tail := by
    rw [c.entry_eq]
    exact c.before.orderly.levelled.bare.entry_side c.before.orderly.built.layout c.frames_eq
  obtain ⟨e, hside, hprev⟩ := (Graph.entry_eq_some_iff hblk f.side).1 hentry
  have hnext := (c.after.finished.built.layout.linked _ _ _).2 hprev
  rw [c.next_tail, f.exit_eq] at hnext
  split at hnext
  · rename_i he
    rw [← he]
    exact hside
  · cases hnext

/-- The other edge belongs to the other side. -/
theorem arrives_other (c : Closing w f u v wE U) {blk : Block}
    (hblk : U.graph.block? f.phiBlock = some blk) {e : Edge} (he : e ≠ f.back) {side : Side}
    (hside : side ≠ f.side) : Graph.arrivesFirst blk e = true ↔ side = .first := by
  have hback := c.arrives hblk
  have hfall := Graph.arrivesFirst_fall blk
  cases e <;> cases hb : f.back <;> cases hs : f.side <;> cases side <;> simp_all

end Closing
end StructuredSSA
