import StructuredSSA.Proofs.Body.Numbered

/-!
# Phis of open constructs

While a construct is open, its phis say at all times what its variables will mean behind it: the
side that is being built brings what the variable means at its end, and the other side what it meant
there.  Where the construct has no phi of a variable, the variable still means what it meant before.
The constructs around it wait: for them, the variables mean what they meant when the inner construct
was opened.

So the invariant is a recursion over the open constructs.  `Levels g σ (f :: fs)` says of `f` that
it has been merged with the present meaning `σ`, and of `fs` the same with `f.before`.  An
assignment changes `σ` and the phis of the innermost construct only, so it needs `Frame.Merged` for
one frame, and `Frame.SameView` for those around: these do not see the change.  Opening a construct
puts a frame in front of which nothing is to be said yet.  Closing one is where the levels meet: its
phis are merged one by one into the construct around, and after each of them the outer levels are
right for the variables that have been carried so far.

## What is here

* `Frame.Merged`, `Levels` — the invariant.
* `Bare` — what the blocks behind open constructs hold, without which a look-up from there could
  find something else.
* `Frame.SameView` — what a construct sees of the graph.
* `Built.levels_merges`, `Built.levels_carriesEach` — merging a value, and carrying all phis of a
  construct.
* `Levelled.meaning_assign`, `meaning_elseSide`, `meaning_target`, `meaning_close` — what the
  variables mean after each kind of step.
* `Levelled.shift`, `Levelled.run` — every step keeps the invariant.

Nothing is said about what reads a variable: which operands a loop phi takes over is the subject of
`Proofs.Body.LoopPhi` and `Proofs.Body.Fate`.
-/

set_option autoImplicit false

namespace StructuredSSA

/-- What the side of the construct that is not being built brings. -/
def Frame.other (g : Graph) (f : Frame) (x : Var) : Option InstrId :=
  match f.part with
  | .elseSide tt => g.meaning tt x
  | _ => f.before x

/-- The phis of the construct, if the variables mean `σ` at the end of the side being built. -/
structure Frame.Merged (g : Graph) (σ : Var → Option InstrId) (f : Frame) : Prop where
  own : ∀ x i, g.OwnPhi f.phiBlock x i → g.op? i =
    some (.phi x (f.operands (f.other g x) (σ x)).1 (f.operands (f.other g x) (σ x)).2)
  /-- A variable without a phi means what it meant before. -/
  kept : ∀ x, (∀ i, ¬ g.OwnPhi f.phiBlock x i) →
    σ x = f.before x ∧ f.other g x = f.before x ∧ g.meaning f.test x = f.before x
  test : f.part ≠ .loopBody → ∀ x, g.meaning f.test x = f.before x

/-- **The phis of all open constructs.** -/
def Levels (g : Graph) : (Var → Option InstrId) → List Frame → Prop
  | _, [] => True
  | σ, f :: fs => f.Merged g σ ∧ Levels g f.before fs

/-- The blocks behind open constructs hold nothing but phis: joins bind what they have phis of, and
loop exits bind nothing. -/
structure Bare (g : Graph) (w : Site) : Prop where
  bound : ∀ f ∈ w.frames, ∀ x v, g.binding f.target x = some v →
    f.part ≠ .loopBody ∧ ∃ i, v = some i ∧ g.OwnPhi f.target x i
  role : ∀ f ∈ w.frames, g.hasRole f.target .elseSide = false ∧
    (g.hasRole f.target .loopExit = true ↔ f.part = .loopBody)
  distinct : ∀ f ∈ w.frames, ∀ tt, f.part = .elseSide tt → tt ≠ f.test

/-- The invariant of the phis of open constructs. -/
structure Levelled (g : Graph) (w : Site) : Prop where
  levels : Levels g (g.meaning w.tail) w.frames
  bare : Bare g w

/-! ## What a construct sees -/

/-- What the construct `f` sees is the same in both graphs. -/
structure Frame.SameView (g g' : Graph) (f : Frame) : Prop where
  own_iff : ∀ x i, g'.OwnPhi f.phiBlock x i ↔ g.OwnPhi f.phiBlock x i
  op?_eq : ∀ x i o, g.OwnPhi f.phiBlock x i → o.isPhi = true → g.op? i = some o →
    g'.op? i = some o
  meaning_eq : ∀ b ∈ f.behind, ∀ x, g'.meaning b x = g.meaning b x

namespace Frame

variable {g g' : Graph} {f : Frame}

theorem SameView.refl (f : Frame) (g : Graph) : f.SameView g g :=
  ⟨fun _ _ => Iff.rfl, fun _ _ _ _ _ ho => ho, fun _ _ _ => rfl⟩

theorem SameView.trans {g'' : Graph} (h : f.SameView g g') (h' : f.SameView g' g'') :
    f.SameView g g'' where
  own_iff x i := (h'.own_iff x i).trans (h.own_iff x i)
  op?_eq x i o hi hphi ho := h'.op?_eq x i o ((h.own_iff x i).2 hi) hphi (h.op?_eq x i o hi hphi ho)
  meaning_eq b hb x := (h'.meaning_eq b hb x).trans (h.meaning_eq b hb x)

theorem SameView.other_eq (h : f.SameView g g') (x : Var) : f.other g' x = f.other g x := by
  rw [other, other]
  split
  · rename_i tt hpart
    exact h.meaning_eq tt (by simp [behind, hpart]) x
  · rfl

theorem Merged.congr {σ : Var → Option InstrId} (h : f.SameView g g') (m : f.Merged g σ) :
    f.Merged g' σ where
  own x i hi := by
    rw [h.own_iff] at hi
    rw [h.other_eq]
    exact h.op?_eq x i _ hi rfl (m.own x i hi)
  kept x hnone := by
    have := m.kept x fun i hi => hnone i ((h.own_iff x i).2 hi)
    rw [h.other_eq, h.meaning_eq _ (Layout.test_mem_behind f)]
    exact this
  test hpart x := by
    rw [h.meaning_eq _ (Layout.test_mem_behind f)]
    exact m.test hpart x

end Frame

theorem Levels.congr {g g' : Graph} {σ : Var → Option InstrId} {fs : List Frame}
    (hview : ∀ f ∈ fs, f.SameView g g') (h : Levels g σ fs) : Levels g' σ fs := by
  induction fs generalizing σ with
  | nil => exact trivial
  | cons f fs ih =>
    exact ⟨h.1.congr (hview f (by simp)), ih (fun f' hf' => hview f' (List.mem_cons_of_mem _ hf'))
      h.2⟩

namespace Graph

theorem SameShape.ownPhi_iff {g g' : Graph} (h : SameShape g g') {b : BlockId} {x : Var}
    {i : InstrId} : g'.OwnPhi b x i ↔ g.OwnPhi b x i := by
  rw [OwnPhi, OwnPhi, h.binding_eq, h.isPhi_eq, h.home?_eq]

theorem SameStock.ownPhi_iff {g g' : Graph} (h : SameStock g g') {b : BlockId} {x : Var}
    {i : InstrId} : g'.OwnPhi b x i ↔ g.OwnPhi b x i := by
  rw [OwnPhi, OwnPhi, h.binding_eq, isPhi, isPhi, home?, home?, h.instr?_eq]

theorem Rebinds.ownPhi_iff {g g' : Graph} {c : BlockId} (h : Rebinds g c g') {b : BlockId}
    (hb : b ≠ c) {x : Var} {i : InstrId} : g'.OwnPhi b x i ↔ g.OwnPhi b x i := by
  rw [OwnPhi, OwnPhi, h.binding_eq b x hb, h.isPhi_eq, h.home?_eq]

/-- Phis of other blocks are left alone when a block gets more of them. -/
theorem Grows.ownPhi_iff {g g' : Graph} {b c : BlockId} (h : Grows g b g') (hc : c ≠ b) {x : Var}
    {i : InstrId} : g'.OwnPhi c x i ↔ g.OwnPhi c x i := by
  rw [OwnPhi, OwnPhi, h.binding_eq c x hc]
  by_cases hi : i < g.nextId
  · rw [h.isPhi_old hi, h.home?_old i hi]
  · refine iff_of_false (fun hown => ?_) fun hown => hi (lt_nextId_of_home? hown.2.2)
    exact hc (h.home?_new i c (Nat.not_lt.1 hi) hown.2.2).1

theorem binding_eq_none_of_size_le {g : Graph} {b : BlockId} (h : g.blocks.size ≤ b) (x : Var) :
    g.binding b x = none := by
  rw [binding, block?_eq_none_iff.2 h]
  rfl

namespace Absorbs

variable {g g' : Graph} {f : Frame} {x : Var} {before v : Option InstrId} {start : InstrId}

theorem isPhi_old (h : g.Absorbs f x before v start g') {j : InstrId} (hj : j ≠ g.nextId) :
    g'.isPhi j = g.isPhi j := by
  rw [Bool.eq_iff_iff, isPhi_eq, isPhi_eq, Option.any_eq_true, Option.any_eq_true]
  have hbr : ∀ o : Operation, o.isPhi = true → o.isBranch = false := fun o ho => by
    cases o <;> first | rfl | cases ho
  constructor
  · rintro ⟨o, ho, hphi⟩
    obtain ⟨o', ho', rfl⟩ := (h.op?_old j o hj (hbr o hphi)).1 ho
    refine ⟨o', ho', ?_⟩
    split at hphi
    · rwa [Operation.redirect, Operation.isPhi_mapOperands] at hphi
    · exact hphi
  · rintro ⟨o', ho', hphi⟩
    have hphi' : (if start ≤ j then o'.redirect x before g.nextId else o').isPhi = true := by
      split
      · rwa [Operation.redirect, Operation.isPhi_mapOperands]
      · exact hphi
    exact ⟨_, (h.op?_old j _ hj (hbr _ hphi')).2 ⟨o', ho', rfl⟩, hphi'⟩

theorem ownPhi_iff (h : g.Absorbs f x before v start g') (hc : g.Contents) {c : BlockId} {y : Var}
    {i : InstrId} :
    g'.OwnPhi c y i ↔ c = f.phiBlock ∧ y = x ∧ i = g.nextId ∨ g.OwnPhi c y i := by
  have hlt : g.OwnPhi c y i → i ≠ g.nextId := fun hown heq => by
    have := hown.2.2
    rw [heq, home?, Places.instr?_nextId] at this
    cases this
  by_cases hcy : c = f.phiBlock ∧ y = x
  · obtain ⟨rfl, rfl⟩ := hcy
    have hnone := h.absent i
    simp only [true_and, hnone, or_false]
    rw [OwnPhi, h.binding_eq, if_pos ⟨rfl, rfl⟩, Option.some.injEq, Option.some.injEq]
    constructor
    · rintro ⟨heq, -⟩
      exact heq.symm
    · rintro rfl
      refine ⟨rfl, ?_, by rw [h.home?_eq, if_pos rfl]⟩
      rw [isPhi_eq, h.op?_new]
      rfl
  · have hbind : g'.binding c y = g.binding c y := by rw [h.binding_eq, if_neg hcy]
    have hnew : ¬ (c = f.phiBlock ∧ y = x ∧ i = g.nextId) := fun h' => hcy ⟨h'.1, h'.2.1⟩
    simp only [hnew, false_or]
    by_cases hi : i = g.nextId
    · refine iff_of_false (fun hown => ?_) fun hown => hlt hown hi
      have := hc.bound c y i (by rw [← hbind, hown.1])
      rw [hi, op?, Places.instr?_nextId] at this
      cases this
    · rw [OwnPhi, OwnPhi, hbind, h.isPhi_old hi, h.home?_eq, if_neg hi]

/-- Phis of other variables are left alone. -/
theorem op?_other (h : g.Absorbs f x before v start g') {j : InstrId} {y : Var} (hy : y ≠ x)
    {l r : Option InstrId} (hj : g.op? j = some (.phi y l r)) : g'.op? j = some (.phi y l r) := by
  have hne : j ≠ g.nextId := by
    rintro rfl
    rw [op?, Places.instr?_nextId] at hj
    cases hj
  refine (h.op?_old j _ hne rfl).2 ⟨_, hj, ?_⟩
  split
  · refine (Operation.redirect_eq_self ?_).symm
    simp [Operation.reads, Operation.operands, Operation.phi, Operand.through, hy.symm]
  · rfl

/-- Phis from before the construct are left alone. -/
theorem op?_before (h : g.Absorbs f x before v start g') {j : InstrId} (hj : j < f.start)
    {o : Operation} (ho : o.isBranch = false) (hop : g.op? j = some o) : g'.op? j = some o := by
  have hne : j ≠ g.nextId := Nat.ne_of_lt (lt_nextId_of_op? hop)
  refine (h.op?_old j o hne ho).2 ⟨o, hop, ?_⟩
  rw [if_neg (Nat.not_le.2 (Nat.lt_of_lt_of_le hj h.start_ge))]

end Absorbs
end Graph

namespace Layout

variable {g g' : Graph} {w : Site}

/-- The scopes of outer constructs do not come to the phis of the inner one. -/
theorem not_above_phiBlock (l : Layout g w) {f f' : Frame} {fs : List Frame}
    (hframes : w.frames = f :: fs) (hf' : f' ∈ fs) {b : BlockId} (hb : b ∈ f'.behind) :
    ¬ g.Above f.phiBlock b := by
  have hpassed : b ∈ w.passed := l.behind f' (by simp [hframes, hf']) b hb
  by_cases hpart : f.part = .loopBody
  · rw [Frame.phiBlock_eq_test hpart]
    have hnested := l.nested
    rw [hframes] at hnested
    exact l.not_above_of_before ((List.pairwise_cons.1 hnested).1 f' hf' b hb)
  · rw [Frame.phiBlock_eq_target hpart]
    exact fun h => l.passed_not_target (l.above_passed hpassed h)
      (List.mem_map_of_mem (by simp [hframes]))

/-- The scopes of the blocks that construction has come to do not come to a join ahead. -/
theorem not_above_target (l : Layout g w) {f : Frame} (hf : f ∈ w.frames) {b : BlockId}
    (hb : b ∈ w.tail :: w.passed) : ¬ g.Above f.target b := fun h =>
  l.target_not_reached (l.above_reached hb h) (List.mem_map_of_mem hf)

end Layout

/-! ## Merging -/

namespace Built

variable {w : Site} {u u' : Body} {σ : Var → Option InstrId}

theorem behind_lt (b : Built w u) {f : Frame} (hf : f ∈ w.frames) {c : BlockId}
    (hc : c ∈ f.behind) : c < u.graph.blocks.size :=
  b.layout.passed_lt (b.layout.behind f hf c hc)

/-- The innermost construct, when one of its phis gets a new operand. -/
theorem merged_replaced (b : Built w u) {f : Frame} (hf : f ∈ w.frames) (m : f.Merged u.graph σ)
    {x : Var} {i : InstrId} (hown : u.graph.OwnPhi f.phiBlock x i) (v : Option InstrId) :
    f.Merged (u.graph.modifyInstr i (·.mapOp (·.setSide f.side v))) (Function.update σ x v) := by
  have hshape := Graph.sameShape_mapOp u.graph i (Operation.similar_setSide f.side v)
  have hmeaning : ∀ c ∈ f.behind, ∀ y,
      (u.graph.modifyInstr i (·.mapOp (·.setSide f.side v))).meaning c y = u.graph.meaning c y :=
    fun c hc y => b.layout.meaning_of_skeleton hshape.skeleton (b.behind_lt hf hc) (c := c)
      (fun d _ => hshape.binding_eq d y) fun _ => hshape.binding_eq c y
  have hother : ∀ y, f.other (u.graph.modifyInstr i (·.mapOp (·.setSide f.side v))) y =
      f.other u.graph y := fun y => by
    rw [Frame.other, Frame.other]
    split
    · rename_i tt hpart
      exact hmeaning tt (by simp [Frame.behind, hpart]) y
    · rfl
  refine ⟨fun y j hj => ?_, fun y hnone => ?_, fun hpart y => ?_⟩
  · rw [hshape.ownPhi_iff] at hj
    have hold := m.own y j hj
    rw [hother, Graph.op?_modifyInstr_mapOp, hold]
    by_cases hij : i = j
    · subst hij
      -- the phi has one variable only
      have hxy : x = y := by
        have := (m.own x i hown).symm.trans hold
        simp only [Operation.phi, Option.some.injEq, Operation.binary.injEq, true_and,
          Operand.through, Operand.mk.injEq] at this
        exact this.1.2
      subst hxy
      rw [if_pos rfl, Option.map_some, Function.update_self]
      cases hpart : f.part <;>
        simp [Frame.operands, Frame.side, hpart, Operation.setSide, Operation.phi, Operand.through]
    · have hxy : y ≠ x := by
        rintro rfl
        exact hij (hown.unique hj)
      rw [if_neg hij, Function.update_of_ne hxy]
  · have hxy : y ≠ x := by
      rintro rfl
      exact hnone i (hshape.ownPhi_iff.2 hown)
    have hkept := m.kept y fun j hj => hnone j (hshape.ownPhi_iff.2 hj)
    rw [Function.update_of_ne hxy, hother, hmeaning _ (Layout.test_mem_behind f)]
    exact hkept
  · rw [hmeaning _ (Layout.test_mem_behind f)]
    exact m.test hpart y

/-- The innermost construct, when it gets a new phi. -/
theorem merged_absorbs (b : Built w u) {f : Frame} (hf : f ∈ w.frames) (m : f.Merged u.graph σ)
    {x : Var} {before v : Option InstrId} {start : InstrId} {g : Graph}
    (h : u.graph.Absorbs f x before v start g) : f.Merged g (Function.update σ x v) := by
  have hmeaning : ∀ c ∈ f.behind, ∀ y, y ≠ x ∨ f.part ≠ .loopBody →
      g.meaning c y = u.graph.meaning c y := by
    intro c hc y hy
    refine b.layout.meaning_of_skeleton h.skeleton (b.behind_lt hf hc) (c := f.phiBlock)
      (fun d hd => by rw [h.binding_eq, if_neg fun h' => hd h'.1]) fun habove => ?_
    rcases hy with hy | hpart
    · rw [h.binding_eq, if_neg fun h' => hy h'.2]
    · rw [Frame.phiBlock_eq_target hpart] at habove
      exact absurd habove
        (b.layout.not_above_target hf (List.mem_cons_of_mem _ (b.layout.behind f hf c hc)))
  have hother : ∀ y, f.other g y = f.other u.graph y := fun y => by
    rw [Frame.other, Frame.other]
    split
    · rename_i tt hpart
      exact hmeaning tt (by simp [Frame.behind, hpart]) y (.inr (by simp [hpart]))
    · rfl
  obtain ⟨-, hother_x, htest_x⟩ := m.kept x h.absent
  have hbefore : before = f.before x := by
    rw [← htest_x]
    exact (b.layout.meaning_eq (b.behind_lt hf (Layout.test_mem_behind f)) h.resolves).symm
  refine ⟨fun y j hj => ?_, fun y hnone => ?_, fun hpart y => ?_⟩
  · rcases (h.ownPhi_iff b.contents).1 hj with ⟨-, rfl, rfl⟩ | hj
    · rw [h.op?_new, hother, hother_x, Function.update_self, hbefore]
    · have hxy : y ≠ x := by
        rintro rfl
        exact h.absent j hj
      rw [hother, Function.update_of_ne hxy]
      exact h.op?_other hxy (m.own y j hj)
  · have hxy : y ≠ x := by
      rintro rfl
      exact hnone _ ((h.ownPhi_iff b.contents).2 (.inl ⟨rfl, rfl, rfl⟩))
    have hkept := m.kept y fun j hj => hnone j ((h.ownPhi_iff b.contents).2 (.inr hj))
    rw [Function.update_of_ne hxy, hother, hmeaning _ (Layout.test_mem_behind f) y (.inl hxy)]
    exact hkept
  · rw [hmeaning _ (Layout.test_mem_behind f) y (.inr hpart)]
    exact m.test hpart y

/-- The constructs around see nothing of a merge. -/
theorem sameView_merges (b : Built w u) (n : Numbered u.graph w) {f : Frame} {fs : List Frame}
    (hframes : w.frames = f :: fs) {x : Var} {v : Option InstrId} (h : u.Merges w x v u')
    {f' : Frame} (hf' : f' ∈ fs) : f'.SameView u.graph u'.graph := by
  have hne := b.layout.phiBlock_ne hframes hf'
  rcases b.merge_cases n hframes h with ⟨i, hown, hg⟩ | ⟨before, start, h⟩
  · have hshape := Graph.sameShape_mapOp u.graph i (Operation.similar_setSide f.side v)
    rw [hg]
    refine ⟨fun y j => hshape.ownPhi_iff, fun y j o hj _ ho => ?_, fun c hc y => ?_⟩
    · rw [Graph.op?_modifyInstr_mapOp, if_neg, ho]
      rintro rfl
      exact hne (Option.some.inj (hj.2.2.symm.trans hown.2.2))
    · exact b.layout.meaning_of_skeleton hshape.skeleton (b.behind_lt (by simp [hframes, hf']) hc)
        (c := c) (fun d _ => hshape.binding_eq d y) fun _ => hshape.binding_eq c y
  · refine ⟨fun y j => ?_, fun y j o hj ho hop => ?_, fun c hc y => ?_⟩
    · rw [h.ownPhi_iff b.contents]
      simp [hne]
    · have hnested := n.nested
      rw [hframes] at hnested
      have hlt := ((List.pairwise_cons.1 hnested).1 f' hf').2 j hj.2.1 hj.2.2
      exact h.op?_before hlt (by cases o <;> first | rfl | cases ho) hop
    · exact b.layout.meaning_of_skeleton h.skeleton (b.behind_lt (by simp [hframes, hf']) hc)
        (c := f.phiBlock) (fun d hd => by rw [h.binding_eq, if_neg fun h' => hd h'.1])
        fun habove => absurd habove (b.layout.not_above_phiBlock hframes hf' hc)

/-- **Merging a value** changes what its variable means at the end of the side being built. -/
theorem levels_merges (b : Built w u) (n : Numbered u.graph w) {x : Var} {v : Option InstrId}
    (h : u.Merges w x v u') (hl : Levels u.graph σ w.frames) :
    Levels u'.graph (Function.update σ x v) w.frames := by
  cases hframes : w.frames with
  | nil => exact trivial
  | cons f fs =>
    rw [hframes] at hl
    have hf : f ∈ w.frames := by simp [hframes]
    refine ⟨?_, hl.2.congr fun f' hf' => b.sameView_merges n hframes h hf'⟩
    rcases b.merge_cases n hframes h with ⟨i, hown, hg⟩ | ⟨before, start, habsorbs⟩
    · rw [hg]
      exact b.merged_replaced hf hl.1 hown v
    · exact b.merged_absorbs hf hl.1 habsorbs

end Built

/-! ## The blocks behind open constructs -/

namespace Layout

variable {g : Graph} {w : Site}

/-- The block behind an outer construct is not where the inner one has its phis. -/
theorem target_ne_phiBlock (l : Layout g w) {f f' : Frame} {fs : List Frame}
    (hframes : w.frames = f :: fs) (hf' : f' ∈ fs) : f'.target ≠ f.phiBlock := by
  have hmem : f'.target ∈ w.targets := List.mem_map_of_mem (by simp [hframes, hf'])
  by_cases hpart : f.part = .loopBody
  · rw [Frame.phiBlock_eq_test hpart]
    intro heq
    exact l.passed_not_target (l.behind f (by simp [hframes]) _ (test_mem_behind f)) (heq ▸ hmem)
  · rw [Frame.phiBlock_eq_target hpart]
    have hnodup : (w.frames.map Frame.target).Nodup :=
      (List.nodup_cons.1 (List.nodup_append.1 l.nodup).2.1).2
    rw [hframes, List.map_cons, List.nodup_cons] at hnodup
    exact fun heq => hnodup.1 (heq ▸ List.mem_map_of_mem hf')

end Layout

namespace Bare

variable {g g' : Graph} {w : Site}

theorem start (options : Options) : Bare (Body.start options).graph .start where
  bound f hf := by cases hf
  role f hf := by cases hf
  distinct f hf := by cases hf

/-- The same frames, with other bindings only where a join gets a phi. -/
theorem of_binding (hb : Bare g w) (hskel : g.SameSkeleton g')
    (hbind : ∀ f ∈ w.frames, ∀ x v, g'.binding f.target x = some v →
      g.binding f.target x = some v ∨ f.part ≠ .loopBody ∧ ∃ i, v = some i ∧ g'.OwnPhi f.target x i)
    (hown : ∀ f ∈ w.frames, ∀ x i, g.OwnPhi f.target x i → g'.OwnPhi f.target x i) : Bare g' w where
  bound f hf x v hv := by
    rcases hbind f hf x v hv with hv | h
    · obtain ⟨hpart, i, rfl, hi⟩ := hb.bound f hf x v hv
      exact ⟨hpart, i, rfl, hown f hf x i hi⟩
    · exact h
  role f hf := by
    rw [hskel.hasRole_eq, hskel.hasRole_eq]
    exact hb.role f hf
  distinct := hb.distinct

theorem calm (hb : Bare g w) (h : g.Calm g') : Bare g' w :=
  hb.of_binding h.skeleton (fun f _ x v hv => .inl (by rw [← h.binding_eq, hv]))
    fun f _ x i hi => h.ownPhi_iff.2 hi

theorem rebindTail (hb : Bare g w) (l : Layout g w) (h : g.Rebinds w.tail g') : Bare g' w := by
  have hne : ∀ f ∈ w.frames, f.target ≠ w.tail := fun f hf heq =>
    l.tail_not_target (heq ▸ List.mem_map_of_mem hf)
  exact hb.of_binding h.skeleton
    (fun f hf x v hv => .inl (by rw [← h.binding_eq _ _ (hne f hf), hv]))
    fun f hf x i hi => (h.ownPhi_iff (hne f hf)).2 hi

theorem merges {u u' : Body} (hb : Bare u.graph w) (b : Built w u)
    (n : Numbered u.graph w) {x : Var}
    {v : Option InstrId} (h : u.Merges w x v u') : Bare u'.graph w := by
  cases hframes : w.frames with
  | nil =>
    rw [h.eq_of_outermost hframes]
    exact hb
  | cons f fs =>
    rcases b.merge_cases n hframes h with ⟨i, -, hg⟩ | ⟨before, start, h⟩
    · have hshape := Graph.sameShape_mapOp u.graph i (Operation.similar_setSide f.side v)
      rw [hg]
      exact hb.of_binding hshape.skeleton
        (fun f _ y v hv => .inl (by rw [← hshape.binding_eq, hv]))
        fun f _ y j hj => hshape.ownPhi_iff.2 hj
    · refine hb.of_binding h.skeleton (fun f' hf' y v' hv => ?_)
        fun f' _ y j hj => (h.ownPhi_iff b.contents).2 (.inr hj)
      rw [h.binding_eq] at hv
      split at hv
      · rename_i hcy
        cases hv
        have hff' : f' = f := by
          rw [hframes] at hf'
          refine (List.mem_cons.1 hf').resolve_right fun hmem => ?_
          exact b.layout.target_ne_phiBlock hframes hmem hcy.1
        subst hff'
        refine .inr ⟨fun hpart => ?_, _, rfl,
          (h.ownPhi_iff b.contents).2 (.inl ⟨hcy.1, hcy.2, rfl⟩)⟩
        have hmem : f' ∈ w.frames := by simp [hframes]
        rw [Frame.phiBlock_eq_test hpart] at hcy
        exact b.layout.passed_not_target (b.layout.behind f' hmem _ (Layout.test_mem_behind f'))
          (hcy.1 ▸ List.mem_map_of_mem hmem)
      · exact .inl hv

theorem pop (hb : Bare g w) : Bare g w.pop := by
  cases hframes : w.frames with
  | nil =>
    have : w.pop = w := by rw [Site.pop, hframes]
    rw [this]
    exact hb
  | cons f fs =>
    have hpop := Site.pop_eq hframes
    have hsub : ∀ f' ∈ fs, f' ∈ w.frames := fun f' h => by simp [hframes, h]
    rw [hpop]
    exact ⟨fun f' h => hb.bound f' (hsub f' h), fun f' h => hb.role f' (hsub f' h),
      fun f' h => hb.distinct f' (hsub f' h)⟩

/-- A construct is opened with a new block behind it. -/
theorem push (hb : Bare g w) (hstock : g.SameStock g') {f : Frame} (blocks : List BlockId)
    (first : BlockId) (hold : ∀ f' ∈ w.frames, g'.hasRole f'.target .elseSide =
      g.hasRole f'.target .elseSide ∧ g'.hasRole f'.target .loopExit =
      g.hasRole f'.target .loopExit)
    (hfresh : g.blocks.size ≤ f.target) (hrole : g'.hasRole f.target .elseSide = false ∧
      (g'.hasRole f.target .loopExit = true ↔ f.part = .loopBody))
    (hpart : ∀ tt, f.part ≠ .elseSide tt) : Bare g' (w.push blocks first f) := by
  refine ⟨List.forall_mem_cons.2 ⟨fun x v hv => ?_, fun f' hf' x v hv => ?_⟩,
    List.forall_mem_cons.2 ⟨hrole, fun f' hf' => ?_⟩,
    List.forall_mem_cons.2 ⟨fun tt h => absurd h (hpart tt), hb.distinct⟩⟩
  · rw [hstock.binding_eq, Graph.binding_eq_none_of_size_le hfresh] at hv
    cases hv
  · rw [hstock.binding_eq] at hv
    obtain ⟨hp, i, rfl, hi⟩ := hb.bound f' hf' x v hv
    exact ⟨hp, i, rfl, hstock.ownPhi_iff.2 hi⟩
  · rw [(hold f' hf').1, (hold f' hf').2]
    exact hb.role f' hf'

theorem openIf (hb : Bare g w) {join side : BlockId}
    (h : g.OpensIf w.tail join side g') (before : Var → Option InstrId) (start : InstrId) :
    Bare g' (w.openIf join side before start) := by
  have hfresh : g.blocks.size ≤ join := Nat.le_of_eq h.join_eq.symm
  refine hb.push h.stock _ _ (fun f' hf' => ?_) hfresh ⟨?_, ?_⟩ (by simp)
  · simp [h.hasRole_eq]
  · simp [h.hasRole_eq, Graph.hasRole_eq_false_of_size_le hfresh]
  · simp [h.hasRole_eq, Graph.hasRole_eq_false_of_size_le hfresh]

theorem openLoop (hb : Bare g w) (l : Layout g w) {head body exit : BlockId}
    (h : g.OpensLoop w.tail head body exit g') (before : Var → Option InstrId) (start : InstrId) :
    Bare g' (w.openLoop head body exit before start) := by
  have hfresh := h.size_le_exit
  refine hb.push h.stock _ _ (fun f' hf' => ?_) hfresh ⟨?_, ?_⟩ (by simp)
  · have hne : f'.target ≠ exit := fun heq =>
      absurd (l.target_lt (List.mem_map_of_mem hf')) (Nat.not_lt.2 (heq ▸ hfresh))
    simp [h.hasRole_eq, hne]
  · simp [h.hasRole_eq, Graph.hasRole_eq_false_of_size_le hfresh]
  · simp [h.hasRole_eq, Graph.hasRole_eq_false_of_size_le hfresh]

theorem openElse (hb : Bare g w) (l : Layout g w) {f : Frame} {fs : List Frame}
    (hframes : w.frames = f :: fs) (hpart : f.part = .thenSide) {side : BlockId}
    (h : g.OpensElse f.test f.target w.tail side g') : Bare g' (w.openElse side) := by
  have hw := Site.openElse_eq hframes side
  have hf : f ∈ w.frames := by simp [hframes]
  have hsub : ∀ f' ∈ fs, f' ∈ w.frames := fun f' h => by simp [hframes, h]
  have hbound : ∀ f' ∈ w.frames, ∀ x v, g'.binding f'.target x = some v →
      f'.part ≠ .loopBody ∧ ∃ i, v = some i ∧ g'.OwnPhi f'.target x i := by
    intro f' hf' x v hv
    rw [h.stock.binding_eq] at hv
    obtain ⟨hp, i, rfl, hi⟩ := hb.bound f' hf' x v hv
    exact ⟨hp, i, rfl, h.stock.ownPhi_iff.2 hi⟩
  have hrole : ∀ f' ∈ w.frames, g'.hasRole f'.target .elseSide = false ∧
      (g'.hasRole f'.target .loopExit = true ↔ f'.part = .loopBody) := by
    intro f' hf'
    have hne : f'.target ≠ side := by
      rw [h.side_eq]
      exact Nat.ne_of_lt (l.target_lt (List.mem_map_of_mem hf'))
    simp only [h.hasRole_eq, hne, false_and, decide_false, Bool.or_false]
    exact hb.role f' hf'
  rw [hw]
  refine ⟨List.forall_mem_cons.2 ⟨fun x v hv => ?_, fun f' hf' => hbound f' (hsub f' hf')⟩,
    List.forall_mem_cons.2 ⟨?_, fun f' hf' => hrole f' (hsub f' hf')⟩,
    List.forall_mem_cons.2 ⟨fun tt htt => ?_, fun f' hf' => hb.distinct f' (hsub f' hf')⟩⟩
  · exact ⟨by simp, (hbound f hf x v hv).2⟩
  · have := hrole f hf
    simpa [hpart] using this
  · cases htt
    exact fun heq => l.tail_not_passed (heq ▸ l.behind f hf _ (Layout.test_mem_behind f))

/-- The exit of a loop binds nothing and looks variables up in the header. -/
theorem exit (hb : Bare g w) (l : Layout g w) {f : Frame} (hf : f ∈ w.frames)
    (hpart : f.part = .loopBody) :
    (∀ x, g.binding f.target x = none) ∧ g.parent f.target = some f.test := by
  refine ⟨fun x => ?_, ?_⟩
  · cases hv : g.binding f.target x with
    | none => rfl
    | some v => exact absurd hpart (hb.bound f hf x v hv).1
  · rw [Graph.parent, (hb.role f hf).2.2 hpart, Bool.or_true, if_pos rfl]
    exact (l.linked .branch _ _).1 (l.framed_loopBody hf hpart).2

end Bare

/-! ## Steps -/

namespace Built

variable {w : Site} {u u' : Body}

/-- A merge binds its variable in one block only. -/
theorem binding_merges (b : Built w u) (n : Numbered u.graph w) {x : Var} {v : Option InstrId}
    (h : u.Merges w x v u') {c : BlockId} {y : Var}
    (hcy : ∀ f fs, w.frames = f :: fs → c = f.phiBlock → y ≠ x) :
    u'.graph.binding c y = u.graph.binding c y := by
  cases hframes : w.frames with
  | nil => rw [h.eq_of_outermost hframes]
  | cons f fs =>
    rcases b.merge_cases n hframes h with ⟨i, -, hg⟩ | ⟨before, start, h⟩
    · rw [hg, Graph.binding_modifyInstr]
    · rw [h.binding_eq, if_neg fun h' => hcy f fs hframes h'.1 h'.2]

theorem skeleton_merges (b : Built w u) {x : Var} {v : Option InstrId} (h : u.Merges w x v u') :
    u.graph.SameSkeleton u'.graph := by
  cases hframes : w.frames with
  | nil =>
    rw [h.eq_of_outermost hframes]
    exact .refl _
  | cons f fs => exact (b.grows hframes h).skeleton

end Built

namespace Levelled

variable {g g' : Graph} {w : Site} {u u' : Body}

theorem start (options : Options) : Levelled (Body.start options).graph .start :=
  ⟨trivial, .start options⟩

/-- More instructions that are no phis are not seen by any construct. -/
theorem sameView_calm (l : Layout g w) (h : g.Calm g') {f : Frame} (hf : f ∈ w.frames) :
    f.SameView g g' :=
  ⟨fun _ _ => h.ownPhi_iff, fun _ _ _ _ ho => (h.op?_phi ho).2, fun b hb x =>
    l.meaning_of_skeleton h.skeleton (l.passed_lt (l.behind f hf b hb)) (c := b)
      (fun d _ => h.binding_eq d x) fun _ => h.binding_eq b x⟩

theorem calm (hl : Levelled g w) (l : Layout g w) (h : g.Calm g') : Levelled g' w := by
  have hmeaning : ∀ x, g'.meaning w.tail x = g.meaning w.tail x := fun x =>
    l.meaning_of_skeleton h.skeleton l.tail_lt (c := w.tail) (fun d _ => h.binding_eq d x)
      fun _ => h.binding_eq _ x
  refine ⟨?_, hl.bare.calm h⟩
  rw [funext hmeaning]
  exact hl.levels.congr fun f hf => sameView_calm l h hf

/-- Other bindings at the tail are not seen by any construct. -/
theorem sameView_rebindTail (l : Layout g w) (h : g.Rebinds w.tail g') {f : Frame}
    (hf : f ∈ w.frames) : f.SameView g g' := by
  refine ⟨fun x i => h.ownPhi_iff (Closable.phiBlock_ne_tail l hf),
    fun x i o _ _ ho => by rw [h.op?_eq, ho], fun b hb x => ?_⟩
  have hpassed := l.behind f hf b hb
  exact l.meaning_of_skeleton h.skeleton (l.passed_lt hpassed) (fun d hd => h.binding_eq d x hd)
    fun habove => absurd (l.above_passed hpassed habove) l.tail_not_passed

/-- **An assignment** changes what its variable means, and no other. -/
theorem meaning_assign (b : Built w u) (n : Numbered u.graph w) {x : Var} {v : Option InstrId}
    (hv : ∀ i, v = some i → (u.graph.op? i).isSome = true)
    (h : (u.withBinding w.tail x v).Merges w x v u') :
    u'.graph.meaning w.tail = Function.update (u.graph.meaning w.tail) x v := by
  have hb := b.withBinding x hv
  have hre : u.graph.Rebinds w.tail (u.withBinding w.tail x v).graph :=
    Graph.rebinds_bindIn u.graph w.tail x v
  have n' := n.rebind b.layout hre
  have hne : ∀ f fs, w.frames = f :: fs → w.tail ≠ f.phiBlock := fun f fs hframes =>
    (Closable.phiBlock_ne_tail b.layout (by simp [hframes])).symm
  have hbound : ∀ d y, (u.withBinding w.tail x v).graph.binding d y =
      if d = w.tail ∧ y = x then some v else u.graph.binding d y :=
    Graph.binding_bindIn b.layout.tail_lt x v
  have hskel : u.graph.SameSkeleton u'.graph := hre.skeleton.trans (hb.skeleton_merges h)
  funext y
  by_cases hy : y = x
  · subst hy
    rw [Function.update_self]
    refine (b.layout.of_sameSkeleton hskel).meaning_eq ((hskel.lt_size_iff _).2 b.layout.tail_lt)
      (.bound ?_)
    rw [hb.binding_merges n' h fun f fs hframes heq => absurd heq (hne f fs hframes), hbound,
      if_pos ⟨rfl, rfl⟩]
  · rw [Function.update_of_ne hy]
    have hbind : ∀ d, u'.graph.binding d y = u.graph.binding d y := fun d => by
      rw [hb.binding_merges n' h fun f fs _ _ => hy, hbound, if_neg fun h' => hy h'.2]
    exact b.layout.meaning_of_skeleton hskel b.layout.tail_lt (c := w.tail) (fun d _ => hbind d)
      fun _ => hbind _

theorem assign (hl : Levelled u.graph w) (b : Built w u) (n : Numbered u.graph w) {x : Var}
    {v : Option InstrId} (hv : ∀ i, v = some i → (u.graph.op? i).isSome = true)
    (h : (u.withBinding w.tail x v).Merges w x v u') : Levelled u'.graph w := by
  have hb := b.withBinding x hv
  have hre : u.graph.Rebinds w.tail (u.withBinding w.tail x v).graph :=
    Graph.rebinds_bindIn u.graph w.tail x v
  have n' := n.rebind b.layout hre
  refine ⟨?_, (hl.bare.rebindTail b.layout hre).merges hb n' h⟩
  rw [meaning_assign b n hv h]
  exact hb.levels_merges n' h (hl.levels.congr fun f hf => sameView_rebindTail b.layout hre hf)

/-- Opening a construct is not seen by the constructs around it. -/
theorem sameView_opened (l : Layout g w) (hstock : g.SameStock g')
    (hmeaning : ∀ b ∈ w.tail :: w.passed, ∀ x, g'.meaning b x = g.meaning b x) {f : Frame}
    (hf : f ∈ w.frames) : f.SameView g g' :=
  ⟨fun x i => hstock.ownPhi_iff, fun x i o _ _ ho => by rw [Graph.op?, hstock.instr?_eq]; exact ho,
    fun b hb => hmeaning b (List.mem_cons_of_mem _ (l.behind f hf b hb))⟩

/-- A new block means what its scope parent means. -/
theorem meaning_of_fresh {w' : Site} (l' : Layout g' w') (hstock : g.SameStock g') {b p : BlockId}
    (hb : g.blocks.size ≤ b) (hlt : b < g'.blocks.size) (hp : g'.parent b = some p) (x : Var) :
    g'.meaning b x = g'.meaning p x := by
  refine l'.meaning_eq hlt (.above ?_ hp (l'.resolves_meaning (l'.parent_lt hp) x))
  rw [hstock.binding_eq, Graph.binding_eq_none_of_size_le hb]

theorem openIf (hl : Levelled g w) (l : Layout g w) {join side : BlockId}
    (h : g.OpensIf w.tail join side g') (start : InstrId) :
    Levelled g' (w.openIf join side (g.meaning w.tail) start) := by
  have l' := l.openIf h (g.meaning w.tail) start
  have hsize : g.blocks.size ≤ g'.blocks.size := by
    rw [h.size_eq]
    exact Nat.le_add_right _ _
  have hmeaning : ∀ b ∈ w.tail :: w.passed, ∀ x, g'.meaning b x = g.meaning b x := fun b hb x =>
    l.meaning_of_parent l' h.stock hsize (fun c hc => l.parent_openIf h hc) hb x
  have hside : ∀ x, g'.meaning side x = g.meaning w.tail x := fun x => by
    have hs : g.blocks.size ≤ side := by
      rw [h.side_eq]
      exact Nat.le_succ _
    have hparent : g'.parent side = some w.tail := by
      rw [Graph.parent, h.hasRole_eq, h.hasRole_eq, Graph.hasRole_eq_false_of_size_le hs,
        Graph.hasRole_eq_false_of_size_le hs]
      simpa using (h.linked .fall w.tail side).1 h.fall_parent
    rw [meaning_of_fresh l' h.stock hs l'.tail_lt hparent, hmeaning w.tail (by simp)]
  have hown : ∀ x i, ¬ g'.OwnPhi join x i := fun x i hi => by
    have := hi.1
    rw [h.stock.binding_eq, Graph.binding_eq_none_of_size_le (Nat.le_of_eq h.join_eq.symm)] at this
    cases this
  refine ⟨⟨⟨fun x i hi => absurd hi (hown x i), fun x _ => ⟨hside x, rfl, ?_⟩, fun _ x => ?_⟩, ?_⟩,
    hl.bare.openIf h _ _⟩
  · exact hmeaning w.tail (by simp) x
  · exact hmeaning w.tail (by simp) x
  · exact hl.levels.congr fun f hf => sameView_opened l h.stock hmeaning hf

theorem openLoop (hl : Levelled g w) (l : Layout g w) (hc : g.Contents) {head body exit : BlockId}
    (h : g.OpensLoop w.tail head body exit g') (start : InstrId) :
    Levelled g' (w.openLoop head body exit (g.meaning w.tail) start) := by
  have l' := l.openLoop h (g.meaning w.tail) start
  have hh := h.head_eq
  have hbody := h.size_le_body
  have hmeaning : ∀ b ∈ w.tail :: w.passed, ∀ x, g'.meaning b x = g.meaning b x := fun b hb x =>
    l.meaning_of_parent l' h.stock h.size_le (fun c hc => l.parent_openLoop h hc) hb x
  have hhead : ∀ x, g'.meaning head x = g.meaning w.tail x := fun x => by
    rcases hh with ⟨heq, -⟩ | ⟨heq, -⟩
    · rw [heq]
      exact hmeaning w.tail (by simp) x
    · have hs : g.blocks.size ≤ head := Nat.le_of_eq heq.symm
      have hne : w.tail ≠ head := fun h' => absurd l.tail_lt (Nat.not_lt.2 (h' ▸ hs))
      have hne' := (h.distinct l.tail_lt).2.1
      have hparent : g'.parent head = some w.tail := by
        rw [Graph.parent, h.hasRole_eq, h.hasRole_eq, Graph.hasRole_eq_false_of_size_le hs,
          Graph.hasRole_eq_false_of_size_le hs]
        simpa [hne'] using (h.linked .fall w.tail head).1 (h.fall_start hne)
      rw [meaning_of_fresh l' h.stock hs (Graph.lt_size_of_next h.fall_head) hparent,
        hmeaning w.tail (by simp)]
  have hbody_meaning : ∀ x, g'.meaning body x = g.meaning w.tail x := fun x => by
    have hne := (h.distinct l.tail_lt).2.2
    have hparent : g'.parent body = some head := by
      rw [Graph.parent, h.hasRole_eq, h.hasRole_eq, Graph.hasRole_eq_false_of_size_le hbody,
        Graph.hasRole_eq_false_of_size_le hbody]
      simpa [hne] using (h.linked .fall head body).1 h.fall_head
    rw [meaning_of_fresh l' h.stock hbody l'.tail_lt hparent, hhead]
  have hown : ∀ x i, ¬ g'.OwnPhi head x i := fun x i hi => by
    rw [h.stock.ownPhi_iff] at hi
    have hlt := hc.home_lt i _ hi.2.2
    rcases hh with ⟨heq, -, hlist, -⟩ | ⟨heq, -⟩
    · have := (hc.mem_listed _ _).2 hi.2.2
      rw [heq, hlist] at this
      cases this
    · exact absurd hlt (by rw [heq]; exact Nat.lt_irrefl _)
  refine ⟨⟨⟨fun x i hi => absurd hi (hown x i), fun x _ => ⟨hbody_meaning x, rfl, hhead x⟩,
    fun hpart => absurd rfl hpart⟩, ?_⟩, hl.bare.openLoop l h _ _⟩
  exact hl.levels.congr fun f hf => sameView_opened l h.stock hmeaning hf

/-- Opening an else side is not seen by the blocks that construction has come to. -/
theorem meaning_openElse (l : Layout g w) {f : Frame} {fs : List Frame}
    (hframes : w.frames = f :: fs) (hpart : f.part = .thenSide) {side : BlockId}
    (h : g.OpensElse f.test f.target w.tail side g') {b : BlockId} (hb : b ∈ w.tail :: w.passed)
    (x : Var) : g'.meaning b x = g.meaning b x := by
  have hsize : g.blocks.size ≤ g'.blocks.size := by
    rw [h.size_eq]
    exact Nat.le_succ _
  exact l.meaning_of_parent (l.openElse hframes hpart h) h.stock hsize
    (fun c hc => l.parent_openElse hframes hpart h hc) hb x

/-- In a new else side the variables mean what they meant before the if. -/
theorem meaning_elseSide (hl : Levelled g w) (l : Layout g w) {f : Frame} {fs : List Frame}
    (hframes : w.frames = f :: fs) (hpart : f.part = .thenSide) {side : BlockId}
    (h : g.OpensElse f.test f.target w.tail side g') (x : Var) :
    g'.meaning side x = f.before x := by
  have htest : f.test ∈ w.passed := l.behind f (by simp [hframes]) _ (Layout.test_mem_behind f)
  have hparent : g'.parent side = some f.test := by
    rw [Graph.parent, h.hasRole_eq]
    simpa using (h.linked .branch f.test side).1 h.branch_parent
  have hlt : side < g'.blocks.size := Graph.lt_size_of_next h.fall_side
  have hlevels := hl.levels
  rw [hframes] at hlevels
  rw [meaning_of_fresh (l.openElse hframes hpart h) h.stock
    (Nat.le_of_eq h.side_eq.symm) hlt hparent, meaning_openElse l hframes hpart h
    (List.mem_cons_of_mem _ htest), hlevels.1.test (by simp [hpart])]

theorem openElse (hl : Levelled g w) (l : Layout g w) {f : Frame} {fs : List Frame}
    (hframes : w.frames = f :: fs) (hpart : f.part = .thenSide) {side : BlockId}
    (h : g.OpensElse f.test f.target w.tail side g') : Levelled g' (w.openElse side) := by
  have hw := Site.openElse_eq hframes side
  have hf : f ∈ w.frames := by simp [hframes]
  have htest : f.test ∈ w.passed := l.behind f hf _ (Layout.test_mem_behind f)
  have hmeaning : ∀ b ∈ w.tail :: w.passed, ∀ x, g'.meaning b x = g.meaning b x := fun b hb x =>
    meaning_openElse l hframes hpart h hb x
  have hlevels := hl.levels
  rw [hframes] at hlevels
  obtain ⟨m, hrest⟩ := hlevels
  have hnot : f.part ≠ .loopBody := by simp [hpart]
  have hside := hl.meaning_elseSide l hframes hpart h
  have hblock : f.phiBlock = f.target := Frame.phiBlock_eq_target hnot
  have hown : ∀ x i, g'.OwnPhi f.target x i ↔ g.OwnPhi f.phiBlock x i := fun x i => by
    rw [h.stock.ownPhi_iff, hblock]
  refine ⟨?_, hl.bare.openElse l hframes hpart h⟩
  rw [hw]
  refine ⟨⟨fun x i hi => ?_, fun x hnone => ⟨hside x, ?_, ?_⟩, fun _ x => ?_⟩, ?_⟩
  · -- the then side brought what the tail means, and still does
    have hold := m.own x i ((hown x i).1 hi)
    rw [Graph.op?, h.stock.instr?_eq]
    simp only [Frame.operands, Frame.other, hpart] at hold
    simp only [Frame.operands, Frame.other, hside, hmeaning w.tail (by simp)]
    exact hold
  · have hkept := m.kept x fun i hi => hnone i ((hown x i).2 hi)
    exact (hmeaning w.tail (by simp) x).trans hkept.1
  · rw [hmeaning _ (List.mem_cons_of_mem _ htest)]
    exact m.test hnot x
  · rw [hmeaning _ (List.mem_cons_of_mem _ htest)]
    exact m.test hnot x
  · refine hrest.congr fun f' hf' => ?_
    exact sameView_opened l h.stock hmeaning (by simp [hframes, hf'])

/-- What the variables mean behind the innermost construct: where it has a phi, the phi, and
otherwise what they meant before. -/
theorem meaning_target (hl : Levelled g w) (l : Layout g w) {f : Frame} {fs : List Frame}
    (hframes : w.frames = f :: fs) (x : Var) :
    (∀ i, g.OwnPhi f.phiBlock x i → g.meaning f.target x = some i) ∧
    ((∀ i, ¬ g.OwnPhi f.phiBlock x i) → g.meaning f.target x = f.before x) := by
  have hf : f ∈ w.frames := by simp [hframes]
  have hlt : f.target < g.blocks.size := l.target_lt (List.mem_map_of_mem hf)
  have hlevels := hl.levels
  rw [hframes] at hlevels
  obtain ⟨helse, hexit⟩ := hl.bare.role f hf
  by_cases hpart : f.part = .loopBody
  · -- the exit binds nothing and looks the variable up in the header
    rw [Frame.phiBlock_eq_test hpart]
    obtain ⟨hbind, hparent⟩ := hl.bare.exit l hf hpart
    have hmeaning : g.meaning f.target x = g.meaning f.test x :=
      l.meaning_eq hlt (.above (hbind x) hparent (l.resolves_meaning (l.parent_lt hparent) x))
    refine ⟨fun i hi => ?_, fun hnone => ?_⟩
    · rw [hmeaning]
      exact l.meaning_eq (l.parent_lt hparent) (.bound hi.1)
    · rw [hmeaning]
      exact (hlevels.1.kept x (by rw [Frame.phiBlock_eq_test hpart]; exact hnone)).2.2
  · rw [Frame.phiBlock_eq_target hpart]
    refine ⟨fun i hi => l.meaning_eq hlt (.bound hi.1), fun hnone => ?_⟩
    have hbind : g.binding f.target x = none := by
      cases hv : g.binding f.target x with
      | none => rfl
      | some v =>
        obtain ⟨-, i, -, hi⟩ := hl.bare.bound f hf x v hv
        exact absurd hi (hnone i)
    have hparent : g.parent f.target = some w.tail := by
      have hexit' : g.hasRole f.target .loopExit = false := by
        rw [Bool.eq_false_iff]
        exact mt hexit.1 hpart
      rw [Graph.parent, helse, hexit', Bool.or_false, if_neg (by simp)]
      refine (l.linked .fall _ _).1 ?_
      exact (l.next_tail_if hframes hpart).1
    have hkept := hlevels.1.kept x (by rw [Frame.phiBlock_eq_target hpart]; exact hnone)
    rw [← hkept.1]
    exact l.meaning_eq hlt (.above hbind hparent (l.resolves_meaning l.tail_lt x))

end Levelled

namespace Built

variable {w : Site} {u u' : Body}

/-- **Carrying phis outward** makes each of them what its variable means for the construct
around. -/
theorem levels_carriesEach (b : Built w u) (n : Numbered u.graph w)
    (htested : ∀ f ∈ w.frames, u.graph.HasBranch f.test) {f : Frame} {fs : List Frame}
    (hframes : w.frames = f :: fs) {c : BlockId} (hc : c ≠ f.phiBlock) (hphi : u.graph.PhiBound c)
    {is : List InstrId} (h : Body.CarriesEach w c is u u') {σ τ : Var → Option InstrId}
    (hl : Levels u.graph σ w.frames) (hτ : ∀ x i, u.graph.OwnPhi c x i → τ x = some i)
    (hσ : ∀ x, σ x ≠ τ x → ∃ i ∈ is, u.graph.OwnPhi c x i) : Levels u'.graph τ w.frames := by
  induction h generalizing σ with
  | nil =>
    have : σ = τ := funext fun x => by
      by_contra hne
      obtain ⟨i, hi, -⟩ := hσ x hne
      cases hi
    rw [← this]
    exact hl
  | @cons i is x u u₁ u₂ hown hmerge rest ih =>
    have hgrows := b.grows hframes hmerge
    have hb₁ := b.of_merges hmerge
    refine ih hb₁ (n.grow b.layout hframes htested hgrows)
      (fun f' hf' => (hgrows.hasBranch_iff _).2 (htested f' hf')) (hgrows.phiBound hc hphi)
      (b.levels_merges n hmerge hl) (fun y j hj => hτ y j ((hgrows.ownPhi_iff hc).1 hj))
      fun y hy => ?_
    have hyx : y ≠ x := by
      rintro rfl
      rw [Function.update_self, hτ y i hown] at hy
      exact hy rfl
    rw [Function.update_of_ne hyx] at hy
    obtain ⟨j, hj, hownj⟩ := hσ y hy
    rcases List.mem_cons.1 hj with rfl | hj
    · -- a phi has one variable only
      have hop := hown.2.1
      rw [Graph.isPhi_eq, Option.any_eq_true] at hop
      obtain ⟨op, hop, hop'⟩ := hop
      obtain ⟨z, -, -, hunique⟩ := hphi j op hop hop' hown.2.2
      exact absurd ((hunique y hownj.1).trans (hunique x hown.1).symm) hyx
    · exact ⟨j, hj, (hgrows.ownPhi_iff hc).2 hownj⟩

/-- Carrying phis outward binds only the variables that have one. -/
theorem binding_carriesEach (b : Built w u) (n : Numbered u.graph w)
    (htested : ∀ f ∈ w.frames, u.graph.HasBranch f.test) {f : Frame} {fs : List Frame}
    (hframes : w.frames = f :: fs) {c : BlockId} (hc : c ≠ f.phiBlock) {is : List InstrId}
    (h : Body.CarriesEach w c is u u') {d : BlockId} {y : Var}
    (hdy : d = f.phiBlock → ∀ i, ¬ u.graph.OwnPhi c y i) :
    u'.graph.binding d y = u.graph.binding d y := by
  induction h with
  | nil => rfl
  | @cons i is x u u₁ u₂ hown hmerge rest ih =>
    have hgrows := b.grows hframes hmerge
    rw [ih (b.of_merges hmerge) (n.grow b.layout hframes htested hgrows)
      (fun f' hf' => (hgrows.hasBranch_iff _).2 (htested f' hf'))
      fun hd j hj => hdy hd j ((hgrows.ownPhi_iff hc).1 hj)]
    refine b.binding_merges n hmerge fun f' fs' hframes' hd hyx => ?_
    rw [hframes] at hframes'
    obtain ⟨rfl, -⟩ := List.cons.inj hframes'
    subst hyx
    exact hdy hd i hown

end Built

namespace Levelled

variable {w : Site} {u u' : Body}

theorem bare_carriesEach (b : Built w u) (n : Numbered u.graph w)
    (htested : ∀ f ∈ w.frames, u.graph.HasBranch f.test) {f : Frame} {fs : List Frame}
    (hframes : w.frames = f :: fs) {c : BlockId} {is : List InstrId}
    (h : Body.CarriesEach w c is u u') (hb : Bare u.graph w) : Bare u'.graph w := by
  induction h with
  | nil => exact hb
  | cons _ hmerge _ ih =>
    have hgrows := b.grows hframes hmerge
    exact ih (b.of_merges hmerge) (n.grow b.layout hframes htested hgrows)
      (fun f' hf' => (hgrows.hasBranch_iff _).2 (htested f' hf')) (hb.merges b n hmerge)

/-- A block behind a construct that has no phi of a variable sees what the test of the construct
sees. -/
theorem resolves_target (hl : Levelled u.graph w) (l : Layout u.graph w) {f : Frame}
    {fs : List Frame} (hframes : w.frames = f :: fs) {x : Var} {v : Option InstrId}
    (hnone : u.graph.binding f.target x = none) (h : u.graph.Resolves x f.test v) :
    u.graph.Resolves x f.target v := by
  have hf : f ∈ w.frames := by simp [hframes]
  have hlevels := hl.levels
  rw [hframes] at hlevels
  by_cases hpart : f.part = .loopBody
  · exact .above hnone (hl.bare.exit l hf hpart).2 h
  · have hown : ∀ i, ¬ u.graph.OwnPhi f.phiBlock x i := fun i hi => by
      rw [Frame.phiBlock_eq_target hpart] at hi
      rw [hi.1] at hnone
      cases hnone
    have htest : f.test < u.graph.blocks.size :=
      l.passed_lt (l.behind f hf _ (Layout.test_mem_behind f))
    rw [← l.meaning_eq htest h, hlevels.1.test hpart, ← (hl.meaning_target l hframes x).2 hown]
    exact l.resolves_meaning (l.target_lt (List.mem_map_of_mem hf)) x

/-- **Closing a construct** changes nothing of what the variables mean behind it. -/
theorem meaning_close (hl : Levelled u.graph w) (b : Built w u) (n : Numbered u.graph w) {f : Frame}
    {fs : List Frame} {u₀ : Body} (hframes : w.frames = f :: fs) (hgraph : u₀.graph = u.graph)
    (hleft : Built w.pop u₀) (htested : ∀ f' ∈ fs, u.graph.HasBranch f'.test)
    (h : u₀.Carries w.pop f.phiBlock f.test u') (x : Var) :
    u'.graph.meaning f.target x = u.graph.meaning f.target x := by
  have hf : f ∈ w.frames := by simp [hframes]
  have hpop := Site.pop_eq hframes
  have hlt : f.target < u.graph.blocks.size := b.layout.target_lt (List.mem_map_of_mem hf)
  have hskel : u.graph.SameSkeleton u'.graph := hgraph ▸ hleft.skeleton_carries h
  have l' := b.layout.of_sameSkeleton hskel
  have hlt' := (hskel.lt_size_iff _).2 hlt
  cases h with
  | outermost =>
    refine l'.meaning_eq hlt' ?_
    rw [hgraph, hpop]
    exact b.layout.resolves_inheritScope hlt
      (fun v hnone hv => hl.resolves_target b.layout hframes hnone hv)
      (b.layout.resolves_meaning hlt x)
  | inner hne each =>
    obtain ⟨f', fs', hframes'⟩ := List.exists_cons_of_ne_nil hne
    have hpopframes : w.pop.frames = fs := by rw [hpop]
    have hf' : f' ∈ fs := by
      rw [← hpopframes, hframes']
      exact List.mem_cons_self
    have hc : f.phiBlock ≠ f'.phiBlock := (b.layout.phiBlock_ne hframes hf').symm
    have hbind := fun {d y} => hleft.binding_carriesEach (hgraph ▸ n.pop)
      (fun f'' hf'' => hgraph ▸ htested f'' (hpopframes ▸ hf'')) hframes' hc each (d := d) (y := y)
    rw [hgraph] at hbind
    by_cases hown : ∃ i, u.graph.OwnPhi f.phiBlock x i
    · -- the phi is still found from behind the construct
      obtain ⟨i, hi⟩ := hown
      rw [(hl.meaning_target b.layout hframes x).1 i hi]
      have htarget : f.target ≠ f'.phiBlock := by
        have := Closable.phiBlock_ne_tail hleft.layout (f := f') (by simp [hframes'])
        rw [hpop] at this
        exact this.symm
      have hkept : u'.graph.binding f.phiBlock x = some (some i) := by
        rw [hbind fun heq => absurd heq hc, hi.1]
      by_cases hpart : f.part = .loopBody
      · obtain ⟨hnone, hparent⟩ := hl.bare.exit b.layout hf hpart
        rw [Frame.phiBlock_eq_test hpart] at hkept
        refine l'.meaning_eq hlt' (.above ?_ (by rw [hskel.parent_eq, hparent]) (.bound hkept))
        rw [hbind fun heq => absurd heq htarget, hnone]
      · rw [Frame.phiBlock_eq_target hpart] at hkept
        exact l'.meaning_eq hlt' (.bound hkept)
    · have hnone : ∀ i, ¬ u.graph.OwnPhi f.phiBlock x i := fun i hi => hown ⟨i, hi⟩
      exact b.layout.meaning_of_skeleton hskel hlt (c := f.target)
        (fun d _ => hbind fun _ => hnone) fun _ => hbind fun _ => hnone

/-- Closing a construct keeps the phis around it in order. -/
theorem close (hl : Levelled u.graph w) (b : Built w u) (n : Numbered u.graph w) {f : Frame}
    {fs : List Frame} {u₀ : Body} (hframes : w.frames = f :: fs) (hgraph : u₀.graph = u.graph)
    (hleft : Built w.pop u₀) (htested : ∀ f' ∈ fs, u.graph.HasBranch f'.test)
    (h : u₀.Carries w.pop f.phiBlock f.test u') : Levelled u'.graph w.pop := by
  have hf : f ∈ w.frames := by simp [hframes]
  have hpop := Site.pop_eq hframes
  have hpopframes : w.pop.frames = fs := by rw [hpop]
  have hpoptail : w.pop.tail = f.target := by rw [hpop]
  have hmeaning := hl.meaning_close b n hframes hgraph hleft htested h
  cases h with
  | outermost hnil =>
    refine ⟨by rw [hnil]; exact trivial, ?_⟩
    have hnone : ∀ f' ∈ w.pop.frames, False := fun f' hf' => by
      rw [hnil] at hf'
      cases hf'
    exact ⟨fun f' hf' => (hnone f' hf').elim, fun f' hf' => (hnone f' hf').elim,
      fun f' hf' => (hnone f' hf').elim⟩
  | inner hne each =>
    obtain ⟨f', fs', hframes'⟩ := List.exists_cons_of_ne_nil hne
    have hf' : f' ∈ fs := by
      rw [← hpopframes, hframes']
      exact List.mem_cons_self
    have n₀ : Numbered u₀.graph w.pop := hgraph ▸ n.pop
    have htested₀ : ∀ f ∈ w.pop.frames, u₀.graph.HasBranch f.test := fun f'' hf'' =>
      hgraph ▸ htested f'' (hpopframes ▸ hf'')
    have hlevels := hl.levels
    rw [hframes] at hlevels
    refine ⟨?_, bare_carriesEach hleft n₀ htested₀ hframes' each (hgraph ▸ hl.bare.pop)⟩
    rw [hpoptail, funext hmeaning]
    refine hleft.levels_carriesEach n₀ htested₀ hframes'
      (b.layout.phiBlock_ne hframes hf').symm (hgraph ▸ b.closable.phi_bound f hf) each
      (σ := f.before) (by rw [hgraph, hpopframes]; exact hlevels.2) (fun x i hi => ?_)
      (fun x hne => ?_)
    · rw [hgraph] at hi
      exact (hl.meaning_target b.layout hframes x).1 i hi
    · by_contra hnone
      refine hne ((hl.meaning_target b.layout hframes x).2 fun i hi =>
        hnone ⟨i, ?_, hgraph ▸ hi⟩).symm
      rw [hgraph]
      exact List.mem_filter.2 ⟨(b.contents.mem_listed _ _).2 hi.2.2, hi.2.1⟩

/-- **Every step keeps the phis of open constructs in order.** -/
theorem shift {w' : Site} (hl : Levelled u.graph w) (b : Built w u) (n : Numbered u.graph w)
    (h : Shift w u w' u') : Levelled u'.graph w' := by
  cases h with
  | retarget h => exact hl.calm b.layout (.of_retargets h)
  | receive h hphi _ hclear => exact hl.calm b.layout (.of_receives h hphi hclear)
  | assign _ hv _ hmerges => exact hl.assign b n hv hmerges
  | openIf _ hopens => exact hl.openIf b.layout hopens _
  | openElse hframes hpart _ hopens => exact hl.openElse b.layout hframes hpart hopens
  | openLoop _ hopens => exact hl.openLoop b.layout b.contents hopens _
  | close hframes hgraph hleft htested hcarries =>
    exact hl.close b n hframes hgraph hleft htested hcarries

theorem run {w' : Site} {cs : List Body.Command} (h : Run w u cs w' u') (b : Built w u)
    (n : Numbered u.graph w) (hl : Levelled u.graph w) :
    Numbered u'.graph w' ∧ Levelled u'.graph w' := by
  refine h.preserves_along (P := fun w u => Numbered u.graph w ∧ Levelled u.graph w) b ⟨n, hl⟩ ?_
  intro _ _ _ _ _ _ _ _ _ hb hp hstep
  exact ⟨hp.1.shift hb (hstep.shift hb), hp.2.shift hb hp.1 (hstep.shift hb)⟩

end Levelled
end StructuredSSA
