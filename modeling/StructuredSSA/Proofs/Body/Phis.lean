import StructuredSSA.Proofs.Body.Numbered
import StructuredSSA.Proofs.Graph.Phis

/-!
# Where phis are placed

Phis are added to one block at a time, the one that the innermost construct has its phis in, and
only where there is none of the variable yet.  So a block never has two phis of one variable, and
once a construct is closed its phis stay as they are.

## What is here

* `Graph.Gains` — what a merge does to the phis of all blocks.
* `Built.gains`, `Step.hasPhi_close` — merging a value, and closing a construct.
* `PhiLayout` — the invariant: where phis are, and in which order.
* `Sealed` — a block whose phis stay as they are.
-/

set_option autoImplicit false

namespace StructuredSSA

namespace Graph

variable {g g' : Graph} {b c : BlockId} {x y : Var} {i : InstrId} {op : Operation}

/-- In a block that binds its phis, the phi of a variable is the one it binds. -/
theorem PhiBound.phiOf_iff (hc : Contents g) (h : g.PhiBound b) :
    g.PhiOf b x i ↔ g.OwnPhi b x i := by
  constructor
  · rintro ⟨hi, op, hop, hx⟩
    have hhome := (hc.mem_listed b i).1 hi
    obtain ⟨y, hy, hbind, -⟩ := h i op hop hx.isPhi hhome
    obtain ⟨l, r, rfl, hl, -⟩ := hx
    obtain rfl : x = y := Option.some.inj (hl.symm.trans hy)
    refine ⟨hbind, ?_, hhome⟩
    rw [isPhi_eq, hop]
    rfl
  · intro hown
    obtain ⟨y, hy⟩ := hc.exists_phiOf ((hc.mem_listed b i).2 hown.2.2) hown.2.1
    obtain ⟨hi, op, hop, hisPhi⟩ := hy
    obtain ⟨z, hz, -, hunique⟩ := h i op hop hisPhi.isPhi hown.2.2
    obtain ⟨l, r, rfl, hl, hr⟩ := hisPhi
    obtain rfl : y = z := Option.some.inj (hl.symm.trans hz)
    obtain rfl := hunique x hown.1
    exact ⟨hi, _, hop, l, r, rfl, hl, hr⟩

theorem Retargets.samePhis (h : Retargets g g') : SamePhis g g' := by
  intro b x i
  rw [PhiOf, PhiOf, h.listed_eq]
  refine and_congr_right fun _ => exists_congr fun op => and_congr_left fun hx => ?_
  exact h.op?_iff i op hx.isBranch

theorem Retargets.isPhi_eq (h : Retargets g g') (i : InstrId) : g'.isPhi i = g.isPhi i :=
  (Calm.of_retargets h).isPhi_eq i

theorem Receives.samePhis (h : Receives g c op g') (hphi : op.isPhi = false) : SamePhis g g' := by
  have hop : ∀ i o y, o.IsPhiOf y → (g'.op? i = some o ↔ g.op? i = some o) := fun i o y ho => by
    rw [h.op?_iff i o ho.isBranch]
    constructor
    · rintro (⟨-, rfl⟩ | ⟨-, hi⟩)
      · rw [ho.isPhi] at hphi
        cases hphi
      · exact hi
    · exact fun hi => .inr ⟨Nat.ne_of_lt (lt_nextId_of_op? hi), hi⟩
  intro b y i
  rw [PhiOf, PhiOf, h.listed_eq]
  split
  · rename_i hb
    subst hb
    constructor
    · rintro ⟨hmem, o, ho, hy⟩
      have ho' := (hop i o y hy).1 ho
      rcases List.mem_append.1 hmem with hmem | hmem
      · exact ⟨hmem, o, ho', hy⟩
      · exact absurd (List.mem_singleton.1 hmem) (Nat.ne_of_lt (lt_nextId_of_op? ho'))
    · rintro ⟨hmem, o, ho, hy⟩
      exact ⟨List.mem_append_left _ hmem, o, (hop i o y hy).2 ho, hy⟩
  · refine and_congr_right fun _ => exists_congr fun o => and_congr_left fun hy => hop i o y hy

/-- `g'` has the phis of `g`, and in `b` one more if it has none of `x`. -/
def Gains (g : Graph) (b : BlockId) (x : Var) (g' : Graph) : Prop :=
  ∀ c y i, g'.PhiOf c y i ↔
    g.PhiOf c y i ∨ (c = b ∧ y = x ∧ i = g.nextId) ∧ ¬ g.HasPhi b x

namespace Gains

theorem hasPhi_iff (h : g.Gains b x g') : g'.HasPhi c y ↔ g.HasPhi c y ∨ c = b ∧ y = x := by
  constructor
  · rintro ⟨i, hi⟩
    rcases (h c y i).1 hi with hi | ⟨⟨hc, hy, -⟩, -⟩
    · exact .inl ⟨i, hi⟩
    · exact .inr ⟨hc, hy⟩
  · rintro (⟨i, hi⟩ | ⟨rfl, rfl⟩)
    · exact ⟨i, (h c y i).2 (.inl hi)⟩
    · by_cases hold : g.HasPhi c y
      · obtain ⟨i, hi⟩ := hold
        exact ⟨i, (h c y i).2 (.inl hi)⟩
      · exact ⟨g.nextId, (h c y _).2 (.inr ⟨⟨rfl, rfl, rfl⟩, hold⟩)⟩

theorem phiOf_iff (h : g.Gains b x g') (hc : c ≠ b) : g'.PhiOf c y i ↔ g.PhiOf c y i := by
  rw [h c y i]
  exact or_iff_left fun h' => hc h'.1.1

end Gains
end Graph

/-- The block that the innermost construct has its phis in. -/
def Site.phiBlock? (w : Site) : Option BlockId := w.frames.head?.map Frame.phiBlock

/-! ## Merging and carrying -/

namespace Built

variable {w : Site} {u u' : Body} {f : Frame} {fs : List Frame} {x : Var}

theorem phiOf_iff_ownPhi (b : Built w u) (hf : f ∈ w.frames) {i : InstrId} :
    u.graph.PhiOf f.phiBlock x i ↔ u.graph.OwnPhi f.phiBlock x i :=
  (b.closable.phi_bound f hf).phiOf_iff b.contents

/-- A new phi. -/
theorem gains_withPhi (b : Built w u) (hf : f ∈ w.frames) {ops : Option InstrId × Option InstrId}
    (hnone : ∀ i, ¬ u.graph.OwnPhi f.phiBlock x i) {g : Graph}
    (h : u.graph.Places f.phiBlock (.phi x ops.1 ops.2) g) :
    u.graph.Gains f.phiBlock x (u.withPhi g f.phiBlock x ops).graph := by
  have hnone' : ¬ u.graph.HasPhi f.phiBlock x := fun ⟨i, hi⟩ =>
    hnone i ((b.phiOf_iff_ownPhi hf).1 hi)
  intro c y i
  refine ((Graph.rebinds_bindIn g f.phiBlock x (some u.graph.nextId)).samePhis c y i).trans ?_
  rw [h.phiOf_iff b.contents]
  simp [hnone']

/-- **A merge** adds a phi to the innermost construct, if it has none of the variable. -/
theorem gains (b : Built w u) (hframes : w.frames = f :: fs) {v : Option InstrId}
    (h : u.Merges w x v u') : u.graph.Gains f.phiBlock x u'.graph := by
  have hf : f ∈ w.frames := by simp [hframes]
  have hsame : ∀ {f' : Frame} {fs' : List Frame}, w.frames = f' :: fs' → f' = f := fun h' => by
    rw [hframes] at h'
    exact (List.cons.inj h').1.symm
  cases h with
  | outermost hnil =>
    rw [hframes] at hnil
    cases hnil
  | @replaced f' _ i hf' hown =>
    obtain rfl := hsame hf'
    intro c y j
    refine ((Graph.sameShape_mapOp u.graph i
      (Operation.similar_setSide f'.side v)).samePhis c y j).trans ?_
    refine (or_iff_left fun h' => h'.2 ⟨i, ?_⟩).symm
    exact (b.phiOf_iff_ownPhi hf).2 hown
  | joined hf' _ hnone _ hplace =>
    obtain rfl := hsame hf'
    exact b.gains_withPhi hf hnone hplace
  | @looped f' _ before g start hf' _ hnone _ hplace _ =>
    obtain rfl := hsame hf'
    have hb := b.withPhi (b.phiBlock_lt hf) hnone hplace
    have hred := (hb.redirected_redirectFrom x before u.graph.nextId start).1
    intro c y j
    rw [hred.shape.samePhis c y j]
    exact b.gains_withPhi hf hnone hplace c y j

theorem hasPhi_merges (b : Built w u) {v : Option InstrId} (h : u.Merges w x v u') (d : BlockId)
    (y : Var) :
    u'.graph.HasPhi d y ↔ u.graph.HasPhi d y ∨ w.phiBlock? = some d ∧ y = x := by
  cases hframes : w.frames with
  | nil =>
    rw [h.eq_of_outermost hframes, Site.phiBlock?, hframes]
    simp
  | cons f fs =>
    rw [(b.gains hframes h).hasPhi_iff, Site.phiBlock?, hframes]
    simp [eq_comm]

/-- Carrying phis of `c` outward, one after another. -/
theorem hasPhi_carriesEach (b : Built w u) (hframes : w.frames = f :: fs) {c : BlockId}
    (hne : c ≠ f.phiBlock) (hphi : u.graph.PhiBound c) {is : List InstrId}
    (h : Body.CarriesEach w c is u u') (d : BlockId) (y : Var) :
    u'.graph.HasPhi d y ↔
      u.graph.HasPhi d y ∨ d = f.phiBlock ∧ ∃ i ∈ is, u.graph.PhiOf c y i := by
  induction h with
  | nil => simp
  | @cons i is x u u₁ u₂ hown hmerge rest ih =>
    have hgains := b.gains hframes hmerge
    have hgrows := b.grows hframes hmerge
    have hi : u.graph.PhiOf c x i := (hphi.phiOf_iff b.contents).2 hown
    rw [ih (b.of_merges hmerge) (hgrows.phiBound hne hphi), hgains.hasPhi_iff]
    simp only [hgains.phiOf_iff hne, List.exists_mem_cons_iff]
    have hx : u.graph.PhiOf c y i ↔ y = x :=
      ⟨fun h' => h'.var_unique hi, fun h' => h' ▸ hi⟩
    rw [hx, or_assoc, ← and_or_left]

/-- Only the construct around gets phis. -/
theorem phiOf_carriesEach (b : Built w u) (hframes : w.frames = f :: fs) {c : BlockId}
    {is : List InstrId} {d : BlockId} (hd : d ≠ f.phiBlock)
    (h : Body.CarriesEach w c is u u') {y : Var}
    {i : InstrId} : u'.graph.PhiOf d y i ↔ u.graph.PhiOf d y i := by
  induction h with
  | nil => exact Iff.rfl
  | cons _ hmerge _ ih =>
    exact (ih (b.of_merges hmerge)).trans ((b.gains hframes hmerge).phiOf_iff hd)

/-- **Carrying the phis of `c` outward** makes the construct around have phis of their variables. -/
theorem hasPhi_carries (b : Built w u) {c origin : BlockId} (hne : w.phiBlock? ≠ some c)
    (hphi : u.graph.PhiBound c) (h : u.Carries w c origin u') (d : BlockId) (y : Var) :
    u'.graph.HasPhi d y ↔
      u.graph.HasPhi d y ∨ w.phiBlock? = some d ∧ u.graph.HasPhi c y := by
  cases h with
  | outermost hnil =>
    rw [(Graph.rebinds_inheritScope u.graph w.tail origin).samePhis.hasPhi_iff]
    simp [Site.phiBlock?, hnil]
  | inner hne' each =>
    obtain ⟨f, fs, hframes⟩ := List.exists_cons_of_ne_nil hne'
    have hblock : w.phiBlock? = some f.phiBlock := by
      rw [Site.phiBlock?, hframes]
      rfl
    rw [hblock, Ne, Option.some.injEq] at hne
    rw [b.hasPhi_carriesEach hframes (Ne.symm hne) hphi each, hblock]
    have hall : (∃ i ∈ (u.graph.listed c).filter u.graph.isPhi, u.graph.PhiOf c y i) ↔
        u.graph.HasPhi c y :=
      ⟨fun ⟨i, _, hi⟩ => ⟨i, hi⟩, fun ⟨i, hi⟩ => ⟨i, List.mem_filter.2 ⟨hi.1, hi.isPhi⟩, hi⟩⟩
    rw [hall, Option.some.injEq, eq_comm (a := d)]

end Built

/-- **Closing a construct** gives the construct around phis of the same variables. -/
theorem Step.hasPhi_close {w w' : Site} {u u' : Body} {c : Body.Command} (b : Built w u)
    (h : Step w u c w' u') {f : Frame} {fs : List Frame} (hframes : w.frames = f :: fs)
    (hc : c = .closeIf f.test ∨ c = .closeLoop f.test) (d : BlockId) (x : Var) :
    u'.graph.HasPhi d x ↔
      u.graph.HasPhi d x ∨ w'.phiBlock? = some d ∧ u.graph.HasPhi f.phiBlock x := by
  obtain ⟨f', fs', u₀, hframes', -, rfl, hgraph, hleft, -, hcarries⟩ := h.close_cases b hc
  rw [hframes] at hframes'
  obtain ⟨rfl, rfl⟩ := List.cons.inj hframes'
  rw [← hgraph]
  refine hleft.hasPhi_carries (fun hblock => ?_) ?_ hcarries d x
  · rw [Site.phiBlock?, Site.pop, hframes] at hblock
    obtain ⟨f', hf', heq⟩ := Option.map_eq_some_iff.1 hblock
    exact b.layout.phiBlock_ne hframes (List.mem_of_mem_head? hf') heq
  · rw [hgraph]
    exact b.closable.phi_bound f (by simp [hframes])

/-! ## The invariant -/

namespace Layout

variable {g : Graph} {w : Site}

/-- The phis of a loop are in its header, and those of an if in its join. -/
theorem phiBlock_role (l : Layout g w) {f : Frame} (hf : f ∈ w.frames) :
    f.part = .loopBody ∧ g.hasRole f.phiBlock .loopHead = true ∨
      f.phiBlock = f.target ∧ g.hasRole f.phiBlock .join = true := by
  by_cases hpart : f.part = .loopBody
  · rw [Frame.phiBlock_eq_test hpart]
    exact .inl ⟨hpart, (l.framed_loopBody hf hpart).1⟩
  · rw [Frame.phiBlock_eq_target hpart]
    exact .inr ⟨rfl, (l.framed_join hf hpart).2⟩

/-- Nothing but phis is added to the blocks behind open constructs. -/
theorem fills_not_target (l : Layout g w) (n : Numbered g w) {c : BlockId} {op : Operation}
    (h : w.Fills c op) : c ∉ w.targets := by
  rcases h with ⟨rfl, -⟩ | (rfl | ⟨f, fs, hframes, rfl⟩) | ⟨-, f, hf, hpart⟩
  · exact l.passed_not_target n.head_passed
  · exact l.tail_not_target
  · exact l.passed_not_target (l.behind f (by simp [hframes]) _ (test_mem_behind f))
  · exact l.passed_not_target (l.behind f hf c (by simp [Frame.behind, hpart]))

end Layout

/-- **Where phis are**, and in which order. -/
structure PhiLayout (g : Graph) (w : Site) : Prop where
  unique : ∀ b x i j, g.PhiOf b x i → g.PhiOf b x j → i = j
  role : ∀ b x i, g.PhiOf b x i → g.hasRole b .join = true ∨ g.hasRole b .loopHead = true
  leading : ∀ b, g.PhisLead b
  /-- The blocks behind open constructs hold nothing but phis. -/
  ahead : ∀ b ∈ w.targets, ∀ i ∈ g.listed b, g.isPhi i = true

namespace PhiLayout

variable {g g' : Graph} {w w' : Site} {u u' : Body}

theorem start (options : Options) : PhiLayout (Body.start options).graph .start := by
  have hnone : ∀ b x i, ¬ (Body.start options).graph.PhiOf b x i := fun b x i ⟨_, op, hop, _⟩ => by
    rw [Graph.op?, Body.instr?_start] at hop
    cases hop
  refine ⟨fun b x i _ hi => absurd hi (hnone b x i), fun b x i hi => absurd hi (hnone b x i),
    fun b => ?_, fun b hb => by cases hb⟩
  have hlisted : (Body.start options).graph.listed b = [] := by
    refine List.eq_nil_iff_forall_not_mem.2 fun i hi => ?_
    rw [(Built.start options).contents.mem_listed, Graph.home?, Body.instr?_start] at hi
    cases hi
  rw [Graph.PhisLead, hlisted]
  exact .nil

/-- The same phis, with the same instructions and perhaps more of the others. -/
theorem of_samePhis (p : PhiLayout g w) (h : g.SamePhis g')
    (hrole : ∀ b r, g.hasRole b r = true → g'.hasRole b r = true) (hlead : ∀ b, g'.PhisLead b)
    (hahead : ∀ b ∈ w'.targets, ∀ i ∈ g'.listed b, g'.isPhi i = true) : PhiLayout g' w' where
  unique b x i j hi hj := p.unique b x i j ((h b x i).1 hi) ((h b x j).1 hj)
  role b x i hi := (p.role b x i ((h b x i).1 hi)).imp (hrole b .join) (hrole b .loopHead)
  leading := hlead
  ahead := hahead

/-- Nothing has changed that a block lists. -/
theorem of_listed (p : PhiLayout g w) (h : g.SamePhis g')
    (hrole : ∀ b r, g.hasRole b r = true → g'.hasRole b r = true)
    (hlisted : ∀ b, g'.listed b = g.listed b) (hphi : ∀ i, g'.isPhi i = g.isPhi i)
    (htargets : ∀ b ∈ w'.targets, b ∈ w.targets ∨ g.listed b = []) : PhiLayout g' w' := by
  refine p.of_samePhis h hrole (fun b => (p.leading b).congr (hlisted b) fun i _ => hphi i) ?_
  intro b hb i hi
  rw [hlisted] at hi
  rw [hphi]
  rcases htargets b hb with hb | hnil
  · exact p.ahead b hb i hi
  · rw [hnil] at hi
    cases hi

theorem of_sameShape (p : PhiLayout g w) (h : g.SameShape g') : PhiLayout g' w :=
  p.of_listed h.samePhis (fun b r hr => by rw [h.skeleton.hasRole_eq, hr]) h.listed_eq h.isPhi_eq
    fun _ hb => .inl hb

theorem rebind {b : BlockId} (p : PhiLayout g w) (h : g.Rebinds b g') : PhiLayout g' w :=
  p.of_listed h.samePhis (fun b r hr => by rw [h.skeleton.hasRole_eq, hr]) h.listed_eq h.isPhi_eq
    fun _ hb => .inl hb

/-- A construct is opened. -/
theorem opened (p : PhiLayout g w) (h : g.SameStock g')
    (hrole : ∀ b r, g.hasRole b r = true → g'.hasRole b r = true)
    (htargets : ∀ b ∈ w'.targets, b ∈ w.targets ∨ g.blocks.size ≤ b) : PhiLayout g' w' :=
  p.of_listed h.samePhis hrole h.listed_eq (fun i => by rw [Graph.isPhi, h.instr?_eq, Graph.isPhi])
    fun b hb => (htargets b hb).imp_right Graph.listed_eq_nil_of_size_le

theorem receive (p : PhiLayout g w) (l : Layout g w) (n : Numbered g w) {c : BlockId}
    {op : Operation} (h : g.Receives c op g') (hphi : op.isPhi = false) (hfills : w.Fills c op)
    (hclear : c = Body.head ∨ ¬ g.HasBranch c) : PhiLayout g' w := by
  have hisPhi := (Graph.Calm.of_receives h hphi hclear).isPhi_eq
  refine p.of_samePhis (h.samePhis hphi) (fun b r hr => by rw [h.skeleton.hasRole_eq, hr])
    (fun b => ?_) fun b hb i hi => ?_
  · by_cases hb : b = c
    · subst hb
      refine (p.leading b).append (by rw [h.listed_eq, if_pos rfl]) (fun i _ => hisPhi i)
        fun hnew => ?_
      rw [hisPhi, Graph.isPhi_eq, Graph.op?, Graph.Places.instr?_nextId] at hnew
      cases hnew
    · exact (p.leading b).congr (by rw [h.listed_eq, if_neg hb]) fun i _ => hisPhi i
  · have hne : b ≠ c := fun heq => l.fills_not_target n hfills (heq ▸ hb)
    rw [h.listed_eq, if_neg hne] at hi
    rw [hisPhi]
    exact p.ahead b hb i hi

/-- **A new phi** in the innermost construct. -/
theorem withPhi (p : PhiLayout u.graph w) (b : Built w u) {f : Frame} (hf : f ∈ w.frames) {x : Var}
    {ops : Option InstrId × Option InstrId} (hnone : ∀ i, ¬ u.graph.OwnPhi f.phiBlock x i)
    {g : Graph} (h : u.graph.Places f.phiBlock (.phi x ops.1 ops.2) g) :
    PhiLayout (u.withPhi g f.phiBlock x ops).graph w := by
  have hnone' : ∀ i, ¬ u.graph.PhiOf f.phiBlock x i := fun i hi =>
    hnone i ((b.phiOf_iff_ownPhi hf).1 hi)
  have hold : ∀ d, ∀ i ∈ u.graph.listed d, g.isPhi i = u.graph.isPhi i := fun d i hi =>
    h.isPhi_old (Nat.ne_of_lt (Graph.lt_nextId_of_home? ((b.contents.mem_listed _ _).1 hi)))
  have hnew : g.isPhi u.graph.nextId = true := by
    rw [Graph.isPhi_eq, h.op?_new]
    rfl
  have hplaced : PhiLayout g w := by
    refine ⟨fun c y i j hi hj => ?_, fun c y i hi => ?_, fun c => ?_, fun c hc i hi => ?_⟩
    · rw [h.phiOf_iff b.contents] at hi hj
      rcases hi with hi | ⟨rfl, rfl, rfl⟩ <;> rcases hj with hj | ⟨hc, hy, hj⟩
      · exact p.unique c y i j hi hj
      · exact absurd hi (by rw [hc, hy]; exact hnone' i)
      · exact absurd hj (hnone' j)
      · exact hj.symm
    · simp only [h.skeleton.hasRole_eq]
      rcases (h.phiOf_iff b.contents).1 hi with hi | ⟨rfl, -, -⟩
      · exact p.role c y i hi
      · exact (b.layout.phiBlock_role hf).symm.imp And.right And.right
    · by_cases hc : c = f.phiBlock
      · subst hc
        refine (p.leading _).place b.contents h ?_
        rcases b.layout.phiBlock_role hf with ⟨-, hrole⟩ | ⟨htarget, -⟩
        · exact .inl hrole
        · exact .inr (p.ahead _ (by rw [htarget]; exact List.mem_map_of_mem hf))
      · exact (p.leading c).congr (by rw [h.listed_eq, if_neg hc]) (hold c)
    · rcases h.mem_listed.1 hi with hi | ⟨rfl, -⟩
      · rw [hold c i hi]
        exact p.ahead c hc i hi
      · exact hnew
  exact hplaced.rebind (Graph.rebinds_bindIn g f.phiBlock x (some u.graph.nextId))

theorem merges (p : PhiLayout u.graph w) (b : Built w u) {x : Var} {v : Option InstrId}
    (h : u.Merges w x v u') : PhiLayout u'.graph w := by
  cases h with
  | outermost => exact p
  | replaced =>
    exact p.of_sameShape (Graph.sameShape_mapOp u.graph _ (Operation.similar_setSide _ _))
  | joined hframes _ hnone _ hplace => exact p.withPhi b (by simp [hframes]) hnone hplace
  | looped hframes _ hnone _ hplace _ =>
    have hb := b.withPhi (b.phiBlock_lt (by simp [hframes])) hnone hplace
    exact (p.withPhi b (by simp [hframes]) hnone hplace).of_sameShape
      (hb.redirected_redirectFrom _ _ _ _).1.shape

theorem carriesEach (p : PhiLayout u.graph w) (b : Built w u) {c : BlockId} {is : List InstrId}
    (h : Body.CarriesEach w c is u u') : PhiLayout u'.graph w := by
  induction h with
  | nil => exact p
  | cons _ hmerge _ ih => exact ih (p.merges b hmerge) (b.of_merges hmerge)

theorem carries (p : PhiLayout u.graph w) (b : Built w u) {c origin : BlockId}
    (h : u.Carries w c origin u') : PhiLayout u'.graph w := by
  cases h with
  | outermost => exact p.rebind (Graph.rebinds_inheritScope u.graph w.tail origin)
  | inner _ each => exact p.carriesEach b each

theorem pop (p : PhiLayout g w) : PhiLayout g w.pop := by
  refine p.of_listed (.refl g) (fun _ _ hr => hr) (fun _ => rfl) (fun _ => rfl) fun b hb => .inl ?_
  rw [Site.pop] at hb
  split at hb
  · rename_i f fs hframes
    rw [Site.targets_of_cons hframes]
    exact List.mem_cons_of_mem _ hb
  · exact hb

/-- **Every step keeps phis in place.** -/
theorem shift (p : PhiLayout u.graph w) (b : Built w u) (n : Numbered u.graph w)
    (h : Shift w u w' u') : PhiLayout u'.graph w' := by
  cases h with
  | retarget h =>
    exact p.of_listed h.samePhis (fun c r hr => by rw [h.skeleton.hasRole_eq, hr]) h.listed_eq
      h.isPhi_eq fun _ hc => .inl hc
  | receive h hphi hfills hclear => exact p.receive b.layout n h hphi hfills hclear
  | @assign _ x v _ hv _ hmerges =>
    exact (p.rebind (Graph.rebinds_bindIn _ w.tail x v)).merges (b.withBinding x hv) hmerges
  | openIf _ hopens =>
    refine p.opened hopens.stock (fun c r hr => by simp [hopens.hasRole_eq, hr]) fun c hc => ?_
    rcases List.mem_cons.1 hc with heq | hc
    · exact .inr (Nat.le_of_eq (heq.trans hopens.join_eq).symm)
    · exact .inl hc
  | openElse hframes _ _ hopens =>
    refine p.opened hopens.stock (fun c r hr => by simp [hopens.hasRole_eq, hr]) fun c hc => .inl ?_
    rw [Site.openElse, hframes] at hc
    rw [Site.targets_of_cons hframes]
    exact hc
  | openLoop _ hopens =>
    refine p.opened hopens.stock (fun c r hr => by simp [hopens.hasRole_eq, hr]) fun c hc => ?_
    rcases List.mem_cons.1 hc with heq | hc
    · exact .inr (heq ▸ hopens.size_le_exit)
    · exact .inl hc
  | close _ hgraph hleft _ hcarries =>
    rw [← hgraph] at p
    exact p.pop.carries hleft hcarries

/-- **Numbers and phis are in order in every state of a construction.** -/
theorem run {cs : List Body.Command} (h : Run w u cs w' u') (b : Built w u)
    (n : Numbered u.graph w) (p : PhiLayout u.graph w) :
    Numbered u'.graph w' ∧ PhiLayout u'.graph w' := by
  refine h.preserves_along (P := fun w u => Numbered u.graph w ∧ PhiLayout u.graph w) b ⟨n, p⟩ ?_
  intro _ _ _ _ _ _ _ _ _ hb hp hstep
  exact ⟨hp.1.shift hb (hstep.shift hb), hp.2.shift hb hp.1 (hstep.shift hb)⟩

end PhiLayout

/-! ## Closed constructs -/

/-- Construction has come to `b`, and `b` is not where an open construct has its phis. -/
structure Site.Closed (w : Site) (b : BlockId) : Prop where
  reached : b ∈ w.tail :: w.passed
  closed : ∀ f ∈ w.frames, f.phiBlock ≠ b

namespace Site.Closed

variable {g : Graph} {w w' : Site} {u u' : Body} {b : BlockId}

theorem lt_size (l : Layout g w) (hc : w.Closed b) : b < g.blocks.size := by
  rcases List.mem_cons.1 hc.reached with rfl | hb
  · exact l.tail_lt
  · exact l.passed_lt hb

/-- The block is behind construction when the tail has been passed. -/
theorem of_passed (hc : w.Closed b) (blocks : List BlockId)
    (hpassed : w'.passed = w.passed ++ blocks) (htail : w.tail ∈ blocks)
    (hclosed : ∀ f ∈ w'.frames, f.phiBlock ≠ b) : w'.Closed b := by
  refine ⟨List.mem_cons_of_mem _ ?_, hclosed⟩
  rw [hpassed]
  rcases List.mem_cons.1 hc.reached with rfl | hb
  · exact List.mem_append_right _ htail
  · exact List.mem_append_left _ hb

/-- Phis of other blocks are carried outward. -/
theorem phiOf_carries {c origin : BlockId} (hc : w.Closed b) (hb : Built w u)
    (h : u.Carries w c origin u') (x : Var) (i : InstrId) :
    u'.graph.PhiOf b x i ↔ u.graph.PhiOf b x i := by
  cases h with
  | outermost => exact (Graph.rebinds_inheritScope _ _ _).samePhis b x i
  | inner hne each =>
    obtain ⟨f, fs, hframes⟩ := List.exists_cons_of_ne_nil hne
    exact hb.phiOf_carriesEach hframes (hc.closed f (by simp [hframes])).symm each

/-- The phis of a closed block stay as they are, unless it is the tail and a loop can be opened with
it as the header.  The block is the tail afterwards only if it was and no construct has been opened
or left. -/
theorem shift (hc : w.Closed b)
    (hfixed : b = w.tail → u.graph.prev .branch b ≠ none ∨ u.graph.listed b ≠ [])
    (hb : Built w u) (h : Shift w u w' u') : w'.Closed b ∧
      (∀ x i, u'.graph.PhiOf b x i ↔ u.graph.PhiOf b x i) ∧
      (b = w'.tail → b = w.tail ∧ u.graph.SameSkeleton u'.graph) := by
  have hlt := hc.lt_size hb.layout
  cases h with
  | retarget h => exact ⟨hc, h.samePhis b, fun heq => ⟨heq, h.skeleton⟩⟩
  | receive h hphi => exact ⟨hc, h.samePhis hphi b, fun heq => ⟨heq, h.skeleton⟩⟩
  | @assign _ x v _ hv _ hmerges =>
    have hre := Graph.rebinds_bindIn u.graph w.tail x v
    have hb' := hb.withBinding x hv
    cases hframes : w.frames with
    | nil =>
      rw [hmerges.eq_of_outermost hframes]
      exact ⟨hc, hre.samePhis b, fun heq => ⟨heq, hre.skeleton⟩⟩
    | cons f fs =>
      have hne : b ≠ f.phiBlock := (hc.closed f (by simp [hframes])).symm
      refine ⟨hc, fun y i => ?_, fun heq =>
        ⟨heq, hre.skeleton.trans (hb'.grows hframes hmerges).skeleton⟩⟩
      rw [(hb'.gains hframes hmerges).phiOf_iff hne]
      exact hre.samePhis b y i
  | @openIf join side _ _ hopens =>
    refine ⟨hc.of_passed [w.tail] rfl (by simp) ?_, hopens.stock.samePhis b, fun heq => ?_⟩
    · refine List.forall_mem_cons.2 ⟨?_, hc.closed⟩
      rw [Frame.phiBlock_eq_target (by simp)]
      rintro rfl
      rw [hopens.join_eq] at hlt
      exact absurd hlt (Nat.lt_irrefl _)
    · rw [show b = side from heq, hopens.side_eq] at hlt
      exact absurd hlt Nat.not_succ_lt_self
  | @openElse f fs side _ hframes hpart _ hopens =>
    have hw := Site.openElse_eq hframes side
    rw [hw]
    have hclosed := hc.closed
    rw [hframes] at hclosed
    obtain ⟨hf, hfs⟩ := List.forall_mem_cons.1 hclosed
    refine ⟨hc.of_passed [w.tail] rfl (by simp) ?_, hopens.stock.samePhis b, ?_⟩
    · refine List.forall_mem_cons.2 ⟨?_, hfs⟩
      rw [Frame.phiBlock_eq_target (by simp [hpart])] at hf
      exact hf
    · rintro rfl
      rw [hopens.side_eq] at hlt
      exact absurd hlt (Nat.lt_irrefl _)
  | @openLoop head body exit _ _ hopens =>
    refine ⟨hc.of_passed (if head = w.tail then [w.tail] else [w.tail, head]) rfl ?_ ?_,
      hopens.stock.samePhis b, fun heq => ?_⟩
    · split <;> simp
    · refine List.forall_mem_cons.2 ⟨?_, hc.closed⟩
      rw [Frame.phiBlock_eq_test rfl]
      rcases hopens.head_eq with ⟨rfl, -, hnil, hprev⟩ | ⟨rfl, -⟩
      · rintro rfl
        exact (hfixed rfl).elim (fun h => h hprev) fun h => h hnil
      · rintro rfl
        exact Nat.lt_irrefl _ hlt
    · rw [show b = body from heq] at hlt
      have hhead := hopens.head_eq
      dsimp only [BlockId] at *
      omega
  | @close f fs u₀ _ hframes hgraph hleft _ hcarries =>
    have hpop := Site.pop_eq hframes
    have hclosed : w.pop.Closed b := by
      rw [hpop]
      exact hc.of_passed [w.tail] rfl (by simp) fun f' hf' => hc.closed f' (by simp [hframes, hf'])
    refine ⟨hclosed, fun x i => ?_, fun heq => ?_⟩
    · rw [← hgraph]
      exact hclosed.phiOf_carries hleft hcarries x i
    · rw [hpop] at heq
      exact absurd (heq ▸ List.mem_map_of_mem (by simp [hframes]))
        (hb.layout.target_not_reached hc.reached)

end Site.Closed

/-- No phi will be added to `b` any more: construction has come to it, no open construct has its
phis there, and no loop can be opened that would. -/
structure Sealed (g : Graph) (w : Site) (b : BlockId) : Prop where
  closed : w.Closed b
  entered : b = w.tail → g.prev .branch b ≠ none

namespace Sealed

variable {g : Graph} {w w' : Site} {u u' : Body} {b : BlockId}

/-- The block is behind construction when the tail has been passed. -/
theorem of_passed {g' : Graph} (hs : Sealed g w b) (blocks : List BlockId)
    (hpassed : w'.passed = w.passed ++ blocks) (htail : w.tail ∈ blocks) (hne : b ≠ w'.tail)
    (hclosed : ∀ f ∈ w'.frames, f.phiBlock ≠ b) : Sealed g' w' b :=
  ⟨hs.closed.of_passed blocks hpassed htail hclosed, fun h => absurd h hne⟩

theorem of_skeleton {g' : Graph} (hs : Sealed g w b) (h : g.SameSkeleton g') : Sealed g' w b :=
  ⟨hs.closed, by rw [h.prev_eq]; exact hs.entered⟩

/-- The phis of a construct that is being closed. -/
theorem of_pop (l : Layout g w) {f : Frame} {fs : List Frame} (hframes : w.frames = f :: fs) :
    Sealed g w.pop f.phiBlock := by
  have hpop := Site.pop_eq hframes
  have hf : f ∈ w.frames := by simp [hframes]
  have houter : ∀ f' ∈ fs, f'.phiBlock ≠ f.phiBlock := fun f' hf' => l.phiBlock_ne hframes hf'
  rw [hpop]
  rcases l.phiBlock_role hf with ⟨hpart, -⟩ | ⟨htarget, hrole⟩
  · have hpassed := l.behind f hf _ (Layout.test_mem_behind f)
    rw [Frame.phiBlock_eq_test hpart] at houter ⊢
    refine ⟨⟨List.mem_cons_of_mem _ (List.mem_append_left _ hpassed), houter⟩, fun heq => ?_⟩
    exact absurd (List.mem_map_of_mem hf) (heq ▸ l.passed_not_target hpassed)
  · exact ⟨⟨by rw [htarget]; exact List.mem_cons_self, houter⟩, fun _ =>
      l.branched _ (.inr (.inr hrole))⟩

/-- Phis of other blocks are carried outward. -/
theorem carries {c origin : BlockId} (hs : Sealed u.graph w b) (hb : Built w u)
    (h : u.Carries w c origin u') :
    Sealed u'.graph w b ∧ ∀ x i, u'.graph.PhiOf b x i ↔ u.graph.PhiOf b x i :=
  ⟨hs.of_skeleton (hb.skeleton_carries h), hs.closed.phiOf_carries hb h⟩

/-- **The phis of a sealed block stay as they are.** -/
theorem shift (hs : Sealed u.graph w b) (hb : Built w u) (h : Shift w u w' u') :
    Sealed u'.graph w' b ∧ ∀ x i, u'.graph.PhiOf b x i ↔ u.graph.PhiOf b x i := by
  obtain ⟨hc, hphis, htail⟩ := hs.closed.shift (fun heq => .inl (hs.entered heq)) hb h
  refine ⟨⟨hc, fun heq => ?_⟩, hphis⟩
  obtain ⟨heq', hskel⟩ := htail heq
  rw [hskel.prev_eq]
  exact hs.entered heq'

/-- **Closing a construct** seals the block of its phis, which stay as they are. -/
theorem close (hb : Built w u) {c : Body.Command} (h : Step w u c w' u') {f : Frame}
    {fs : List Frame} (hframes : w.frames = f :: fs)
    (hc : c = .closeIf f.test ∨ c = .closeLoop f.test) : Sealed u'.graph w' f.phiBlock ∧
      ∀ x i, u'.graph.PhiOf f.phiBlock x i ↔ u.graph.PhiOf f.phiBlock x i := by
  obtain ⟨f', fs', u₀, hframes', -, rfl, hgraph, hleft, -, hcarries⟩ := h.close_cases hb hc
  rw [hframes] at hframes'
  obtain ⟨rfl, rfl⟩ := List.cons.inj hframes'
  have hsealed : Sealed u₀.graph w.pop f.phiBlock := by
    rw [hgraph]
    exact .of_pop hb.layout hframes
  rw [← hgraph]
  exact hsealed.carries hleft hcarries

/-- The phis of a sealed block stay as they are in whatever follows. -/
theorem run (hs : Sealed u.graph w b) (hb : Built w u) {cs : List Body.Command}
    (h : Run w u cs w' u') :
    Sealed u'.graph w' b ∧ ∀ x i, u'.graph.PhiOf b x i ↔ u.graph.PhiOf b x i := by
  refine h.preserves_along (P := fun w' u' =>
    Sealed u'.graph w' b ∧ ∀ x i, u'.graph.PhiOf b x i ↔ u.graph.PhiOf b x i) hb
    ⟨hs, fun _ _ => Iff.rfl⟩ ?_
  intro cs₁ c cs₂ w₁ u₁ w₂ u₂ _ _ hb₁ hp hstep
  obtain ⟨hs₂, hphis⟩ := hp.1.shift hb₁ (hstep.shift hb₁)
  exact ⟨hs₂, fun x i => (hphis x i).trans (hp.2 x i)⟩

end Sealed
end StructuredSSA
