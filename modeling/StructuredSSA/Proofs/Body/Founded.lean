import StructuredSSA.Proofs.Body.Known
import StructuredSSA.Proofs.Body.Phis

/-!
# What is read has been computed

Whatever an instruction reads is computed earlier in its block, or in a block that dominates it; and
what a phi selects on one side is known in the block that this side comes from.

A new loop phi is read by instructions that are there already.  They have to be in the loop, and the
numbers of instructions tell that they are.

## What is here

* `Graph.Reads`, `Graph.Follows` — an instruction reads a value, and comes after it.
* `Graph.Selects` — a phi selects a value on one side.
* `Founded` — the invariant.
* `Founded.reads_absorbs`, `Founded.selects_absorbs`, `Founded.selects_new` — what a new phi
  changes.
* `Founded.replaced`, `Founded.absorbs`, `Founded.merges` — merging a value keeps it.
-/

set_option autoImplicit false

namespace StructuredSSA

namespace Operation

theorem isBranch_of_mem_operands {op : Operation} {o : Operand} (h : o ∈ op.operands) :
    op.isBranch = false := by
  cases op <;> first | rfl | cases h

theorem IsPhiOf.var_of_side? {op : Operation} {x : Var} (h : op.IsPhiOf x) {side : Side}
    {o : Operand} (ho : op.side? side = some o) : o.var = some x := by
  obtain ⟨l, r, rfl, hl, hr⟩ := h
  cases side <;> cases ho
  · exact hl
  · exact hr

end Operation

/-- A redirected operand is the one it was, or a read of the new value in the place of the old. -/
theorem Operand.redirect_cases {x : Var} {old : Option InstrId} {new : InstrId} (o : Operand) :
    o.redirect x old new = o ∨
      o = .through x old ∧ o.redirect x old new = .through x (some new) := by
  rw [redirect]
  split
  · rename_i h
    exact .inr ⟨h, rfl⟩
  · exact .inl rfl

namespace Graph

/-- The instruction `i`, which is no phi, reads `d`. -/
def Reads (g : Graph) (i d : InstrId) : Prop :=
  ∃ op o, g.op? i = some op ∧ op.isPhi = false ∧ o ∈ op.operands ∧ o.value = some d

/-- The phi `i` selects `d` on the given side. -/
def Selects (g : Graph) (i : InstrId) (side : Side) (d : InstrId) : Prop :=
  ∃ o, g.phiOperand? i side = some o ∧ o.value = some d

/-- The instruction `i` of `b` comes after `d`: `d` is listed before `i`, or in another block that
dominates `b`. -/
def Follows (g : Graph) (b : BlockId) (i d : InstrId) : Prop :=
  [d, i].Sublist (g.listed b) ∨ ∃ a, a ≠ b ∧ g.home? d = some a ∧ g.Dominates Body.head a b

variable {g g' : Graph} {b : BlockId} {d i : InstrId}

theorem Follows.mono (h : g.Follows b i d) (hext : g.Extends g') (hb : b < g.blocks.size)
    (hlisted : (g.listed b).Sublist (g'.listed b)) : g'.Follows b i d := by
  rcases h with h | ⟨a, hne, ha, hab⟩
  · exact .inl (h.trans hlisted)
  · exact .inr ⟨a, hne, hext.home? d a ha, hext.dominates a b hb hab⟩

theorem extends_of_absorbs {f : Frame} {x : Var} {before v : Option InstrId} {start : InstrId}
    (h : g.Absorbs f x before v start g') : g.Extends g' :=
  .of_sameSkeleton h.skeleton fun j c hj => by
    rw [h.home?_eq, if_neg (Nat.ne_of_lt (lt_nextId_of_home? hj)), hj]

end Graph

/-! ## The invariant -/

/-- **What is read has been computed.** -/
structure Founded (g : Graph) (w : Site) : Prop where
  /-- What was added in an open construct and reads anything is dominated by its test. -/
  later : ∀ f ∈ w.frames, ∀ i op b, f.start ≤ i → g.op? i = some op → op.operands ≠ [] →
    g.home? i = some b → g.Dominates Body.head f.test b
  plain : ∀ b i d, g.home? i = some b → g.Reads i d → g.Follows b i d
  phis : ∀ b i side, g.home? i = some b → g.isPhi i = true →
    ∃ q, g.entry side b = some q ∧ ∀ d, g.Selects i side d → g.Knows q d

namespace Founded

variable {g g' : Graph} {w w' : Site}

theorem start (options : Options) : Founded (Body.start options).graph .start where
  later f hf := by cases hf
  plain b i d hi := by
    rw [Graph.home?, Body.instr?_start] at hi
    cases hi
  phis b i side hi := by
    rw [Graph.home?, Body.instr?_start] at hi
    cases hi

/-- More instructions and other operands, in the same blocks. -/
theorem of_more (r : Founded g w) (l : Layout g w) (hc : g.Contents) (hskel : g.SameSkeleton g')
    (hext : g.Extends g') (hlisted : ∀ b, (g.listed b).Sublist (g'.listed b))
    (hlater : ∀ i op' b, g'.op? i = some op' → op'.operands ≠ [] → g'.home? i = some b →
      (∃ op, g.op? i = some op ∧ op.operands ≠ [] ∧ g.home? i = some b) ∨
      ∀ f ∈ w.frames, g.Dominates Body.head f.test b)
    (hplain : ∀ b i d, g'.home? i = some b → g'.Reads i d →
      g.home? i = some b ∧ g.Reads i d ∨ g'.Follows b i d)
    (hphis : ∀ b i side, g'.home? i = some b → g'.isPhi i = true →
      (g.home? i = some b ∧ g.isPhi i = true ∧ ∀ q, g.entry side b = some q →
        ∀ d, g'.Selects i side d → g.Selects i side d ∨ g'.Knows q d) ∨
      ∃ q, g.entry side b = some q ∧ ∀ d, g'.Selects i side d → g'.Knows q d) : Founded g' w where
  later f hf i op' b hi hop' hne hb := by
    refine hskel.dominates_iff.2 ?_
    rcases hlater i op' b hop' hne hb with ⟨op, hop, hne, hb⟩ | h
    · exact r.later f hf i op b hi hop hne hb
    · exact h f hf
  plain b i d hb hreads := by
    rcases hplain b i d hb hreads with ⟨hb, hreads⟩ | h
    · exact (r.plain b i d hb hreads).mono hext (hc.home_lt i b hb) (hlisted b)
    · exact h
  phis b i side hb hi := by
    rw [hskel.entry_eq]
    rcases hphis b i side hb hi with ⟨hb, hi, hselects⟩ | h
    · obtain ⟨q, hq, hknows⟩ := r.phis b i side hb hi
      refine ⟨q, hq, fun d hd => ?_⟩
      rcases hselects q hq d hd with hd | hd
      · exact (hknows d hd).extend hext (l.entry_lt hq)
      · exact hd
    · exact h

/-- The same instructions, with other bindings. -/
theorem rebind {b : BlockId} (r : Founded g w) (l : Layout g w) (hc : g.Contents)
    (h : g.Rebinds b g') : Founded g' w := by
  have hop : ∀ i, g'.op? i = g.op? i := h.op?_eq
  have hreads : ∀ i d, g'.Reads i d → g.Reads i d := fun i d => by
    simp only [Graph.Reads, hop]
    exact id
  have hselects : ∀ i side d, g'.Selects i side d → g.Selects i side d := fun i side d => by
    simp only [Graph.Selects, Graph.phiOperand?, hop]
    exact id
  refine r.of_more l hc h.skeleton (.of_rebinds h) (fun c => by rw [h.listed_eq]) ?_ ?_ ?_
  · intro i op' c hop' hne hi
    rw [hop] at hop'
    rw [h.home?_eq] at hi
    exact .inl ⟨op', hop', hne, hi⟩
  · intro c i d hi hr
    rw [h.home?_eq] at hi
    exact .inl ⟨hi, hreads i d hr⟩
  · intro c i side hi hphi
    rw [h.home?_eq] at hi
    rw [h.isPhi_eq] at hphi
    exact .inl ⟨hi, hphi, fun q _ d hd => .inl (hselects i side d hd)⟩

theorem retarget (r : Founded g w) (l : Layout g w) (hc : g.Contents) (h : g.Retargets g') :
    Founded g' w := by
  have hcalm := Graph.Calm.of_retargets h
  refine r.of_more l hc h.skeleton
    (.of_sameSkeleton h.skeleton fun i b hi => by rw [h.home?_eq, hi])
    (fun c => by rw [h.listed_eq]) ?_ ?_ ?_
  · intro i op' c hop' hne hi
    obtain ⟨o, ho⟩ := List.exists_mem_of_ne_nil _ hne
    rw [h.home?_eq] at hi
    exact .inl ⟨op', (h.op?_iff i op' (Operation.isBranch_of_mem_operands ho)).1 hop', hne, hi⟩
  · rintro c i d hi ⟨op, o, hop, hphi, ho, hd⟩
    rw [h.home?_eq] at hi
    exact .inl ⟨hi, op, o, (h.op?_iff i op (Operation.isBranch_of_mem_operands ho)).1 hop, hphi, ho,
      hd⟩
  · intro c i side hi hphi
    rw [h.home?_eq] at hi
    rw [hcalm.isPhi_eq] at hphi
    refine .inl ⟨hi, hphi, fun q _ d hd => .inl ?_⟩
    obtain ⟨o, ho, hd⟩ := hd
    rw [Graph.phiOperand?_congr fun o => hcalm.op?_phi] at ho
    exact ⟨o, ho, hd⟩

/-- An instruction is added to a block that knows what it reads. -/
theorem receive (r : Founded g w) (l : Layout g w) (hc : g.Contents) {c : BlockId} {op : Operation}
    (h : g.Receives c op g') (hphi : op.isPhi = false) (hclear : c = Body.head ∨ ¬ g.HasBranch c)
    (hinside : op.operands ≠ [] → ∀ f ∈ w.frames, g.Dominates Body.head f.test c)
    (hknown : ∀ o ∈ op.operands, ∀ d, o.value = some d → g.Knows c d) : Founded g' w := by
  have hcalm := Graph.Calm.of_receives h hphi hclear
  have hext : g.Extends g' := .of_sameSkeleton h.skeleton fun i b hi => by
    rw [h.home?_eq, if_neg (Nat.ne_of_lt (Graph.lt_nextId_of_home? hi)), hi]
  have hold : ∀ {i b}, i ≠ g.nextId → g'.home? i = some b → g.home? i = some b := fun hne hi => by
    rwa [h.home?_eq, if_neg hne] at hi
  have hlisted : ∀ b, (g.listed b).Sublist (g'.listed b) := fun b => by
    rw [h.listed_eq]
    split
    · rename_i hb
      rw [hb]
      exact List.sublist_append_left _ _
    · exact List.Sublist.refl _
  refine r.of_more l hc h.skeleton hext hlisted ?_ ?_ ?_
  · intro i op' b hop' hne hi
    obtain ⟨o, ho⟩ := List.exists_mem_of_ne_nil _ hne
    rcases (h.op?_iff i op' (Operation.isBranch_of_mem_operands ho)).1 hop' with
      ⟨rfl, rfl⟩ | ⟨hne', hop⟩
    · rw [h.home?_eq, if_pos rfl, Option.some.injEq] at hi
      exact .inr (hi ▸ hinside hne)
    · exact .inl ⟨op', hop, hne, hold hne' hi⟩
  · rintro b i d hi ⟨op', o, hop', hphi', ho, hd⟩
    rcases (h.op?_iff i op' (Operation.isBranch_of_mem_operands ho)).1 hop' with
      ⟨rfl, rfl⟩ | ⟨hne', hop⟩
    · rw [h.home?_eq, if_pos rfl, Option.some.injEq] at hi
      subst hi
      obtain ⟨a, ha, hdom⟩ := hknown o ho d hd
      by_cases hac : a = c
      · subst hac
        refine .inr (.inl ?_)
        rw [h.listed_eq, if_pos rfl]
        exact (List.singleton_sublist.2 ((hc.mem_listed _ _).2 ha)).append
          (List.Sublist.refl [g.nextId])
      · exact .inr (.inr ⟨a, hac, hext.home? d a ha, h.skeleton.dominates_iff.2 hdom⟩)
    · exact .inl ⟨hold hne' hi, op', o, hop, hphi', ho, hd⟩
  · intro b i side hi hphi'
    rw [hcalm.isPhi_eq] at hphi'
    have hne : i ≠ g.nextId := by
      rintro rfl
      rw [Graph.isPhi_eq, Graph.op?, Graph.Places.instr?_nextId] at hphi'
      cases hphi'
    refine .inl ⟨hold hne hi, hphi', fun q _ d hd => .inl ?_⟩
    obtain ⟨o, ho, hd⟩ := hd
    rw [Graph.phiOperand?_congr fun o => hcalm.op?_phi] at ho
    exact ⟨o, ho, hd⟩

/-- A construct or a side is opened: no instruction changes. -/
theorem opened (r : Founded g w) (l : Layout g w) (hc : g.Contents) (p : PhiLayout g w)
    (hstock : g.SameStock g') (hext : g.Extends g') (hentries : g.KeepsEntries w g')
    (hframes : ∀ f' ∈ w'.frames, f'.start = g.nextId ∨
      ∃ f ∈ w.frames, f'.start = f.start ∧ f'.test = f.test) : Founded g' w' := by
  have hop : ∀ i, g'.op? i = g.op? i := fun i => by rw [Graph.op?, hstock.instr?_eq, Graph.op?]
  have hhome : ∀ i, g'.home? i = g.home? i := fun i => by
    rw [Graph.home?, hstock.instr?_eq, Graph.home?]
  refine ⟨fun f' hf' i op b hi hop' hne hb => ?_, fun b i d hb hr => ?_, fun b i side hb hi => ?_⟩
  · rw [hop] at hop'
    rw [hhome] at hb
    rcases hframes f' hf' with hstart | ⟨f, hf, hstart, htest⟩
    · exact absurd (Graph.lt_nextId_of_op? hop') (Nat.not_lt.2 (hstart ▸ hi))
    · rw [htest]
      exact hext.dominates _ _ (hc.home_lt i b hb) (r.later f hf i op b (hstart ▸ hi) hop' hne hb)
  · rw [hhome] at hb
    refine (r.plain b i d hb ?_).mono hext (hc.home_lt i b hb) (by rw [hstock.listed_eq])
    simpa only [Graph.Reads, hop] using hr
  · rw [hhome] at hb
    have hphi : g.isPhi i = true := by rwa [Graph.isPhi_eq, hop, ← Graph.isPhi_eq] at hi
    obtain ⟨q, hq, hknows⟩ := r.phis b i side hb hphi
    have hmem := (hc.mem_listed b i).2 hb
    obtain ⟨x, hx⟩ := hc.exists_phiOf hmem hphi
    obtain ⟨q', hq', hdom⟩ := hentries b side q (hc.home_lt i b hb)
      (fun _ => List.ne_nil_of_mem hmem) (p.role b x i hx) hq
    refine ⟨q', hq', fun d hd => ((hknows d ?_).extend hext (l.entry_lt hq)).dominated hdom⟩
    simpa only [Graph.Selects, Graph.phiOperand?, hop] using hd

end Founded

namespace Founded

variable {w : Site} {u u' : Body} {f : Frame} {fs : List Frame} {x : Var} {v : Option InstrId}

/-- The side of a phi that is being built gets a value that is known at the tail. -/
theorem replaced (r : Founded u.graph w) (b : Built w u) (hb : Bare u.graph w)
    (hframes : w.frames = f :: fs) {i : InstrId} (hown : u.graph.OwnPhi f.phiBlock x i)
    (hv : ∀ d, v = some d → u.graph.Knows w.tail d) :
    Founded (u.graph.modifyInstr i (·.mapOp (·.setSide f.side v))) w := by
  have hshape := Graph.sameShape_mapOp u.graph i (Operation.similar_setSide f.side v)
  have hext := Graph.Extends.of_sameShape hshape
  refine r.of_more b.layout b.contents hshape.skeleton hext
    (fun c => by rw [hshape.listed_eq]) ?_ ?_ ?_
  · intro j op' c hop' hne hj
    obtain ⟨op, hop, hsim⟩ := hshape.op?_similar hop'
    rw [hshape.home?_eq] at hj
    refine .inl ⟨op, hop, fun hnil => hne ?_, hj⟩
    have := hsim.vars_eq
    rwa [hnil, List.map_nil, List.map_eq_nil_iff] at this
  · rintro c j d hj ⟨op', o, hop', hphi, ho, hd⟩
    rw [hshape.home?_eq] at hj
    have hne : i ≠ j := by
      rintro rfl
      have := hshape.isPhi_eq i
      rw [hown.2.1, Graph.isPhi_eq, hop', Option.any_some, hphi] at this
      cases this
    rw [Graph.op?_modifyInstr_mapOp, if_neg hne] at hop'
    exact .inl ⟨hj, op', o, hop', hphi, ho, hd⟩
  · intro c j side hj hphi
    rw [hshape.home?_eq] at hj
    rw [hshape.isPhi_eq] at hphi
    refine .inl ⟨hj, hphi, fun q hq d ⟨o, ho, hd⟩ => ?_⟩
    rw [Graph.phiOperand?, Graph.op?_modifyInstr_mapOp] at ho
    by_cases hij : i = j
    · subst hij
      obtain rfl : c = f.phiBlock := Option.some.inj (hj.symm.trans hown.2.2)
      rw [if_pos rfl, Option.bind_map, Option.bind_eq_some_iff] at ho
      obtain ⟨op, hop, ho⟩ := ho
      rw [Function.comp_apply, Operation.side?_setSide, Option.map_eq_some_iff] at ho
      obtain ⟨o', ho', rfl⟩ := ho
      have hold : u.graph.phiOperand? i side = some o' := by rw [Graph.phiOperand?, hop]; exact ho'
      by_cases hside : side = f.side
      · subst hside
        rw [hb.entry_side b.layout hframes, Option.some.injEq] at hq
        rw [if_pos rfl] at hd
        exact .inr (hq ▸ (hv d hd).extend hext b.layout.tail_lt)
      · rw [if_neg hside] at hd
        exact .inl ⟨o', hold, hd⟩
    · rw [if_neg hij] at ho
      exact .inl ⟨o, ho, hd⟩

/-- What the phis of the innermost construct select on the other side is known there. -/
theorem knows_other (l : Layout u.graph w) (hb : Bare u.graph w) (s : Spanned u.graph w)
    (rc : Recalled u.graph w) (hf : f ∈ w.frames) {side : Side} (hside : side ≠ f.side) :
    ∃ q, u.graph.entry side f.phiBlock = some q ∧ u.graph.KnowsAll q f.before := by
  by_cases hpart : f.part = .loopBody
  · have hfirst : side = .first := by
      cases side with
      | first => rfl
      | second => simp [Frame.side, hpart] at hside
    rw [hfirst, Frame.phiBlock_eq_test hpart]
    exact rc.entered f hf hpart
  · obtain ⟨q, hq, hentry, -⟩ := hb.entry_other l hf hpart hside
    exact ⟨q, hentry, (rc.before f hf).dominated (s.spans f hf q (by simp [hq]))⟩

/-! ## A new phi -/

section Absorbs

variable {before : Option InstrId} {start : InstrId} {g : Graph}

/-- Only instructions of a loop are redirected to the new phi, and its header comes before them. -/
theorem header_before (r : Founded u.graph w) (hf : f ∈ w.frames)
    (h : u.graph.Absorbs f x before v start g) {i : InstrId} {op : Operation} {o : Operand}
    {c : BlockId} (hop : u.graph.op? i = some op) (ho : o ∈ op.operands) (hge : start ≤ i)
    (hi : u.graph.home? i = some c) :
    f.phiBlock = f.test ∧ g.home? u.graph.nextId = some f.test ∧
      g.Dominates Body.head f.test c := by
  have hpart : f.part = .loopBody := by
    by_contra hpart
    exact absurd (Graph.lt_nextId_of_op? hop) (Nat.not_lt.2 (Nat.le_trans (h.start_join hpart) hge))
  have htest := Frame.phiBlock_eq_test hpart
  refine ⟨htest, ?_, h.skeleton.dominates_iff.2 ?_⟩
  · rw [h.home?_eq, if_pos rfl, htest]
  · exact r.later f hf _ _ _ (Nat.le_trans h.start_ge hge) hop (List.ne_nil_of_mem ho) hi

/-- An old instruction reads what it read, or the new phi, which comes before it. -/
theorem reads_absorbs (r : Founded u.graph w) (hf : f ∈ w.frames)
    (h : u.graph.Absorbs f x before v start g) (hc : g.Contents) (hlead : g.PhisLead f.phiBlock)
    {c : BlockId} {i d : InstrId} (hne : i ≠ u.graph.nextId) (hi : u.graph.home? i = some c)
    (hreads : g.Reads i d) : u.graph.Reads i d ∨ g.Follows c i d := by
  obtain ⟨op', o', hop', hphi, ho', hd⟩ := hreads
  obtain ⟨op, hop, rfl⟩ := (h.op?_old i op' hne (Operation.isBranch_of_mem_operands ho')).1 hop'
  by_cases hge : start ≤ i
  · simp only [if_pos hge] at ho' hphi
    rw [Operation.redirect, Operation.isPhi_mapOperands] at hphi
    rw [Operation.redirect, Operation.operands_mapOperands, List.mem_map] at ho'
    obtain ⟨o, ho, rfl⟩ := ho'
    rcases o.redirect_cases (x := x) with hsame | ⟨-, hmoved⟩
    · rw [hsame] at hd
      exact .inl ⟨op, o, hop, hphi, ho, hd⟩
    · rw [hmoved] at hd
      obtain rfl : u.graph.nextId = d := Option.some.inj hd
      obtain ⟨htest, hnew, hdom⟩ := r.header_before hf h hop ho hge hi
      refine .inr ?_
      by_cases hct : f.test = c
      · subst hct
        have hi' : g.home? i = some f.test := by rw [h.home?_eq, if_neg hne, hi]
        rw [htest] at hlead
        refine .inl (hlead.pair_sublist ((hc.mem_listed _ _).2 hnew) ((hc.mem_listed _ _).2 hi')
          ?_ ?_)
        · rw [Graph.isPhi_eq, h.op?_new]
          rfl
        · rw [Graph.isPhi_eq, hop', if_pos hge, Option.any_some, Operation.redirect,
            Operation.isPhi_mapOperands, hphi]
      · exact .inr ⟨f.test, hct, hnew, hdom⟩
  · simp only [if_neg hge] at ho' hphi
    exact .inl ⟨op, o', hop, hphi, ho', hd⟩

/-- An old phi selects what it selected, or the new phi, which is known where it is selected. -/
theorem selects_absorbs (r : Founded u.graph w) (b : Built w u) (hf : f ∈ w.frames)
    (h : u.graph.Absorbs f x before v start g) {c q : BlockId} {i d : InstrId} {side : Side}
    (hne : i ≠ u.graph.nextId) (hi : u.graph.home? i = some c) (hphi : u.graph.isPhi i = true)
    (hq : u.graph.entry side c = some q) (hselects : g.Selects i side d) :
    u.graph.Selects i side d ∨ g.Knows q d := by
  obtain ⟨o', ho', hd⟩ := hselects
  obtain ⟨op', hop', hside⟩ := Option.bind_eq_some_iff.1 ho'
  obtain ⟨op, hop, hopeq⟩ := (h.op?_old i op' hne
    (Operation.isBranch_of_isPhi (Operation.isPhi_of_side? hside))).1 hop'
  have hold : ∀ o, op.side? side = some o → u.graph.phiOperand? i side = some o := fun o ho => by
    rw [Graph.phiOperand?, hop]
    exact ho
  rw [hopeq] at hside
  by_cases hge : start ≤ i
  · rw [if_pos hge, Operation.redirect, Operation.side?_mapOperands, Option.map_eq_some_iff]
      at hside
    obtain ⟨o, ho, rfl⟩ := hside
    rcases o.redirect_cases (x := x) with hsame | ⟨heq, hmoved⟩
    · rw [hsame] at hd
      exact .inl ⟨o, hold o ho, hd⟩
    · rw [hmoved] at hd
      obtain rfl : u.graph.nextId = d := Option.some.inj hd
      obtain ⟨htest, hnew, hdom⟩ :=
        r.header_before hf h hop (Operation.mem_operands_of_side? ho) hge hi
      -- the header itself has no phi of the variable yet
      have htc : f.test ≠ c := by
        rintro rfl
        obtain ⟨y, hy⟩ := b.contents.exists_phiOf ((b.contents.mem_listed _ _).2 hi) hphi
        obtain ⟨-, op₁, hop₁, hisPhi⟩ := id hy
        obtain rfl : op = op₁ := Option.some.inj (hop.symm.trans hop₁)
        have hvar := hisPhi.var_of_side? ho
        rw [heq, Operand.through, Option.some.injEq] at hvar
        subst hvar
        rw [← htest] at hy
        exact h.absent i ((b.phiOf_iff_ownPhi hf).1 hy)
      have hsucc := h.skeleton.succ_iff.2 (b.layout.succ_of_entry hq)
      exact .inr ⟨f.test, hnew, hdom.of_succ htc hsucc⟩
  · rw [if_neg hge] at hside
    exact .inl ⟨o', hold o' hside, hd⟩

/-- What the new phi selects is known where it is selected. -/
theorem selects_new (b : Built w u) (hb : Bare u.graph w) (s : Spanned u.graph w)
    (rc : Recalled u.graph w) (hframes : w.frames = f :: fs) {σ : Var → Option InstrId}
    (m : f.Merged u.graph σ) (h : u.graph.Absorbs f x before v start g)
    (hv : ∀ d, v = some d → u.graph.Knows w.tail d) (side : Side) :
    ∃ q, u.graph.entry side f.phiBlock = some q ∧
      ∀ d, g.Selects u.graph.nextId side d → g.Knows q d := by
  have hf : f ∈ w.frames := by simp [hframes]
  have l := b.layout
  have hext := Graph.extends_of_absorbs h
  have hbefore : before = f.before x :=
    (l.meaning_eq (b.behind_lt hf (Layout.test_mem_behind f)) h.resolves).symm.trans
      (m.kept x h.absent).2.2
  have hoperand := Graph.phiOperand?_phi h.op?_new side
  by_cases hside : side = f.side
  · subst hside
    refine ⟨w.tail, hb.entry_side l hframes, ?_⟩
    rintro d ⟨o, ho, hd⟩
    refine (hv d ?_).extend hext l.tail_lt
    rw [hoperand, Option.some.injEq] at ho
    subst ho
    cases hpart : f.part <;> simpa [Frame.side, Frame.operands, hpart, Operand.through] using hd
  · obtain ⟨q, hq, hknows⟩ := knows_other l hb s rc hf hside
    refine ⟨q, hq, ?_⟩
    rintro d ⟨o, ho, hd⟩
    refine (hknows x d ?_).extend hext (l.entry_lt hq)
    rw [hoperand, Option.some.injEq] at ho
    subst ho
    rw [← hbefore]
    cases side <;> cases hpart : f.part <;>
      simp_all [Frame.side, Frame.operands, Operand.through]

/-- **A new phi** is read only where it is known. -/
theorem absorbs (r : Founded u.graph w) (b : Built w u) (hb : Bare u.graph w)
    (s : Spanned u.graph w) (rc : Recalled u.graph w) (hframes : w.frames = f :: fs)
    {σ : Var → Option InstrId} (m : f.Merged u.graph σ)
    (h : u.graph.Absorbs f x before v start g) (hc : g.Contents)
    (hlead : g.PhisLead f.phiBlock) (hv : ∀ d, v = some d → u.graph.Knows w.tail d) :
    Founded g w := by
  have hf : f ∈ w.frames := by simp [hframes]
  have hold : ∀ {i c}, i ≠ u.graph.nextId → g.home? i = some c → u.graph.home? i = some c :=
    fun hne hi => by rwa [h.home?_eq, if_neg hne] at hi
  have hnew : g.home? u.graph.nextId = some f.phiBlock := by rw [h.home?_eq, if_pos rfl]
  refine r.of_more b.layout b.contents h.skeleton (Graph.extends_of_absorbs h) h.listed_sublist
    (fun i op' c hop' hne hi => ?_) (fun c i d hi hreads => ?_) fun c i side hi hphi => ?_
  · by_cases hi' : i = u.graph.nextId
    · subst hi'
      rw [hnew, Option.some.injEq] at hi
      exact .inr fun f' hf' => hi ▸ s.dominates_phiBlock hframes hf'
    · obtain ⟨o', ho'⟩ := List.exists_mem_of_ne_nil _ hne
      obtain ⟨op, hop, rfl⟩ :=
        (h.op?_old i op' hi' (Operation.isBranch_of_mem_operands ho')).1 hop'
      refine .inl ⟨op, hop, fun hnil => hne ?_, hold hi' hi⟩
      split
      · rw [Operation.redirect, Operation.operands_mapOperands, hnil, List.map_nil]
      · exact hnil
  · have hi' : i ≠ u.graph.nextId := by
      rintro rfl
      obtain ⟨op', o', hop', hphi, -⟩ := hreads
      rw [h.op?_new, Option.some.injEq] at hop'
      rw [← hop'] at hphi
      cases hphi
    exact (r.reads_absorbs hf h hc hlead hi' (hold hi' hi) hreads).imp_left (⟨hold hi' hi, ·⟩)
  · by_cases hi' : i = u.graph.nextId
    · subst hi'
      rw [hnew, Option.some.injEq] at hi
      subst hi
      exact .inr (selects_new b hb s rc hframes m h hv side)
    · have hphi₀ : u.graph.isPhi i = true := by rwa [h.isPhi_old hi'] at hphi
      exact .inl ⟨hold hi' hi, hphi₀, fun q hq d hd =>
        r.selects_absorbs b hf h hi' (hold hi' hi) hphi₀ hq hd⟩

end Absorbs

/-- **Merging a value** that is known at the tail. -/
theorem merges (r : Founded u.graph w) (b : Built w u) (n : Numbered u.graph w)
    (p : PhiLayout u.graph w) (hb : Bare u.graph w) {σ : Var → Option InstrId}
    (hl : Levels u.graph σ w.frames) (s : Spanned u.graph w) (rc : Recalled u.graph w)
    (hv : ∀ d, v = some d → u.graph.Knows w.tail d) (h : u.Merges w x v u') :
    Founded u'.graph w := by
  cases hframes : w.frames with
  | nil =>
    rw [h.eq_of_outermost hframes]
    exact r
  | cons f fs =>
    rw [hframes] at hl
    rcases b.merge_cases n hframes h with ⟨i, hown, hg⟩ | ⟨before, start, habsorbs⟩
    · rw [hg]
      exact r.replaced b hb hframes hown hv
    · exact r.absorbs b hb s rc hframes hl.1 habsorbs (b.of_merges h).contents
        ((p.merges b h).leading _) hv

/-- Each phi of a construct that is left is merged into the construct around it. -/
theorem carriesEach (r : Founded u.graph w) (b : Built w u) (n : Numbered u.graph w)
    (p : PhiLayout u.graph w) (hb : Bare u.graph w)
    (htested : ∀ f ∈ w.frames, u.graph.HasBranch f.test)
    (hframes : w.frames = f :: fs) {c : BlockId} (hc : c < u.graph.blocks.size)
    (hdom : u.graph.Dominates Body.head c w.tail) {is : List InstrId} {σ : Var → Option InstrId}
    (hl : Levels u.graph σ w.frames) (s : Spanned u.graph w) (rc : Recalled u.graph w)
    (h : Body.CarriesEach w c is u u') : Founded u'.graph w ∧ Spanned u'.graph w ∧
      Recalled u'.graph w := by
  induction h generalizing σ with
  | nil => exact ⟨r, s, rc⟩
  | @cons i is x u u₁ u₂ hown hmerge rest ih =>
    have hgrows := b.grows hframes hmerge
    have hskel := hgrows.skeleton
    have hext := Graph.Extends.of_grows hgrows
    have hv : ∀ d, some i = some d → u.graph.Knows w.tail d := fun d hd => by
      cases hd
      exact ⟨c, hown.2.2, hdom⟩
    exact ih (r.merges b n p hb hl s rc hv hmerge) (b.of_merges hmerge)
      (n.grow b.layout hframes htested hgrows) (p.merges b hmerge) (hb.merges b n hmerge)
      (fun f' hf' => (hgrows.hasBranch_iff _).2 (htested f' hf')) ((hskel.lt_size_iff _).2 hc)
      (hskel.dominates_iff.2 hdom) (b.levels_merges n hmerge hl) (s.of_sameSkeleton hskel)
      (rc.of_sameSkeleton b.layout hskel hext)

end Founded

end StructuredSSA
