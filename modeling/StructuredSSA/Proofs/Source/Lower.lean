import StructuredSSA.Proofs.Body.Phis
import StructuredSSA.Source.Lower

/-!
# Lowering never stops

Lowering a statement where construction is ready for it succeeds, issues commands that each succeed,
and leaves construction ready for the next statement, in the same constructs.

## What is here

* `Ready` — construction stands at the tail, which is not left yet.
* `Script.Advances` — a script continued by a run.
* `Expr.LowersPair` — two operands, one after the other.
* `Expr.exists_lower`, `Test.exists_lower` — expressions and tests.
* `Script.exists_enterIf` and its like — the beginnings and ends of constructs.
* `Script.Stays`, `Script.Opens`, `Script.Encloses` — statements, constructs in progress and whole
  constructs.
* `Stmt.Spans` — a construct from its beginning to its end, with the block that holds its phis.
* `Stmt.exists_lower` — statements.
-/

set_option autoImplicit false

namespace StructuredSSA

/-- Construction stands at the tail, which is not left yet. -/
structure Ready (w : Site) (u : Body) : Prop where
  built : Built w u
  current_eq : u.current = w.tail
  clear : ¬ u.graph.HasBranch w.tail

theorem Ready.tested {w : Site} {u : Body} (r : Ready w u) :
    ∀ f ∈ w.frames, u.graph.HasBranch f.test :=
  r.built.tested r.current_eq

theorem Ready.clear_current {w : Site} {u : Body} (r : Ready w u) :
    ¬ u.graph.HasBranch u.current := by
  rw [r.current_eq]
  exact r.clear

theorem Ready.accepts {w : Site} {u : Body} (r : Ready w u) : w.Accepts u.current :=
  .inl r.current_eq

/-- Look-ups from the current block give what the variables mean at the tail. -/
theorem Ready.valueOf_eq {w : Site} {u : Body} (r : Ready w u) (x : Var) :
    u.valueOf x = .ok (u.graph.meaning w.tail x) := by
  obtain ⟨v, hv, hres⟩ := r.built.layout.exists_resolve r.built.current_lt x
  rw [← r.current_eq, r.built.layout.meaning_eq r.built.current_lt hres]
  exact hv

/-- `u'` has no branches in the blocks `bs` that `u` does not have. -/
def Body.Quiet (bs : List BlockId) (u u' : Body) : Prop :=
  ∀ c ∈ bs, u'.graph.HasBranch c → u.graph.HasBranch c

namespace Script

/-- The script `t'` continues `t` by a run from `w` to `w'`. -/
def Advances (w : Site) (t : Script) (w' : Site) (t' : Script) : Prop :=
  ∃ cs, t'.issued = t.issued ++ cs ∧ Run w t.body cs w' t'.body

namespace Advances

variable {w w₁ w' : Site} {t t₁ t' : Script}

theorem refl (w : Site) (t : Script) : Advances w t w t := ⟨[], (List.append_nil _).symm, .nil⟩

theorem trans (h : Advances w t w₁ t₁) (h' : Advances w₁ t₁ w' t') : Advances w t w' t' := by
  obtain ⟨cs, hcs, hrun⟩ := h
  obtain ⟨cs', hcs', hrun'⟩ := h'
  exact ⟨cs ++ cs', by rw [hcs', hcs, List.append_assoc], hrun.trans hrun'⟩

theorem of_step {c : Body.Command} {u : Body} (h : Step w t.body c w' u) :
    Advances w t w' (t.extend c u) :=
  ⟨[c], rfl, .single h⟩

end Advances
end Script

/-! ## Expressions -/

/-- What can be obtained can still be obtained when more instructions are there. -/
theorem Body.Obtains.mono {u u' : Body} {d : InstrId} (h : u.Obtains d)
    (hcurrent : u'.current = u.current) (hskel : u.graph.SameSkeleton u'.graph)
    (hbinding : ∀ b x, u'.graph.binding b x = u.graph.binding b x)
    (hhome : ∀ i b, u.graph.home? i = some b → u'.graph.home? i = some b)
    (hoffered : ∀ b k i, i ∈ (u.graph.offered b).candidates k →
      i ∈ (u'.graph.offered b).candidates k) : u'.Obtains d := by
  cases h with
  | meant x h =>
    refine .meant x ?_
    rw [hcurrent]
    exact h.congr (S := fun _ => True) (fun _ _ _ _ => trivial) (fun c _ => hbinding c x)
      (fun c _ => hskel.parent_eq c) trivial
  | head h => exact .head (hhome d _ h)
  | here h =>
    refine .here ?_
    rw [hcurrent]
    exact hhome d _ h
  | offered k h =>
    refine .offered k ?_
    rw [hcurrent]
    exact hoffered _ k d h

/-- What an operand is read through can still mean the same when more instructions are there. -/
theorem Body.Means.mono {u u' : Body} {o : Operand} (h : u.Means o)
    (hcurrent : u'.current = u.current) (hskel : u.graph.SameSkeleton u'.graph)
    (hbinding : ∀ b x, u'.graph.binding b x = u.graph.binding b x) : u'.Means o := by
  intro x hx
  rw [hcurrent]
  exact (h x hx).congr (S := fun _ => True) (fun _ _ _ _ => trivial) (fun c _ => hbinding c x)
    (fun c _ => hskel.parent_eq c) trivial

/-- What the commands of an expression leave alone. -/
structure Body.Adds (u u' : Body) : Prop where
  setting : u.SameSetting u'
  skeleton : u.graph.SameSkeleton u'.graph
  nextId_le : u.graph.nextId ≤ u'.graph.nextId
  hasBranch_iff : ∀ c, u'.graph.HasBranch c ↔ u.graph.HasBranch c
  obtains : ∀ d, u.Obtains d → u'.Obtains d
  means : ∀ o, u.Means o → u'.Means o
  phis : u.graph.SamePhis u'.graph
  listed_eq : ∀ b, b ≠ u.current → b ≠ Body.head → u'.graph.listed b = u.graph.listed b

namespace Body.Adds

variable {u u₁ u' : Body}

theorem refl (u : Body) : u.Adds u :=
  ⟨.refl u, .refl _, Nat.le_refl _, fun _ => Iff.rfl, fun _ h => h, fun _ h => h, .refl _,
    fun _ _ _ => rfl⟩

theorem trans (h : u.Adds u₁) (h' : u₁.Adds u') : u.Adds u' where
  setting := h.setting.trans h'.setting
  skeleton := h.skeleton.trans h'.skeleton
  nextId_le := Nat.le_trans h.nextId_le h'.nextId_le
  hasBranch_iff c := (h'.hasBranch_iff c).trans (h.hasBranch_iff c)
  obtains d hd := h'.obtains d (h.obtains d hd)
  means o ho := h'.means o (h.means o ho)
  phis := h.phis.trans h'.phis
  listed_eq b hb hhead := (h'.listed_eq b (h.setting.current_eq.symm ▸ hb) hhead).trans
    (h.listed_eq b hb hhead)

theorem clear (h : u.Adds u') (hu : ¬ u.graph.HasBranch u.current) :
    ¬ u'.graph.HasBranch u'.current := by
  rw [h.setting.current_eq, h.hasBranch_iff]
  exact hu

theorem accepts (h : u.Adds u') {w : Site} (hu : w.Accepts u.current) : w.Accepts u'.current := by
  rw [h.setting.current_eq]
  exact hu

/-- Two operands, the first of which was computed first. -/
theorem obtains_pair (h : u.Adds u') {a a' : Operand}
    (ha : ∀ i, a.value = some i → (u.graph.op? i).isSome = true ∧ u.Obtains i)
    (ha' : ∀ i, a'.value = some i → (u'.graph.op? i).isSome = true ∧ u'.Obtains i) :
    ∀ o ∈ [a, a'], ∀ d, o.value = some d → u'.Obtains d := by
  intro o ho d hd
  rcases List.mem_pair.1 ho with rfl | rfl
  · exact h.obtains d (ha d hd).2
  · exact (ha' d hd).2

theorem means_pair (h : u.Adds u') {a a' : Operand} (ha : u.Means a) (ha' : u'.Means a') :
    ∀ o ∈ [a, a'], u'.Means o := by
  intro o ho
  rcases List.mem_pair.1 ho with rfl | rfl
  · exact h.means o ha
  · exact ha'

theorem of_places {c : BlockId} {op : Operation} {g : Graph} (h : u.graph.Places c op g)
    (hphi : op.isPhi = false) (hop : op.isBranch = false) (hc : c = u.current ∨ c = Body.head) :
    u.Adds { u with graph := g } where
  setting := ⟨rfl, rfl, rfl⟩
  skeleton := h.skeleton
  nextId_le := by
    rw [h.nextId_eq]
    exact Nat.le_succ _
  hasBranch_iff c := by
    rw [Closable.hasBranch_place h, hop]
    simp
  obtains d hd := hd.mono rfl h.skeleton h.binding_eq
    (fun i b hi => by rw [h.home?_eq, if_neg (Nat.ne_of_lt (Graph.lt_nextId_of_home? hi)), hi])
    fun b k i hi => by
      rw [h.offered_eq]
      split
      · rename_i hb
        exact Available.mem_candidates_with (hb ▸ hi) _ _
      · exact hi
  means o ho := ho.mono rfl h.skeleton h.binding_eq
  phis := (Graph.Receives.of_places h hphi).samePhis hphi
  listed_eq b hb hhead := by
    rw [h.listed_eq, if_neg]
    rintro rfl
    exact hc.elim hb hhead

theorem of_retire (u : Body) (i e : InstrId) : u.Adds (u.retire i e) := by
  have hshape := Graph.sameShape_setStandIn u.graph i (some e)
  exact ⟨⟨rfl, rfl, rfl⟩, hshape.skeleton, Nat.le_of_eq hshape.nextId_eq.symm,
    fun c => Closable.hasBranch_congr hshape.isBranch_eq hshape.home?_eq c,
    fun d hd => hd.mono rfl hshape.skeleton hshape.binding_eq
      (fun j b hj => (hshape.home?_eq j).trans hj)
      fun b k j hj => (hshape.offered_eq b).symm ▸ hj,
    fun o ho => ho.mono rfl hshape.skeleton hshape.binding_eq, hshape.samePhis,
    fun b _ _ => hshape.listed_eq b⟩

theorem of_emits {op : Operation} {i : InstrId} (h : u.Emits op i u') (hphi : op.isPhi = false)
    (hop : op.isBranch = false) : u.Adds u' := by
  cases h with
  | reused => exact .refl u
  | retired _ hplace => exact (of_places hplace hphi hop (.inl rfl)).trans (of_retire _ _ _)
  | placed hplace => exact of_places hplace hphi hop (.inl rfl)

end Body.Adds

/-- The instruction that adding an operation returns exists. -/
theorem Body.Emits.op?_isSome {u u' : Body} {op : Operation} {i : InstrId} (h : u.Emits op i u') :
    (u'.graph.op? i).isSome = true := by
  cases h with
  | reused hop =>
    rw [hop]
    rfl
  | @retired e k oe g _ hplace =>
    have hshape := Graph.sameShape_setStandIn g u.graph.nextId (some e)
    have h := hshape.op?_isSome_eq u.graph.nextId
    rw [hplace.op?_new] at h
    exact h
  | placed hplace =>
    rw [hplace.op?_new]
    rfl

/-- The current block obtains it. -/
theorem Body.Emits.obtains {u u' : Body} {op : Operation} {i : InstrId} (h : u.Emits op i u') :
    u'.Obtains i := by
  cases h with
  | reused _ hoffer => exact .offered _ hoffer
  | @retired e k oe g _ hplace =>
    have hshape := Graph.sameShape_setStandIn g u.graph.nextId (some e)
    refine .here ((hshape.home?_eq u.graph.nextId).trans ?_)
    rw [hplace.home?_eq, if_pos rfl]
    rfl
  | placed hplace =>
    refine .here ?_
    rw [hplace.home?_eq, if_pos rfl]

namespace Script

variable {w : Site} {t : Script}

theorem emit_eq {op : Operation} {i : InstrId} {u : Body} (h : t.body.emit op = .ok (i, u)) :
    t.emit op = .ok (i, t.extend (.emit op) u) := by
  simp only [emit, h, bind, Except.bind, pure, Except.pure]

/-- Issuing a constant. -/
theorem exists_constant (b : Built w t.body) (v : Int64) : ∃ i t', t.constant v = .ok (i, t') ∧
    t.Advances w w t' ∧ t.body.Adds t'.body ∧ Built w t'.body ∧
    (t'.body.graph.op? i).isSome = true ∧ t'.body.Obtains i := by
  obtain ⟨i, u, hconst, hb, hcase⟩ := b.constant v
  refine ⟨i, t.extend (.constant v) u, ?_, ?_⟩
  · simp only [constant, hconst, bind, Except.bind, pure, Except.pure]
  · have hexec : (t.body.exec (.constant v)).map Prod.snd = .ok u := by
      simp only [Body.exec, hconst, Body.namingInstr, Except.map]
    rcases hcase with ⟨rfl, hop, hhome⟩ | ⟨rfl, g, rfl, hplace⟩
    · exact ⟨.of_step ⟨hexec, .found hop, hb⟩, .refl _, hb, by rw [extend, hop]; rfl, .head hhome⟩
    · refine ⟨.of_step ⟨hexec, .constant hplace, hb⟩, .of_places hplace rfl rfl (.inr rfl), hb, ?_,
        .head ?_⟩
      · rw [extend, hplace.op?_new]
        rfl
      · rw [extend, hplace.home?_eq, if_pos rfl]

/-- Issuing an operation that is neither a phi nor a branch. -/
theorem exists_emit (b : Built w t.body) (op : Operation) (hphi : op.isPhi = false)
    (hbr : op.isBranch = false) (hplace : w.Accepts t.body.current)
    (hreads : ∀ o ∈ op.operands, ∀ d, o.value = some d → t.body.Obtains d)
    (hmeans : ∀ o ∈ op.operands, t.body.Means o)
    (hclear : ¬ t.body.graph.HasBranch t.body.current) :
    ∃ i t', t.emit op = .ok (i, t') ∧
    t.Advances w w t' ∧ t.body.Adds t'.body ∧ Built w t'.body ∧
    (t'.body.graph.op? i).isSome = true ∧ t'.body.Obtains i := by
  obtain ⟨i, u, hemit, hemits, hb⟩ := b.emit hphi hbr
  refine ⟨i, t.extend (.emit op) u, emit_eq hemit,
    .of_step ⟨?_, .emit hphi hbr hplace hreads hclear hemits hmeans, hb⟩,
    .of_emits hemits hphi hbr, hb, hemits.op?_isSome, hemits.obtains⟩
  simp only [Body.exec, hemit, Body.namingInstr, Except.map]

end Script

namespace Expr

/-- Lowering `e` succeeds wherever construction stands. -/
def Lowers (e : Expr) : Prop :=
  ∀ {w : Site} {t : Script}, Built w t.body → w.Accepts t.body.current →
    ¬ t.body.graph.HasBranch t.body.current →
    ∃ o t', e.lower t = .ok (o, t') ∧ t.Advances w w t' ∧ t.body.Adds t'.body ∧ Built w t'.body ∧
      (∀ i, o.value = some i → (t'.body.graph.op? i).isSome = true ∧ t'.body.Obtains i) ∧
      t'.body.Means o

/-- `l.LowersPair r w t o₁ t₁ o₂ t₂`: lowering `l` from `t` leads to `t₁` and lowering `r` from
there to `t₂`, where the operands `o₁` and `o₂` can be read. -/
structure LowersPair (l r : Expr) (w : Site) (t : Script) (o₁ : Operand) (t₁ : Script)
    (o₂ : Operand) (t₂ : Script) : Prop where
  left_eq : l.lower t = .ok (o₁, t₁)
  right_eq : r.lower t₁ = .ok (o₂, t₂)
  left : t.Advances w w t₁
  right : t₁.Advances w w t₂
  addsLeft : t.body.Adds t₁.body
  addsRight : t₁.body.Adds t₂.body
  built : Built w t₂.body
  obtains : ∀ o ∈ [o₁, o₂], ∀ d, o.value = some d → t₂.body.Obtains d
  means : ∀ o ∈ [o₁, o₂], t₂.body.Means o

theorem LowersPair.advances {l r : Expr} {w : Site} {t t₁ t₂ : Script} {o₁ o₂ : Operand}
    (h : l.LowersPair r w t o₁ t₁ o₂ t₂) : t.Advances w w t₂ :=
  h.left.trans h.right

theorem LowersPair.adds {l r : Expr} {w : Site} {t t₁ t₂ : Script} {o₁ o₂ : Operand}
    (h : l.LowersPair r w t o₁ t₁ o₂ t₂) : t.body.Adds t₂.body :=
  h.addsLeft.trans h.addsRight

/-- **Two operands** are lowered one after the other. -/
theorem Lowers.pair {l r : Expr} (hl : l.Lowers) (hr : r.Lowers) {w : Site} {t : Script}
    (b : Built w t.body) (hplace : w.Accepts t.body.current)
    (hclear : ¬ t.body.graph.HasBranch t.body.current) :
    ∃ o₁ t₁ o₂ t₂, l.LowersPair r w t o₁ t₁ o₂ t₂ := by
  obtain ⟨o₁, t₁, hl, hadv₁, hadds₁, hb₁, ho₁, hm₁⟩ := hl b hplace hclear
  obtain ⟨o₂, t₂, hr, hadv₂, hadds₂, hb₂, ho₂, hm₂⟩ :=
    hr hb₁ (hadds₁.accepts hplace) (hadds₁.clear hclear)
  exact ⟨o₁, t₁, o₂, t₂, hl, hr, hadv₁, hadv₂, hadds₁, hadds₂, hb₂, hadds₂.obtains_pair ho₁ ho₂,
    hadds₂.means_pair hm₁ hm₂⟩

/-- **Lowering an expression** succeeds where construction stands. -/
theorem exists_lower (e : Expr) : e.Lowers := by
  intro w t b hplace hclear
  induction e generalizing w t with
  | var x =>
    obtain ⟨v, hv, hres⟩ := b.layout.exists_resolve b.current_lt x
    refine ⟨.through x v, t, ?_, .refl w t, .refl _, b, fun i hi => ?_, fun y hy => ?_⟩
    · simp only [lower, Body.readVar, Body.valueOf, hv, bind, Except.bind, pure, Except.pure]
    · rw [show v = some i from hi] at hres
      obtain ⟨c, hc⟩ := hres.exists_binding (by simp)
      exact ⟨b.contents.bound c x i hc, .meant x hres⟩
    · cases hy
      exact hres
  | lit v =>
    obtain ⟨i, t', hconst, hadv, hadds, hb, hi⟩ := Script.exists_constant b v
    refine ⟨.result i, t', ?_, hadv, hadds, hb, fun j hj => ?_, by nofun⟩
    · simp only [lower, hconst, bind, Except.bind, pure, Except.pure]
    · cases hj
      exact hi
  | read =>
    obtain ⟨i, t', hemit, hadv, hadds, hb, hi⟩ :=
      Script.exists_emit b .read rfl rfl hplace (by nofun) (by nofun) hclear
    refine ⟨.result i, t', ?_, hadv, hadds, hb, fun j hj => ?_, by nofun⟩
    · simp only [lower, hemit, bind, Except.bind, pure, Except.pure]
    · cases hj
      exact hi
  | arith op l r ihl ihr =>
    obtain ⟨a, t₁, a', t₂, h⟩ := Lowers.pair ihl ihr b hplace hclear
    obtain ⟨i, t', hemit, hadv, hadds, hb, hi⟩ :=
      Script.exists_emit h.built (.binary (.arith op) a a') rfl rfl
        (h.adds.accepts hplace) h.obtains
        h.means (h.adds.clear hclear)
    refine ⟨.result i, t', ?_, h.advances.trans hadv, h.adds.trans hadds, hb, fun j hj => ?_,
      by nofun⟩
    · simp only [lower, h.left_eq, h.right_eq, hemit, bind, Except.bind, pure, Except.pure]
    · cases hj
      exact hi

/-- Two expressions are lowered one after the other. -/
theorem exists_pair (l r : Expr) {w : Site} {t : Script} (b : Built w t.body)
    (hplace : w.Accepts t.body.current) (hclear : ¬ t.body.graph.HasBranch t.body.current) :
    ∃ o₁ t₁ o₂ t₂, l.LowersPair r w t o₁ t₁ o₂ t₂ :=
  Lowers.pair l.exists_lower r.exists_lower b hplace hclear

end Expr

/-- **Lowering a test** completes the innermost construct that is waiting for one. -/
theorem Test.exists_lower (c : Test) {w : Site} {t : Script} {f : Frame} {fs : List Frame}
    (b : Built w t.body) (hframes : w.frames = f :: fs) (hcurrent : t.body.current = f.test)
    (hclear : ¬ t.body.graph.HasBranch f.test) :
    ∃ t', c.lower t = .ok t' ∧ t.Advances w w t' ∧ Built w t'.body ∧
      t.body.SameSetting t'.body ∧ t.body.graph.SameSkeleton t'.body.graph ∧
      t.body.graph.SamePhis t'.body.graph ∧
      (∀ d, t'.body.graph.HasBranch d ↔ t.body.graph.HasBranch d ∨ d = f.test) ∧
      ∀ d, d ≠ f.test → d ≠ Body.head → t'.body.graph.listed d = t.body.graph.listed d := by
  have hclear₀ : ¬ t.body.graph.HasBranch t.body.current := hcurrent ▸ hclear
  have hplace₀ : w.Accepts t.body.current := .inr ⟨f, fs, hframes, hcurrent⟩
  obtain ⟨a, t₁, a', t₂, h⟩ := c.lhs.exists_pair c.rhs b hplace₀ hclear₀
  obtain ⟨i, t₃, hcmp, hadv₃, hadds₃, hb₃, -⟩ := Script.exists_emit h.built (.binary .cmp a a')
    rfl rfl (h.adds.accepts hplace₀) h.obtains h.means (h.adds.clear hclear₀)
  have hadds := h.adds.trans hadds₃
  have hcurrent₃ : t₃.body.current = f.test := by rw [hadds.setting.current_eq, hcurrent]
  have hclear₃ : ¬ t₃.body.graph.HasBranch t₃.body.current := by
    rw [hcurrent₃, hadds.hasBranch_iff]
    exact hclear
  obtain ⟨g, hemit, hplace, hb⟩ := hb₃.emitTest (f := f) (by simp [hframes]) hcurrent₃ hclear₃
    (.whenever c.rel.negate)
  refine ⟨t₃.extend (.emit (.branch (.whenever c.rel.negate) none)) { t₃.body with graph := g },
    ?_, (h.advances.trans hadv₃).trans (.of_step ⟨?_, ?_, hb⟩), hb, ?_, ?_, ?_, fun d => ?_,
    fun d hd hhead => ?_⟩
  · simp only [lower, h.left_eq, h.right_eq, hcmp, Script.emit_eq hemit, bind, Except.bind, pure,
      Except.pure]
  · simp only [Body.exec, hemit, Body.namingInstr, Except.map]
  · exact .test hframes hcurrent₃ hclear₃ hplace
  · exact hadds.setting.trans ⟨rfl, rfl, rfl⟩
  · exact hadds.skeleton.trans hplace.skeleton
  · exact hadds.phis.trans ((Graph.Receives.of_places hplace rfl).samePhis rfl)
  · change g.HasBranch d ↔ _
    rw [Closable.hasBranch_place hplace, hadds.hasBranch_iff, hcurrent₃]
    simp [Operation.isBranch]
  · change g.listed d = _
    rw [hplace.listed_eq, hcurrent₃, if_neg hd]
    exact hadds.listed_eq d (hcurrent.symm ▸ hd) hhead

/-! ## Constructs -/

namespace Graph

theorem follow_eq {g : Graph} {e : Edge} {b c : BlockId} (h : g.next e b = some c) :
    g.follow e b = .ok c := by
  obtain ⟨blk, hblk, hblk'⟩ := exists_block_ok (lt_size_of_next h)
  rw [next, hblk', Option.bind_some] at h
  simp only [follow, hblk, h, expect, bind, Except.bind]

theorem followBack_eq {g : Graph} {e : Edge} {b c : BlockId} (hc : c < g.blocks.size)
    (h : g.prev e c = some b) : g.followBack e c = .ok b := by
  obtain ⟨blk, hblk, hblk'⟩ := exists_block_ok hc
  rw [prev, hblk', Option.bind_some] at h
  simp only [followBack, hblk, h, expect, bind, Except.bind]

end Graph

namespace Script

variable {w : Site} {t : Script}

theorem advances_moveTo (b : Built w t.body) {c : BlockId} (hc : c < t.body.graph.blocks.size)
    (htested : ∀ f ∈ w.frames, t.body.graph.HasBranch f.test) :
    t.Advances w w (t.moveTo c) ∧ Built w (t.moveTo c).body :=
  ⟨.of_step ⟨rfl, .moveTo hc htested, b.moveTo hc htested⟩, b.moveTo hc htested⟩

/-- How an if begins: in `t₀` it has been opened, which leads to the site `w₁`, and in `t₁` it has
its test.  Then construction moves to the then side. -/
structure EntersIf (w : Site) (t : Script) (c : Test) (join side : BlockId) (w₁ : Site)
    (t₀ t₁ : Script) : Prop where
  enter_eq : t.enterIf c = .ok (w.tail, join, t₁.moveTo side)
  site_eq : w₁ = w.openIf join side (t.body.graph.meaning w.tail) t.body.graph.nextId
  opens : t.body.graph.OpensIf w.tail join side t₀.body.graph
  begins : t.Advances w w₁ t₀
  current_eq : t₀.body.current = w.tail
  clear : ¬ t₀.body.graph.HasBranch w.tail
  lower_eq : c.lower t₀ = .ok t₁
  tests : t₀.Advances w₁ w₁ t₁
  moves : t₁.Advances w₁ w₁ (t₁.moveTo side)
  ready : Ready w₁ (t₁.moveTo side).body
  quiet : Body.Quiet w.passed t.body t₁.body
  phis : t.body.graph.SamePhis t₁.body.graph
  empty : t₁.body.graph.listed side = []

/-- **Beginning an if.** -/
theorem exists_enterIf (r : Ready w t.body) (c : Test) :
    ∃ join side w₁ t₀ t₁, t.EntersIf w c join side w₁ t₀ t₁ := by
  obtain ⟨join, side, g, hopen, hopens, hb⟩ := r.built.openIf r.current_eq
    (t.body.graph.meaning w.tail) t.body.graph.nextId
  let t₁ : Script := t.extend .openIf { t.body with graph := g }
  have hstep : t.Advances w (w.openIf join side (t.body.graph.meaning w.tail) t.body.graph.nextId)
      t₁ := .of_step ⟨by simp only [Body.exec, hopen, Body.namingBlock, Except.map],
        .openIf r.current_eq r.clear hopens, hb⟩
  have hbranch : ∀ d, g.HasBranch d ↔ t.body.graph.HasBranch d :=
    Closable.hasBranch_sameStock hopens.stock
  have hclear : ¬ t₁.body.graph.HasBranch w.tail := fun h => r.clear ((hbranch _).1 h)
  obtain ⟨t₂, hlower, hadv, hb₂, hset, hskel, hphis, hbranch₂, hlisted⟩ :=
    c.exists_lower (t := t₁) hb rfl (by exact r.current_eq) hclear
  have hside : t₂.body.graph.next .fall w.tail = some side := by
    rw [hskel.next_eq]
    exact hopens.fall_parent
  have htested : ∀ f ∈ (w.openIf join side (t.body.graph.meaning w.tail)
    t.body.graph.nextId).frames,
      t₂.body.graph.HasBranch f.test := by
    intro f hf
    rw [hbranch₂]
    rcases List.mem_cons.1 hf with rfl | hf
    · exact .inr rfl
    · exact .inl ((hbranch _).2 (r.tested f hf))
  obtain ⟨hadv₃, hb₃⟩ := advances_moveTo hb₂ (hb₂.layout.linked.target_lt hside) htested
  have htail : w.tail < t.body.graph.blocks.size := r.built.layout.tail_lt
  have hsize : t.body.graph.blocks.size < side := by
    rw [hopens.side_eq]
    exact Nat.lt_succ_self _
  have hempty : t₂.body.graph.listed side = [] := by
    rw [hlisted side (Nat.ne_of_gt (Nat.lt_trans htail hsize))
      (Nat.ne_of_gt (Nat.zero_lt_of_lt hsize))]
    exact (hopens.stock.listed_eq side).trans (Graph.listed_eq_nil_of_size_le (Nat.le_of_lt hsize))
  refine ⟨join, side, _, t₁, t₂, ?_, rfl, hopens, hstep, r.current_eq, hclear, hlower, hadv, hadv₃,
    ⟨hb₃, rfl, ?_⟩, ?_, hopens.stock.samePhis.trans hphis, hempty⟩
  · have hopen' : t.openIf = .ok (w.tail, t₁) := by
      simp only [openIf, hopen, bind, Except.bind, pure, Except.pure]
      rfl
    have hjoin : t₁.body.graph.follow .branch w.tail = .ok join :=
      Graph.follow_eq hopens.branch_parent
    simp only [enterIf, hopen', hjoin, hlower, Graph.follow_eq hside, bind, Except.bind, pure,
      Except.pure]
  · intro h
    rcases (hbranch₂ _).1 h with h | h
    · exact Closable.not_hasBranch_of_size_le r.built.contents (Nat.le_of_lt hsize)
        ((hbranch _).1 h)
    · exact Nat.ne_of_gt (Nat.lt_trans htail hsize) h
  · intro d hd h
    rcases (hbranch₂ d).1 h with h | h
    · exact (hbranch d).1 h
    · exact absurd hd (by rw [h]; exact r.built.layout.tail_not_passed)

/-- How the else side of the if `f` begins: in `t₀` it has been opened.  Then construction moves
there. -/
structure EntersElse (w : Site) (f : Frame) (t : Script) (side : BlockId) (t₀ : Script) : Prop where
  enter_eq : t.enterElse f.test = .ok (t₀.moveTo side)
  opens : t.body.graph.OpensElse f.test f.target w.tail side t₀.body.graph
  begins : t.Advances w (w.openElse side) t₀
  moves : t₀.Advances (w.openElse side) (w.openElse side) (t₀.moveTo side)
  ready : Ready (w.openElse side) (t₀.moveTo side).body
  hasBranch_iff : ∀ c, t₀.body.graph.HasBranch c ↔ t.body.graph.HasBranch c

/-- **Turning to the else side.** -/
theorem exists_enterElse (r : Ready w t.body) {f : Frame} {fs : List Frame}
    (hframes : w.frames = f :: fs) (hpart : f.part = .thenSide) :
    ∃ side t₀, t.EntersElse w f side t₀ := by
  obtain ⟨side, g, hopen, hopens, hb⟩ := r.built.openElse hframes hpart
  let t₁ : Script := t.extend (.openElse f.test) { t.body with graph := g }
  have hstep : t.Advances w (w.openElse side) t₁ :=
    .of_step ⟨by simp only [Body.exec, hopen, Body.namingBlock, Except.map],
      .openElse hframes hpart r.current_eq r.clear hopens, hb⟩
  have hbranch : ∀ d, g.HasBranch d ↔ t.body.graph.HasBranch d :=
    Closable.hasBranch_sameStock hopens.stock
  have hw := Site.openElse_eq hframes side
  have htail : (w.openElse side).tail = side := by rw [hw]
  have htested : ∀ f' ∈ (w.openElse side).frames, t₁.body.graph.HasBranch f'.test := by
    intro f' hf'
    refine (hbranch _).2 ?_
    rw [hw] at hf'
    rcases List.mem_cons.1 hf' with rfl | hf'
    · exact r.tested f (by simp [hframes])
    · exact r.tested f' (by simp [hframes, hf'])
  have hlt : side < g.blocks.size := htail ▸ hb.layout.tail_lt
  obtain ⟨hadv, hb₁⟩ := advances_moveTo (t := t₁) hb hlt htested
  refine ⟨side, t₁, ?_, hopens, hstep, hadv, ⟨hb₁, htail.symm, ?_⟩, hbranch⟩
  · have hopen' : t.openElse f.test = .ok (side, t₁) := by
      simp only [openElse, hopen, bind, Except.bind, pure, Except.pure]
      rfl
    simp only [enterElse, hopen', bind, Except.bind, pure, Except.pure]
  · intro h
    rw [htail] at h
    exact Closable.not_hasBranch_of_size_le r.built.contents (Nat.le_of_eq hopens.side_eq.symm)
      ((hbranch _).1 h)

/-- How a loop begins: in `t₀` it has been opened, which leads to the site `w₁`, and in `t₁` it has
its test.  Then construction moves to the body. -/
structure EntersLoop (w : Site) (t : Script) (c : Test) (head body exit : BlockId) (w₁ : Site)
    (t₀ t₁ : Script) : Prop where
  enter_eq : t.enterLoop c = .ok (head, t₁.moveTo body)
  site_eq : w₁ = w.openLoop head body exit (t.body.graph.meaning w.tail) t.body.graph.nextId
  opens : t.body.graph.OpensLoop w.tail head body exit t₀.body.graph
  begins : t.Advances w w₁ t₀
  current_eq : t₀.body.current = head
  clear : ¬ t₀.body.graph.HasBranch head
  lower_eq : c.lower t₀ = .ok t₁
  tests : t₀.Advances w₁ w₁ t₁
  moves : t₁.Advances w₁ w₁ (t₁.moveTo body)
  ready : Ready w₁ (t₁.moveTo body).body
  quiet : Body.Quiet w.passed t.body t₁.body
  phis : t.body.graph.SamePhis t₁.body.graph
  fresh : head ∉ w.passed ++ w.targets
  empty : t₁.body.graph.listed body = []

/-- **Beginning a loop.** -/
theorem exists_enterLoop (r : Ready w t.body) (c : Test) :
    ∃ head body exit w₁ t₀ t₁, t.EntersLoop w c head body exit w₁ t₀ t₁ := by
  obtain ⟨head, body, exit, g, hopen, hopens, hb⟩ := r.built.openLoop r.current_eq
    (t.body.graph.meaning w.tail) t.body.graph.nextId
  let u : Body :=
    { t.body with
      graph := g, current := head, loopStarts := t.body.graph.nextId :: t.body.loopStarts }
  let t₁ : Script := t.extend .openLoop u
  have hstep : t.Advances w
      (w.openLoop head body exit (t.body.graph.meaning w.tail) t.body.graph.nextId) t₁ :=
    .of_step ⟨by simp only [Body.exec, hopen, Body.namingBlock, Except.map]; rfl,
      .openLoop r.current_eq r.clear hopens, hb⟩
  have hbranch : ∀ d, g.HasBranch d ↔ t.body.graph.HasBranch d :=
    Closable.hasBranch_sameStock hopens.stock
  have hclear : ¬ g.HasBranch head := by
    rw [hbranch]
    rcases hopens.head_cases with h | h
    · rw [h]
      exact r.clear
    · exact Closable.not_hasBranch_of_size_le r.built.contents h
  obtain ⟨t₂, hlower, hadv, hb₂, hset, hskel, hphis, hbranch₂, hlisted⟩ :=
    c.exists_lower (t := t₁) hb rfl rfl hclear
  have hside : t₂.body.graph.next .fall head = some body := by
    rw [hskel.next_eq]
    exact hopens.fall_head
  have htested : ∀ f ∈
      (w.openLoop head body exit (t.body.graph.meaning w.tail) t.body.graph.nextId).frames,
      t₂.body.graph.HasBranch f.test := by
    intro f hf
    rw [hbranch₂]
    rcases List.mem_cons.1 hf with rfl | hf
    · exact .inr rfl
    · exact .inl ((hbranch _).2 (r.tested f hf))
  obtain ⟨hadv₃, hb₃⟩ := advances_moveTo hb₂ (hb₂.layout.linked.target_lt hside) htested
  have hbody : t.body.graph.blocks.size ≤ body ∧ head ≠ body :=
    ⟨hopens.size_le_body, (hopens.distinct r.built.layout.tail_lt).1⟩
  have hempty : t₂.body.graph.listed body = [] := by
    rw [hlisted body hbody.2.symm
      (Nat.ne_of_gt (Nat.lt_of_le_of_lt (Nat.zero_le _)
        (Nat.lt_of_lt_of_le r.built.layout.tail_lt hbody.1)))]
    exact (hopens.stock.listed_eq body).trans (Graph.listed_eq_nil_of_size_le hbody.1)
  refine ⟨head, body, exit, _, t₁, t₂, ?_, rfl, hopens, hstep, rfl, hclear, hlower, hadv, hadv₃,
    ⟨hb₃, rfl, ?_⟩, ?_, hopens.stock.samePhis.trans hphis, ?_, hempty⟩
  · have hopen' : t.openLoop = .ok (head, t₁) := by
      simp only [openLoop, hopen, bind, Except.bind, pure, Except.pure]
      rfl
    simp only [enterLoop, hopen', hlower, Graph.follow_eq hside, bind, Except.bind, pure,
      Except.pure]
  · intro h
    rcases (hbranch₂ _).1 h with h | h
    · exact Closable.not_hasBranch_of_size_le r.built.contents hbody.1 ((hbranch _).1 h)
    · exact hbody.2 (show head = body from h.symm)
  · intro d hd h
    rcases (hbranch₂ d).1 h with h | h
    · exact (hbranch d).1 h
    · rcases hopens.head_cases with h' | h'
      · exact absurd hd (by rw [show d = head from h, h']; exact r.built.layout.tail_not_passed)
      · exact absurd (r.built.layout.passed_lt hd)
          (by rw [show d = head from h]; exact Nat.not_lt.2 h')
  · intro h
    rcases hopens.head_cases with rfl | h'
    · exact (List.mem_append.1 h).elim r.built.layout.tail_not_passed r.built.layout.tail_not_target
    · exact Nat.not_lt.2 h'
        ((List.mem_append.1 h).elim r.built.layout.passed_lt r.built.layout.target_lt)

/-- The jump at the end of a then side or of a loop body. -/
theorem exists_emitJump (b : Built w t.body) {f : Frame} {fs : List Frame} {c dst : BlockId}
    (hframes : w.frames = f :: fs) (hc : f.part = .elseSide c ∨ f.part = .loopBody ∧ c = w.tail)
    (hnext : t.body.graph.next .branch c = some dst) (hself : dst ≠ c)
    (hclear : ¬ t.body.graph.HasBranch c) (htargets : c ∉ w.targets) :
    ∃ t' target, t.emitJump c = .ok t' ∧ t.Advances w w t' ∧ Built w t'.body ∧
      t.body.SameSetting t'.body ∧
      t.body.graph.Receives c (.branch .always target) t'.body.graph := by
  obtain ⟨target, g₁, g, hemit, hnames, hshape, hop, hstand, hplace, hb⟩ :=
    b.emitJump hnext hself hclear htargets
  refine ⟨t.extend (.emitJump c) { t.body with graph := g }, some target, ?_,
    .of_step ⟨?_, .emitJump hframes hc hnext hnames hclear hshape hop hstand hplace, hb⟩, hb,
    ⟨rfl, rfl, rfl⟩,
    .after (.of_sameShape hshape fun i o _ => by rw [hop]) (.of_places hplace rfl)⟩
  · simp only [emitJump, hemit, bind, Except.bind, pure, Except.pure]
  · simp only [Body.exec, hemit, Body.namingInstr, Except.map]

/-- The branch of a test is aimed. -/
theorem exists_aimBranch (b : Built w t.body) {f : Frame} {fs : List Frame} {dst : BlockId}
    (hframes : w.frames = f :: fs) (hnext : t.body.graph.next .branch f.test = some dst)
    (hbranch : t.body.graph.HasBranch f.test) :
    ∃ t', t.aimBranch f.test = .ok t' ∧ t.Advances w w t' ∧ Built w t'.body ∧
      t.body.SameSetting t'.body ∧ t.body.graph.Retargets t'.body.graph ∧
      t'.body.graph.Steers f.test := by
  obtain ⟨g, haim, haims, hb⟩ := b.aimBranch hnext hbranch
  refine ⟨t.extend (.aimBranch f.test) { t.body with graph := g }, ?_,
    .of_step ⟨?_, .aimBranch hframes hbranch haims, hb⟩, hb, ⟨rfl, rfl, rfl⟩, .of_aims haims,
    haims.steers⟩
  · simp only [aimBranch, haim, bind, Except.bind, pure, Except.pure]
  · simp only [Body.exec, haim, Body.silently, Except.map]

/-- **Ending an else side**: the end of the then side jumps over it. -/
theorem exists_leaveElse (r : Ready w t.body) {f : Frame} {fs : List Frame} {tt : BlockId}
    (hframes : w.frames = f :: fs) (hpart : f.part = .elseSide tt)
    (hclear : ¬ t.body.graph.HasBranch tt) : ∃ t' target, t.leaveElse f.target = .ok t' ∧
      t.Advances w w t' ∧ Ready w t'.body ∧
      t.body.graph.Receives tt (.branch .always target) t'.body.graph := by
  have hf : f ∈ w.frames := by simp [hframes]
  have hnext := (r.built.layout.framed_elseSide hf hpart).2.1
  have hpassed : tt ∈ w.passed := r.built.layout.behind f hf tt (by simp [Frame.behind, hpart])
  have htarget : f.target ∈ w.targets := List.mem_map_of_mem hf
  have htt := r.built.layout.passed_not_target hpassed
  obtain ⟨t', target, hjump, hadv, hb, hset, hreceives⟩ := exists_emitJump r.built hframes
    (.inl hpart) hnext (fun h => htt (h ▸ htarget)) hclear htt
  refine ⟨t', target, ?_, hadv, ⟨hb, hset.current_eq.trans r.current_eq, fun h => ?_⟩, hreceives⟩
  · have hback : t.body.graph.followBack .branch f.target = .ok tt :=
      Graph.followBack_eq (r.built.layout.target_lt htarget)
        ((r.built.layout.linked .branch tt f.target).1 hnext)
    simp only [leaveElse, hback, bind, Except.bind]
    exact hjump
  · rcases (hreceives.hasBranch_iff _).1 h with h | ⟨-, h⟩
    · exact r.clear h
    · exact r.built.layout.tail_not_passed (h ▸ hpassed)

/-- How the innermost construct `f` is left: in `tq` it has its last branches, and the command `c`
closes it.  Then construction moves behind it. -/
structure Leaves (w : Site) (f : Frame) (t tq : Script) (c : Body.Command) (u : Body)
    (t' : Script) : Prop where
  before : t.Advances w w tq
  closes : c = .closeIf f.test ∨ c = .closeLoop f.test
  step : Step w tq.body c w.pop u
  after : tq.Advances w w.pop t'
  ready : Ready w.pop t'.body
  body_eq : t'.body = u.moveTo f.target
  hasBranch_iff : ∀ d, t'.body.graph.HasBranch d ↔ tq.body.graph.HasBranch d

/-- **Ending an if.** -/
theorem exists_leaveIf (r : Ready w t.body) {f : Frame} {fs : List Frame}
    (hframes : w.frames = f :: fs) (hpart : f.part ≠ .loopBody)
    (hthen : ∀ tt, f.part = .elseSide tt → t.body.graph.HasBranch tt) :
    ∃ tq u t', t.leaveIf f.test = .ok t' ∧ t.Leaves w f tq (.closeIf f.test) u t' ∧
      t.body.graph.Retargets tq.body.graph := by
  have hf : f ∈ w.frames := by simp [hframes]
  have htarget : f.target ∈ w.targets := List.mem_map_of_mem hf
  obtain ⟨dst, hdst⟩ := Option.isSome_iff_exists.1 (r.built.layout.branch_test hf)
  obtain ⟨t₁, haim, hadv₁, hb₁, hset₁, hretargets, hsteers⟩ :=
    exists_aimBranch r.built hframes hdst (r.tested f hf)
  have hbranch₁ := hretargets.hasBranch_iff
  have hcurrent₁ : t₁.body.current = w.tail := hset₁.current_eq.trans r.current_eq
  have hfall := (hb₁.layout.next_tail_if hframes hpart).1
  let t₂ : Script := t₁.extend .joinAhead t₁.body
  have hjoin : t₁.body.joinAhead = .ok f.target := by
    obtain ⟨blk, hblk, hblk'⟩ := Graph.exists_block_ok hb₁.current_lt
    rw [hcurrent₁] at hblk'
    have hto : blk.fallTo = some f.target := by rw [Graph.fallTo_eq hblk', hfall]
    simp only [Body.joinAhead, hblk, hto, expect, bind, Except.bind]
  have hadv₂ : t₁.Advances w w t₂ := .of_step ⟨by
    simp only [Body.exec, hjoin, Body.namingBlock, Except.map], .joinAhead, hb₁⟩
  have htested : ∀ f ∈ w.frames, t₂.body.graph.HasBranch f.test := fun f' hf' =>
    (hbranch₁ _).2 (r.tested f' hf')
  obtain ⟨hadv₃, hb₃⟩ := advances_moveTo (t := t₂) hb₁ (hb₁.layout.target_lt htarget) htested
  have hthen₁ : ∀ tt, f.part = .elseSide tt → t₁.body.graph.HasBranch tt := fun tt h =>
    (hbranch₁ tt).2 (hthen tt h)
  obtain ⟨u, hclose, hcarries, hb⟩ :=
    hb₃.closeIf hframes hpart rfl htested hsteers.aimed hthen₁
  have hpop : Built w.pop (t₂.moveTo f.target).body :=
    hb₃.pop hframes hsteers.aimed (.inl (by
      change (t₁.body.graph.next .fall w.tail).isSome = true
      rw [hfall]
      rfl)) hthen₁
  have hfinished : f.Finished (t₂.moveTo f.target).body.graph w.tail :=
    ⟨htested f hf, hsteers, fun d hd => hthen₁ d (hd.resolve_right fun h => hpart h.1)⟩
  have hbranch : ∀ d, u.graph.HasBranch d ↔ t₁.body.graph.HasBranch d :=
    hpop.hasBranch_carries hcarries
  have htail : w.pop.tail = f.target := by rw [Site.pop, hframes]
  have hadv := (hadv₁.trans hadv₂).trans hadv₃
  have hstep : Step w (t₂.moveTo f.target).body (.closeIf f.test) w.pop u :=
    ⟨by simp only [Body.exec, hclose, Body.silently, Except.map],
      .closeIf hframes hpart rfl hfinished hpop hcarries, hb⟩
  have hcurrent : u.current = f.target := hcarries.setting.current_eq
  refine ⟨t₂.moveTo f.target, u, (t₂.moveTo f.target).extend (.closeIf f.test) u, ?_,
    ⟨hadv, .inl rfl, hstep, .of_step hstep, ⟨hb, ?_, ?_⟩, ?_, hbranch⟩, hretargets⟩
  · have hjoin' : t₁.joinAhead = .ok (f.target, t₂) := by
      simp only [joinAhead, hjoin, bind, Except.bind, pure, Except.pure]
      rfl
    simp only [leaveIf, haim, hjoin', closeIf, hclose, bind, Except.bind, pure, Except.pure]
  · rw [htail]
    exact hcurrent
  · rw [htail]
    exact fun h => r.built.closable.targets_clear _ htarget ((hbranch₁ _).1 ((hbranch _).1 h))
  · rw [← hcurrent]
    rfl

/-- **Ending a loop.** -/
theorem exists_leaveLoop (r : Ready w t.body) {f : Frame} {fs : List Frame}
    (hframes : w.frames = f :: fs) (hpart : f.part = .loopBody) :
    ∃ tq u t' target, t.leaveLoop f.test = .ok t' ∧ t.Leaves w f tq (.closeLoop f.test) u t' ∧
      t.body.graph.Receives w.tail (.branch .always target) tq.body.graph := by
  have hf : f ∈ w.frames := by simp [hframes]
  have htarget : f.target ∈ w.targets := List.mem_map_of_mem hf
  have hpassed : f.test ∈ w.passed := r.built.layout.behind f hf _ (Layout.test_mem_behind f)
  have hback := (r.built.layout.next_tail_loopBody hframes hpart).2
  obtain ⟨t₁, target, hjump, hadv₁, hb₁, hset₁, hreceives⟩ := exists_emitJump r.built hframes
    (.inr ⟨hpart, rfl⟩) hback (fun h => r.built.layout.tail_not_passed (h ▸ hpassed)) r.clear
    r.built.layout.tail_not_target
  have hexit := (hb₁.layout.framed_loopBody hf hpart).2
  obtain ⟨t₂, haim, hadv₂, hb₂, hset₂, hretargets, hsteers⟩ := exists_aimBranch hb₁ hframes
    hexit (hreceives.hasBranch (r.tested f hf))
  have hjumps := hreceives.retargeted hretargets
  have htested : ∀ f ∈ w.frames, t₂.body.graph.HasBranch f.test := fun f' hf' =>
    hjumps.hasBranch (r.tested f' hf')
  obtain ⟨hadv₃, hb₃⟩ := advances_moveTo hb₂ (hb₂.layout.passed_lt hpassed) htested
  have hjumped : (t₂.moveTo f.test).body.graph.HasBranch w.tail :=
    (hjumps.hasBranch_iff _).2 (.inr ⟨rfl, rfl⟩)
  obtain ⟨u, hclose, hcarries, hb⟩ := hb₃.closeLoop hframes hpart htested hsteers.aimed hjumped
  have hpop : Built w.pop (t₂.moveTo f.test).body :=
    hb₃.pop hframes hsteers.aimed (.inr hjumped) fun tt h => by rw [hpart] at h; cases h
  have hfinished : f.Finished (t₂.moveTo f.test).body.graph w.tail :=
    ⟨htested f hf, hsteers, fun d hd => by
      rcases hd with h | ⟨-, rfl⟩
      · rw [hpart] at h
        cases h
      · exact hjumped⟩
  have hpop' : Built w.pop { (t₂.moveTo f.test).body with
      loopStarts := (t₂.moveTo f.test).body.loopStarts.tail } :=
    { hpop with books := hpop.books.of_standIn rfl fun _ => rfl }
  have hbranch : ∀ d, u.graph.HasBranch d ↔ t₂.body.graph.HasBranch d :=
    hpop'.hasBranch_carries hcarries
  let t₄ : Script := (t₂.moveTo f.test).extend (.closeLoop f.test) u
  have hadv := (hadv₁.trans hadv₂).trans hadv₃
  have hstep : Step w (t₂.moveTo f.test).body (.closeLoop f.test) w.pop u :=
    ⟨by simp only [Body.exec, hclose, Body.silently, Except.map],
      .closeLoop hframes hpart rfl hfinished hpop' hcarries, hb⟩
  have hpopw := Site.pop_eq hframes
  have htail : w.pop.tail = f.target := by rw [hpopw]
  have hexit₄ : u.graph.next .branch f.test = some f.target := by
    rw [(hpop'.skeleton_carries hcarries).next_eq]
    change t₂.body.graph.next .branch f.test = some f.target
    rw [hretargets.skeleton.next_eq]
    exact hexit
  have htested₄ : ∀ f' ∈ w.pop.frames, t₄.body.graph.HasBranch f'.test := fun f' hf' => by
    rw [hpopw] at hf'
    exact (hbranch _).2 (htested f' (by simp [hframes, hf']))
  obtain ⟨hadv₅, hb₅⟩ := advances_moveTo (t := t₄) hb (c := f.target)
    (by rw [← htail]; exact hb.layout.tail_lt) htested₄
  refine ⟨t₂.moveTo f.test, u, t₄.moveTo f.target, target, ?_, ⟨hadv, .inr rfl, hstep,
    .trans (.of_step hstep) hadv₅, ⟨hb₅, htail.symm, ?_⟩, rfl, hbranch⟩, hjumps⟩
  · have hclose' : (t₂.moveTo f.test).closeLoop f.test = .ok t₄ := by
      simp only [closeLoop, hclose, bind, Except.bind, pure, Except.pure]
      rfl
    have hfollow : t₄.body.graph.follow .branch f.test = .ok f.target := Graph.follow_eq hexit₄
    rw [← r.current_eq] at hjump
    simp only [leaveLoop, hjump, haim, hclose', hfollow, bind, Except.bind, pure, Except.pure]
  · rw [htail]
    intro h
    rcases (hjumps.hasBranch_iff _).1 ((hbranch _).1 h) with h | ⟨-, h⟩
    · exact r.built.closable.targets_clear _ htarget h
    · exact r.built.layout.tail_not_target (h ▸ htarget)

end Script

/-! ## Statements -/

/-- `Stays w t xs w' t'`: the script `t'` continues `t` to another place in the same constructs,
with assignments to the variables `xs`.  Nothing behind construction is left in a new way, and of
the blocks that were there only the one gets phis that the innermost construct has its phis in. -/
structure Script.Stays (w : Site) (t : Script) (xs : List Var) (w' : Site)
    (t' : Script) : Prop where
  advances : t.Advances w w' t'
  ready : Ready w' t'.body
  frames_eq : w'.frames = w.frames
  passed_subset : w.passed ⊆ w'.passed
  quiet : Body.Quiet w.passed t.body t'.body
  phis : ∀ b ∈ w.passed ++ w.targets, ∀ x, t'.body.graph.HasPhi b x ↔
    t.body.graph.HasPhi b x ∨ w.phiBlock? = some b ∧ x ∈ xs

namespace Script.Stays

variable {w w₁ w' : Site} {t t₁ t' : Script} {xs ys : List Var}

theorem trans (h : Stays w t xs w₁ t₁) (h' : Stays w₁ t₁ ys w' t') :
    Stays w t (xs ++ ys) w' t' where
  advances := h.advances.trans h'.advances
  ready := h'.ready
  frames_eq := h'.frames_eq.trans h.frames_eq
  passed_subset := fun _ hc => h'.passed_subset (h.passed_subset hc)
  quiet c hc hb := h.quiet c hc (h'.quiet c (h.passed_subset hc) hb)
  phis b hb x := by
    have hb₁ : b ∈ w₁.passed ++ w₁.targets := by
      rw [Site.targets, h.frames_eq]
      exact (List.mem_append.1 hb).elim (fun hb => List.mem_append_left _ (h.passed_subset hb))
        (List.mem_append_right _)
    rw [h'.phis b hb₁, h.phis b hb, Site.phiBlock?, Site.phiBlock?, h.frames_eq, List.mem_append,
      and_or_left, or_assoc]

/-- Commands that leave the site alone. -/
theorem of_adds (r : Ready w t.body) (hadv : t.Advances w w t') (hadds : t.body.Adds t'.body)
    (hb : Built w t'.body) : Stays w t [] w t' where
  advances := hadv
  ready := ⟨hb, hadds.setting.current_eq.trans r.current_eq, by
    rw [hadds.hasBranch_iff]
    exact r.clear⟩
  frames_eq := rfl
  passed_subset := fun _ hc => hc
  quiet c _ hc := (hadds.hasBranch_iff c).1 hc
  phis b _ x := by
    rw [hadds.phis.hasPhi_iff]
    simp

end Script.Stays

/-- An assignment adds no branch. -/
theorem Built.hasBranch_merges {w : Site} {u u' : Body} (b : Built w u) {x : Var}
    {v : Option InstrId} (h : u.Merges w x v u') (c : BlockId) :
    u'.graph.HasBranch c ↔ u.graph.HasBranch c := by
  cases hframes : w.frames with
  | nil => rw [h.eq_of_outermost hframes]
  | cons f fs => exact (b.grows hframes h).hasBranch_iff c

/-- `Opens w f t xs w₁ t₁`: the construct `f` was opened where `t` stands, and has been built up to
`t₁` with assignments to the variables `xs`. -/
structure Script.Opens (w : Site) (f : Frame) (t : Script) (xs : List Var) (w₁ : Site)
    (t₁ : Script) : Prop where
  advances : t.Advances w w₁ t₁
  ready : Ready w₁ t₁.body
  frames_eq : w₁.frames = f :: w.frames
  before_eq : f.before = t.body.graph.meaning w.tail
  passed_subset : w.passed ⊆ w₁.passed
  quiet : Body.Quiet w.passed t.body t₁.body
  /-- The then side gets its jump last. -/
  pending : ∀ tt, f.part = .elseSide tt → tt ∉ w.passed ∧ ¬ t₁.body.graph.HasBranch tt
  own : ∀ x, t₁.body.graph.HasPhi f.phiBlock x ↔ x ∈ xs
  fresh : f.phiBlock ∉ w.passed ++ w.targets
  others : ∀ b ∈ w.passed ++ w.targets, ∀ x,
    t₁.body.graph.HasPhi b x ↔ t.body.graph.HasPhi b x

/-- `Encloses w t b xs w' t'`: from `t` to `t'` a construct is opened, built and closed, in which
the variables `xs` are assigned; its phis are in `b`.  When it is closed, its frame still says what
the variables meant when it was opened, and `b` has phis of exactly the variables that were
assigned. -/
structure Script.Encloses (w : Site) (t : Script) (b : BlockId) (xs : List Var) (w' : Site)
    (t' : Script) : Prop where
  stays : t.Stays w xs w' t'
  closing : ∃ wq tq f c u, t.Advances w wq tq ∧ wq.frames = f :: w.frames ∧ f.phiBlock = b ∧
    f.before = t.body.graph.meaning w.tail ∧ (∀ x, tq.body.graph.HasPhi b x ↔ x ∈ xs) ∧
    (c = .closeIf f.test ∨ c = .closeLoop f.test) ∧ Step wq tq.body c wq.pop u ∧
    w' = wq.pop ∧ t'.body = u.moveTo f.target

namespace Script.Opens

variable {w w₁ w₂ : Site} {f : Frame} {t t₁ t₂ t' : Script} {xs ys : List Var}

theorem targets_eq (h : t.Opens w f xs w₁ t₁) : w₁.targets = f.target :: w.targets :=
  Site.targets_of_cons h.frames_eq

theorem phiBlock?_eq (h : t.Opens w f xs w₁ t₁) : w₁.phiBlock? = some f.phiBlock := by
  rw [Site.phiBlock?, h.frames_eq]
  rfl

theorem mem_frames (h : t.Opens w f xs w₁ t₁) : f ∈ w₁.frames := by simp [h.frames_eq]

theorem phiBlock_mem (h : t.Opens w f xs w₁ t₁) : f.phiBlock ∈ w₁.passed ++ w₁.targets := by
  have l := h.ready.built.layout
  rcases l.phiBlock_role h.mem_frames with ⟨hpart, -⟩ | ⟨htarget, -⟩
  · rw [Frame.phiBlock_eq_test hpart]
    exact List.mem_append_left _ (l.behind f h.mem_frames _ (Layout.test_mem_behind f))
  · rw [htarget]
    exact List.mem_append_right _ (List.mem_map_of_mem h.mem_frames)

/-- Statements are built inside the construct. -/
theorem stays (h : t.Opens w f xs w₁ t₁) (h' : t₁.Stays w₁ ys w₂ t₂) :
    t.Opens w f (xs ++ ys) w₂ t₂ where
  advances := h.advances.trans h'.advances
  ready := h'.ready
  frames_eq := h'.frames_eq.trans h.frames_eq
  before_eq := h.before_eq
  passed_subset := fun _ hc => h'.passed_subset (h.passed_subset hc)
  quiet c hc hb := h.quiet c hc (h'.quiet c (h.passed_subset hc) hb)
  pending tt htt := by
    refine ⟨(h.pending tt htt).1, fun hb => (h.pending tt htt).2 (h'.quiet tt ?_ hb)⟩
    exact h.ready.built.layout.behind f h.mem_frames tt (by simp [Frame.behind, htt])
  own x := by
    rw [h'.phis _ h.phiBlock_mem, h.own, h.phiBlock?_eq, List.mem_append]
    simp
  fresh := h.fresh
  others b hb x := by
    have hb₁ : b ∈ w₁.passed ++ w₁.targets := by
      rw [h.targets_eq]
      exact (List.mem_append.1 hb).elim (fun hb => List.mem_append_left _ (h.passed_subset hb))
        fun hb => List.mem_append_right _ (List.mem_cons_of_mem _ hb)
    rw [h'.phis b hb₁, h.others b hb, h.phiBlock?_eq]
    exact or_iff_left fun h' => h.fresh (Option.some.inj h'.1 ▸ hb)

/-- The construct is left. -/
theorem encloses (h : t.Opens w f xs w₁ t₁) (hadv : t₁.Advances w₁ w₁ t₂)
    {tq : Script} {c : Body.Command} {u : Body} (hleaves : t₂.Leaves w₁ f tq c u t')
    (hphis : t₁.body.graph.SamePhis tq.body.graph) (hquiet : Body.Quiet w.passed t₁.body tq.body) :
    t.Encloses w f.phiBlock xs w₁.pop t' := by
  have hpop : w₁.pop = ⟨w₁.passed ++ [w₁.tail], f.target, w.frames⟩ := by
    rw [Site.pop, h.frames_eq]
  have hadv₁ := (h.advances.trans hadv).trans hleaves.before
  have hbuilt : Built w₁ tq.body := by
    obtain ⟨cs, -, hrun⟩ := hadv.trans hleaves.before
    exact hrun.built h.ready.built
  refine ⟨⟨hadv₁.trans hleaves.after, hleaves.ready, by rw [hpop], ?_, ?_, ?_⟩,
    w₁, tq, f, c, u, hadv₁, h.frames_eq, rfl, h.before_eq,
    fun x => hphis.hasPhi_iff.trans (h.own x), hleaves.closes, hleaves.step, rfl, hleaves.body_eq⟩
  · rw [hpop]
    exact fun c hc => List.mem_append_left _ (h.passed_subset hc)
  · exact fun d hd hb => h.quiet d hd (hquiet d hd ((hleaves.hasBranch_iff d).1 hb))
  · intro b hb x
    have hblock : w₁.pop.phiBlock? = w.phiBlock? := by rw [Site.phiBlock?, hpop, Site.phiBlock?]
    rw [hleaves.body_eq]
    refine (hleaves.step.hasPhi_close hbuilt h.frames_eq hleaves.closes b x).trans ?_
    rw [hblock, hphis.hasPhi_iff, hphis.hasPhi_iff, h.own, h.others b hb]

end Script.Opens

namespace Script

variable {w : Site} {t : Script}

/-- Issuing an assignment. -/
theorem exists_assign (r : Ready w t.body) (x : Var) {v : Option InstrId}
    (hvalue : ∀ i, v = some i → (t.body.graph.op? i).isSome = true ∧ t.body.Obtains i) :
    ∃ t', t.assign x v = .ok t' ∧ t.Stays w [x] w t' := by
  have hv : ∀ i, v = some i → (t.body.graph.op? i).isSome = true := fun i hi => (hvalue i hi).1
  obtain ⟨u, hassign, hmerges, hb⟩ := r.built.assign r.current_eq x hv
  have hre := Graph.rebinds_bindIn t.body.graph w.tail x v
  have hbranch : ∀ c, u.graph.HasBranch c ↔ t.body.graph.HasBranch c := fun c =>
    ((r.built.withBinding x hv).hasBranch_merges hmerges c).trans
      (Closable.hasBranch_congr hre.isBranch_eq hre.home?_eq c)
  refine ⟨t.extend (.assign x v) u, ?_,
    .of_step ⟨?_, .assign r.current_eq hv (fun i hi => (hvalue i hi).2) hmerges, hb⟩, ⟨hb, ?_, ?_⟩,
    rfl, fun _ hc => hc, fun c _ hc => (hbranch c).1 hc, fun b _ y => ?_⟩
  · simp only [assign, hassign, bind, Except.bind, pure, Except.pure]
  · simp only [Body.exec, hassign, Body.silently, Except.map]
  · exact hmerges.setting.current_eq.trans r.current_eq
  · exact fun h => r.clear ((hbranch _).1 h)
  · refine ((r.built.withBinding x hv).hasPhi_merges hmerges b y).trans ?_
    rw [Body.withBinding, hre.samePhis.hasPhi_iff, List.mem_singleton]

/-- An if has been opened. -/
theorem EntersIf.opens_frame {c : Test} {join side : BlockId} {w₁ : Site} {t₀ t₁ : Script}
    (h : t.EntersIf w c join side w₁ t₀ t₁) (r : Ready w t.body) :
    t.Opens w ⟨.thenSide, w.tail, join, t.body.graph.meaning w.tail, t.body.graph.nextId⟩ [] w₁
      (t₁.moveTo side) := by
  have hjoin : t.body.graph.blocks.size ≤ join := Nat.le_of_eq h.opens.join_eq.symm
  have hnone : ∀ x, ¬ t₁.body.graph.HasPhi join x := fun x => by
    rw [h.phis.hasPhi_iff]
    exact Graph.not_hasPhi_of_listed_nil (Graph.listed_eq_nil_of_size_le hjoin)
  have hfresh : join ∉ w.passed ++ w.targets := fun h => by
    refine Nat.not_lt.2 hjoin ?_
    exact (List.mem_append.1 h).elim r.built.layout.passed_lt r.built.layout.target_lt
  refine ⟨(h.begins.trans h.tests).trans h.moves, h.ready, by rw [h.site_eq]; rfl, rfl, ?_, h.quiet,
    nofun, fun x => iff_of_false (hnone x) List.not_mem_nil, hfresh, fun b _ x => h.phis.hasPhi_iff⟩
  rw [h.site_eq]
  exact List.subset_append_left _ _

/-- A loop has been opened. -/
theorem EntersLoop.opens_frame {c : Test} {head body exit : BlockId} {w₁ : Site} {t₀ t₁ : Script}
    (h : t.EntersLoop w c head body exit w₁ t₀ t₁) :
    t.Opens w ⟨.loopBody, head, exit, t.body.graph.meaning w.tail, t.body.graph.nextId⟩ [] w₁
      (t₁.moveTo body) := by
  have hempty : t.body.graph.listed head = [] := by
    rcases h.opens.head_eq with ⟨h, -, hnil, -⟩ | ⟨h, -⟩
    · rw [h, hnil]
    · exact Graph.listed_eq_nil_of_size_le (Nat.le_of_eq h.symm)
  have hnone : ∀ x, ¬ t₁.body.graph.HasPhi head x := fun x => by
    rw [h.phis.hasPhi_iff]
    exact Graph.not_hasPhi_of_listed_nil hempty
  refine ⟨(h.begins.trans h.tests).trans h.moves, h.ready, by rw [h.site_eq]; rfl, rfl, ?_, h.quiet,
    nofun, fun x => iff_of_false (hnone x) List.not_mem_nil, h.fresh,
    fun b _ x => h.phis.hasPhi_iff⟩
  rw [h.site_eq]
  exact List.subset_append_left _ _

/-- **Beginning an if.** -/
theorem exists_opensIf (r : Ready w t.body) (c : Test) : ∃ f w₁ t₁,
    t.enterIf c = .ok (f.test, f.target, t₁) ∧ f.part = .thenSide ∧ t.Opens w f [] w₁ t₁ := by
  obtain ⟨join, side, w₁, t₀, t₁, henter⟩ := exists_enterIf r c
  exact ⟨_, w₁, _, henter.enter_eq, rfl, henter.opens_frame r⟩

/-- **Beginning a loop.** -/
theorem exists_opensLoop (r : Ready w t.body) (c : Test) : ∃ f w₁ t₁,
    t.enterLoop c = .ok (f.test, t₁) ∧ f.part = .loopBody ∧ t.Opens w f [] w₁ t₁ := by
  obtain ⟨head, body, exit, w₁, t₀, t₁, henter⟩ := exists_enterLoop r c
  exact ⟨_, w₁, _, henter.enter_eq, rfl, henter.opens_frame⟩

namespace Opens

variable {w₁ : Site} {f : Frame} {t₁ : Script} {xs : List Var}

/-- The else side has been opened. -/
theorem turns (h : t.Opens w f xs w₁ t₁) (hpart : f.part = .thenSide) {side : BlockId} {t₂ : Script}
    (henter : t₁.EntersElse w₁ f side t₂) :
    t.Opens w { f with part := .elseSide w₁.tail } xs (w₁.openElse side) (t₂.moveTo side) := by
  have hw : w₁.openElse side =
      ⟨w₁.passed ++ [w₁.tail], side, { f with part := .elseSide w₁.tail } :: w.frames⟩ := by
    rw [Site.openElse, h.frames_eq]
  have hblock : Frame.phiBlock { f with part := .elseSide w₁.tail } = f.phiBlock := by
    rw [Frame.phiBlock_eq_target (by simp), Frame.phiBlock_eq_target (by simp [hpart])]
  have hsame : t₁.body.graph.SamePhis (t₂.moveTo side).body.graph := henter.opens.stock.samePhis
  have hbranch := henter.hasBranch_iff
  refine ⟨(h.advances.trans henter.begins).trans henter.moves, henter.ready,
    by rw [hw], h.before_eq, ?_, fun c hc hb => h.quiet c hc ((hbranch c).1 hb), ?_, ?_,
    by rw [hblock]; exact h.fresh, ?_⟩
  · rw [hw]
    exact fun c hc => List.mem_append_left _ (h.passed_subset hc)
  · intro tt htt
    cases htt
    exact ⟨fun hc => h.ready.built.layout.tail_not_passed (h.passed_subset hc),
      fun hb => h.ready.clear ((hbranch _).1 hb)⟩
  · intro x
    rw [hblock, hsame.hasPhi_iff]
    exact h.own x
  · intro b hb x
    rw [hsame.hasPhi_iff]
    exact h.others b hb x

/-- The if has been left. -/
theorem encloses_if (h : t.Opens w f xs w₁ t₁) {tq t' : Script} {u : Body}
    (hleaves : t₁.Leaves w₁ f tq (.closeIf f.test) u t')
    (hretargets : t₁.body.graph.Retargets tq.body.graph) :
    t.Encloses w f.phiBlock xs w₁.pop t' :=
  h.encloses (.refl _ _) hleaves hretargets.samePhis fun d _ => (hretargets.hasBranch_iff d).1

/-- The if with an else side has been left, after the jump of the then side. -/
theorem encloses_else (h : t.Opens w f xs w₁ t₁) {tt : BlockId} (hpart : f.part = .elseSide tt)
    {t₂ tq t' : Script} {u : Body} {target : Option Target} (hadv : t₁.Advances w₁ w₁ t₂)
    (hreceives : t₁.body.graph.Receives tt (.branch .always target) t₂.body.graph)
    (hleaves : t₂.Leaves w₁ f tq (.closeIf f.test) u t')
    (hretargets : t₂.body.graph.Retargets tq.body.graph) :
    t.Encloses w f.phiBlock xs w₁.pop t' := by
  refine h.encloses hadv hleaves ((hreceives.samePhis rfl).trans hretargets.samePhis)
    fun d hd hb => ?_
  rcases (hreceives.hasBranch_iff d).1 ((hretargets.hasBranch_iff d).1 hb) with hb | ⟨-, rfl⟩
  · exact hb
  · exact absurd hd (h.pending d hpart).1

/-- The loop has been left. -/
theorem encloses_loop (h : t.Opens w f xs w₁ t₁) {tq t' : Script} {u : Body}
    {target : Option Target} (hleaves : t₁.Leaves w₁ f tq (.closeLoop f.test) u t')
    (hreceives : t₁.body.graph.Receives w₁.tail (.branch .always target) tq.body.graph) :
    t.Encloses w f.phiBlock xs w₁.pop t' := by
  refine h.encloses (.refl _ _) hleaves (hreceives.samePhis rfl) fun d hd hb => ?_
  rcases (hreceives.hasBranch_iff d).1 hb with hb | ⟨-, rfl⟩
  · exact hb
  · exact absurd (h.passed_subset hd) h.ready.built.layout.tail_not_passed

/-- **Turning to the else side.** -/
theorem exists_enterElse (h : t.Opens w f xs w₁ t₁) (hpart : f.part = .thenSide) : ∃ tt w₂ t₂,
    t₁.enterElse f.test = .ok t₂ ∧ t₁.Advances w₁ w₂ t₂ ∧
    t.Opens w { f with part := .elseSide tt } xs w₂ t₂ := by
  obtain ⟨side, t₂, henter⟩ := Script.exists_enterElse h.ready h.frames_eq hpart
  exact ⟨_, _, _, henter.enter_eq, henter.begins.trans henter.moves, h.turns hpart henter⟩

/-- **Ending an if without an else side.** -/
theorem exists_leaveIf (h : t.Opens w f xs w₁ t₁) (hpart : f.part = .thenSide) : ∃ t',
    t₁.leaveIf f.test = .ok t' ∧ t₁.Advances w₁ w₁.pop t' ∧
    t.Encloses w f.phiBlock xs w₁.pop t' := by
  obtain ⟨tq, u, t', hleave, hleaves, hretargets⟩ :=
    Script.exists_leaveIf h.ready h.frames_eq (by simp [hpart]) (by simp [hpart])
  exact ⟨t', hleave, hleaves.before.trans hleaves.after, h.encloses_if hleaves hretargets⟩

/-- **Ending an if with an else side.** -/
theorem exists_leaveElse (h : t.Opens w f xs w₁ t₁) {tt : BlockId} (hpart : f.part = .elseSide tt) :
    ∃ t₂ t', t₁.leaveElse f.target = .ok t₂ ∧ t₂.leaveIf f.test = .ok t' ∧
    t₁.Advances w₁ w₁.pop t' ∧ t.Encloses w f.phiBlock xs w₁.pop t' := by
  obtain ⟨t₂, target, hjump, hadv, r₂, hreceives⟩ :=
    Script.exists_leaveElse h.ready h.frames_eq hpart (h.pending tt hpart).2
  obtain ⟨tq, u, t', hleave, hleaves, hretargets⟩ :=
    Script.exists_leaveIf r₂ h.frames_eq (by simp [hpart]) fun b hb => by
      rw [hpart] at hb
      cases hb
      exact (hreceives.hasBranch_iff _).2 (.inr ⟨rfl, rfl⟩)
  exact ⟨t₂, t', hjump, hleave, (hadv.trans hleaves.before).trans hleaves.after,
    h.encloses_else hpart hadv hreceives hleaves hretargets⟩

/-- **Ending a loop.** -/
theorem exists_leaveLoop (h : t.Opens w f xs w₁ t₁) (hpart : f.part = .loopBody) : ∃ t',
    t₁.leaveLoop f.test = .ok t' ∧ t₁.Advances w₁ w₁.pop t' ∧
    t.Encloses w f.phiBlock xs w₁.pop t' := by
  obtain ⟨tq, u, t', target, hleave, hleaves, hreceives⟩ :=
    Script.exists_leaveLoop h.ready h.frames_eq hpart
  exact ⟨t', hleave, hleaves.before.trans hleaves.after, h.encloses_loop hleaves hreceives⟩

end Opens
end Script

namespace Stmt

/-- `Spans u t b t'`: lowering the construct `u` from `t` leads to `t'`; the join of an if or the
header of a loop is `b`. -/
inductive Spans : Stmt → Script → BlockId → Script → Prop where
  | ifThen {c : Test} {s : Stmt} {t t₁ t' : Script} {parent join : BlockId}
      (enter : t.enterIf c = .ok (parent, join, t₁)) (lower : (ifThen c s).lower t = .ok t') :
      Spans (.ifThen c s) t join t'
  | ifElse {c : Test} {s s' : Stmt} {t t₁ t' : Script} {parent join : BlockId}
      (enter : t.enterIf c = .ok (parent, join, t₁)) (lower : (ifElse c s s').lower t = .ok t') :
      Spans (.ifElse c s s') t join t'
  | loop {c : Test} {s : Stmt} {t t₁ t' : Script} {head : BlockId}
      (enter : t.enterLoop c = .ok (head, t₁)) (lower : (loop c s).lower t = .ok t') :
      Spans (.loop c s) t head t'

theorem Spans.lower_eq {u : Stmt} {t t' : Script} {b : BlockId} (h : u.Spans t b t') :
    u.lower t = .ok t' := by
  cases h <;> assumption

/-- Lowering `s` succeeds wherever construction is ready for it. -/
def Lowers (s : Stmt) : Prop :=
  ∀ {w : Site} {t : Script}, Ready w t.body →
    ∃ w' t', s.lower t = .ok t' ∧ t.Stays w s.assigned w' t'

variable {w : Site} {t : Script} {s s' : Stmt}

theorem exists_ifThen (hs : s.Lowers) (r : Ready w t.body) (c : Test) : ∃ b w' t',
    Spans (.ifThen c s) t b t' ∧ t.Encloses w b s.assigned w' t' := by
  obtain ⟨f, w₁, t₁, henter, hpart, hopens⟩ := Script.exists_opensIf r c
  obtain ⟨w₂, t₂, hlower, hstays⟩ := hs hopens.ready
  obtain ⟨t', hleave, -, hencloses⟩ := (hopens.stays hstays).exists_leaveIf hpart
  refine ⟨f.phiBlock, w₂.pop, t', ?_, hencloses⟩
  rw [Frame.phiBlock_eq_target (by simp [hpart])]
  refine .ifThen henter ?_
  simp only [lower, henter, hlower, hleave, bind, Except.bind]

theorem exists_ifElse (hs : s.Lowers) (hs' : s'.Lowers) (r : Ready w t.body) (c : Test) :
    ∃ b w' t', Spans (.ifElse c s s') t b t' ∧
      t.Encloses w b (s.assigned ++ s'.assigned) w' t' := by
  obtain ⟨f, w₁, t₁, henter, hpart, hopens⟩ := Script.exists_opensIf r c
  obtain ⟨w₂, t₂, hlower, hstays⟩ := hs hopens.ready
  obtain ⟨tt, w₃, t₃, hturn, -, hopens₃⟩ := (hopens.stays hstays).exists_enterElse hpart
  obtain ⟨w₄, t₄, hlower', hstays'⟩ := hs' hopens₃.ready
  obtain ⟨t₅, t', hjump, hleave, -, hencloses⟩ := (hopens₃.stays hstays').exists_leaveElse rfl
  refine ⟨_, w₄.pop, t', ?_, hencloses⟩
  rw [Frame.phiBlock_eq_target (by simp)]
  refine .ifElse henter ?_
  simp only [lower, henter, hlower, hturn, hlower', hjump, hleave, bind, Except.bind]

theorem exists_loop (hs : s.Lowers) (r : Ready w t.body) (c : Test) : ∃ b w' t',
    Spans (.loop c s) t b t' ∧ t.Encloses w b s.assigned w' t' := by
  obtain ⟨f, w₁, t₁, henter, hpart, hopens⟩ := Script.exists_opensLoop r c
  obtain ⟨w₂, t₂, hlower, hstays⟩ := hs hopens.ready
  obtain ⟨t', hleave, -, hencloses⟩ := (hopens.stays hstays).exists_leaveLoop hpart
  refine ⟨f.phiBlock, w₂.pop, t', ?_, hencloses⟩
  rw [Frame.phiBlock_eq_test hpart]
  refine .loop henter ?_
  simp only [lower, henter, hlower, hleave, bind, Except.bind]

/-- **Lowering a statement** succeeds wherever construction is ready for it. -/
theorem exists_lower (s : Stmt) : s.Lowers := by
  intro w t r
  induction s generalizing w t with
  | skip => exact ⟨w, t, rfl, .of_adds r (.refl w t) (.refl _) r.built⟩
  | seq s s' ih ih' =>
    obtain ⟨w₁, t₁, hs, hstays⟩ := ih r
    obtain ⟨w', t', hs', hstays'⟩ := ih' hstays.ready
    refine ⟨w', t', ?_, hstays.trans hstays'⟩
    simp only [lower, hs, hs', bind, Except.bind]
  | assign x e =>
    obtain ⟨o, t₁, he, hadv, hadds, hb, ho, -⟩ := e.exists_lower r.built r.accepts r.clear_current
    have hstays := Script.Stays.of_adds r hadv hadds hb
    obtain ⟨t', hassign, hstays'⟩ := Script.exists_assign hstays.ready x ho
    refine ⟨w, t', ?_, hstays.trans hstays'⟩
    simp only [lower, he, hassign, bind, Except.bind]
  | write e =>
    obtain ⟨o, t₁, he, hadv, hadds, hb, ho, hm⟩ := e.exists_lower r.built r.accepts r.clear_current
    obtain ⟨i, t', hemit, hadv', hadds', hb', -⟩ :=
      Script.exists_emit hb (.unary .write o) rfl rfl (hadds.accepts r.accepts)
        (fun o' ho' d hd => (ho d (List.mem_singleton.1 ho' ▸ hd)).2)
        (fun o' ho' => List.mem_singleton.1 ho' ▸ hm) (hadds.clear r.clear_current)
    refine ⟨w, t', ?_, .of_adds r (hadv.trans hadv') (hadds.trans hadds') hb'⟩
    simp only [lower, he, hemit, bind, Except.bind, pure, Except.pure]
  | ifThen c s ih =>
    obtain ⟨b, w', t', hspans, hencloses⟩ := exists_ifThen (fun r => ih r) r c
    exact ⟨w', t', hspans.lower_eq, hencloses.stays⟩
  | ifElse c s s' ih ih' =>
    obtain ⟨b, w', t', hspans, hencloses⟩ := exists_ifElse (fun r => ih r) (fun r => ih' r) r c
    exact ⟨w', t', hspans.lower_eq, hencloses.stays⟩
  | loop c s ih =>
    obtain ⟨b, w', t', hspans, hencloses⟩ := exists_loop (fun r => ih r) r c
    exact ⟨w', t', hspans.lower_eq, hencloses.stays⟩

end Stmt
end StructuredSSA
