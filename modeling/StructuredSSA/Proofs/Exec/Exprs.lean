import StructuredSSA.Proofs.Exec.Course

/-!
# Executing expressions and tests

What computes an expression is executed where construction stands, and its operand has the value of
the expression.  A test is executed up to its branch, which leaves the block along one edge or the
other.

Expressions are taken by induction.  The difficulty is in the values that wait: while the right
operand of an operation is computed, the left one has been computed and must still have its value.
It does because what it reads in the end has been executed before (`Operand.Lasts`), whether this is
an instruction, a constant or a phi, and nothing that is executed later within the block writes to
it.

With sharing on, an operation may have been computed already.  Then nothing is executed, and the
value that is there is the right one: it is up to date (`Graph.UpToDate`), and in the end the
instruction reads what a new one would read (`Stands.reused`).

## What is here

* `Computes` — an expression has been executed.
* `Course.computes_reused` — it had been before.
* `Course.computes` — expressions.
* `Course.tests` — tests.

Nothing is assigned here, so nothing is said about phis that come to be.
-/

set_option autoImplicit false

namespace StructuredSSA

/-- Control goes from `q` to `q'` while an expression is executed that has been added between `u`
and `u'`; `o` reads its value `a`. -/
structure Computes (g : Graph) (input : Nat → Int64) (w : Site) (u u' : Body) (st st' : Store)
    (o : Operand) (a : Int64) (q q' : Point × Machine) : Prop where
  goes : g.Goes input q q'
  tracks : Tracks g w u' st' q'
  retains : q.2.Retains g u.graph.nextId q'.2
  read_eq : q'.2.read (o.fated g u'.graph w.loops) = some a
  lasts : o.Lasts g u'.graph w.loops u'.graph.nextId
  values_eq : st'.values = st.values

theorem Computes.read_later {g : Graph} {input : Nat → Int64} {w : Site} {u u₁ u' : Body}
    {st st₁ st' : Store} {o o' : Operand} {a a' : Int64} {q q₁ q' : Point × Machine}
    (h : Computes g input w u u₁ st st₁ o a q q₁)
    (h' : Computes g input w u₁ u' st₁ st' o' a' q₁ q') (hphis : u₁.graph.SamePhis u'.graph) :
    q'.2.read (o.fated g u'.graph w.loops) = some a := by
  rw [Graph.SameRenewals.fated_eq (.of_samePhis hphis), h'.retains.read_eq h.lasts, h.read_eq]

/-! ## Adding instructions -/

/-- The operation has been computed already, in the loops that are open now. -/
structure Body.Reuses (u : Body) (op : Operation) (i : InstrId) : Prop where
  op_eq : u.graph.op? i = some op
  offered : ∃ k, i ∈ (u.graph.offered u.current).candidates k
  recent : u.predatesLoop i = false

theorem Body.Reuses.arith? {u : Body} {op : Operation} {i : InstrId} (h : u.Reuses op i)
    (hc : u.graph.Contents) : ∃ k, op.arith? = some k := by
  obtain ⟨k, hk⟩ := h.offered
  obtain ⟨op', hop', harith⟩ := hc.offers _ _ _ hk
  obtain rfl : op = op' := Option.some.inj (h.op_eq.symm.trans hop')
  exact ⟨k, harith⟩

theorem Operation.eq_const_of_outline {op : Operation} {v : Int64}
    (h : op.outline = (const v).outline) : op = .const v := by
  cases op <;> simp_all [outline, mapOperands]

theorem Operation.exists_of_outline_branch {op : Operation} {c : Cond} {t : Option Target}
    (h : op.outline = (branch c t).outline) : ∃ t', op = .branch c t' := by
  cases op <;> simp_all [outline, mapOperands]

namespace Script

variable {w : Site} {t : Script} {op : Operation}

/-- An operation is added, or has been computed already. -/
theorem exists_emit_cases (b : Built w t.body) (op : Operation) (hphi : op.isPhi = false)
    (hbranch : op.isBranch = false) (hacc : w.Accepts t.body.current)
    (hreads : ∀ o ∈ op.operands, ∀ d, o.value = some d → t.body.Obtains d)
    (hmeans : ∀ o ∈ op.operands, t.body.Means o)
    (hclear : ¬ t.body.graph.HasBranch t.body.current) :
    ∃ i t', t.emit op = .ok (i, t') ∧ t.Advances w w t' ∧ t.body.Adds t'.body ∧
      (t'.body = t.body ∧ t.body.Reuses op i ∨ i = t.body.graph.nextId ∧
        t.body.graph.Receives t.body.current op t'.body.graph) := by
  obtain ⟨i, u, hemit, hemits, -⟩ := b.emit hphi hbranch
  obtain ⟨i', t', hemit', hadv, hadds, -⟩ :=
    exists_emit b op hphi hbranch hacc hreads hmeans hclear
  rw [emit_eq hemit] at hemit'
  cases hemit'
  refine ⟨i, _, emit_eq hemit, hadv, hadds, ?_⟩
  cases hemits with
  | reused hop hoffer hnew => exact .inl ⟨rfl, hop, ⟨_, hoffer⟩, hnew⟩
  | retired hshare hplace hoffer hop hsame =>
    exact .inr ⟨rfl, hplace.receives_retire hphi _⟩
  | placed hplace => exact .inr ⟨rfl, .of_places hplace hphi⟩

/-- What is not arithmetic is always added. -/
theorem exists_emit_added (b : Built w t.body) (op : Operation) (hphi : op.isPhi = false)
    (hbranch : op.isBranch = false) (harith : op.arith? = none) (hacc : w.Accepts t.body.current)
    (hreads : ∀ o ∈ op.operands, ∀ d, o.value = some d → t.body.Obtains d)
    (hmeans : ∀ o ∈ op.operands, t.body.Means o)
    (hclear : ¬ t.body.graph.HasBranch t.body.current) :
    ∃ t', t.emit op = .ok (t.body.graph.nextId, t') ∧ t.Advances w w t' ∧ t.body.Adds t'.body ∧
      t.body.graph.Receives t.body.current op t'.body.graph := by
  obtain ⟨i, t', hemit, hadv, hadds, hcases⟩ :=
    exists_emit_cases b op hphi hbranch hacc hreads hmeans hclear
  rcases hcases with ⟨-, hreuses⟩ | ⟨rfl, hreceives⟩
  · obtain ⟨k, hk⟩ := hreuses.arith? b.contents
    rw [harith] at hk
    cases hk
  · exact ⟨t', hemit, hadv, hadds, hreceives⟩

/-- The branch of a test is added. -/
theorem exists_emitTest (b : Built w t.body) {f : Frame} {fs : List Frame}
    (hframes : w.frames = f :: fs) (hcurrent : t.body.current = f.test)
    (hclear : ¬ t.body.graph.HasBranch t.body.current) (rel : Relation) :
    ∃ t', t.emit (.branch (.whenever rel) none) = .ok (t.body.graph.nextId, t') ∧
      t.Advances w w t' ∧ t'.body.current = t.body.current ∧
      t.body.graph.Receives t.body.current (.branch (.whenever rel) none) t'.body.graph ∧
      t'.body.graph.op? t.body.graph.nextId = some (.branch (.whenever rel) none) := by
  obtain ⟨g, hemit, hplaces, hb⟩ :=
    b.emitTest (f := f) (by simp [hframes]) hcurrent hclear (.whenever rel)
  refine ⟨_, emit_eq hemit, .of_step ⟨?_, .test hframes hcurrent hclear hplaces, hb⟩, rfl,
    .of_places hplaces rfl, ?_⟩
  · simp only [Body.exec, hemit, Body.namingInstr, Except.map]
  · change g.op? t.body.graph.nextId = _
    rw [Graph.op?, hplaces.instr?_new]
    rfl

end Script

/-- Instructions elsewhere do not move control. -/
theorem Body.At.receives {u u' : Body} {w : Site} {g : Graph} {p : Point} (h : u.At w g p)
    {c : BlockId} {op : Operation} (hreceives : u.graph.Receives c op u'.graph)
    (hphi : op.isPhi = false) (hclear : c = Body.head ∨ ¬ u.graph.HasBranch c)
    (hcurrent : u'.current = u.current) (hc : u.current ≠ c) : u'.At w g p := by
  refine h.congr hcurrent ?_ (fun _ x => (hreceives.samePhis hphi).hasPhi_iff.1) id
    fun heq => ⟨heq, hreceives.skeleton.prev_eq _ _⟩
  rw [hreceives.plain_eq hphi hclear, if_neg hc]

/-- Constants stay what they are, and where they are. -/
theorem Graph.Keeps.const {g g' : Graph} (h : g.Keeps g') {i : InstrId} {v : Int64}
    (hop : g.op? i = some (.const v)) :
    g'.op? i = some (.const v) ∧ g'.home? i = g.home? i := by
  obtain ⟨ins, hins, hinsop⟩ := Option.map_eq_some_iff.1 hop
  obtain ⟨ins', hins', hkeeps⟩ := h i ins hins
  have houtline := hkeeps.outline_eq
  rw [hinsop] at houtline
  refine ⟨?_, ?_⟩
  · rw [Graph.op?, hins', Option.map_some, Operation.eq_const_of_outline houtline]
  · rw [Graph.home?, hins', Graph.home?, hins, Option.map_some, Option.map_some, hkeeps.block_eq]

namespace Leads

variable {w wE : Site} {u U : Body}

theorem current_ne_head (h : Leads w u wE U) (hacc : w.Accepts u.current) :
    u.current ≠ Body.head := by
  rcases hacc with heq | ⟨f, fs, hframes, htest⟩
  · rw [heq]
    exact h.orderly.numbered.tail_ne_head h.orderly.built.layout
  · rw [htest]
    exact h.orderly.numbered.test_ne_head f (by simp [hframes])

end Leads

/-- The edge along which control leaves a test: it falls through if the test holds. -/
def Test.edge (holds : Bool) : Edge := if holds then .fall else .branch

namespace Course

variable {options : Options} {w wE : Site} {t t' tE : Script} {U : Body}
  {input : Nat → Int64}

/-! ## Expressions -/

/-- A constant has been executed before everything else. -/
theorem computes_lit (c : Course options wE tE U) {v : Int64} {i : InstrId}
    (hconst : t.constant v = .ok (i, t')) (hreached : t.Reached options w)
    (hpasses : t'.Passes options w wE tE) (hacc : w.Accepts t.body.current) {st : Store}
    {q : Point × Machine} (ht : Tracks U.graph w t.body st q) :
    Computes U.graph input w t.body t'.body st st (.result i) v q q := by
  have b := (Orderly.run hreached).built
  have h' := c.leads hpasses
  have hadv : t.Advances w w t' := by
    obtain ⟨_, _, heq, hadv, -⟩ := Script.exists_constant b v
    rw [hconst] at heq
    cases heq
    exact hadv
  obtain ⟨i', u', heq, -, hcases⟩ := b.constant v
  simp only [Script.constant, heq, bind, Except.bind, pure, Except.pure, Except.ok.injEq,
    Prod.mk.injEq] at hconst
  obtain ⟨rfl, rfl⟩ := hconst
  have hplaced : u'.graph.op? i' = some (.const v) ∧ u'.graph.home? i' = some Body.head ∧
      Tracks U.graph w u' st q := by
    rcases hcases with ⟨rfl, hop, hhome⟩ | ⟨rfl, g, rfl, hplaces⟩
    · exact ⟨hop, hhome, ht⟩
    · have hreceives := Graph.Receives.of_places hplaces rfl
      have h := c.leads (hpasses.back hreached hadv)
      refine ⟨?_, ?_, ?_, ?_⟩
      · rw [hreceives.op?_iff _ _ rfl]
        exact .inl ⟨rfl, rfl⟩
      · rw [hreceives.home?_eq, if_pos rfl]
      · exact ht.position.receives hreceives rfl (.inl rfl) rfl (h.current_ne_head hacc)
      · rw [h.meaning_tail hreceives.skeleton hreceives.binding_eq]
        exact ht.agrees.since (.of_samePhis (hreceives.samePhis rfl))
  obtain ⟨hop, hhome, htracks⟩ := hplaced
  obtain ⟨hop, heq⟩ := h'.proceeds.keeps.const hop
  exact
    { goes := .refl
      tracks := htracks
      retains := .refl _ _ _
      read_eq := ht.agrees.consts i' v hop (heq.trans hhome)
      lasts := fun j hj => by
        cases hj
        exact .inr (.inr ⟨v, hop⟩)
      values_eq := rfl }

/-- An operation is executed that records its result. -/
theorem computes_added (c : Course options wE tE U) {op : Operation}
    (hreached : t.Reached options w) (hpasses : t'.Passes options w wE tE)
    (hadv : t.Advances w w t') (hadds : t.body.Adds t'.body)
    (hreceives : t.body.graph.Receives t.body.current op t'.body.graph) (hphi : op.isPhi = false)
    (hbranch : op.isBranch = false)
    (hconst : ∀ v, op.fated U.graph t.body.graph w.loops ≠ .const v)
    (hclear : ¬ t.body.graph.HasBranch t.body.current) {st : Store} {q : Point × Machine}
    (ht : Tracks U.graph w t.body st q) (st' : Store) (m' : Machine) {a : Int64}
    (hstep : ∀ ins, ins.id = t.body.graph.nextId →
      ins.op = op.fated U.graph t.body.graph w.loops →
      q.2.step input ins = some (m', .onward))
    (hvalue : m'.values = (q.2.set t.body.graph.nextId a).values) (htaken : m'.taken = st'.taken)
    (hwritten : m'.written = st'.written) (hvalues : st'.values = st.values) :
    ∃ q', Computes U.graph input w t.body t'.body st st' (.result t.body.graph.nextId) a q q' := by
  have h := c.leads (hpasses.back hreached hadv)
  have h' := c.leads hpasses
  have hop := h.op?_added h' hreceives hphi hbranch hclear
  have hretains : q.2.Retains U.graph t.body.graph.nextId m' := by
    intro i hi
    rw [hvalue]
    exact Machine.Retains.set hop (by rw [Operation.isPhi_fated, hphi]) hconst a i hi
  obtain ⟨p', hgoes, htracks⟩ := h.executes h' hreceives hadds.setting.current_eq hphi hbranch
    hclear ht st' m' hstep hretains htaken hwritten hvalues
  refine ⟨_, hgoes, htracks, hretains, ?_, ?_, hvalues⟩
  · change m'.values t.body.graph.nextId = some a
    rw [hvalue]
    exact if_pos rfl
  · intro i hi
    cases hi
    refine .inl ?_
    rw [hreceives.nextId_eq]
    exact Nat.lt_succ_self _

/-- Control has passed an instruction that is offered where construction stands. -/
theorem passed_of_offered (c : Course options wE tE U) (hreached : t.Reached options w)
    (hpasses : t.Passes options w wE tE) (hacc : w.Accepts t.body.current) {k : ArithOp}
    {i : InstrId} (hoffer : i ∈ (t.body.graph.offered t.body.current).candidates k)
    (hphi : t.body.graph.isPhi i = false) {q : Point × Machine} (hat : t.body.At w U.graph q.1)
    (hq : U.graph.UpToDate q) : U.graph.Passed q.1 i := by
  have h := c.leads hpasses
  have hlt := h.orderly.built.current_lt
  have hgrowth := c.growth_of_passes hpasses
  obtain ⟨a, ha, hdom⟩ := (Shared.run hreached).offering _ _ _ hlt hoffer
  have ha' := hgrowth.home? i a ha
  have hdom' := hgrowth.dominates a _ hlt hdom
  obtain ⟨p, m⟩ := q
  cases hat with
  | @inside rest hrest =>
    refine ⟨a, ha', hdom', fun hmem => ?_⟩
    -- what is listed later is listed once, and is younger
    have hlisted : i ∈ U.graph.plain t.body.current := hrest ▸ List.mem_append_right _ hmem
    have hhome := (c.proper.contents.mem_listed _ i).1 (Graph.mem_plain.1 hlisted).1
    obtain rfl : a = t.body.current := Option.some.inj (ha'.symm.trans hhome)
    have hplain : i ∈ t.body.graph.plain t.body.current :=
      Graph.mem_plain.2 ⟨(h.orderly.built.contents.mem_listed _ i).2 ha, hphi⟩
    have hordered := (c.proper.inOrder t.body.current).pairwise_plain
    rw [hrest, List.pairwise_append] at hordered
    exact Nat.lt_irrefl i (hordered.2.2 i hplain i hmem)
  | entering hclosed hplain hphis =>
    have hne : a ≠ t.body.current := by
      rintro rfl
      have hmem : i ∈ t.body.graph.plain t.body.current :=
        Graph.mem_plain.2 ⟨(h.orderly.built.contents.mem_listed _ i).2 ha, hphi⟩
      rw [hplain] at hmem
      cases hmem
    obtain ⟨b, hb⟩ := (hq.entering _ _ rfl).resolve_left (h.current_ne_head hacc)
    exact ⟨a, b, ha', hb, hdom'.of_succ hne (Graph.succ_iff.2 ⟨_, hb⟩)⟩

/-- An operation that has been computed already has the value that it would get. -/
theorem computes_reused (c : Course options wE tE U) (hreached : t.Reached options w)
    (hpasses : t'.Passes options w wE tE) (hadv : t.Advances w w t') (hbody : t'.body = t.body)
    (hacc : w.Accepts t.body.current) {op : ArithOp} {l r : Operand} {i : InstrId}
    (hreuses : t.body.Reuses (.binary (.arith op) l r) i) {st : Store} {q : Point × Machine}
    (ht : Tracks U.graph w t.body st q) (hq : U.graph.UpToDate q) {a b : Int64}
    (hl : q.2.read (l.fated U.graph t.body.graph w.loops) = some a)
    (hr : q.2.read (r.fated U.graph t.body.graph w.loops) = some b) :
    Computes U.graph input w t.body t'.body st st (.result i) (op.eval a b) q q := by
  have hpasses₀ := hpasses.back hreached hadv
  have h := c.leads hpasses₀
  have hstands := Stands.reused h.orderly (Looped.run hreached) hreuses.op_eq rfl hreuses.recent
  have hop := (hstands.proceeds h.proceeds).op_eq
  obtain ⟨k, hoffer⟩ := hreuses.offered
  have hphi : t.body.graph.isPhi i = false := by
    rw [Graph.isPhi_eq, hreuses.op_eq]
    rfl
  have hvalue := hq.values i op _ _ hop
    (c.passed_of_offered hreached hpasses₀ hacc hoffer hphi ht.position hq)
  rw [hbody]
  exact
    { goes := .refl
      tracks := ht
      retains := .refl _ _ _
      read_eq := by
        change q.2.values i = some (op.eval a b)
        rw [hvalue, Machine.outcome, hl, hr]
        rfl
      lasts := fun j hj => by
        cases hj
        exact .inl (Graph.lt_nextId_of_op? hreuses.op_eq)
      values_eq := rfl }

/-- **An expression** is executed where construction stands. -/
theorem computes (c : Course options wE tE U) (e : Expr) {o : Operand}
    (hlower : e.lower t = .ok (o, t')) (hreached : t.Reached options w)
    (hpasses : t'.Passes options w wE tE) (hacc : w.Accepts t.body.current)
    (hclear : ¬ t.body.graph.HasBranch t.body.current) {st st' : Store} {a : Int64}
    {q : Point × Machine} (ht : Tracks U.graph w t.body st q) (hq : U.graph.UpToDate q)
    (heval : e.eval input st = some (a, st')) :
    ∃ q', Computes U.graph input w t.body t'.body st st' o a q q' := by
  induction e generalizing t t' o st st' a q with
  | var x =>
    have b := (Orderly.run hreached).built
    obtain ⟨v, hv, hres⟩ := b.layout.exists_resolve b.current_lt x
    simp only [Expr.lower, Body.readVar, Body.valueOf, hv, bind, Except.bind, pure, Except.pure,
      Except.ok.injEq, Prod.mk.injEq] at hlower
    obtain ⟨rfl, rfl⟩ := hlower
    obtain ⟨a', ha', heq⟩ := Option.map_eq_some_iff.1 heval
    obtain ⟨rfl, rfl⟩ := Prod.mk.inj heq
    have h := c.leads hpasses
    obtain rfl : t.body.graph.meaning w.tail x = v := by
      rw [← h.meaning_current hacc hclear]
      exact b.layout.meaning_eq b.current_lt hres
    exact ⟨q, .refl, ht, .refl _ _ _, ht.agrees.vars x a' ha', h.lasts x, rfl⟩
  | lit v =>
    cases heval
    obtain ⟨i, t₁, hconst, -⟩ := Script.exists_constant (Orderly.run hreached).built v
    simp only [Expr.lower, hconst, bind, Except.bind, pure, Except.pure, Except.ok.injEq,
      Prod.mk.injEq] at hlower
    obtain ⟨rfl, rfl⟩ := hlower
    exact ⟨q, c.computes_lit hconst hreached hpasses hacc ht⟩
  | read =>
    cases heval
    obtain ⟨t₁, hemit, hadv, hadds, hreceives⟩ :=
      Script.exists_emit_added (Orderly.run hreached).built .read rfl rfl rfl hacc
        (fun _ ho => absurd ho List.not_mem_nil) (fun _ ho => absurd ho List.not_mem_nil) hclear
    simp only [Expr.lower, hemit, bind, Except.bind, pure, Except.pure, Except.ok.injEq,
      Prod.mk.injEq] at hlower
    obtain ⟨rfl, rfl⟩ := hlower
    refine c.computes_added (a := input st.taken) hreached hpasses hadv hadds hreceives rfl rfl
      (fun _ => Operation.noConfusion) hclear ht _
      { q.2.set t.body.graph.nextId (input st.taken) with taken := st.taken + 1 }
      (fun ins hid hop => ?_) rfl rfl ht.agrees.written rfl
    have hop : ins.op = .read := hop
    simp only [Machine.step, hop, hid, ht.agrees.taken]
  | arith op l r ihl ihr =>
    obtain ⟨o₁, t₁, o₂, t₂, h⟩ := l.exists_pair r (Orderly.run hreached).built hacc hclear
    have hreached₁ := hreached.advance h.left
    have hreached₂ := hreached₁.advance h.right
    have hacc₂ := h.adds.accepts hacc
    have hclear₂ := h.adds.clear hclear
    obtain ⟨i, t₃, hemit, hadv, hadds, hcases⟩ := Script.exists_emit_cases h.built
      (.binary (.arith op) o₁ o₂) rfl rfl hacc₂ h.obtains h.means hclear₂
    simp only [Expr.lower, h.left_eq, h.right_eq, hemit, bind, Except.bind, pure, Except.pure,
      Except.ok.injEq, Prod.mk.injEq] at hlower
    obtain ⟨rfl, rfl⟩ := hlower
    have hpasses₂ := hpasses.back hreached₂ hadv
    have hpasses₁ := hpasses₂.back hreached₁ h.right
    simp only [Expr.eval, Option.bind_eq_bind, Option.bind_eq_some_iff, Prod.exists] at heval
    obtain ⟨a₁, st₁, hevall, a₂, st₂, hevalr, heq⟩ := heval
    cases heq
    obtain ⟨q₁, hq₁⟩ := ihl h.left_eq hreached hpasses₁ hacc hclear ht hq hevall
    obtain ⟨q₂, hq₂⟩ := ihr h.right_eq hreached₁ hpasses₂ (h.addsLeft.accepts hacc)
      (h.addsLeft.clear hclear) hq₁.tracks (c.proper.goes hq hq₁.goes) hevalr
    have hgoes := hq₁.goes.trans hq₂.goes
    have hread := hq₁.read_later hq₂ h.addsRight.phis
    obtain ⟨q', hq'⟩ : ∃ q', Computes U.graph input w t₂.body t₃.body st' st' (.result i)
        (op.eval a₁ a₂) q₂ q' := by
      rcases hcases with ⟨hbody, hreuses⟩ | ⟨rfl, hreceives⟩
      · exact ⟨q₂, c.computes_reused hreached₂ hpasses hadv hbody hacc₂ hreuses hq₂.tracks
          (c.proper.goes hq hgoes) hread hq₂.read_eq⟩
      · refine c.computes_added hreached₂ hpasses hadv hadds hreceives rfl rfl
          (fun _ => Operation.noConfusion) hclear₂ hq₂.tracks _
          (q₂.2.set t₂.body.graph.nextId (op.eval a₁ a₂)) (fun ins hid hop => ?_) rfl
          hq₂.tracks.agrees.taken hq₂.tracks.agrees.written rfl
        have hop : ins.op = .binary (.arith op) (o₁.fated U.graph t₂.body.graph w.loops)
          (o₂.fated U.graph t₂.body.graph w.loops) := hop
        simp only [Machine.step, hop, hid, hread, hq₂.read_eq, Option.bind_eq_bind,
          Option.bind_some, Option.pure_def]
    exact ⟨q',
      { goes := hgoes.trans hq'.goes
        tracks := hq'.tracks
        retains := (hq₁.retains.trans hq₂.retains h.addsLeft.nextId_le).trans hq'.retains
          h.adds.nextId_le
        read_eq := hq'.read_eq
        lasts := hq'.lasts
        values_eq := hq₂.values_eq.trans hq₁.values_eq }⟩

/-! ## Tests -/

/-- The branch of a test is executed, and control leaves the test along one of its edges. -/
theorem branches (c : Course options wE tE U) {rel : Relation} {f : Frame} {fs : List Frame}
    (hframes : w.frames = f :: fs) (hcurrent : t.body.current = f.test)
    (hclear : ¬ t.body.graph.HasBranch t.body.current) (hpasses : t'.Passes options w wE tE)
    (hcurrent' : t'.body.current = t.body.current)
    (hreceives : t.body.graph.Receives t.body.current (.branch (.whenever rel.negate) none)
      t'.body.graph)
    (hop : t'.body.graph.op? t.body.graph.nextId = some (.branch (.whenever rel.negate) none))
    {p : Point} (hat : t.body.At w U.graph p) {m : Machine} {a b : Int64}
    (hcompared : m.compared = some (a, b)) {d : BlockId}
    (hnext : U.graph.next (Test.edge (rel.holds a b)) f.test = some d) :
    U.graph.Goes input (p, m) (.entering d (Test.edge (rel.holds a b)), m) := by
  have h' := c.leads hpasses
  have hf : f ∈ w.frames := by simp [hframes]
  obtain ⟨rest, hgoes, hsplit, -⟩ :=
    h'.goes_to_added input hreceives hcurrent' rfl hclear hat m
  rw [hcurrent] at hgoes hsplit
  -- the branch is the last instruction of the test
  have hbranch : t'.body.graph.HasBranch f.test :=
    (hreceives.hasBranch_iff _).2 (.inr ⟨rfl, hcurrent.symm⟩)
  have hplain := h'.plain_eq (b := f.test)
    ⟨h'.orderly.built.layout.behind f hf _ (Layout.test_mem_behind f),
      h'.orderly.numbered.test_ne_head f hf, fun _ _ _ => hbranch⟩ (.inl hbranch)
  obtain rfl : rest = [] := List.self_eq_append_right.1 (hplain.symm.trans hsplit)
  obtain ⟨ins, hins, hinsop⟩ := Option.map_eq_some_iff.1 hop
  obtain ⟨ins', hins', hkeeps⟩ := h'.proceeds.keeps _ ins hins
  obtain ⟨target, hop'⟩ := Operation.exists_of_outline_branch (hinsop ▸ hkeeps.outline_eq)
  have hstep : m.step input ins' =
      some (m, if rel.negate.holds a b = true then .branch else .onward) := by
    simp only [Machine.step, hop', hcompared, Option.bind_eq_bind, Option.bind_some,
      Option.pure_def]
  rw [Relation.holds_negate] at hstep
  cases hholds : rel.holds a b with
  | true =>
    rw [hholds] at hstep hnext
    exact (hgoes.tail (.exec hins' hstep)).tail (.fall hnext)
  | false =>
    rw [hholds] at hstep hnext
    exact hgoes.tail (.branch hins' hstep hnext)

/-- **A test** is executed, and control falls through if it holds. -/
theorem tests (c : Course options wE tE U) {cond : Test} (hlower : cond.lower t = .ok t')
    {f : Frame} {fs : List Frame} (hframes : w.frames = f :: fs)
    (hcurrent : t.body.current = f.test)
    (hclear : ¬ t.body.graph.HasBranch f.test) (hreached : t.Reached options w)
    (hpasses : t'.Passes options w wE tE) {st st' : Store} {holds : Bool} {q : Point × Machine}
    (ht : Tracks U.graph w t.body st q) (hq : U.graph.UpToDate q)
    (heval : cond.eval input st = some (holds, st')) :
    ∃ m', Agrees U.graph t'.body.graph w.loops (t'.body.graph.meaning w.tail) st' m' ∧
      st'.values = st.values ∧
      ∀ d, U.graph.next (Test.edge holds) f.test = some d →
        U.graph.Goes input q (.entering d (Test.edge holds), m') := by
  have hclear₀ : ¬ t.body.graph.HasBranch t.body.current := hcurrent ▸ hclear
  have hacc₀ : w.Accepts t.body.current := .inr ⟨f, fs, hframes, hcurrent⟩
  obtain ⟨o₁, t₁, o₂, t₂, h⟩ :=
    cond.lhs.exists_pair cond.rhs (Orderly.run hreached).built hacc₀ hclear₀
  have hreached₁ := hreached.advance h.left
  have hreached₂ := hreached₁.advance h.right
  have hacc₂ := h.adds.accepts hacc₀
  have hclear₂ := h.adds.clear hclear₀
  obtain ⟨t₃, hcmp, hadv₃, hadds₃, hreceives₃⟩ := Script.exists_emit_added h.built
    (.binary .cmp o₁ o₂) rfl rfl rfl hacc₂ h.obtains h.means hclear₂
  have hreached₃ := hreached₂.advance hadv₃
  have hcurrent₃ : t₃.body.current = f.test := by
    rw [(h.adds.trans hadds₃).setting.current_eq, hcurrent]
  have hclear₃ := hadds₃.clear hclear₂
  obtain ⟨t₄, hbranch, hadv₄, hcurrent₄, hreceives₄, hop₄⟩ := Script.exists_emitTest
    (Orderly.run hreached₃).built hframes hcurrent₃ hclear₃ cond.rel.negate
  simp only [Test.lower, h.left_eq, h.right_eq, hcmp, hbranch, bind, Except.bind, pure, Except.pure,
    Except.ok.injEq] at hlower
  obtain rfl := hlower
  have hpasses₃ := hpasses.back hreached₃ hadv₄
  have hpasses₂ := hpasses₃.back hreached₂ hadv₃
  have hpasses₁ := hpasses₂.back hreached₁ h.right
  simp only [Test.eval, Option.bind_eq_bind, Option.bind_eq_some_iff, Prod.exists] at heval
  obtain ⟨a₁, st₁, hevall, a₂, st₂, hevalr, heq⟩ := heval
  cases heq
  obtain ⟨q₁, hq₁⟩ := c.computes _ h.left_eq hreached hpasses₁ hacc₀ hclear₀ ht hq hevall
  obtain ⟨q₂, hq₂⟩ := c.computes _ h.right_eq hreached₁ hpasses₂ (h.addsLeft.accepts hacc₀)
    (h.addsLeft.clear hclear₀) hq₁.tracks (c.proper.goes hq hq₁.goes) hevalr
  obtain ⟨p₃, hgoes₃, ht₃⟩ := (c.leads hpasses₂).executes
    (c.leads hpasses₃) hreceives₃ hadds₃.setting.current_eq rfl rfl hclear₂
    hq₂.tracks _ { q₂.2 with compared := some (a₁, a₂) } (fun ins _ hop => by
      have hop : ins.op = .binary .cmp (o₁.fated U.graph t₂.body.graph w.loops)
        (o₂.fated U.graph t₂.body.graph w.loops) := hop
      simp only [Machine.step, hop, hq₁.read_later hq₂ h.addsRight.phis, hq₂.read_eq,
        Option.bind_eq_bind, Option.bind_some, Option.pure_def])
    (fun _ _ => rfl) hq₂.tracks.agrees.taken hq₂.tracks.agrees.written rfl
  have hgoes := (hq₁.goes.trans hq₂.goes).trans hgoes₃
  refine ⟨_, ?_, hq₂.values_eq.trans hq₁.values_eq, fun d hd => hgoes.trans (c.branches hframes
    hcurrent₃ hclear₃ hpasses hcurrent₄ hreceives₄ hop₄ ht₃.position rfl hd)⟩
  rw [(c.leads hpasses₃).meaning_tail hreceives₄.skeleton hreceives₄.binding_eq]
  exact ht₃.agrees.since (.of_samePhis (hreceives₄.samePhis rfl))

end Course
end StructuredSSA
