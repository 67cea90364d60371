import StructuredSSA.Proofs.Exec.Stmts

/-!
# Executing ifs

Control comes to the test of an if, goes along one of its sides, and comes to the join.  The test
stands in the block in which the if was opened, so control is at the branch when it has been
executed; the side that is taken is simulated by induction, and at the join the phis choose what the
side brings (`Closing.enters`).  The side that is not taken matters too: what is built there may
bring phis to the join, and the variables that it assigns need a value on the other side as well.
This is where `Stmt.AssignsWithin` is used.

## What is here

* `Course.closing` — closing a construct on the course of a construction.
* `Course.tests_if`, `follows_then` — the test leads to one of the sides.
* `Course.jumps_over`, `enters_else` — from the then side over the else side, and into the else
  side.
* `Closing.joins`, `Closing.leaves` — control comes to the join and executes its phis.
* `Stmt.simulates_ifThen`, `Stmt.simulates_ifElse` — ifs, with one side or two.
-/

set_option autoImplicit false

namespace StructuredSSA

/-- Where a construct has no phis yet, the variables mean what they meant before it. -/
theorem Leads.meaning_before {w wE : Site} {u U : Body} (h : Leads w u wE U) {f : Frame}
    {fs : List Frame} (hframes : w.frames = f :: fs) (hnone : ∀ x, ¬ u.graph.HasPhi f.phiBlock x) :
    u.graph.meaning w.tail = f.before := by
  funext x
  have hf : f ∈ w.frames := by simp [hframes]
  have hlevels := h.orderly.levelled.levels
  rw [hframes] at hlevels
  exact (hlevels.1.kept x fun i hi =>
    hnone x ⟨i, (h.orderly.built.phiOf_iff_ownPhi hf).2 hi⟩).1

namespace Closing

variable {w wE : Site} {f : Frame} {u v U : Body}

theorem target_lt (c : Closing w f u v wE U) : f.phiBlock < U.graph.blocks.size :=
  (c.after.proceeds.entered c.sealed.1).1.closed.lt_size c.after.finished.built.layout

/-- The block behind the construct is empty but for phis. -/
theorem plain_target (c : Closing w f u v wE U) : v.graph.plain f.target = [] := by
  rw [c.plain_eq, Graph.plain, List.filter_eq_nil_iff]
  intro i hi
  rw [c.before.orderly.phis.ahead f.target (List.mem_map_of_mem c.mem_frames) i hi]
  exact Bool.false_ne_true

/-- **Control comes to the join** from one of the sides. -/
theorem joins (c : Closing w f u v wE U) (hpart : f.part ≠ .loopBody)
    (hcurrent : v.current = f.target) (input : Nat → Int64) {e : Edge} {side : Side}
    (he : e = f.back ∧ side = f.side ∨ e ≠ f.back ∧ side ≠ f.side)
    {st : Store} {m : Machine}
    (hagrees : Agrees U.graph u.graph w.loops
      (f.brings u.graph (u.graph.meaning w.tail) side) st m)
    (hdefined : ∀ x, u.graph.HasPhi f.phiBlock x → (st.values x).isSome = true) :
    ∃ q', U.graph.Goes input (.entering f.target e, m) q' ∧ Tracks U.graph w.pop v st q' := by
  obtain ⟨blk, hblk⟩ := Graph.exists_block c.target_lt
  have htarget : f.phiBlock = f.target := Frame.phiBlock_eq_target hpart
  have hside : Graph.arrivesFirst blk e = true ↔ side = .first := by
    rcases he with ⟨rfl, rfl⟩ | ⟨he, hside⟩
    · exact c.arrives hblk
    · exact c.arrives_other hblk he hside
  rw [c.loops_eq_pop hpart] at hagrees
  obtain ⟨m', hgoes, hbehind⟩ := c.enters input hblk hside hagrees
    fun x hx => hdefined x (hx.imp fun i hi => c.phiOf_iff.1 hi)
  rw [htarget] at hgoes
  refine ⟨_, hgoes, ?_, hbehind _ _ _ c.fate_tail⟩
  rw [← hcurrent]
  refine .inside ?_ ?_
  · rw [hcurrent, c.plain_target]
    rfl
  · intro _
    rw [hcurrent, ← htarget]
    exact .inl (c.sealed.1.entered (htarget.trans c.pop_tail.symm))

/-- **Control falls through to the join** from the end of the side being built. -/
theorem leaves (c : Closing w f u v wE U) (hpart : f.part ≠ .loopBody)
    (hcurrent : v.current = f.target)
    (input : Nat → Int64) {u₁ : Body} {st : Store} {q : Point × Machine}
    (ht : Tracks U.graph w u₁ st q)
    (hcurrent₁ : u₁.current = w.tail) (hplain : u.graph.plain w.tail = u₁.graph.plain w.tail)
    (hphis : u₁.graph.SamePhis u.graph)
    (hmeaning : u.graph.meaning w.tail = u₁.graph.meaning w.tail)
    (hdefined : ∀ x, u.graph.HasPhi f.phiBlock x → (st.values x).isSome = true) :
    ∃ q', U.graph.Goes input q q' ∧ Tracks U.graph w.pop v st q' := by
  have hback : f.back = .fall := if_neg hpart
  have hfalls : U.graph.Goes input q (.entering f.target .fall, q.2) := by
    refine ht.position.falls ?_ ?_ ?_ ?_ q.2
    · rw [hcurrent₁]
      exact c.after.passed_lt c.tail_passed
    · rw [hcurrent₁]
      exact fun _ hnone => c.not_isPhi_tail fun x hx => hnone x (hphis.hasPhi_iff.1 hx)
    · rw [hcurrent₁, c.plain_tail]
      exact hplain
    · rw [hcurrent₁, c.next_tail, Frame.exit_eq, hback, if_pos rfl, Frame.phiBlock_eq_target hpart]
  have hagrees : Agrees U.graph u.graph w.loops
      (f.brings u.graph (u.graph.meaning w.tail) f.side) st q.2 := by
    have hbrings : f.brings u.graph (u.graph.meaning w.tail) f.side = u₁.graph.meaning w.tail := by
      funext x
      rw [Frame.brings, if_pos rfl, hmeaning]
    rw [hbrings]
    exact ht.agrees.since (.of_samePhis hphis)
  obtain ⟨q', hgoes, ht'⟩ := c.joins hpart hcurrent input (.inl ⟨hback.symm, rfl⟩) hagrees
    hdefined
  exact ⟨q', hfalls.trans hgoes, ht'⟩

end Closing

/-- What a then side has left stays as it is while the else side is built. -/
theorem Proceeds.other_eq {w w' : Site} {u u' : Body} (h : Proceeds w u w' u') {f : Frame}
    (hf : f ∈ w'.frames) {b : BlockId} (hpart : f.part = .elseSide b) (hpassed : b ∈ w.passed) :
    f.other u'.graph = f.other u.graph := by
  induction h with
  | refl => rfl
  | step before orderly _ shift ih =>
    have hf₁ := shift.elseSide_cases orderly.built hf hpart (before.passed_subset hpassed)
    exact (shift.other_eq orderly.built orderly.numbered hf₁ hf).trans (ih hf₁)

namespace Script

/-- Only what has been assigned in a construct gets a phi where its phis are. -/
theorem Opens.mem_of_hasPhi {w w₁ : Site} {f : Frame} {t t₁ : Script} {xs : List Var}
    (h : t.Opens w f xs w₁ t₁) {g : Graph} (hphis : t₁.body.graph.SamePhis g) {x : Var}
    (hx : g.HasPhi f.phiBlock x) : x ∈ xs :=
  (h.own x).1 (hphis.hasPhi_iff.1 hx)

/-- An if makes no difference to the open loops. -/
theorem Opens.loops_eq {w w₁ : Site} {f : Frame} {t t₁ : Script} {xs : List Var}
    (h : t.Opens w f xs w₁ t₁) (hpart : f.part ≠ .loopBody) : w₁.loops = w.loops :=
  Site.loops_cons_of_ne h.frames_eq hpart

/-- While a construct is built, the loops around it get no phis. -/
theorem Opens.sameRenewals {w w₁ : Site} {f : Frame} {t t₁ : Script} {xs : List Var}
    (h : t.Opens w f xs w₁ t₁) (r : Ready w t.body) :
    Graph.SameRenewals w.loops t.body.graph t₁.body.graph := fun f' hf' x =>
  h.others f'.test (List.mem_append_left _ (r.built.layout.behind f' (Site.mem_loops.1 hf').1 _
    (Layout.test_mem_behind f'))) x

theorem Leaves.current_eq {w : Site} {f : Frame} {t tq t' : Script} {c : Body.Command} {u : Body}
    (h : t.Leaves w f tq c u t') : t'.body.current = f.target := by
  rw [h.body_eq]
  rfl

end Script

/-- Control comes to the empty block at the tail. -/
theorem Ready.at_entering {w : Site} {u : Body} (r : Ready w u)
    (hempty : u.graph.listed w.tail = []) (g : Graph) : u.At w g (.entering w.tail .fall) := by
  rw [← r.current_eq] at hempty ⊢
  refine .entering ?_ ?_ fun x => Graph.not_hasPhi_of_listed_nil hempty
  · rw [r.current_eq]
    exact r.built.layout.closed_tail
  · rw [Graph.plain, hempty]
    rfl

namespace Course

variable {options : Options} {w w₁ wE : Site}
  {t t₀ t₁ t' tE : Script} {U : Body} {input : Nat → Int64} {xs : List Var} {f : Frame}
  {fs : List Frame}

/-- A construct is closed on the course of a construction. -/
theorem closing (c : Course options wE tE U) {tq : Script} {cmd : Body.Command} {u : Body}
    (hleaves : t.Leaves w f tq cmd u t') (hframes : w.frames = f :: fs)
    (hreached : tq.Reached options w)
    (hpasses : t'.Passes options w.pop wE tE) : Closing w f tq.body t'.body wE U := by
  have hpop : w.pop.frames = fs := by rw [Site.pop, hframes]
  obtain ⟨f', fs', u₀, hframes', -, -, hgraph, hleft, htested, hcarries⟩ :=
    hleaves.step.close_cases (Orderly.run hreached).built hleaves.closes
  obtain ⟨rfl, rfl⟩ := List.cons.inj (hframes.symm.trans hframes')
  exact
    { before := c.leads (hpasses.back hreached hleaves.after)
      after := c.leads hpasses
      frames_eq := by rw [hpop, hframes]
      tested := hpop.symm ▸ htested
      carried := ⟨u₀, u, hgraph, hleft, hcarries, by rw [hleaves.body_eq]; rfl⟩ }

/-- In a construct that has just been opened the variables mean what they meant before it. -/
theorem meaning_opened (c : Course options wE tE U) (hopened : t.Opens w f [] w₁ t₁)
    (hpasses : t₁.Passes options w₁ wE tE) : t₁.body.graph.meaning w₁.tail = f.before :=
  (c.leads hpasses).meaning_before hopened.frames_eq fun _ hx =>
    List.not_mem_nil (hopened.mem_of_hasPhi (.refl _) hx)

/-! ## The test -/

/-- When an if has been opened, control is where it was. -/
theorem tracks_openIf (c : Course options wE tE U) (r : Ready w t.body) {cond : Test}
    {join side : BlockId} (henter : t.EntersIf w cond join side w₁ t₀ t₁)
    (hpasses : t₀.Passes options w₁ wE tE) {st : Store} {q : Point × Machine}
    (ht : Tracks U.graph w t.body st q) : Tracks U.graph w₁ t₀.body st q := by
  have hopens := henter.opens
  have htail := r.built.layout.tail_lt
  obtain rfl := henter.site_eq
  have hne : join ≠ w.tail := by
    rw [hopens.join_eq]
    exact htail.ne'
  have hbefore : t₀.body.graph.meaning side = t.body.graph.meaning w.tail := by
    refine (c.leads hpasses).meaning_before rfl fun x => Graph.not_hasPhi_of_listed_nil ?_
    rw [hopens.stock.listed_eq]
    exact Graph.listed_eq_nil_of_size_le hopens.join_eq.ge
  refine ⟨ht.position.congr ?_ ?_ ?_ ?_ ?_, ?_⟩
  · exact henter.current_eq.trans r.current_eq.symm
  · exact hopens.stock.plain_eq _
  · exact fun _ x hx => hopens.stock.samePhis.hasPhi_iff.1 hx
  · intro hclosed
    refine hclosed.of_passed [w.tail] rfl (by simp) fun f hf => ?_
    rcases List.mem_cons.1 hf with rfl | hf
    · rw [r.current_eq]
      exact hne
    · exact hclosed.closed f hf
  · intro heq
    rw [r.current_eq] at heq
    have hside : w.tail = side := heq
    exact absurd (hside.trans hopens.side_eq) (Nat.lt_succ_of_lt htail).ne
  · rw [Site.openIf, Site.loops_push_of_ne _ _ Part.noConfusion]
    change Agrees U.graph t₀.body.graph w.loops (t₀.body.graph.meaning side) st q.2
    rw [hbefore]
    exact ht.agrees.since (.of_samePhis hopens.stock.samePhis)

/-- **The test of an if** is executed. -/
theorem tests_if (c : Course options wE tE U) (r : Ready w t.body)
    (hreached : t.Reached options w) {cond : Test} {join side : BlockId}
    (henter : t.EntersIf w cond join side w₁ t₀ t₁)
    (hpasses : (t₁.moveTo side).Passes options w₁ wE tE) {st st' : Store} {holds : Bool}
    {q : Point × Machine} (ht : Tracks U.graph w t.body st q) (hq : U.graph.UpToDate q)
    (heval : cond.eval input st = some (holds, st')) :
    ∃ m', Agrees U.graph t.body.graph w.loops (t.body.graph.meaning w.tail) st' m' ∧
      st'.values = st.values ∧
      ∀ d, U.graph.next (Test.edge holds) w.tail = some d →
        U.graph.Goes input q (.entering d (Test.edge holds), m') := by
  have hreached₀ := hreached.advance henter.begins
  have hreached₁ := hreached₀.advance henter.tests
  have hpasses₁ := hpasses.back hreached₁ henter.moves
  have hpasses₀ := hpasses₁.back hreached₀ henter.tests
  have hopened := henter.opens_frame r
  obtain ⟨m', hagrees, hvalues, hgoes⟩ :=
    c.tests henter.lower_eq hopened.frames_eq henter.current_eq
    henter.clear hreached₀ hpasses₁ (c.tracks_openIf r henter hpasses₀ ht) hq heval
  refine ⟨m', ?_, hvalues, hgoes⟩
  have hbefore : t₁.body.graph.meaning w₁.tail = t.body.graph.meaning w.tail :=
    c.meaning_opened hopened hpasses
  rw [hbefore, hopened.loops_eq Part.noConfusion] at hagrees
  exact hagrees.since (hopened.sameRenewals r).symm

/-- **The then side** is executed. -/
theorem follows_then (c : Course options wE tE U) {cond : Test} {join side : BlockId}
    (henter : t.EntersIf w cond join side w₁ t₀ t₁) (r : Ready w t.body)
    (hreached : t.Reached options w) (hpasses : (t₁.moveTo side).Passes options w₁ wE tE)
    {s : Stmt} {w' : Site} {u' : Body}
    (hfollows : Follows U.graph input xs s w₁ (t₁.moveTo side).body w' u') {fuel : Nat}
    {st st' : Store} {q : Point × Machine} {m : Machine} (hq : U.graph.UpToDate q)
    (hgoes : ∀ d, U.graph.next .fall w.tail = some d → U.graph.Goes input q (.entering d .fall, m))
    (hst : st.Defines xs)
    (hagrees : Agrees U.graph t.body.graph w.loops (t.body.graph.meaning w.tail) st m)
    (hrun : s.run input fuel st = some st') :
    ∃ q', U.graph.Goes input q q' ∧ Tracks U.graph w' u' st' q' := by
  have hreached₀ := hreached.advance henter.begins
  have hpasses₀ := (hpasses.back (hreached₀.advance henter.tests) henter.moves).back hreached₀
    henter.tests
  have hopened := henter.opens_frame r
  have hbefore := c.meaning_opened hopened hpasses
  have hnext : U.graph.next .fall w.tail = some side := by
    obtain rfl := henter.site_eq
    have hsteady := (c.leads hpasses₀).proceeds.steady (e := .fall) (b := w.tail)
      ⟨by simp [Site.openIf, Site.push], fun he => by cases he⟩
    rw [hsteady.2]
    exact henter.opens.fall_parent
  have hagrees' : Agrees U.graph (t₁.moveTo side).body.graph w₁.loops
      ((t₁.moveTo side).body.graph.meaning w₁.tail) st m := by
    rw [hbefore, hopened.loops_eq Part.noConfusion]
    exact hagrees.since (hopened.sameRenewals r)
  have hat : (t₁.moveTo side).body.At w₁ U.graph (.entering side .fall) := by
    have hempty := henter.empty
    have hready := henter.ready
    obtain rfl := henter.site_eq
    exact hready.at_entering hempty _
  obtain ⟨q', hgoes', ht'⟩ := hfollows fuel st st' _ (c.proper.goes hq (hgoes side hnext)) hst
    ⟨hat, hagrees'⟩ hrun
  exact ⟨q', (hgoes side hnext).trans hgoes', ht'⟩

/-! ## The else side -/

end Course

section OpenElse

variable {w : Site} {f : Frame} {fs : List Frame} {t t₀ : Script} {side : BlockId}

/-- The constructs around the if have other tests, and the then side ends elsewhere. -/
theorem Ready.test_ne_openElse {u : Body} (r : Ready w u)
    (hframes : w.frames = f :: fs) {f' : Frame} (hf' : f' ∈ (w.openElse side).frames) :
    f'.test ≠ w.tail ∧ (f'.part = .thenSide → f'.test ≠ f.test) := by
  have l := r.built.layout
  rw [Site.openElse_eq hframes] at hf'
  rcases List.mem_cons.1 hf' with rfl | hf'
  · exact ⟨l.test_ne_tail (f := f) (by simp [hframes]), Part.noConfusion⟩
  · have hnested := l.nested
    rw [hframes, List.pairwise_cons] at hnested
    exact ⟨l.test_ne_tail (by simp [hframes, hf']),
      fun _ => l.ne_of_sublist (hnested.1 f' hf' _ (Layout.test_mem_behind f'))⟩

/-- The edges of the test and of the end of the then side stay as they are now. -/
theorem Ready.steady_openElse {u : Body} (r : Ready w u) (hframes : w.frames = f :: fs) (e : Edge) :
    (w.openElse side).Steady e w.tail ∧ (w.openElse side).Steady e f.test := by
  have hpassed : f.test ∈ w.passed :=
    r.built.layout.behind f (by simp [hframes]) _ (Layout.test_mem_behind f)
  refine ⟨⟨?_, fun _ f' hf' _ => (r.test_ne_openElse hframes hf').1⟩,
    ⟨?_, fun _ f' hf' => (r.test_ne_openElse hframes hf').2⟩⟩
  · simp [Site.openElse_eq hframes]
  · simp [Site.openElse_eq hframes, hpassed]

/-- What the variables meant at the end of the then side is what the join gets from there. -/
theorem Script.EntersElse.other_eq (h : t.EntersElse w f side t₀) (r : Ready w t.body)
    (hframes : w.frames = f :: fs) (hpart : f.part = .thenSide) {w' : Site} {u' : Body}
    (hproceeds : Proceeds (w.openElse side) (t₀.moveTo side).body w' u')
    (hmem : { f with part := .elseSide w.tail } ∈ w'.frames) :
    ({ f with part := .elseSide w.tail } : Frame).other u'.graph = t.body.graph.meaning w.tail := by
  have hpassed : w.tail ∈ (w.openElse side).passed := by simp [Site.openElse_eq hframes]
  refine (hproceeds.other_eq hmem rfl hpassed).trans (funext fun x => ?_)
  exact Levelled.meaning_openElse r.built.layout hframes hpart h.opens List.mem_cons_self x

end OpenElse

namespace Course

variable {options : Options} {w w₁ w₂ wE : Site}
  {t t₁ t₂ t₃ t' tE : Script} {U : Body} {input : Nat → Int64} {xs : List Var} {f : Frame}
  {fs : List Frame} {side : BlockId}

/-- **Control jumps over the else side** from the end of the then side. -/
theorem jumps_over (c : Course options wE tE U) (input : Nat → Int64)
    (henter : t.EntersElse w f side t₁)
    (r : Ready w t.body) (hframes : w.frames = f :: fs) (hpart : f.part = .thenSide)
    (hreached : t.Reached options w) (hadv : t₁.Advances (w.openElse side) w₂ t₂)
    (hclear : ¬ t₂.body.graph.HasBranch w.tail) {target : Option Target}
    (hreceives : t₂.body.graph.Receives w.tail (.branch .always target) t₃.body.graph)
    (hjump : t₂.Advances w₂ w₂ t₃) (hpasses : t₃.Passes options w₂ wE tE) {st : Store}
    {q : Point × Machine} (ht : Tracks U.graph w t.body st q) :
    U.graph.Goes input q (.entering f.target .branch, q.2) := by
  have hsite := Site.openElse_eq hframes side
  have hreached₁ := hreached.advance henter.begins
  have hreached₂ := hreached₁.advance hadv
  have hpasses₁ := (hpasses.back hreached₂ hjump).back hreached₁ hadv
  have h₁ := c.leads hpasses₁
  have h₃ := c.leads hpasses
  have hedge : ∀ e, U.graph.next e w.tail = t₁.body.graph.next e w.tail := fun e =>
    (h₁.proceeds.steady (r.steady_openElse hframes e).1).2
  have hpassed : w.tail ∈ (w.openElse side).passed := by simp [hsite]
  have hne : w.tail ≠ Body.head := (Orderly.run hreached).numbered.tail_ne_head r.built.layout
  have hbranch : t₃.body.graph.HasBranch w.tail := (hreceives.hasBranch_iff _).2 (.inr ⟨rfl, rfl⟩)
  have hplain : U.graph.plain w.tail = t.body.graph.plain w.tail ++ [t₂.body.graph.nextId] := by
    obtain ⟨hfrozen, hsame⟩ := (hreached₁.proceeds hadv).frozen (b := w.tail)
      ⟨hpassed, hne, fun f' hf' htest => absurd htest (r.test_ne_openElse hframes hf').1⟩
    have hplain₂ := hsame.resolve_right fun h => hclear h.2.1
    rw [h₃.plain_eq ⟨hfrozen.passed, hne, fun _ _ _ => hbranch⟩ (.inl hbranch),
      hreceives.plain_eq rfl (.inr hclear), if_pos rfl, hplain₂, henter.opens.stock.plain_eq]
  obtain ⟨target', hop⟩ := h₃.op?_jump (h₃.proceeds.hasBranch_mono hbranch)
    ((hedge .fall).trans henter.opens.fall_thenTail) hplain
  rw [← r.current_eq] at hplain hedge
  refine ht.position.jumps ?_ ?_ hplain hop ((hedge .branch).trans ?_) q.2
  · rw [r.current_eq]
    exact h₁.passed_lt hpassed
  · rw [r.current_eq]
    intro hclosed hnone
    refine h₁.not_isPhi_of_passed hpassed ?_ fun x hx =>
      hnone x (henter.opens.stock.samePhis.hasPhi_iff.1 hx)
    refine hclosed.of_passed [w.tail] (by rw [hsite]) (by simp) fun f' hf' => ?_
    rw [hsite] at hf'
    rcases List.mem_cons.1 hf' with rfl | hf'
    · rw [Frame.phiBlock_eq_target Part.noConfusion,
        ← Frame.phiBlock_eq_target (f := f) (by simp [hpart])]
      exact hclosed.closed f (by simp [hframes])
    · exact hclosed.closed f' (by simp [hframes, hf'])
  · rw [r.current_eq]
    exact henter.opens.branch_thenTail

/-- **Control comes to the else side** along the branch of the test. -/
theorem enters_else (c : Course options wE tE U) (input : Nat → Int64)
    (henter : t.EntersElse w f side t₁)
    (r : Ready w t.body) (hframes : w.frames = f :: fs) (hpart : f.part = .thenSide)
    (hreached : t.Reached options w)
    (hpasses : (t₁.moveTo side).Passes options (w.openElse side) wE tE)
    {st : Store} {m : Machine} (hagrees : Agrees U.graph t.body.graph w.loops f.before st m) :
    U.graph.next .branch f.test = some side ∧
      ∃ q, U.graph.Goes input (.entering side .branch, m) q ∧
        Tracks U.graph (w.openElse side) (t₁.moveTo side).body st q := by
  have hready := henter.ready
  have hopens := henter.opens
  have h₁ := c.leads (hpasses.back (hreached.advance henter.begins) henter.moves)
  have hnext : U.graph.next .branch f.test = some side :=
    ((h₁.proceeds.steady (r.steady_openElse hframes .branch).2).2).trans hopens.branch_parent
  have hlisted : t₁.body.graph.listed side = [] := by
    rw [hopens.stock.listed_eq]
    exact Graph.listed_eq_nil_of_size_le hopens.side_eq.ge
  have hprev : t₁.body.graph.prev .branch side ≠ none := by
    rw [(hopens.linked .branch _ _).1 hopens.branch_parent]
    exact Option.some_ne_none _
  have htail : (w.openElse side).tail = side := by rw [Site.openElse_eq hframes]
  have hclosed : (w.openElse side).Closed side := by
    have := hready.built.layout.closed_tail
    rwa [htail] at this
  have hnone := h₁.not_isPhi_of_filled ⟨hclosed, fun _ => .inl hprev⟩ fun x =>
    Graph.not_hasPhi_of_listed_nil hlisted
  have hlt : side < U.graph.blocks.size :=
    (h₁.proceeds.filled (b := side) ⟨hclosed, fun _ => .inl hprev⟩).1.closed.lt_size
      h₁.finished.built.layout
  refine ⟨hnext, _, .single (Graph.moves_enter_of_not_isPhi hlt hnone m), ?_, ?_⟩
  · refine Body.At.inside ?_ fun _ => .inl hprev
    change U.graph.plain side = t₁.body.graph.plain side ++ U.graph.plain side
    have hplain : t₁.body.graph.plain side = [] := by
      rw [Graph.plain, hlisted]
      rfl
    rw [hplain]
    rfl
  · rw [Site.loops_openElse hframes (by simp [hpart]), htail]
    change Agrees U.graph t₁.body.graph w.loops (t₁.body.graph.meaning side) st m
    rw [funext ((Orderly.run hreached).levelled.meaning_elseSide r.built.layout hframes hpart
      hopens)]
    exact hagrees.since (.of_samePhis hopens.stock.samePhis)

end Course

/-! ## Ifs -/

namespace Stmt

variable {options : Options} {input : Nat → Int64} {xs : List Var}

theorem simulates_ifThen (cond : Test) {s : Stmt}
    (hs : s.Simulates options input xs) (hwithin : s.assigned ⊆ xs) :
    (ifThen cond s).Simulates options input xs := by
  intro w t r hreached
  obtain ⟨join, side, w₁, t₀, t₁, henter⟩ := Script.exists_enterIf r cond
  have hopened := henter.opens_frame r
  set f : Frame := ⟨.thenSide, w.tail, join, t.body.graph.meaning w.tail, t.body.graph.nextId⟩
    with hf
  have hreached₁ := hreached.advance hopened.advances
  obtain ⟨w₂, t₂, hlower, hstays, hfollows⟩ := hs hopened.ready hreached₁
  have hopened₂ := hopened.stays hstays
  have hreached₂ := hreached.advance hopened₂.advances
  have hpart : f.part ≠ .loopBody := Part.noConfusion
  obtain ⟨tq, u, t', hleave, hleaves, hretargets⟩ :=
    Script.exists_leaveIf hopened₂.ready hopened₂.frames_eq hpart fun tt htt => by cases htt
  have hencloses := hopened₂.encloses_if hleaves hretargets
  refine ⟨w₂.pop, t', ?_, hencloses.stays,
    fun wE tE U c hpasses region htimely fuel st st' q hq hst ht hrun => ?_⟩
  · simp only [lower, henter.enter_eq, hlower, bind, Except.bind]
    exact hleave
  have hreachedq := hreached₂.advance hleaves.before
  have hpasses₂ := (hpasses.back hreachedq hleaves.after).back hreached₂ hleaves.before
  have hpasses₁ := hpasses₂.back hreached₁ hstays.advances
  have hclosing := c.closing hleaves hopened₂.frames_eq hreachedq hpasses
  have htimely₁ : s.Timely U.graph w₁.loops (.thenSide join) (t₁.moveTo side) := by
    rw [hopened.loops_eq Part.noConfusion]
    exact htimely.inner (.thenOnly henter.enter_eq)
  have hdefined : ∀ x, tq.body.graph.HasPhi f.phiBlock x → x ∈ xs := fun x hx =>
    hwithin (hopened₂.mem_of_hasPhi hretargets.samePhis hx)
  cases fuel with
  | zero => cases hrun
  | succ fuel =>
    obtain ⟨⟨holds, st₁⟩, heval, hrun⟩ := Option.bind_eq_some_iff.1 hrun
    obtain ⟨m₁, hagrees, hvalues, hgoes⟩ := c.tests_if r hreached henter hpasses₁ ht hq heval
    have hst₁ := hst.of_values_eq hvalues
    cases holds with
    | true =>
      obtain ⟨q₂, hgoes₂, ht₂⟩ := c.follows_then henter r hreached hpasses₁
        (hfollows c hpasses₂ _ htimely₁) hq hgoes hst₁ hagrees hrun
      have hst' := defines_run hrun hst₁
      obtain ⟨q', hgoes', ht'⟩ := hclosing.leaves hpart hleaves.current_eq input ht₂
        hopened₂.ready.current_eq (hretargets.plain_eq _) hretargets.samePhis
        ((c.leads hpasses₂).meaning_tail hretargets.skeleton hretargets.binding_eq)
        fun x hx => hst' x (hdefined x hx)
      exact ⟨q', hgoes₂.trans hgoes', ht'⟩
    | false =>
      cases hrun
      have hnext : U.graph.next .branch f.test = some f.target := by
        rw [hclosing.next_test]
        exact (hclosing.before.orderly.built.layout.framed f hclosing.mem_frames).2.1
      have hbefore : f.brings tq.body.graph (tq.body.graph.meaning w₂.tail) .second =
          t.body.graph.meaning w.tail := rfl
      have hsame := (hopened₂.sameRenewals r).trans (.of_samePhis hretargets.samePhis)
      replace hagrees := hagrees.since hsame
      rw [← hbefore, ← hopened₂.loops_eq hpart] at hagrees
      obtain ⟨q', hgoes', ht'⟩ := hclosing.joins hpart hleaves.current_eq input (e := .branch)
        (.inr ⟨Edge.noConfusion, Side.noConfusion⟩) hagrees fun x hx => hst₁ x (hdefined x hx)
      exact ⟨q', (hgoes _ hnext).trans hgoes', ht'⟩

theorem simulates_ifElse (cond : Test) {s s' : Stmt}
    (hs : s.Simulates options input xs) (hs' : s'.Simulates options input xs)
    (hwithin : s.assigned ++ s'.assigned ⊆ xs) :
    (ifElse cond s s').Simulates options input xs := by
  intro w t r hreached
  obtain ⟨join, side, w₁, t₀, t₁, henter⟩ := Script.exists_enterIf r cond
  have hopened := henter.opens_frame r
  set f : Frame := ⟨.thenSide, w.tail, join, t.body.graph.meaning w.tail, t.body.graph.nextId⟩
    with hf
  have hreached₁ := hreached.advance hopened.advances
  -- the then side
  obtain ⟨w₂, t₂, hlower, hstays, hfollows⟩ := hs hopened.ready hreached₁
  have hopened₂ := hopened.stays hstays
  have hreached₂ := hreached.advance hopened₂.advances
  obtain ⟨side', t₃, henter'⟩ := Script.exists_enterElse hopened₂.ready hopened₂.frames_eq rfl
  have hopened₃ := hopened₂.turns rfl henter'
  set f' : Frame := { f with part := .elseSide w₂.tail } with hf'
  have hreached₃ := hreached.advance hopened₃.advances
  -- the else side
  obtain ⟨w₄, t₄, hlower', hstays', hfollows'⟩ := hs' hopened₃.ready hreached₃
  have hopened₄ := hopened₃.stays hstays'
  have hreached₄ := hreached.advance hopened₄.advances
  obtain ⟨t₅, target, hjump, hadv₅, r₅, hreceives⟩ := Script.exists_leaveElse hopened₄.ready
    hopened₄.frames_eq rfl (hopened₄.pending _ rfl).2
  have hreached₅ := hreached₄.advance hadv₅
  have hbranch : t₅.body.graph.HasBranch w₂.tail := (hreceives.hasBranch_iff _).2 (.inr ⟨rfl, rfl⟩)
  have hpart : f'.part ≠ .loopBody := Part.noConfusion
  obtain ⟨tq, u, t', hleave, hleaves, hretargets⟩ :=
    Script.exists_leaveIf r₅ hopened₄.frames_eq hpart fun tt htt => by
      cases htt
      exact hbranch
  have hencloses := hopened₄.encloses_else rfl hadv₅ hreceives hleaves hretargets
  have henterElse : t₂.enterElse w.tail = .ok (t₃.moveTo side') := henter'.enter_eq
  refine ⟨w₄.pop, t', ?_, ?_,
    fun wE tE U c hpasses region htimely fuel st st' q hq hst ht hrun => ?_⟩
  · have hleaveElse : t₄.leaveElse join = .ok t₅ := hjump
    simp only [lower, henter.enter_eq, hlower, henterElse, hlower', hleaveElse, bind,
      Except.bind]
    exact hleave
  · exact hencloses.stays
  have hreachedq := hreached₅.advance hleaves.before
  have hpasses₅ := (hpasses.back hreachedq hleaves.after).back hreached₅ hleaves.before
  have hpasses₄ := hpasses₅.back hreached₄ hadv₅
  have hpasses₃ := hpasses₄.back hreached₃ hstays'.advances
  have hpasses₂ := hpasses₃.back hreached₂ (henter'.begins.trans henter'.moves)
  have hpasses₁ := hpasses₂.back hreached₁ hstays.advances
  have hclosing := c.closing hleaves hopened₄.frames_eq hreachedq hpasses
  have htimely₁ : s.Timely U.graph w₁.loops (.thenSide join) (t₁.moveTo side) := by
    rw [hopened.loops_eq Part.noConfusion]
    exact htimely.inner (.thenSide henter.enter_eq)
  have htimely₃ :
      s'.Timely U.graph (w₂.openElse side').loops (.elseSide join) (t₃.moveTo side') := by
    rw [hopened₃.loops_eq hpart]
    exact htimely.inner (.elseSide henter.enter_eq hlower henterElse)
  have hphis := (hreceives.samePhis rfl).trans hretargets.samePhis
  have hdefined : ∀ x, tq.body.graph.HasPhi f'.phiBlock x → x ∈ xs := fun x hx =>
    hwithin (hopened₄.mem_of_hasPhi hphis hx)
  cases fuel with
  | zero => cases hrun
  | succ fuel =>
    obtain ⟨⟨holds, st₁⟩, heval, hrun⟩ := Option.bind_eq_some_iff.1 hrun
    obtain ⟨m₁, hagrees, hvalues, hgoes⟩ := c.tests_if r hreached henter hpasses₁ ht hq heval
    have hst₁ := hst.of_values_eq hvalues
    cases holds with
    | true =>
      obtain ⟨q₂, hgoes₂, ht₂⟩ := c.follows_then henter r hreached hpasses₁
        (hfollows c hpasses₂ _ htimely₁) hq hgoes hst₁ hagrees hrun
      have hover := c.jumps_over input henter' hopened₂.ready hopened₂.frames_eq rfl hreached₂
        (henter'.moves.trans hstays'.advances) (hopened₄.pending _ rfl).2 hreceives
        hadv₅ hpasses₅ ht₂
      have hst' := defines_run hrun hst₁
      have hbrings : f'.brings tq.body.graph (tq.body.graph.meaning w₄.tail) .first =
          t₂.body.graph.meaning w₂.tail :=
        henter'.other_eq hopened₂.ready hopened₂.frames_eq rfl
          (hreached₃.proceeds ((hstays'.advances.trans hadv₅).trans hleaves.before))
          hopened₄.mem_frames
      have hsame := (hopened₂.sameRenewals r).symm.trans
        ((hopened₄.sameRenewals r).trans (.of_samePhis hphis))
      have hagrees₂ := ht₂.agrees
      rw [hopened₂.loops_eq Part.noConfusion] at hagrees₂
      replace hagrees₂ := hagrees₂.since hsame
      rw [← hopened₄.loops_eq hpart, ← hbrings] at hagrees₂
      obtain ⟨q', hgoes', ht'⟩ := hclosing.joins hpart hleaves.current_eq input (e := .branch)
        (.inr ⟨Edge.noConfusion, Side.noConfusion⟩) hagrees₂ fun x hx => hst' x (hdefined x hx)
      exact ⟨q', (hgoes₂.trans hover).trans hgoes', ht'⟩
    | false =>
      replace hagrees := hagrees.since (hopened₂.sameRenewals r)
      rw [← hopened₂.loops_eq Part.noConfusion] at hagrees
      obtain ⟨hnext, q₃, hgoes₃, ht₃⟩ := c.enters_else input henter' hopened₂.ready
        hopened₂.frames_eq rfl hreached₂ hpasses₃ hagrees
      have hgoes₃ := (hgoes side' hnext).trans hgoes₃
      obtain ⟨q₄, hgoes₄, ht₄⟩ :=
        hfollows' c hpasses₄ _ htimely₃ fuel st₁ st' q₃ (c.proper.goes hq hgoes₃) hst₁ ht₃ hrun
      have hst' := defines_run hrun hst₁
      have hne : w₄.tail ≠ w₂.tail := fun heq => hopened₄.ready.built.layout.tail_not_passed
        (heq ▸ hstays'.passed_subset (by simp [Site.openElse_eq hopened₂.frames_eq]))
      have hplain : tq.body.graph.plain w₄.tail = t₄.body.graph.plain w₄.tail := by
        rw [hretargets.plain_eq, hreceives.plain_eq rfl (.inr (hopened₄.pending _ rfl).2),
          if_neg hne]
      have hmeaning : tq.body.graph.meaning w₄.tail = t₄.body.graph.meaning w₄.tail :=
        ((c.leads hpasses₅).meaning_tail hretargets.skeleton hretargets.binding_eq).trans
          ((c.leads hpasses₄).meaning_tail hreceives.skeleton hreceives.binding_eq)
      obtain ⟨q', hgoes', ht'⟩ := hclosing.leaves hpart hleaves.current_eq input ht₄
        hopened₄.ready.current_eq hplain hphis hmeaning fun x hx => hst' x (hdefined x hx)
      exact ⟨q', (hgoes₃.trans hgoes₄).trans hgoes', ht'⟩

end Stmt
end StructuredSSA
