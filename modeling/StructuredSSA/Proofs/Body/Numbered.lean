import StructuredSSA.Proofs.Body.Shift
import StructuredSSA.Proofs.Graph.Phis
import StructuredSSA.Proofs.Layout.Scope

/-!
# The numbers of instructions in open constructs

Instructions are numbered in the order in which they are added, and a loop phi redirects reads by
their numbers.  So the numbers have to tell what is in which construct: what was added after a
construct was opened has a number from its start on, and the phis of the constructs around it have
smaller ones.

## What is here

* `Numbered` — the invariant.
* `Layout.phiBlock_ne` — no two open constructs have their phis in the same block.
* `Graph.Absorbs` — what a merge does if the construct has no phi of the variable yet.
* `Built.merge_cases` — a merge replaces an operand or adds a phi.
* `Numbered.step` — every step keeps the invariant.
-/

set_option autoImplicit false

namespace StructuredSSA

/-- **The numbers of instructions** and the open constructs. -/
structure Numbered (g : Graph) (w : Site) : Prop where
  head_passed : Body.head ∈ w.passed
  test_ne_head : ∀ f ∈ w.frames, f.test ≠ Body.head
  start_le : ∀ f ∈ w.frames, f.start ≤ g.nextId
  own_ge : ∀ f ∈ w.frames, ∀ i, g.home? i = some f.phiBlock → f.start ≤ i
  /-- The phis of an outer construct were there before the inner one was opened. -/
  nested : w.frames.Pairwise fun inner outer => outer.start ≤ inner.start ∧
    ∀ i, g.isPhi i = true → g.home? i = some outer.phiBlock → i < inner.start
  /-- The test of a loop was there before any phi in the loop. -/
  late : ∀ f ∈ w.frames, f.part = .loopBody → ∀ i j, g.isPhi i = true → f.start ≤ i →
    g.home? j = some f.test → g.isPhi j = false → j < i
  /-- No phi is added while a test is being built. -/
  quiet : ∀ f ∈ w.frames, ¬ g.HasBranch f.test → ∀ i, g.isPhi i = true → i < f.start

namespace Layout

variable {g : Graph} {w : Site}

theorem phiBlock_ne (l : Layout g w) {f f' : Frame} {fs : List Frame} (hframes : w.frames = f :: fs)
    (hf' : f' ∈ fs) : f'.phiBlock ≠ f.phiBlock := by
  have hf : f ∈ w.frames := by simp [hframes]
  have hmem : f' ∈ w.frames := by simp [hframes, hf']
  have hpassed := l.behind f hf _ (test_mem_behind f)
  have hpassed' := l.behind f' hmem _ (test_mem_behind f')
  have htarget : f.target ∈ w.targets := List.mem_map_of_mem hf
  have htarget' : f'.target ∈ w.targets := List.mem_map_of_mem hmem
  by_cases hpart : f.part = .loopBody <;> by_cases hpart' : f'.part = .loopBody
  · rw [Frame.phiBlock_eq_test hpart, Frame.phiBlock_eq_test hpart']
    have hnested := l.nested
    rw [hframes] at hnested
    exact l.ne_of_sublist ((List.pairwise_cons.1 hnested).1 f' hf' _ (test_mem_behind f'))
  · rw [Frame.phiBlock_eq_test hpart, Frame.phiBlock_eq_target hpart']
    exact fun heq => l.passed_not_target hpassed (heq ▸ htarget')
  · rw [Frame.phiBlock_eq_target hpart, Frame.phiBlock_eq_test hpart']
    exact fun heq => l.passed_not_target hpassed' (heq ▸ htarget)
  · rw [Frame.phiBlock_eq_target hpart, Frame.phiBlock_eq_target hpart']
    have hnodup : (w.frames.map Frame.target).Nodup :=
      (List.nodup_cons.1 (List.nodup_append.1 l.nodup).2.1).2
    rw [hframes, List.map_cons, List.nodup_cons] at hnodup
    exact fun heq => hnodup.1 (heq ▸ List.mem_map_of_mem hf')

end Layout

namespace Numbered

variable {g g' : Graph} {w : Site}

theorem start (options : Options) : Numbered (Body.start options).graph .start where
  head_passed := List.mem_singleton.2 rfl
  test_ne_head f hf := by cases hf
  start_le f hf := by cases hf
  own_ge f hf := by cases hf
  nested := .nil
  late f hf := by cases hf
  quiet f hf := by cases hf

/-- More instructions in the same constructs: plain ones go to the head block or to a block that is
not left yet, and phis to the innermost construct, when all tests are complete. -/
theorem of_more (n : Numbered g w) (l : Layout g w) (hnext : g.nextId ≤ g'.nextId)
    (hhome : ∀ i, i < g.nextId → g'.home? i = g.home? i)
    (hphi : ∀ i, i < g.nextId → g'.isPhi i = g.isPhi i)
    (hbranch : ∀ b, g.HasBranch b → g'.HasBranch b)
    (hplain_new : ∀ i b, g.nextId ≤ i → g'.home? i = some b → g'.isPhi i = false →
      b = Body.head ∨ ¬ g.HasBranch b)
    (hphi_new : ∀ i, g.nextId ≤ i → g'.isPhi i = true →
      (∀ f ∈ w.frames, g.HasBranch f.test) ∧
      ∀ f fs, w.frames = f :: fs → g'.home? i = some f.phiBlock) : Numbered g' w where
  head_passed := n.head_passed
  test_ne_head := n.test_ne_head
  start_le f hf := Nat.le_trans (n.start_le f hf) hnext
  own_ge f hf i hi := by
    by_cases hlt : i < g.nextId
    · rw [hhome i hlt] at hi
      exact n.own_ge f hf i hi
    · exact Nat.le_trans (n.start_le f hf) (Nat.not_lt.1 hlt)
  nested := by
    have hold := n.nested
    cases hframes : w.frames with
    | nil => exact .nil
    | cons f fs =>
      rw [hframes] at hold
      -- the outer of two constructs is not the innermost, which gets all new phis
      have houter : ∀ f' ∈ fs, ∀ i, g'.isPhi i = true → g'.home? i = some f'.phiBlock →
          i < g.nextId := by
        intro f' hf' i hi hi'
        by_contra hlt
        have := (hphi_new i (Nat.not_lt.1 hlt) hi).2 f fs hframes
        rw [hi', Option.some.injEq] at this
        exact l.phiBlock_ne hframes hf' this
      have hpair : ∀ inner outer : Frame, outer ∈ fs → (outer.start ≤ inner.start ∧
          ∀ i, g.isPhi i = true → g.home? i = some outer.phiBlock → i < inner.start) →
          outer.start ≤ inner.start ∧
          ∀ i, g'.isPhi i = true → g'.home? i = some outer.phiBlock → i < inner.start := by
        intro inner outer hmem hrel
        refine ⟨hrel.1, fun i hi hi' => ?_⟩
        have hlt := houter outer hmem i hi hi'
        exact hrel.2 i (by rw [← hphi i hlt, hi]) (by rw [← hhome i hlt, hi'])
      obtain ⟨hhead, htail⟩ := List.pairwise_cons.1 hold
      refine List.pairwise_cons.2 ⟨fun outer hmem => hpair f outer hmem (hhead outer hmem), ?_⟩
      exact htail.imp_of_mem fun {inner outer} _ hmem hrel => hpair inner outer hmem hrel
  late f hf hpart i j hi hge hj hj' := by
    by_cases hlti : i < g.nextId
    · by_cases hltj : j < g.nextId
      · exact n.late f hf hpart i j (by rw [← hphi i hlti, hi]) hge (by rw [← hhome j hltj, hj])
          (by rw [← hphi j hltj, hj'])
      · rcases hplain_new j _ (Nat.not_lt.1 hltj) hj hj' with heq | hclear
        · exact absurd heq (n.test_ne_head f hf)
        · have := n.quiet f hf hclear i (by rw [← hphi i hlti, hi])
          exact absurd hge (Nat.not_le.2 this)
    · by_cases hltj : j < g.nextId
      · exact Nat.lt_of_lt_of_le hltj (Nat.not_lt.1 hlti)
      · rcases hplain_new j _ (Nat.not_lt.1 hltj) hj hj' with heq | hclear
        · exact absurd heq (n.test_ne_head f hf)
        · exact absurd ((hphi_new i (Nat.not_lt.1 hlti) hi).1 f hf) hclear
  quiet f hf hclear i hi := by
    have hclear' : ¬ g.HasBranch f.test := fun h => hclear (hbranch _ h)
    by_cases hlt : i < g.nextId
    · exact n.quiet f hf hclear' i (by rw [← hphi i hlt, hi])
    · exact absurd ((hphi_new i (Nat.not_lt.1 hlt) hi).1 f hf) hclear'

theorem calm (n : Numbered g w) (l : Layout g w) (h : g.Calm g') : Numbered g' w :=
  n.of_more l h.nextId_le h.home?_old (fun i _ => h.isPhi_eq i) h.hasBranch
    (fun i b hi hb _ => h.home?_new i b hi hb)
    fun i hi hphi => by
      rw [h.isPhi_new i hi] at hphi
      cases hphi

/-- Other bindings make no difference. -/
theorem rebind {b : BlockId} (n : Numbered g w) (l : Layout g w) (h : g.Rebinds b g') :
    Numbered g' w := by
  refine n.of_more l (Nat.le_of_eq h.nextId_eq.symm) (fun i _ => h.home?_eq i)
    (fun i _ => h.isPhi_eq i)
    (fun c hc => (Closable.hasBranch_congr h.isBranch_eq h.home?_eq c).2 hc) ?_ ?_
  · intro i c hi hc _
    rw [h.home?_eq] at hc
    exact absurd (Graph.lt_nextId_of_home? hc) (Nat.not_lt.2 hi)
  · intro i hi hphi
    rw [h.isPhi_eq, Graph.isPhi_eq, Graph.op?, Graph.instr?_eq_none_of_le hi] at hphi
    cases hphi

theorem pop (n : Numbered g w) : Numbered g w.pop := by
  cases hframes : w.frames with
  | nil =>
    have : w.pop = w := by rw [Site.pop, hframes]
    rw [this]
    exact n
  | cons f fs =>
    have hpop := Site.pop_eq hframes
    have hsub : ∀ f' ∈ fs, f' ∈ w.frames := fun f' h => by simp [hframes, h]
    have hnested := n.nested
    rw [hframes] at hnested
    rw [hpop]
    exact {
      head_passed := List.mem_append_left _ n.head_passed
      test_ne_head := fun f' h => n.test_ne_head f' (hsub f' h)
      start_le := fun f' h => n.start_le f' (hsub f' h)
      own_ge := fun f' h => n.own_ge f' (hsub f' h)
      nested := (List.pairwise_cons.1 hnested).2
      late := fun f' h => n.late f' (hsub f' h)
      quiet := fun f' h => n.quiet f' (hsub f' h) }

/-- A construct is opened whose phis will be in a block that is empty. -/
theorem push (n : Numbered g w) (hstock : g.SameStock g') {f : Frame} (blocks : List BlockId)
    (first : BlockId) (hstart : f.start = g.nextId) (htest : f.test ≠ Body.head)
    (hempty : ∀ i, g.home? i ≠ some f.phiBlock) : Numbered g' (w.push blocks first f) := by
  have hhome : ∀ i, g'.home? i = g.home? i := fun i => by
    rw [Graph.home?, hstock.instr?_eq, Graph.home?]
  have hphi : ∀ i, g'.isPhi i = g.isPhi i := fun i => by
    rw [Graph.isPhi, hstock.instr?_eq, Graph.isPhi]
  have hnext := hstock.nextId_eq
  have hlt : ∀ i, g.isPhi i = true → i < g.nextId := fun i hi => by
    rw [Graph.isPhi_eq, Option.any_eq_true] at hi
    obtain ⟨op, hop, -⟩ := hi
    exact Graph.lt_nextId_of_op? hop
  refine {
    head_passed := List.mem_append_left _ n.head_passed
    test_ne_head := List.forall_mem_cons.2 ⟨htest, n.test_ne_head⟩
    start_le := List.forall_mem_cons.2 ⟨Nat.le_of_eq (by rw [hstart, hnext]), fun f' hf' => ?_⟩
    own_ge := List.forall_mem_cons.2 ⟨fun i hi => ?_, fun f' hf' i hi => ?_⟩
    nested := List.pairwise_cons.2 ⟨fun f' hf' => ⟨?_, fun i hi _ => ?_⟩, ?_⟩
    late := List.forall_mem_cons.2 ⟨fun _ i j hi hge => ?_, fun f' hf' hpart i j => ?_⟩
    quiet := List.forall_mem_cons.2 ⟨fun _ i hi => ?_, fun f' hf' hclear i => ?_⟩ }
  · rw [hnext]
    exact n.start_le f' hf'
  · rw [hhome] at hi
    exact absurd hi (hempty i)
  · rw [hhome] at hi
    exact n.own_ge f' hf' i hi
  · rw [hstart]
    exact n.start_le f' hf'
  · rw [hphi] at hi
    rw [hstart]
    exact hlt i hi
  · simpa only [hphi, hhome] using n.nested
  · rw [hphi] at hi
    rw [hstart] at hge
    exact absurd (hlt i hi) (Nat.not_lt.2 hge)
  · simp only [hphi, hhome]
    exact n.late f' hf' hpart i j
  · rw [hphi] at hi
    rw [hstart]
    exact hlt i hi
  · rw [hphi]
    rw [Closable.hasBranch_sameStock hstock] at hclear
    exact n.quiet f' hf' hclear i

theorem tail_ne_head (n : Numbered g w) (l : Layout g w) : w.tail ≠ Body.head := fun h =>
  l.tail_not_passed (h ▸ n.head_passed)

theorem openIf (n : Numbered g w) (l : Layout g w) (hc : g.Contents) {join side : BlockId}
    (h : g.OpensIf w.tail join side g') (before : Var → Option InstrId) :
    Numbered g' (w.openIf join side before g.nextId) := by
  refine n.push h.stock _ _ rfl (n.tail_ne_head l) fun i hi => ?_
  have hlt := hc.home_lt i _ hi
  rw [Frame.phiBlock_eq_target (by simp), h.join_eq] at hlt
  exact Nat.lt_irrefl _ hlt

theorem openLoop (n : Numbered g w) (l : Layout g w) (hc : g.Contents) {head body exit : BlockId}
    (h : g.OpensLoop w.tail head body exit g') (before : Var → Option InstrId) :
    Numbered g' (w.openLoop head body exit before g.nextId) := by
  have hsize := l.tail_lt
  rcases h.head_eq with ⟨hhead, -, hempty, -⟩ | ⟨hhead, -⟩
  · refine n.push h.stock _ _ rfl (by rw [hhead]; exact n.tail_ne_head l) fun i hi => ?_
    rw [Frame.phiBlock_eq_test rfl, hhead] at hi
    rw [← hc.mem_listed, hempty] at hi
    cases hi
  · refine n.push h.stock _ _ rfl ?_ fun i hi => ?_
    · rw [hhead]
      exact Nat.ne_of_gt (Nat.lt_of_le_of_lt (Nat.zero_le _) hsize)
    · have hlt := hc.home_lt i _ hi
      rw [Frame.phiBlock_eq_test rfl, hhead] at hlt
      exact Nat.lt_irrefl _ hlt

theorem openElse (n : Numbered g w) {f : Frame} {fs : List Frame} (hframes : w.frames = f :: fs)
    (hpart : f.part = .thenSide) {side : BlockId}
    (h : g.OpensElse f.test f.target w.tail side g') : Numbered g' (w.openElse side) := by
  have hhome : ∀ i, g'.home? i = g.home? i := fun i => by
    rw [Graph.home?, h.stock.instr?_eq, Graph.home?]
  have hphi : ∀ i, g'.isPhi i = g.isPhi i := fun i => by
    rw [Graph.isPhi, h.stock.instr?_eq, Graph.isPhi]
  have hnext := h.stock.nextId_eq
  have hw := Site.openElse_eq hframes side
  have hblock : f.phiBlock = f.target := Frame.phiBlock_eq_target (by simp [hpart])
  have hf : f ∈ w.frames := by simp [hframes]
  have hsub : ∀ f' ∈ fs, f' ∈ w.frames := fun f' h => by simp [hframes, h]
  have hnested := n.nested
  rw [hframes] at hnested
  rw [hw]
  refine {
    head_passed := List.mem_append_left _ n.head_passed
    test_ne_head := List.forall_mem_cons.2 ⟨n.test_ne_head f hf, fun f' h' =>
      n.test_ne_head f' (hsub f' h')⟩
    start_le := List.forall_mem_cons.2 ⟨?_, fun f' h' => ?_⟩
    own_ge := List.forall_mem_cons.2 ⟨fun i hi => ?_, fun f' h' i hi => ?_⟩
    nested := ?_
    late := List.forall_mem_cons.2 ⟨fun hloop => ?_, fun f' h' hloop i j => ?_⟩
    quiet := List.forall_mem_cons.2 ⟨fun hclear i => ?_, fun f' h' hclear i => ?_⟩ }
  · rw [hnext]
    exact n.start_le f hf
  · rw [hnext]
    exact n.start_le f' (hsub f' h')
  · rw [hhome] at hi
    exact n.own_ge f hf i (by rw [hblock]; exact hi)
  · rw [hhome] at hi
    exact n.own_ge f' (hsub f' h') i hi
  · simp only [hphi, hhome]
    exact List.pairwise_cons.2 (List.pairwise_cons.1 hnested)
  · cases hloop
  · simp only [hphi, hhome]
    exact n.late f' (hsub f' h') hloop i j
  · rw [hphi]
    rw [Closable.hasBranch_sameStock h.stock] at hclear
    exact n.quiet f hf hclear i
  · rw [hphi]
    rw [Closable.hasBranch_sameStock h.stock] at hclear
    exact n.quiet f' (hsub f' h') hclear i

/-- A merge adds at most one phi, to the innermost construct. -/
theorem grow (n : Numbered g w) (l : Layout g w) {f : Frame} {fs : List Frame}
    (hframes : w.frames = f :: fs) (htested : ∀ f ∈ w.frames, g.HasBranch f.test)
    (h : g.Grows f.phiBlock g') : Numbered g' w := by
  refine n.of_more l h.nextId_le h.home?_old (fun i hi => h.isPhi_old hi)
    (fun b hb => (h.hasBranch_iff b).2 hb) ?_ ?_
  · intro i b hi hb hphi
    rw [(h.home?_new i b hi hb).2] at hphi
    cases hphi
  · intro i hi hphi
    refine ⟨htested, fun f' fs' hframes' => ?_⟩
    rw [hframes] at hframes'
    obtain ⟨rfl, -⟩ := List.cons.inj hframes'
    have hsome : (g'.home? i).isSome = true := by
      rw [Graph.home?, Option.isSome_map, Graph.instr?_isSome_iff]
      rw [Graph.isPhi_eq, Option.any_eq_true] at hphi
      obtain ⟨op, hop, -⟩ := hphi
      exact Graph.op?_isSome_iff.1 (by rw [hop]; rfl)
    obtain ⟨b, hb⟩ := Option.isSome_iff_exists.1 hsome
    rw [hb, (h.home?_new i b hi hb).1]

theorem carries {u u' : Body} (n : Numbered u.graph w) (b : Built w u)
    (htested : ∀ f ∈ w.frames, u.graph.HasBranch f.test) {c origin : BlockId}
    (h : u.Carries w c origin u') : Numbered u'.graph w := by
  cases h with
  | outermost => exact n.rebind b.layout (Graph.rebinds_inheritScope _ _ _)
  | inner hne each =>
    obtain ⟨f, fs, hframes⟩ := List.exists_cons_of_ne_nil hne
    exact n.grow b.layout hframes htested (b.of_carriesEach hframes each).1

/-- **Every step keeps the numbers in order.** -/
theorem shift {w' : Site} {u u' : Body} (n : Numbered u.graph w) (b : Built w u)
    (h : Shift w u w' u') : Numbered u'.graph w' := by
  cases h with
  | retarget h => exact n.calm b.layout (.of_retargets h)
  | receive h hphi _ hclear => exact n.calm b.layout (.of_receives h hphi hclear)
  | @assign _ x v hcurrent hv _ hmerges =>
    have hb := b.withBinding x hv
    have n' : Numbered (u.withBinding w.tail x v).graph w :=
      n.rebind b.layout (Graph.rebinds_bindIn _ _ _ _)
    cases hframes : w.frames with
    | nil =>
      rw [hmerges.eq_of_outermost hframes]
      exact n'
    | cons f fs =>
      exact n'.grow hb.layout hframes (hb.tested hcurrent) (hb.grows hframes hmerges)
  | openIf _ hopens => exact n.openIf b.layout b.contents hopens _
  | openElse hframes hpart _ hopens => exact n.openElse hframes hpart hopens
  | openLoop _ hopens => exact n.openLoop b.layout b.contents hopens _
  | @close f fs u₀ _ hframes hgraph hleft htested hcarries =>
    have hpop : w.pop.frames = fs := by rw [Site.pop, hframes]
    have n₀ : Numbered u₀.graph w.pop := by
      rw [hgraph]
      exact n.pop
    refine n₀.carries hleft (fun f' hf' => ?_) hcarries
    rw [hgraph]
    exact htested f' (hpop ▸ hf')

end Numbered

/-! ## Merging, by what it does to the phis -/

/-- `g'` is `g` with a phi of `x` added to the construct `f`, between `before` and `v`, and with the
reads of `before` through `x` redirected to it from instruction `start` on. -/
structure Graph.Absorbs (g : Graph) (f : Frame) (x : Var) (before v : Option InstrId)
    (start : InstrId) (g' : Graph) : Prop where
  absent : ∀ i, ¬ g.OwnPhi f.phiBlock x i
  resolves : g.Resolves x f.test before
  skeleton : SameSkeleton g g'
  nextId_eq : g'.nextId = g.nextId + 1
  binding_eq : ∀ c y, g'.binding c y =
    if c = f.phiBlock ∧ y = x then some (some g.nextId) else g.binding c y
  home?_eq : ∀ j, g'.home? j = if j = g.nextId then some f.phiBlock else g.home? j
  listed_sublist : ∀ c, (g.listed c).Sublist (g'.listed c)
  op?_new : g'.op? g.nextId = some (.phi x (f.operands before v).1 (f.operands before v).2)
  op?_old : ∀ j o, j ≠ g.nextId → o.isBranch = false → (g'.op? j = some o ↔
    ∃ o', g.op? j = some o' ∧ o = if start ≤ j then o'.redirect x before g.nextId else o')
  start_ge : f.start ≤ start
  /-- Nothing is redirected to the phi of a join. -/
  start_join : f.part ≠ .loopBody → g.nextId ≤ start
  /-- All phis of a loop are redirected. -/
  start_le : f.part = .loopBody → ∀ i, g.isPhi i = true → f.start ≤ i → start ≤ i
  /-- Reads are redirected from the first instruction of the test on. -/
  first : f.part = .loopBody → (g.plain f.test).head? = some start

namespace Built

variable {w : Site} {u u' : Body}

/-- The graph that a new phi leads to, before reads are redirected. -/
theorem absorbs_withPhi (b : Built w u) {f : Frame} {fs : List Frame}
    (hframes : w.frames = f :: fs) {x : Var} {before v : Option InstrId} {g : Graph}
    (hplace :
      u.graph.Places f.phiBlock (.phi x (f.operands before v).1 (f.operands before v).2) g) :
    u.graph.SameSkeleton (u.withPhi g f.phiBlock x (f.operands before v)).graph ∧
    (u.withPhi g f.phiBlock x (f.operands before v)).graph.nextId = u.graph.nextId + 1 ∧
    (∀ c y, (u.withPhi g f.phiBlock x (f.operands before v)).graph.binding c y =
      if c = f.phiBlock ∧ y = x then some (some u.graph.nextId) else u.graph.binding c y) ∧
    (∀ j, (u.withPhi g f.phiBlock x (f.operands before v)).graph.home? j =
      if j = u.graph.nextId then some f.phiBlock else u.graph.home? j) ∧
    (∀ c, (u.graph.listed c).Sublist
      ((u.withPhi g f.phiBlock x (f.operands before v)).graph.listed c)) ∧
    ∀ j, (u.withPhi g f.phiBlock x (f.operands before v)).graph.op? j = g.op? j := by
  have hre := Graph.rebinds_bindIn g f.phiBlock x (some u.graph.nextId)
  have hlt : f.phiBlock < g.blocks.size :=
    (hplace.skeleton.lt_size_iff _).2 (b.phiBlock_lt (by simp [hframes]))
  refine ⟨hplace.skeleton.trans hre.skeleton, ?_, fun c y => ?_, fun j => ?_, fun c => ?_,
    hre.op?_eq⟩
  · exact hre.nextId_eq.trans hplace.nextId_eq
  · simp only [Body.withPhi, Graph.binding_bindIn hlt, hplace.binding_eq]
  · exact (hre.home?_eq j).trans (hplace.home?_eq j)
  · have hlisted : (u.withPhi g f.phiBlock x (f.operands before v)).graph.listed c = g.listed c :=
      hre.listed_eq c
    rw [hlisted]
    exact hplace.listed_sublist c

/-- **A merge into a construct** replaces one operand of a phi, or adds a phi. -/
theorem merge_cases (b : Built w u) (n : Numbered u.graph w) {f : Frame} {fs : List Frame}
    (hframes : w.frames = f :: fs) {x : Var} {v : Option InstrId} (h : u.Merges w x v u') :
    (∃ i, u.graph.OwnPhi f.phiBlock x i ∧
      u'.graph = u.graph.modifyInstr i (·.mapOp (·.setSide f.side v))) ∨
    ∃ before start, u.graph.Absorbs f x before v start u'.graph := by
  have hsame : ∀ {f' : Frame} {fs' : List Frame}, w.frames = f' :: fs' → f' = f := fun h' => by
    rw [hframes] at h'
    exact (List.cons.inj h').1.symm
  have hf : f ∈ w.frames := by simp [hframes]
  cases h with
  | outermost hnil =>
    rw [hframes] at hnil
    cases hnil
  | replaced hf' hown =>
    obtain rfl := hsame hf'
    exact .inl ⟨_, hown, rfl⟩
  | @joined f' _ before g hf' hpart hnone hbefore hplace =>
    obtain rfl := hsame hf'
    obtain ⟨hskel, hnext, hbind, hhome, hlisted, hop⟩ := b.absorbs_withPhi hframes hplace
    refine .inr ⟨before, u.graph.nextId, hnone, hbefore, hskel, hnext, hbind, hhome, hlisted,
      by rw [hop, hplace.op?_new], fun j o hj ho => ?_, n.start_le _ hf,
      fun _ => Nat.le_refl _, fun hloop => absurd hloop hpart, fun hloop => absurd hloop hpart⟩
    rw [hop, hplace.op?_eq ho]
    constructor
    · rintro (⟨heq, -⟩ | ⟨-, hj'⟩)
      · exact absurd heq hj
      · exact ⟨o, hj', by rw [if_neg (Nat.not_le.2 (Graph.lt_nextId_of_op? hj'))]⟩
    · rintro ⟨o', hj', rfl⟩
      rw [if_neg (Nat.not_le.2 (Graph.lt_nextId_of_op? hj'))]
      exact .inr ⟨hj, hj'⟩
  | @looped f' _ before g start hf' hpart hnone hbefore hplace hstart =>
    obtain rfl := hsame hf'
    obtain ⟨hskel, hnext, hbind, hhome, hlisted, hop⟩ := b.absorbs_withPhi hframes hplace
    have hb := b.withPhi (b.phiBlock_lt hf) hnone hplace
    obtain ⟨hred, -⟩ := hb.redirected_redirectFrom x before u.graph.nextId start
    -- the first instruction of the test that is no phi
    have hmem := List.mem_of_find?_eq_some hstart
    have hplain : (u.withPhi g f'.phiBlock x (f'.operands before v)).graph.isPhi start = false := by
      simpa using List.find?_some hstart
    rw [hb.contents.mem_listed] at hmem
    have hne : start ≠ u.graph.nextId := by
      rintro rfl
      rw [Graph.isPhi_eq, hop, hplace.op?_new] at hplain
      cases hplain
    rw [hhome, if_neg hne] at hmem
    have hplain' : u.graph.isPhi start = false := by
      rw [← hplace.isPhi_old hne, ← hplain, Graph.isPhi_eq, Graph.isPhi_eq, hop]
    refine .inr ⟨before, start, hnone, hbefore, hskel.trans hred.shape.skeleton,
      hred.shape.nextId_eq.trans hnext, fun c y => (hred.shape.binding_eq c y).trans (hbind c y),
      fun j => (hred.shape.home?_eq j).trans (hhome j),
      fun c => by rw [hred.shape.listed_eq]; exact hlisted c, ?_, fun j o hj ho => ?_,
      n.own_ge _ hf _ hmem, fun hjoin => absurd hpart hjoin, fun _ i hi hge => ?_, fun _ => ?_⟩
    · rw [hred.op?_eq, if_neg, hop, hplace.op?_new]
      rw [List.mem_range']
      dsimp only [InstrId] at *
      omega
    · have hold : ∀ o', o'.isBranch = false →
          ((u.withPhi g f'.phiBlock x (f'.operands before v)).graph.op? j = some o' ↔
            u.graph.op? j = some o') :=
        fun o' ho' => by simp [hop, hplace.op?_eq ho', hj]
      rw [hred.op?_iff]
      constructor
      · rintro ⟨o', ho', rfl⟩
        have hbr : o'.isBranch = false := by
          split at ho
          · rwa [Operation.redirect, Operation.isBranch_mapOperands] at ho
          · exact ho
        have hj' := (hold o' hbr).1 ho'
        exact ⟨o', hj', by simp only [Graph.lt_nextId_of_op? hj', and_true]⟩
      · rintro ⟨o', ho', rfl⟩
        have hbr : o'.isBranch = false := by
          split at ho
          · rwa [Operation.redirect, Operation.isBranch_mapOperands] at ho
          · exact ho
        exact ⟨o', (hold o' hbr).2 ho', by simp only [Graph.lt_nextId_of_op? ho', and_true]⟩
    · rw [Frame.phiBlock_eq_test hpart] at hmem
      exact Nat.le_of_lt (n.late _ hf hpart i start hi hge hmem hplain')
    · have hre := Body.rebinds_withPhi u g f'.phiBlock x (f'.operands before v)
      rw [← Frame.phiBlock_eq_test hpart, ← hplace.plain_eq b.contents rfl, ← Graph.plain_congr
        (hre.listed_eq f'.phiBlock) fun i _ => hre.isPhi_eq i, Graph.plain, List.head?_filter]
      exact hstart

end Built
end StructuredSSA
