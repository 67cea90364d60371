import StructuredSSA.Proofs.Body.Founded

/-!
# Values are computed before they are read

A look-up can pass through blocks that do not dominate the one it starts from.  What it finds is
computed all the same, because a construct has a phi of every variable that is assigned in it: where
construction stands, every variable means something that is known there.

## What is here

* `Defined` — the invariant of reads.
* `Defined.knows_obtained` — what an instruction can read is known where it is added.
* `Defined.openIf`, `Defined.openElse`, `Defined.openLoop`, `Defined.assign`, `Defined.close` — what
  becomes of it.
* `Defined.shift`, `Defined.run` — every step keeps it.
-/

set_option autoImplicit false

namespace StructuredSSA

/-! ## Steps -/

/-- **The invariant of reads.** -/
structure Defined (g : Graph) (w : Site) : Prop where
  spanned : Spanned g w
  recalled : Recalled g w
  founded : Founded g w
  /-- What the variables mean at the tail is known there. -/
  tail : g.KnowsAll w.tail (g.meaning w.tail)

namespace Defined

variable {g g' : Graph} {w : Site} {u u' : Body}

theorem start (options : Options) : Defined (Body.start options).graph .start where
  spanned := .start options
  recalled := .start options
  founded := .start options
  tail x d hd := by
    have b := Built.start options
    have hres := b.layout.resolves_meaning b.layout.tail_lt x
    rw [hd] at hres
    obtain ⟨c, hc⟩ := hres.exists_binding (by simp)
    obtain ⟨op, hop⟩ := Option.isSome_iff_exists.1 (b.contents.bound c x d hc)
    rw [Graph.op?, Body.instr?_start] at hop
    cases hop

/-- A new construct begins with what the variables meant before it. -/
theorem meaning_push {f : Frame} {fs : List Frame} (hl : Levelled g w) (n : Numbered g w)
    (hframes : w.frames = f :: fs) (hstart : f.start = g.nextId) :
    g.meaning w.tail = f.before := by
  have hlevels := hl.levels
  rw [hframes] at hlevels
  refine funext fun x => (hlevels.1.kept x fun i hi => ?_).1
  have hge := n.own_ge f (by simp [hframes]) i hi.2.2
  exact absurd (Graph.lt_nextId_of_home? hi.2.2) (Nat.not_lt.2 (hstart ▸ hge))

/-- A construct is opened at the tail. -/
theorem push (d : Defined g w) (l : Layout g w) (hc : g.Contents) (p : PhiLayout g w)
    (hstock : g.SameStock g') (hext : g.Extends g') (hentries : g.KeepsEntries w g') {f : Frame}
    {blocks : List BlockId} {first : BlockId} (hl : Levelled g' (w.push blocks first f))
    (n : Numbered g' (w.push blocks first f)) (hstart : f.start = g.nextId)
    (hbefore : f.before = g.meaning w.tail) (htest : g'.Dominates Body.head w.tail f.test)
    (hfirst : g'.Dominates Body.head f.test first)
    (htarget : g'.Dominates Body.head f.test f.target)
    (hpart : ∀ tt, f.part ≠ .elseSide tt) (hentered : f.part = .loopBody →
      ∃ q, g'.entry .first f.test = some q ∧ g'.KnowsAll q (g.meaning w.tail)) :
    Defined g' (w.push blocks first f) where
  spanned := d.spanned.push l hext blocks htest hfirst htarget hpart
  recalled := by
    refine ⟨List.forall_mem_cons.2 ⟨?_, fun f' hf' => (d.recalled.opened l hext hentries hf').1⟩,
      List.forall_mem_cons.2 ⟨by rw [hbefore]; exact hentered,
        fun f' hf' => (d.recalled.opened l hext hentries hf').2⟩⟩
    rw [hbefore]
    exact (d.tail.extend hext l.tail_lt).dominated htest
  founded := d.founded.opened l hc p hstock hext hentries
    (List.forall_mem_cons.2 ⟨.inl hstart, fun f' hf' => .inr ⟨f', hf', rfl, rfl⟩⟩)
  tail := by
    rw [meaning_push hl n rfl (hstart.trans hstock.nextId_eq.symm), hbefore]
    exact (d.tail.extend hext l.tail_lt).dominated (htest.trans hfirst)

theorem openIf (d : Defined u.graph w) (b : Built w u) (n : Numbered u.graph w)
    (hl : Levelled u.graph w) (p : PhiLayout u.graph w) (hext : u.graph.Extends u'.graph)
    {join side : BlockId} (h : u.graph.OpensIf w.tail join side u'.graph) :
    Defined u'.graph (w.openIf join side (u.graph.meaning w.tail) u.graph.nextId) := by
  have l := b.layout
  have hgrafts := h.grafts l.linked l.tail_lt
  refine d.push l b.contents p h.stock hext (l.keepsEntries_openIf h) (hl.openIf l h _)
    (n.openIf l b.contents h _) rfl rfl (.refl _ _ _) (hgrafts.dominates_new b.head_lt ?_)
    (hgrafts.dominates_new b.head_lt (Nat.le_of_eq h.join_eq.symm)) (by simp)
    nofun
  rw [h.side_eq]
  exact Nat.le_succ _

/-- A block that is entered by fallthrough only, and lists nothing, knows what the block before it
knows. -/
theorem exists_fallFrom (l : Layout g w) (hc : g.Contents) (hconnected : g.Connected)
    {b : BlockId} (hb : b < g.blocks.size) (hne : b ≠ Body.head) (hnil : g.listed b = [])
    (hbranch : g.prev .branch b = none) : ∃ q, g.prev .fall b = some q ∧
      ∀ σ, g.KnowsAll b σ → g.KnowsAll q σ := by
  obtain ⟨q, hq⟩ := (hconnected b hb).exists_succ hne
  obtain ⟨e, he⟩ := l.linked.succ_iff_prev.1 hq
  cases e with
  | branch =>
    rw [hbranch] at he
    cases he
  | fall =>
    refine ⟨q, he, fun σ hσ x d hd => ?_⟩
    obtain ⟨a, ha, hdom⟩ := hσ x d hd
    refine ⟨a, ha, hdom.of_succ ?_ hq⟩
    rintro rfl
    have := (hc.mem_listed a d).2 ha
    rw [hnil] at this
    cases this

theorem openLoop (d : Defined u.graph w) (b : Built w u) (n : Numbered u.graph w)
    (hl : Levelled u.graph w) (p : PhiLayout u.graph w) (hconnected : u.graph.Connected)
    (hext : u.graph.Extends u'.graph) {head body exit : BlockId}
    (h : u.graph.OpensLoop w.tail head body exit u'.graph) :
    Defined u'.graph (w.openLoop head body exit (u.graph.meaning w.tail) u.graph.nextId) := by
  have l := b.layout
  have hgrafts := h.grafts l.linked l.tail_lt
  have hhead := h.head_eq
  obtain ⟨hhead_body, hhead_exit, -⟩ := h.distinct l.tail_lt
  have hbody : u.graph.blocks.size ≤ body ∧ body ≠ head := ⟨h.size_le_body, hhead_body.symm⟩
  have hexit : u.graph.blocks.size ≤ exit ∧ exit ≠ head := ⟨h.size_le_exit, hhead_exit.symm⟩
  have hinside : ∀ {c}, u.graph.blocks.size ≤ c → c ≠ head →
      u'.graph.Dominates Body.head head c := fun {c} hc hne =>
    Graph.dominates_of_unique (Nat.ne_of_gt (Nat.lt_of_lt_of_le b.head_lt hc))
      fun a ha => h.eq_head_of_succ l.linked hc hne ha
  have hloop : u'.graph.hasRole head .loopHead = true := by simp [h.hasRole_eq]
  have hentry : u'.graph.entry .first head = u'.graph.prev .fall head := by
    simp [Graph.entry, Graph.thenBranches, hloop]
  refine d.push l b.contents p h.stock hext (l.keepsEntries_openLoop h)
    (hl.openLoop l b.contents h _)
    (n.openLoop l b.contents h _) rfl rfl ?_ (hinside hbody.1 hbody.2) (hinside hexit.1 hexit.2)
    (by simp) fun _ => ?_
  · rcases hhead with ⟨heq, -⟩ | ⟨heq, -⟩
    · rw [heq]
      exact .refl _ _ _
    · exact hgrafts.dominates_new b.head_lt (Nat.le_of_eq heq.symm)
  · rw [hentry]
    rcases hhead with ⟨heq, -, hnil, hbranch⟩ | ⟨heq, -⟩
    · -- the tail itself becomes the header, so it is entered from where it was entered
      obtain ⟨q, hq, hknows⟩ := exists_fallFrom l b.contents hconnected l.tail_lt (n.tail_ne_head l)
        hnil hbranch
      have hnext := (l.linked _ _ _).2 hq
      have hlt := Graph.lt_size_of_next hnext
      refine ⟨q, ?_, (hknows _ d.tail).extend hext hlt⟩
      rw [heq]
      refine (h.linked .fall q w.tail).1 ?_
      rw [h.next_other .fall q hlt (l.ne_of_sublist (l.fall_forward _ _ hnext)), hnext]
    · have hne : w.tail ≠ head := fun heq' =>
        absurd l.tail_lt (by rw [heq', heq]; exact Nat.lt_irrefl _)
      exact ⟨w.tail, (h.linked .fall w.tail head).1 (h.fall_start hne),
        d.tail.extend hext l.tail_lt⟩

theorem openElse (d : Defined u.graph w) (b : Built w u) (hl : Levelled u.graph w)
    (p : PhiLayout u.graph w) (hext : u.graph.Extends u'.graph) {f : Frame} {fs : List Frame}
    (hframes : w.frames = f :: fs) (hpart : f.part = .thenSide) {side : BlockId}
    (h : u.graph.OpensElse f.test f.target w.tail side u'.graph) :
    Defined u'.graph (w.openElse side) := by
  have l := b.layout
  have hf : f ∈ w.frames := by simp [hframes]
  have hw := Site.openElse_eq hframes side
  obtain ⟨hbranch, htail, htail'⟩ := b.edges_thenSide hframes hpart
  have hgrafts := h.grafts l.linked hbranch htail htail'
  have hentries := l.keepsEntries_openElse hl.bare hframes hpart h hgrafts
  have hside := hgrafts.dominates_new b.head_lt (Nat.le_of_eq h.side_eq.symm)
  have hrecalled := fun {f'} (hf' : f' ∈ w.frames) => d.recalled.opened l hext hentries hf'
  have hsub : ∀ f' ∈ fs, f' ∈ w.frames := fun f' h => by simp [hframes, h]
  refine ⟨d.spanned.openElse l hext hframes hside, ?_, ?_, ?_⟩
  · rw [hw]
    exact ⟨List.forall_mem_cons.2 ⟨(hrecalled hf).1, fun f' hf' => (hrecalled (hsub f' hf')).1⟩,
      List.forall_mem_cons.2 ⟨(by rintro ⟨⟩),
        fun f' hf' => (hrecalled (hsub f' hf')).2⟩⟩
  · refine d.founded.opened l b.contents p h.stock hext hentries ?_
    rw [hw]
    exact List.forall_mem_cons.2 ⟨.inr ⟨f, hf, rfl, rfl⟩, fun f' hf' =>
      .inr ⟨f', hsub f' hf', rfl, rfl⟩⟩
  · rw [hw]
    change u'.graph.KnowsAll side (u'.graph.meaning side)
    rw [funext fun x => hl.meaning_elseSide l hframes hpart h x]
    exact (hrecalled hf).1.dominated hside

/-- What is obtained in the current block is known there. -/
theorem knows_obtained (d : Defined u.graph w) (b : Built w u) (n : Numbered u.graph w)
    (hl : Levelled u.graph w) (ho : u.graph.Offering) (hacc : w.Accepts u.current)
    (hclear : u.current = w.tail ∨ ¬ u.graph.HasBranch u.current) {i : InstrId} (h : u.Obtains i) :
    u.graph.Knows u.current i := by
  cases h with
  | head hhome => exact ⟨_, hhome, .root _ _ _⟩
  | here hhome => exact ⟨_, hhome, .refl _ _ _⟩
  | offered k hmem => exact ho _ k i b.current_lt hmem
  | meant x hres =>
    have hmeaning := b.layout.meaning_eq b.current_lt hres
    rcases hacc with heq | ⟨f, fs, hframes, heq⟩
    · rw [heq] at hmeaning ⊢
      exact d.tail x i hmeaning
    · have hf : f ∈ w.frames := by simp [hframes]
      have hpassed := b.layout.behind f hf _ (Layout.test_mem_behind f)
      rw [heq] at hmeaning hclear ⊢
      have hclear' : ¬ u.graph.HasBranch f.test :=
        hclear.resolve_left fun heq => b.layout.tail_not_passed (heq ▸ hpassed)
      have hlevels := hl.levels
      rw [hframes] at hlevels
      -- while a test is being built, its construct has no phis
      obtain ⟨-, -, htest⟩ := hlevels.1.kept x fun j hj =>
        absurd (n.own_ge f hf j hj.2.2) (Nat.not_le.2 (n.quiet f hf hclear' j hj.2.1))
      exact d.recalled.before f hf x i (htest.symm.trans hmeaning)

theorem assign (d : Defined u.graph w) (b : Built w u) (n : Numbered u.graph w)
    (hl : Levelled u.graph w) (p : PhiLayout u.graph w) (ho : u.graph.Offering)
    (hext : u.graph.Extends u'.graph) (hcurrent : u.current = w.tail) {x : Var} {v : Option InstrId}
    (hv : ∀ i, v = some i → (u.graph.op? i).isSome = true) (hvalue : ∀ i, v = some i → u.Obtains i)
    (h : (u.withBinding w.tail x v).Merges w x v u') : Defined u'.graph w := by
  have l := b.layout
  have hb := b.withBinding x hv
  have hre : u.graph.Rebinds w.tail (u.withBinding w.tail x v).graph :=
    Graph.rebinds_bindIn u.graph w.tail x v
  have hskel := hre.skeleton.trans (hb.skeleton_merges h)
  have hknows : ∀ i, v = some i → u.graph.Knows w.tail i := fun i hi => by
    rw [← hcurrent]
    exact d.knows_obtained b n hl ho (.inl hcurrent) (.inl hcurrent) (hvalue i hi)
  refine ⟨d.spanned.of_sameSkeleton hskel, d.recalled.of_sameSkeleton l hskel hext, ?_, ?_⟩
  · refine (d.founded.rebind l b.contents hre).merges hb (n.rebind l hre) (p.rebind hre)
      (hl.bare.rebindTail l hre)
      (hl.levels.congr fun f hf => Levelled.sameView_rebindTail l hre hf)
      (d.spanned.of_sameSkeleton hre.skeleton)
      (d.recalled.of_sameSkeleton l hre.skeleton (.of_rebinds hre)) (fun i hi => ?_) h
    exact (hknows i hi).extend (.of_rebinds hre) l.tail_lt
  · rw [Levelled.meaning_assign b n hv h]
    exact (d.tail.update hknows).extend hext l.tail_lt

theorem close (d : Defined u.graph w) (b : Built w u) (n : Numbered u.graph w)
    (hl : Levelled u.graph w) (p : PhiLayout u.graph w) (hext : u.graph.Extends u'.graph)
    {f : Frame} {fs : List Frame} {u₀ : Body} (hframes : w.frames = f :: fs)
    (hgraph : u₀.graph = u.graph) (hleft : Built w.pop u₀)
    (htested : ∀ f' ∈ fs, u.graph.HasBranch f'.test)
    (h : u₀.Carries w.pop f.phiBlock f.test u') : Defined u'.graph w.pop := by
  have hf : f ∈ w.frames := by simp [hframes]
  have hpop := Site.pop_eq hframes
  have hpoptail : w.pop.tail = f.target := by rw [hpop]
  have hlt : f.target < u.graph.blocks.size := b.layout.target_lt (List.mem_map_of_mem hf)
  have hdom := d.spanned.phiBlock_dominates hf
  have htail : u'.graph.KnowsAll w.pop.tail (u'.graph.meaning w.pop.tail) := by
    rw [hpoptail, funext (hl.meaning_close b n hframes hgraph hleft htested h)]
    refine Graph.KnowsAll.extend (fun x i hi => ?_) hext hlt
    obtain ⟨hown, hkept⟩ := hl.meaning_target b.layout hframes x
    by_cases hex : ∃ j, u.graph.OwnPhi f.phiBlock x j
    · obtain ⟨j, hj⟩ := hex
      rw [hown j hj, Option.some.injEq] at hi
      exact ⟨_, hi ▸ hj.2.2, hdom⟩
    · rw [hkept fun j hj => hex ⟨j, hj⟩] at hi
      exact (d.recalled.before f hf x i hi).dominated (d.spanned.spans f hf _ (by simp))
  have hspanned := d.spanned.pop hframes
  have hfounded : Founded u.graph w.pop := by
    refine ⟨fun f' hf' => d.founded.later f' ?_, d.founded.plain, d.founded.phis⟩
    rw [hpop] at hf'
    simp [hframes, show f' ∈ fs from hf']
  cases h with
  | outermost hnil =>
    have hre := Graph.rebinds_inheritScope u₀.graph w.pop.tail f.test
    rw [hgraph] at hre
    refine ⟨?_, ?_, ?_, htail⟩ <;> rw [hgraph]
    · exact hspanned.of_sameSkeleton hre.skeleton
    · exact d.recalled.pop.of_sameSkeleton (hgraph ▸ hleft.layout) hre.skeleton (.of_rebinds hre)
    · exact hfounded.rebind (hgraph ▸ hleft.layout) b.contents hre
  | inner hne each =>
    obtain ⟨f', fs', hframes'⟩ := List.exists_cons_of_ne_nil hne
    have hpopframes : w.pop.frames = fs := by rw [hpop]
    have hlevels := hl.levels
    rw [hframes] at hlevels
    obtain ⟨hfounded', hspanned', hrecalled'⟩ := Founded.carriesEach (hgraph ▸ hfounded) hleft
      (hgraph ▸ n.pop) (hgraph ▸ p.pop) (hgraph ▸ hl.bare.pop)
      (fun f'' hf'' => hgraph ▸ htested f'' (hpopframes ▸ hf'')) hframes'
      (hgraph ▸ b.phiBlock_lt hf) (by rw [hgraph, hpoptail]; exact hdom)
      (σ := f.before) (by rw [hgraph, hpopframes]; exact hlevels.2) (hgraph ▸ hspanned)
      (hgraph ▸ d.recalled.pop) each
    exact ⟨hspanned', hrecalled', hfounded', htail⟩

/-- **Every step keeps reads behind what they read.** -/
theorem shift {w' : Site} (d : Defined u.graph w) (b : Built w u) (n : Numbered u.graph w)
    (hl : Levelled u.graph w) (p : PhiLayout u.graph w) (hconnected : u.graph.Connected)
    (ho : u.graph.Offering) (hext : u.graph.Extends u'.graph) (h : Shift w u w' u') :
    Defined u'.graph w' := by
  have l := b.layout
  have hcalm : u.graph.Calm u'.graph → u'.graph.KnowsAll w.tail (u'.graph.meaning w.tail) := by
    intro hcalm
    have hmeaning : u'.graph.meaning w.tail = u.graph.meaning w.tail := funext fun x =>
      l.meaning_of_skeleton hcalm.skeleton l.tail_lt (c := w.tail) (fun c _ => hcalm.binding_eq c x)
        fun _ => hcalm.binding_eq _ x
    rw [hmeaning]
    exact d.tail.extend hext l.tail_lt
  cases h with
  | retarget h =>
    exact ⟨d.spanned.of_sameSkeleton h.skeleton, d.recalled.of_sameSkeleton l h.skeleton hext,
      d.founded.retarget l b.contents h, hcalm (.of_retargets h)⟩
  | @receive _ c op h hphi hfills hclear hreads _ =>
    refine ⟨d.spanned.of_sameSkeleton h.skeleton, d.recalled.of_sameSkeleton l h.skeleton hext,
      d.founded.receive l b.contents h hphi hclear (fun hne f hf => ?_) (fun o hmem i hi => ?_),
      hcalm (.of_receives h hphi hclear)⟩
    · obtain ⟨-, hacc, -⟩ := hreads.resolve_left hne
      exact d.spanned.accepts hacc hf
    · obtain ⟨rfl, hacc, hobtains⟩ := hreads.resolve_left (List.ne_nil_of_mem hmem)
      refine d.knows_obtained b n hl ho hacc (.inr (hclear.resolve_left ?_)) (hobtains o hmem i hi)
      intro heq
      rcases hacc with htail | ⟨f, fs, hframes, htest⟩
      · exact n.tail_ne_head l (htail.symm.trans heq)
      · exact n.test_ne_head f (by simp [hframes]) (htest.symm.trans heq)
  | assign hcurrent hv hvalue hmerges =>
    exact d.assign b n hl p ho hext hcurrent hv hvalue hmerges
  | openIf _ hopens => exact d.openIf b n hl p hext hopens
  | openElse hframes hpart _ hopens => exact d.openElse b hl p hext hframes hpart hopens
  | openLoop _ hopens => exact d.openLoop b n hl p hconnected hext hopens
  | close hframes hgraph hleft htested hcarries =>
    exact d.close b n hl p hext hframes hgraph hleft htested hcarries

theorem run {options : Options} {cs : List Body.Command}
    (h : Run .start (Body.start options) cs w u) : Defined u.graph w := by
  refine h.preserves_along (P := fun w u => Defined u.graph w) (.start options) (.start options) ?_
  intro cs₁ c cs₂ w₁ u₁ w₂ u₂ _ hrun hb hd hstep
  obtain ⟨n, hl⟩ := Levelled.run hrun (.start options) (.start options) (.start options)
  obtain ⟨-, p⟩ := PhiLayout.run hrun (.start options) (.start options) (.start options)
  have hs := Shared.run hrun
  exact hd.shift hb n hl p hs.connected hs.offering (hstep.advances hb).growth (hstep.shift hb)

end Defined
end StructuredSSA
