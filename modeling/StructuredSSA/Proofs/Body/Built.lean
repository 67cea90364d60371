import StructuredSSA.Body.Construct
import StructuredSSA.Proofs.Body.Reuse
import StructuredSSA.Proofs.Layout.Closable
import StructuredSSA.Proofs.Layout.Resolve

/-!
# Bodies that have been built in order

`Built w u` collects what is true of a body whose constructs were opened and closed in order, with
construction standing at the site `w`.  Here are the operations that add instructions, aim branches
and open constructs; each succeeds on such a body and leads to another.

## What is here

* `Built` — the invariant.
* `Body.Emits` — the three ways in which an operation is added.
* `Built.constant`, `Built.emit`, `Built.emitTest`, `Built.aimBranch`, `Built.emitJump`,
  `Built.openIf`, `Built.openElse`, `Built.openLoop`, `Built.pop` — the operations.
-/

set_option autoImplicit false

namespace StructuredSSA

/-- **The invariant of a construction in progress.** -/
structure Built (w : Site) (u : Body) : Prop where
  layout : Layout u.graph w
  contents : u.graph.Contents
  closable : Closable u.graph w u.current
  books : u.Books
  matched : u.graph.Matched
  isOpen : u.isSettled = false
  current_lt : u.current < u.graph.blocks.size

namespace Graph

theorem exists_block_ok {g : Graph} {c : BlockId} (hc : c < g.blocks.size) :
    ∃ blk, g.block c = .ok blk ∧ g.block? c = some blk := by
  obtain ⟨blk, hblk⟩ := exists_block hc
  exact ⟨blk, block_eq_ok_iff.2 hblk, hblk⟩

end Graph

namespace Built

variable {w : Site} {u : Body}

/-- The body with another graph of the same skeleton and the same stand-ins. -/
theorem withGraph (b : Built w u) {g : Graph} (hskel : u.graph.SameSkeleton g)
    (hc : g.Contents) (hf : Closable g w u.current)
    (hstand : ∀ j, g.standIn? j = u.graph.standIn? j)
    (hm : g.Matched) : Built w { u with graph := g } where
  layout := b.layout.of_sameSkeleton hskel
  contents := hc
  closable := hf
  books := b.books.of_standIn rfl hstand
  matched := hm
  isOpen := b.isOpen
  current_lt := (hskel.lt_size_iff _).2 b.current_lt

theorem shares (b : Built w u) : u.Shares := ⟨b.books, b.matched⟩

theorem requireOpen_eq (b : Built w u) : u.requireOpen = .ok () := by
  rw [Body.requireOpen, b.isOpen]
  rfl

/-! ## Adding instructions -/

/-- Placing an operation that is neither a phi nor a branch. -/
theorem place (b : Built w u) {c : BlockId} (hc : c < u.graph.blocks.size) (op : Operation)
    (hphi : op.isPhi = false) (hbr : op.isBranch = false) :
    ∃ g, u.place c op = .ok (u.graph.nextId, { u with graph := g }) ∧ u.graph.Places c op g ∧
      Built w { u with graph := g } := by
  obtain ⟨g, hplace, h⟩ := Graph.exists_places hc op fun cond heq => by
    rw [heq] at hbr
    cases hbr
  refine ⟨g, ?_, h, b.withGraph h.skeleton (b.contents.place hc (.of_plain hphi hbr) h)
    (b.closable.placePlain h hphi hbr) h.standIn?_eq (b.matched.place h)⟩
  simp only [Body.place, hplace, bind, Except.bind, pure, Except.pure]

theorem head_lt (b : Built w u) : Body.head < u.graph.blocks.size := by
  rcases Nat.eq_zero_or_pos u.graph.blocks.size with h | h
  · exact absurd b.current_lt (by rw [h]; exact Nat.not_lt_zero _)
  · exact h

/-- **A constant** is found or placed in the head block. -/
theorem constant (b : Built w u) (v : Int64) : ∃ i u', u.constant v = .ok (i, u') ∧ Built w u' ∧
    (u' = u ∧ u.graph.op? i = some (.const v) ∧ u.graph.home? i = some Body.head ∨
      i = u.graph.nextId ∧ ∃ g, u' = { u with graph := g } ∧
        u.graph.Places Body.head (.const v) g) := by
  rw [Body.constant]
  cases hfound : u.constant? v with
  | some i =>
    obtain ⟨blk, hblk, hfind⟩ := Option.bind_eq_some_iff.1 hfound
    refine ⟨i, u, rfl, b, .inl ⟨rfl, ?_, ?_⟩⟩
    · have := List.find?_some hfind
      rw [Option.any_eq_true] at this
      obtain ⟨ins, hins, hop⟩ := this
      rw [Graph.op?, hins, Option.map_some, of_decide_eq_true hop]
    · rw [← b.contents.mem_listed, Graph.listed, hblk]
      exact List.mem_of_find?_eq_some hfind
  | none =>
    obtain ⟨g, hplace, h, hb⟩ := b.place b.head_lt (.const v) rfl rfl
    exact ⟨_, _, hplace, hb, .inr ⟨rfl, g, rfl, h⟩⟩

end Built

namespace Body

/-- `Emits u op i u'`: adding `op` to `u` at the current block leads to `u'`, and `i` is the
instruction that computes it. -/
inductive Emits (u : Body) (op : Operation) : InstrId → Body → Prop where
  /-- The operation is computed already. -/
  | reused {i : InstrId} {k : ArithOp} (hop : u.graph.op? i = some op)
      (hoffer : i ∈ (u.graph.offered u.current).candidates k) (hnew : u.predatesLoop i = false) :
      Emits u op i u
  /-- The value is computed already, and the new instruction is retired at once. -/
  | retired {e : InstrId} {k : ArithOp} {oe : Operation} {g : Graph}
      (hshare : u.options.share = true) (hplace : u.graph.Places u.current op g)
      (hoffer : e ∈ (u.graph.offered u.current).candidates k) (hop : u.graph.op? e = some oe)
      (hsame : oe.sameValue op = true) :
      Emits u op u.graph.nextId (({ u with graph := g } : Body).retire u.graph.nextId e)
  /-- The operation is computed here for the first time. -/
  | placed {g : Graph} (hplace : u.graph.Places u.current op g) :
      Emits u op u.graph.nextId { u with graph := g }

end Body

namespace Built

variable {w : Site} {u : Body}

theorem exists_shareable (b : Built w u) (op : Operation) : ∃ m, u.shareable? op = .ok m := by
  refine Body.exists_shareable b.current_lt (fun k i hi => ?_) op
  obtain ⟨o, ho, -⟩ := b.contents.offers u.current k i hi
  rw [ho]
  rfl

/-- The new instruction is retired as soon as it is placed. -/
theorem placeRetired (b : Built w u) {op oe : Operation} {k : ArithOp} {e : InstrId}
    (harith : op.arith? = some k) (hop : u.graph.op? e = some oe)
    (hsame : oe.sameValue op = true) :
    ∃ g, u.placeRetired op e = .ok (u.graph.nextId,
        ({ u with graph := g } : Body).retire u.graph.nextId e) ∧ u.graph.Places u.current op g ∧
      Built w (({ u with graph := g } : Body).retire u.graph.nextId e) := by
  have hsome : op.arith?.isSome = true := by rw [harith]; rfl
  obtain ⟨g, hplace, h, hb⟩ := b.place b.current_lt op (Operation.isPhi_of_arith hsome)
    (Operation.isBranch_of_arith hsome)
  have hshape := Graph.sameShape_setStandIn g u.graph.nextId (some e)
  have hshares := b.shares.retireNew h hsome hop hsame
  refine ⟨g, ?_, h, ?_⟩
  · simp only [Body.placeRetired, hplace, bind, Except.bind, pure, Except.pure]
  · exact {
      layout := hb.layout.of_sameSkeleton hshape.skeleton
      contents := hb.contents.of_sameShape hshape
      closable := hb.closable.of_sameShape hshape
      books := hshares.books
      matched := hshares.matched
      isOpen := b.isOpen
      current_lt := (hshape.skeleton.lt_size_iff _).2 hb.current_lt }

/-- **Adding an operation** that is neither a phi nor a branch. -/
theorem emit (b : Built w u) {op : Operation} (hphi : op.isPhi = false)
    (hbr : op.isBranch = false) :
    ∃ i u', u.emit op = .ok (i, u') ∧ u.Emits op i u' ∧ Built w u' := by
  obtain ⟨m, hm⟩ := b.exists_shareable op
  rw [Body.emit]
  simp only [b.requireOpen_eq, hm, bind, Except.bind]
  cases m with
  | none =>
    obtain ⟨g, hplace, h, hb⟩ := b.place b.current_lt op hphi hbr
    exact ⟨_, _, hplace, .placed h, hb⟩
  | some m =>
    obtain ⟨hshare, -⟩ := Body.match?_of_shareable? hm
    cases m with
    | identical e =>
      obtain ⟨k, hmem, hop, harith⟩ := Body.identical_of_shareable? hm
      cases hpre : u.predatesLoop e with
      | false => exact ⟨e, u, by simp [hpre, pure, Except.pure], .reused hop hmem hpre, b⟩
      | true =>
        have hsame : op.sameValue op = true := Operation.sameValue_self (by rw [harith]; rfl)
        obtain ⟨g, hplace, h, hb⟩ := b.placeRetired harith hop hsame
        exact ⟨_, _, by simp [hpre, hplace], .retired hshare h hmem hop hsame, hb⟩
    | equivalent e =>
      obtain ⟨k, oe, hmem, hop, harith, hsame⟩ := Body.equivalent_of_shareable? hm
      obtain ⟨g, hplace, h, hb⟩ := b.placeRetired harith hop hsame
      exact ⟨_, _, hplace, .retired hshare h hmem hop hsame, hb⟩

/-! ## Branches -/

/-- Adding the branch of a test that is being built. -/
theorem emitTest (b : Built w u) {f : Frame} (hf : f ∈ w.frames) (hcurrent : u.current = f.test)
    (hclear : ¬ u.graph.HasBranch u.current) (cond : Cond) :
    ∃ g, u.emit (.branch cond none) = .ok (u.graph.nextId, { u with graph := g }) ∧
      u.graph.Places u.current (.branch cond none) g ∧ Built w { u with graph := g } := by
  obtain ⟨m, hm⟩ := b.exists_shareable (.branch cond none)
  have hnone : m = none := by
    cases m with
    | none => rfl
    | some m =>
      cases m with
      | identical e =>
        obtain ⟨k, -, -, hk⟩ := Body.identical_of_shareable? hm
        cases hk
      | equivalent e =>
        obtain ⟨k, -, -, -, hk, -⟩ := Body.equivalent_of_shareable? hm
        cases hk
  subst hnone
  obtain ⟨g, hplace, h⟩ := Graph.exists_places b.current_lt (.branch cond none)
    (fun c => by simp)
  have hfits : Graph.Contents.Fits u.graph u.current (.branch cond none) := {
    phi_vars := fun l r h => by cases h
    aimed := fun c t h => by cases h
    one_branch := fun _ i hi hhome => hclear ⟨i, hi, hhome⟩ }
  refine ⟨g, ?_, h, b.withGraph h.skeleton (b.contents.place b.current_lt hfits h) ?_ h.standIn?_eq
    (b.matched.place h)⟩
  · simp only [Body.emit, b.requireOpen_eq, hm, Body.place, hplace, bind, Except.bind, pure,
      Except.pure]
  · refine b.closable.place h (fun f' hf' => (b.closable.phi_bound f' hf').place h (.inl rfl))
      (fun _ _ => ⟨f, hf, hcurrent⟩) fun _ => ?_
    rw [hcurrent]
    exact b.layout.passed_not_target (b.layout.behind f hf _ (Layout.test_mem_behind f))

end Built

namespace Graph

/-- `g'` is `g` with every branch of `c` aimed. -/
structure Aims (g : Graph) (c : BlockId) (g' : Graph) : Prop where
  skeleton : SameSkeleton g g'
  nextId_eq : g'.nextId = g.nextId
  steers : g'.Steers c
  home?_eq : ∀ j, g'.home? j = g.home? j
  isBranch_eq : ∀ j, g'.isBranch j = g.isBranch j
  standIn?_eq : ∀ j, g'.standIn? j = g.standIn? j
  op?_iff : ∀ j op, op.isBranch = false → (g'.op? j = some op ↔ g.op? j = some op)
  branch : ∀ j cond t, g'.op? j = some (.branch cond t) →
    ∃ t₀, g.op? j = some (.branch cond t₀) ∧ (g.home? j ≠ some c → t = t₀)
  listed_eq : ∀ b, g'.listed b = g.listed b
  binding_eq : ∀ b x, g'.binding b x = g.binding b x
  offered_eq : ∀ b, g'.offered b = g.offered b

end Graph

namespace Built

variable {w : Site} {u : Body}

theorem exists_lastBranch {g : Graph} (hc : g.Contents) {c : BlockId} {blk : Block}
    (hblk : g.block? c = some blk) (hbranch : g.HasBranch c) :
    ∃ i, g.lastBranch? blk = some i ∧ g.isBranch i = true ∧ g.home? i = some c := by
  have hlist : g.listed c = blk.instrs := by
    rw [Graph.listed, hblk]
    rfl
  obtain ⟨i, hi, hhome⟩ := hbranch
  have hmem : i ∈ blk.instrs := by
    rw [← hlist, hc.mem_listed]
    exact hhome
  cases hlast : g.lastBranch? blk with
  | none =>
    have := List.find?_eq_none.1 hlast i (List.mem_reverse.2 hmem)
    exact absurd hi this
  | some j =>
    refine ⟨j, rfl, List.find?_some hlast, ?_⟩
    rw [← hc.mem_listed, hlist]
    exact List.mem_reverse.1 (List.mem_of_find?_eq_some hlast)

theorem op?_aim_iff (g : Graph) (i j : InstrId) (t : Target) {op : Operation}
    (hop : op.isBranch = false) :
    (g.modifyInstr i (·.mapOp (·.aim t))).op? j = some op ↔ g.op? j = some op := by
  rw [Graph.op?_aim]
  split
  · cases hj : g.op? j with
    | none => simp
    | some o =>
      rw [Option.map_some, Option.some.injEq, Option.some.injEq]
      cases o with
      | branch cond t' =>
        refine iff_of_false ?_ ?_
        · rintro rfl
          cases hop
        · rintro rfl
          cases hop
      | _ => rfl
  · rfl

/-- **Aiming the branch of a test** along its branch edge. -/
theorem aimBranch (b : Built w u) {c dst : BlockId} (hnext : u.graph.next .branch c = some dst)
    (hbranch : u.graph.HasBranch c) : ∃ g, u.aimBranch c = .ok { u with graph := g } ∧
      u.graph.Aims c g ∧ Built w { u with graph := g } := by
  obtain ⟨blk, hblk, hblk'⟩ := Graph.exists_block_ok (Graph.lt_size_of_next hnext)
  have hbranchTo : blk.branchTo = some dst := by
    rw [Graph.next, hblk'] at hnext
    exact hnext
  obtain ⟨t, g₁, htarget, hshape, hexists, hnames, hstand, hop⟩ :=
    Graph.exists_targetOf b.contents (b.layout.linked.target_lt hnext)
  have hexists₁ : g₁.TargetExists t := by
    cases t with
    | instr i =>
      rw [Graph.TargetExists, hop]
      exact hexists
    | startOf d =>
      rw [Graph.TargetExists, hshape.skeleton.size_eq]
      exact hexists
  obtain ⟨i, hlast, hi, hhome⟩ := exists_lastBranch b.contents hblk' hbranch
  have hlast₁ : g₁.lastBranch? blk = some i := by
    rw [← hlast, Graph.lastBranch?, Graph.lastBranch?]
    exact congrArg (fun p => List.find? p _) (funext hshape.isBranch_eq)
  have hc₁ := b.contents.of_sameShape hshape
  refine ⟨g₁.modifyInstr i (·.mapOp (·.aim t)), ?_, ?_, ?_⟩
  · simp only [Body.aimBranch, b.requireOpen_eq, hblk, hbranchTo, htarget, hlast₁, expect, bind,
      Except.bind, pure, Except.pure]
  · refine {
      skeleton := hshape.skeleton.trans (Graph.sameSkeleton_modifyInstr g₁ i _)
      nextId_eq := by rw [Graph.nextId_modifyInstr, hshape.nextId_eq]
      steers := fun j cond tj hj hop' => ?_
      home?_eq := fun j => by rw [Graph.home?_modifyInstr_mapOp, hshape.home?_eq]
      isBranch_eq := fun j => by rw [Graph.isBranch_modifyInstr_aim, hshape.isBranch_eq]
      standIn?_eq := fun j => by rw [Graph.standIn?_modifyInstr_mapOp, hstand]
      op?_iff := fun j op hbr => by rw [op?_aim_iff g₁ i j t hbr, hop]
      branch := fun j cond tj hj => ?_
      listed_eq := fun d => by rw [Graph.listed_modifyInstr, hshape.listed_eq]
      binding_eq := fun d x => by rw [Graph.binding_modifyInstr, hshape.binding_eq]
      offered_eq := fun d => by rw [Graph.offered_modifyInstr, hshape.offered_eq] }
    · -- the one branch of `c` is the one that has been aimed
      rw [Graph.home?_modifyInstr_mapOp, hshape.home?_eq] at hj
      have hji : i = j := by
        refine b.contents.one_branch i j hi ?_ (hhome.trans hj.symm)
        rw [← hshape.isBranch_eq, ← Graph.isBranch_modifyInstr_aim g₁ i j t,
          Graph.isBranch_eq, hop']
        rfl
      rw [Graph.op?_aim, hop, if_pos hji] at hop'
      refine ⟨dst, t, ?_, ?_, ?_⟩
      · rw [(Graph.sameSkeleton_modifyInstr g₁ i _).next_eq, hshape.skeleton.next_eq, hnext]
      · obtain ⟨o, ho, heq⟩ := Option.map_eq_some_iff.1 hop'
        cases o <;> cases heq
        rfl
      · cases t with
        | instr k =>
          rw [Graph.Names, Graph.home?_modifyInstr_mapOp, hshape.home?_eq]
          exact hnames
        | startOf d => exact hnames
    · rw [Graph.op?_aim, hop] at hj
      split at hj
      · rename_i hij
        obtain ⟨o, ho, heq⟩ := Option.map_eq_some_iff.1 hj
        cases o with
        | branch c₀ t₀ =>
          cases heq
          exact ⟨t₀, ho, fun hne => absurd (hij ▸ hhome) hne⟩
        | _ => cases heq
      · exact ⟨tj, hj, fun _ => rfl⟩
  · refine b.withGraph (hshape.skeleton.trans (Graph.sameSkeleton_modifyInstr g₁ i _))
      (hc₁.aim i hexists₁) ((b.closable.of_sameShape hshape).aim i t)
      (fun j => by rw [Graph.standIn?_modifyInstr_mapOp, hstand]) ?_
    refine b.matched.of_op (fun j op harith hj => ?_)
      (fun j => by rw [Graph.standIn?_modifyInstr_mapOp, hstand])
    rw [op?_aim_iff g₁ i j t (Operation.isBranch_of_arith harith), hop]
    exact hj

/-- **Adding a jump** at the end of a block that has none. -/
theorem emitJump (b : Built w u) {c dst : BlockId} (hnext : u.graph.next .branch c = some dst)
    (hself : dst ≠ c) (hclear : ¬ u.graph.HasBranch c) (htargets : c ∉ w.targets) :
    ∃ t g₁ g, u.emitJump c = .ok (u.graph.nextId, { u with graph := g }) ∧
      u.graph.Names t dst ∧ u.graph.SameShape g₁ ∧ (∀ j, g₁.op? j = u.graph.op? j) ∧
      (∀ j, g₁.standIn? j = u.graph.standIn? j) ∧
      g₁.Places c (.branch .always (some t)) g ∧ Built w { u with graph := g } := by
  have hlt := Graph.lt_size_of_next hnext
  obtain ⟨blk, hblk, hblk'⟩ := Graph.exists_block_ok hlt
  have hbranchTo : blk.branchTo = some dst := by
    rw [Graph.next, hblk'] at hnext
    exact hnext
  obtain ⟨t, g₁, htarget, hshape, hexists, hnames, hstand, hop⟩ :=
    Graph.exists_targetOf b.contents (b.layout.linked.target_lt hnext)
  have hexists₁ : g₁.TargetExists t := by
    cases t with
    | instr i =>
      rw [Graph.TargetExists, hop]
      exact hexists
    | startOf d =>
      rw [Graph.TargetExists, hshape.skeleton.size_eq]
      exact hexists
  have hne : t ≠ .startOf c := by
    rintro rfl
    exact hself (Eq.symm hnames)
  have hlt₁ : c < g₁.blocks.size := (hshape.skeleton.lt_size_iff c).2 hlt
  have hc₁ := b.contents.of_sameShape hshape
  have hcl₁ := b.closable.of_sameShape hshape
  have hclear₁ : ¬ g₁.HasBranch c := by
    rw [Closable.hasBranch_congr hshape.isBranch_eq hshape.home?_eq]
    exact hclear
  obtain ⟨g, hplace, h⟩ := Graph.exists_places hlt₁ (.branch .always (some t)) (fun cond heq => by
    cases heq
    exact hne rfl)
  have hfits : Graph.Contents.Fits g₁ c (.branch .always (some t)) := {
    phi_vars := fun l r h => by cases h
    aimed := fun cond t' h => by
      cases h
      exact ⟨hexists₁, hne⟩
    one_branch := fun _ i hi hhome => hclear₁ ⟨i, hi, hhome⟩ }
  have hm₁ : g₁.Matched := b.matched.of_op (fun j op _ hj => by rw [hop]; exact hj) hstand
  refine ⟨t, g₁, g, ?_, hnames, hshape, hop, hstand, h,
    b.withGraph (hshape.skeleton.trans h.skeleton)
    (hc₁.place hlt₁ hfits h) ?_ (fun j => by rw [h.standIn?_eq, hstand]) (hm₁.place h)⟩
  · simp only [Body.emitJump, b.requireOpen_eq, hblk, hbranchTo, htarget, expect,
      Body.place, hplace, bind, Except.bind, pure, Except.pure, hshape.nextId_eq]
  · exact hcl₁.place h (fun f hf => (hcl₁.phi_bound f hf).place h (.inl rfl))
      (fun _ heq => by cases heq) fun _ => htargets

/-! ## Constructs -/

/-- The body with a graph to which a construct has been added. -/
theorem withOpened (b : Built w u) {w' : Site} {g : Graph} {current : BlockId}
    (hl : Layout g w') (hstock : u.graph.SameStock g)
    (hsize : u.graph.blocks.size ≤ g.blocks.size)
    (hoffered : ∀ c, ∃ c', g.offered c = u.graph.offered c') (hcl : Closable g w' current)
    (hcurrent : current < g.blocks.size) {starts : List InstrId} :
    Built w' { u with graph := g, current := current, loopStarts := starts } where
  layout := hl
  contents := b.contents.of_sameStock hstock hsize hoffered
  closable := hcl
  books := b.books.of_standIn rfl fun j => by
    rw [Graph.standIn?, hstock.instr?_eq, Graph.standIn?]
  matched := b.matched.of_op (fun j op _ hj => by rw [Graph.op?, hstock.instr?_eq]; exact hj)
    fun j => by rw [Graph.standIn?, hstock.instr?_eq, Graph.standIn?]
  isOpen := b.isOpen
  current_lt := hcurrent

/-- **Opening an if** at the tail. -/
theorem openIf (b : Built w u) (hcurrent : u.current = w.tail) (before : Var → Option InstrId)
    (start : InstrId) : ∃ join side g, u.openIf = .ok (w.tail, { u with graph := g }) ∧
      u.graph.OpensIf w.tail join side g ∧
      Built (w.openIf join side before start) { u with graph := g } := by
  have hlt := b.layout.tail_lt
  have hopens := Graph.opensIf_openedIf b.layout.linked hlt b.layout.plainExit
  refine ⟨_, _, _, ?_, hopens, ?_⟩
  · simp only [Body.openIf, b.requireOpen_eq, hcurrent,
      Graph.openIf_eq hlt b.layout.plainExit, bind, Except.bind, pure, Except.pure]
  · have hsize : u.graph.blocks.size ≤ (u.graph.openedIf w.tail).blocks.size := by
      rw [hopens.size_eq]
      exact Nat.le_add_right _ _
    refine b.withOpened (b.layout.openIf hopens before start) hopens.stock hsize (fun c => ?_)
      (b.closable.openIf b.layout b.contents hcurrent hopens before start)
      (Nat.lt_of_lt_of_le b.current_lt hsize)
    rw [hopens.offered_eq]
    split
    · exact ⟨_, rfl⟩
    · exact ⟨_, rfl⟩

/-- The edges of an if whose then side ends in the tail. -/
theorem edges_thenSide (b : Built w u) {f : Frame} {fs : List Frame} (hframes : w.frames = f :: fs)
    (hpart : f.part = .thenSide) : u.graph.next .branch f.test = some f.target ∧
      u.graph.next .fall w.tail = some f.target ∧ u.graph.next .branch w.tail = none :=
  ⟨(b.layout.framed_thenSide (by simp [hframes]) hpart).2.1,
    b.layout.next_tail_if hframes (by simp [hpart])⟩

/-- **Opening an else side** when the then side ends in the tail. -/
theorem openElse (b : Built w u) {f : Frame} {fs : List Frame} (hframes : w.frames = f :: fs)
    (hpart : f.part = .thenSide) : ∃ side g, u.openElse f.test = .ok (side, { u with graph := g }) ∧
      u.graph.OpensElse f.test f.target w.tail side g ∧
      Built (w.openElse side) { u with graph := g } := by
  have hf : f ∈ w.frames := by simp [hframes]
  obtain ⟨hif, hbranch, -, -⟩ := b.layout.framed_thenSide hf hpart
  obtain ⟨htail, -⟩ := b.layout.next_tail_if hframes (by simp [hpart])
  have hne : f.test ≠ w.tail := fun h =>
    b.layout.tail_not_passed (h ▸ b.layout.behind f hf _ (Layout.test_mem_behind f))
  have hopens := Graph.opensElse_openedElse b.layout.linked hbranch htail hne
  refine ⟨_, _, ?_, hopens, ?_⟩
  · simp only [Body.openElse, b.requireOpen_eq,
      Graph.openElse_eq b.layout.linked hif hbranch htail, bind, Except.bind, pure, Except.pure]
  · have hsize : u.graph.blocks.size ≤
        (u.graph.openedElse f.test f.target w.tail).blocks.size := by
      rw [hopens.size_eq]
      exact Nat.le_add_right _ _
    refine b.withOpened (b.layout.openElse hframes hpart hopens) hopens.stock hsize (fun c => ?_)
      (b.closable.openElse b.layout hframes hpart hopens) (Nat.lt_of_lt_of_le b.current_lt hsize)
    rw [hopens.offered_eq]
    split
    · exact ⟨_, rfl⟩
    · exact ⟨_, rfl⟩

/-- **Opening a loop** at the tail. -/
theorem openLoop (b : Built w u) (hcurrent : u.current = w.tail) (before : Var → Option InstrId)
    (start : InstrId) : ∃ head body exit g, u.openLoop = .ok (head,
        { u with graph := g, current := head, loopStarts := u.graph.nextId :: u.loopStarts }) ∧
      u.graph.OpensLoop w.tail head body exit g ∧
      Built (w.openLoop head body exit before start)
        { u with graph := g, current := head, loopStarts := u.graph.nextId :: u.loopStarts } := by
  obtain ⟨head, body, exit, g, hopen, hopens⟩ := Graph.exists_opensLoop b.layout.linked
    b.layout.tail_lt b.layout.plainExit b.layout.branch_tail_ne
  have hnext := hopens.stock.nextId_eq
  refine ⟨head, body, exit, g, ?_, hopens, ?_⟩
  · simp only [Body.openLoop, b.requireOpen_eq, hcurrent, hopen, bind, Except.bind, pure,
      Except.pure, hnext]
  · have hsize := hopens.size_le
    refine b.withOpened (b.layout.openLoop hopens before start) hopens.stock hsize (fun c => ?_)
      (b.closable.openLoop b.layout b.contents hcurrent hopens before start)
      (Graph.lt_size_of_next hopens.fall_head)
    rw [hopens.offered_eq]
    split
    · exact ⟨_, rfl⟩
    · exact ⟨_, rfl⟩

/-- Leaving the innermost construct, with all of its branches in place. -/
theorem pop (b : Built w u) {f : Frame} {fs : List Frame} (hframes : w.frames = f :: fs)
    (haimed : u.graph.Aimed f.test)
    (hon : (u.graph.next .fall w.tail).isSome = true ∨ u.graph.HasBranch w.tail)
    (hthen : ∀ tt, f.part = .elseSide tt → u.graph.HasBranch tt) : Built w.pop u :=
  { b with
    layout := b.layout.pop
    closable := b.closable.pop hframes haimed hon hthen }

/-- Moving construction elsewhere, with every test complete. -/
theorem moveTo (b : Built w u) {c : BlockId} (hc : c < u.graph.blocks.size)
    (htested : ∀ f ∈ w.frames, u.graph.HasBranch f.test) : Built w (u.moveTo c) :=
  { b with
    closable := b.closable.moveTo htested c
    books := b.books.of_standIn rfl fun _ => rfl
    current_lt := hc }

end Built
end StructuredSSA
