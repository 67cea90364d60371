import StructuredSSA.Graph.Dominance
import StructuredSSA.Proofs.Graph.Open

/-!
# Dominance while a graph grows

Opening a construct grafts new blocks onto one block of the graph.  Control enters them through that
block only and leaves them to where the block led before, so nothing changes about the old blocks:
what dominated one of them still does.

## What is here

* `Graph.Reached` — control can come to a block.
* `Graph.Dominates.antisymm` — dominance is an order on the blocks that control can come to.
* `Graph.Dominates.of_succ`, `Graph.dominates_of_unique` — dominance and edges.
* `Graph.Grafts` — new blocks behind an old one.
* `Graph.Grafts.dominates`, `Graph.Grafts.dominates_new`, `Graph.Grafts.reached` — what becomes of
  dominance.
* `Graph.OpensIf.grafts`, `Graph.OpensElse.grafts`, `Graph.OpensLoop.grafts` — the three cases.
-/

set_option autoImplicit false

namespace StructuredSSA
namespace Graph

variable {g g' : Graph} {root a b c p : BlockId}

theorem succ_iff : g.Succ a b ↔ ∃ e, g.next e a = some b := by
  constructor
  · rintro ⟨blk, e, hblk, he⟩
    exact ⟨e, by rw [next, hblk]; exact he⟩
  · rintro ⟨e, he⟩
    obtain ⟨blk, hblk, he'⟩ := Option.bind_eq_some_iff.1 he
    exact ⟨blk, e, hblk, he'⟩

/-- Control can come from `root` to `b`. -/
def Reached (g : Graph) (root b : BlockId) : Prop := ∃ via, g.Path root b via

theorem Reached.refl (g : Graph) (root : BlockId) : g.Reached root root := ⟨_, .here⟩

theorem Reached.step (h : g.Reached root a) (hab : g.Succ a b) : g.Reached root b := by
  obtain ⟨via, hvia⟩ := h
  exact ⟨_, hvia.step hab⟩

theorem Path.append {via via' : List BlockId} (h : g.Path a b via) (h' : g.Path b c via') :
    g.Reached a c := by
  induction h' with
  | here => exact ⟨_, h⟩
  | step _ edge ih => exact ih.step edge

theorem Reached.trans (h : g.Reached a b) (h' : g.Reached b c) : g.Reached a c := by
  obtain ⟨via, hvia⟩ := h
  obtain ⟨via', hvia'⟩ := h'
  exact hvia.append hvia'

/-! ## Dominance is an order -/

/-- A way to `b` that passes through another block `c` starts with a shorter way to `c`. -/
theorem Path.until_lt {via : List BlockId} (h : g.Path root b via) (hc : c ∈ via) (hne : c ≠ b) :
    ∃ via', g.Path root c via' ∧ via'.length < via.length := by
  induction h with
  | here => exact absurd (List.mem_singleton.1 hc) hne
  | @step b d via before edge ih =>
    have hc' : c ∈ via := (List.mem_cons.1 hc).resolve_left hne
    by_cases hcb : c = b
    · subst hcb
      exact ⟨via, before, Nat.lt_succ_self _⟩
    · obtain ⟨via', hvia', hlt⟩ := ih hc' hcb
      exact ⟨via', hvia', Nat.lt_succ_of_lt hlt⟩

/-- **Dominance is antisymmetric** on the blocks that control can come to. -/
theorem Dominates.antisymm (hab : g.Dominates root a b) (hba : g.Dominates root b a)
    (hb : g.Reached root b) : a = b := by
  refine Decidable.byContradiction fun hne => ?_
  -- a way to `b` passes through `a`, so it begins with a shorter way to `b`
  have hshort : ∀ n via, g.Path root b via → via.length ≤ n → False := by
    intro n
    induction n with
    | zero =>
      intro via hvia hlen
      have := List.length_pos_of_mem hvia.target_mem
      omega
    | succ n ih =>
      intro via hvia hlen
      obtain ⟨via₁, hvia₁, hlt₁⟩ := hvia.until_lt (hab via hvia) hne
      obtain ⟨via₂, hvia₂, hlt₂⟩ := hvia₁.until_lt (hba via₁ hvia₁) (Ne.symm hne)
      exact ih via₂ hvia₂ (by omega)
  obtain ⟨via, hvia⟩ := hb
  exact hshort _ via hvia (Nat.le_refl _)

/-! ## Dominance and edges -/

/-- What dominates another block dominates each block that leads to it. -/
theorem Dominates.of_succ (h : g.Dominates root a b) (hne : a ≠ b) (hsucc : g.Succ c b) :
    g.Dominates root a c := by
  intro via hvia
  exact (List.mem_cons.1 (h _ (hvia.step hsucc))).resolve_left hne

/-- A block that only one block leads to is dominated by that block. -/
theorem dominates_of_unique (hb : b ≠ root) (h : ∀ c, g.Succ c b → c = a) :
    g.Dominates root a b := by
  intro via hvia
  cases hvia with
  | here => exact absurd rfl hb
  | step before edge =>
    rw [← h _ edge]
    exact List.mem_cons_of_mem _ before.target_mem

/-- Some block leads to each block that control can come to. -/
theorem Reached.exists_succ (h : g.Reached root b) (hb : b ≠ root) : ∃ c, g.Succ c b := by
  obtain ⟨via, hvia⟩ := h
  cases hvia with
  | here => exact absurd rfl hb
  | step _ edge => exact ⟨_, edge⟩

theorem Linked.succ_iff_prev (hg : g.Linked) : g.Succ a b ↔ ∃ e, g.prev e b = some a := by
  rw [succ_iff]
  exact exists_congr fun e => hg e a b

/-! ## Graphs with the same links -/

theorem SameSkeleton.succ_iff (h : SameSkeleton g g') : g'.Succ a b ↔ g.Succ a b := by
  simp only [Graph.succ_iff, h.next_eq]

theorem SameSkeleton.path_iff (h : SameSkeleton g g') {via : List BlockId} :
    g'.Path root b via ↔ g.Path root b via := by
  constructor
  · intro hp
    induction hp with
    | here => exact .here
    | step _ edge ih => exact ih.step (h.succ_iff.1 edge)
  · intro hp
    induction hp with
    | here => exact .here
    | step _ edge ih => exact ih.step (h.succ_iff.2 edge)

theorem SameSkeleton.dominates_iff (h : SameSkeleton g g') :
    g'.Dominates root a b ↔ g.Dominates root a b := by
  simp only [Dominates, h.path_iff]

theorem SameSkeleton.reached_iff (h : SameSkeleton g g') :
    g'.Reached root b ↔ g.Reached root b := by
  simp only [Reached, h.path_iff]

/-! ## Grafts -/

/-- `g'` is `g` with new blocks behind the block `p`. -/
structure Grafts (g : Graph) (p : BlockId) (g' : Graph) : Prop where
  base_lt : p < g.blocks.size
  size_le : g.blocks.size ≤ g'.blocks.size
  /-- Edges between old blocks are old. -/
  old : ∀ a b, g'.Succ a b → a < g.blocks.size → b < g.blocks.size → g.Succ a b
  /-- The new blocks are entered from `p`. -/
  enter : ∀ a b, g'.Succ a b → a < g.blocks.size → g.blocks.size ≤ b → a = p
  /-- They lead back to `p`, or to where `p` led. -/
  leave : ∀ a b, g'.Succ a b → g.blocks.size ≤ a → b < g.blocks.size → b = p ∨ g.Succ p b
  /-- Where an old block led, it still leads, if not at once. -/
  through : ∀ a b, g.Succ a b → g'.Reached a b
  inside : ∀ b, g.blocks.size ≤ b → b < g'.blocks.size → g'.Reached p b

namespace Grafts

/-- The new blocks can be entered only through `p`. -/
theorem dominates_new (h : Grafts g p g') (hroot : root < g.blocks.size)
    (hb : g.blocks.size ≤ b) : g'.Dominates root p b := by
  intro via hvia
  induction hvia with
  | here => exact absurd hroot (Nat.not_lt.2 hb)
  | @step c d via before edge ih =>
    rcases Nat.lt_or_ge c g.blocks.size with hc | hc
    · obtain rfl := h.enter c d edge hc hb
      exact List.mem_cons_of_mem _ before.target_mem
    · exact List.mem_cons_of_mem _ (ih hc)

/-- A way in `g'` is a way in `g`, with `p` in place of the new blocks. -/
theorem exists_path (h : Grafts g p g') (hroot : root < g.blocks.size) {via : List BlockId}
    (hvia : g'.Path root b via) : ∃ via',
      g.Path root (if b < g.blocks.size then b else p) via' ∧
      ∀ c ∈ via', c ∈ via ∨ c = p ∧ ∃ d ∈ via, g.blocks.size ≤ d := by
  induction hvia with
  | here =>
    rw [if_pos hroot]
    exact ⟨_, .here, fun c hc => .inl hc⟩
  | @step b d via before edge ih =>
    obtain ⟨via', hvia', hmem⟩ := ih
    have hmem' : ∀ c ∈ via', c ∈ d :: via ∨ c = p ∧ ∃ e ∈ d :: via, g.blocks.size ≤ e := by
      intro c hc
      rcases hmem c hc with h | ⟨h, e, he, hge⟩
      · exact .inl (List.mem_cons_of_mem _ h)
      · exact .inr ⟨h, e, List.mem_cons_of_mem _ he, hge⟩
    have hstep : d < g.blocks.size → g.Succ (if b < g.blocks.size then b else p) d →
        ∃ via'', g.Path root d via'' ∧
          ∀ c ∈ via'', c ∈ d :: via ∨ c = p ∧ ∃ e ∈ d :: via, g.blocks.size ≤ e := by
      intro _ hsucc
      refine ⟨d :: via', hvia'.step hsucc, fun c hc => ?_⟩
      rcases List.mem_cons.1 hc with rfl | hc
      · exact .inl List.mem_cons_self
      · exact hmem' c hc
    by_cases hd : d < g.blocks.size
    · rw [if_pos hd]
      by_cases hb : b < g.blocks.size
      · refine hstep hd ?_
        rw [if_pos hb]
        exact h.old b d edge hb hd
      · rw [if_neg hb] at hvia' hstep
        rcases h.leave b d edge (Nat.le_of_not_lt hb) hd with rfl | hsucc
        · exact ⟨via', hvia', hmem'⟩
        · exact hstep hd hsucc
    · rw [if_neg hd]
      refine ⟨via', ?_, hmem'⟩
      by_cases hb : b < g.blocks.size
      · rw [if_pos hb] at hvia'
        rwa [h.enter b d edge hb (Nat.le_of_not_lt hd)] at hvia'
      · rwa [if_neg hb] at hvia'

/-- **What dominated an old block still does.** -/
theorem dominates (h : Grafts g p g') (hroot : root < g.blocks.size) (hb : b < g.blocks.size)
    (hab : g.Dominates root a b) : g'.Dominates root a b := by
  intro via hvia
  obtain ⟨via', hvia', hmem⟩ := h.exists_path hroot hvia
  rw [if_pos hb] at hvia'
  rcases hmem a (hab via' hvia') with hmem | ⟨rfl, d, hd, hge⟩
  · exact hmem
  · obtain ⟨via₁, hvia₁, hsub⟩ := hvia.until hd
    exact hsub (h.dominates_new hroot hge via₁ hvia₁)

theorem reached_old (h : Grafts g p g') (hb : g.Reached root b) : g'.Reached root b := by
  obtain ⟨via, hvia⟩ := hb
  induction hvia with
  | here => exact .refl _ _
  | step _ edge ih => exact ih.trans (h.through _ _ edge)

/-- Control can still come to every block. -/
theorem reached (h : Grafts g p g') (hall : ∀ b, b < g.blocks.size → g.Reached root b)
    (hb : b < g'.blocks.size) : g'.Reached root b := by
  rcases Nat.lt_or_ge b g.blocks.size with hlt | hge
  · exact h.reached_old (hall b hlt)
  · exact (h.reached_old (hall p h.base_lt)).trans (h.inside b hge hb)

end Grafts

/-! ## Constructs -/

theorem Linked.succ_lt (hg : g.Linked) (h : g.Succ a b) :
    a < g.blocks.size ∧ b < g.blocks.size := by
  obtain ⟨e, he⟩ := succ_iff.1 h
  exact ⟨lt_size_of_next he, hg.target_lt he⟩

/-- A graft, from the edges there are. -/
theorem Grafts.of_edges (hg : g.Linked) (hp : p < g.blocks.size)
    (hsize : g.blocks.size ≤ g'.blocks.size)
    (hedge : ∀ a b, g'.Succ a b → a = p ∧ g.blocks.size ≤ b ∨
      g.blocks.size ≤ a ∧ (g.blocks.size ≤ b ∨ b = p ∨ g.Succ p b) ∨ g.Succ a b)
    (hthrough : ∀ a b, g.Succ a b → g'.Reached a b)
    (hinside : ∀ b, g.blocks.size ≤ b → b < g'.blocks.size → g'.Reached p b) :
    Grafts g p g' where
  base_lt := hp
  size_le := hsize
  old a b hab ha hb := by
    rcases hedge a b hab with ⟨-, h⟩ | ⟨h, -⟩ | h
    · exact absurd hb (Nat.not_lt.2 h)
    · exact absurd ha (Nat.not_lt.2 h)
    · exact h
  enter a b hab ha hb := by
    rcases hedge a b hab with ⟨h, -⟩ | ⟨h, -⟩ | h
    · exact h
    · exact absurd ha (Nat.not_lt.2 h)
    · exact absurd (hg.succ_lt h).2 (Nat.not_lt.2 hb)
  leave a b hab ha hb := by
    rcases hedge a b hab with ⟨h, -⟩ | ⟨-, h⟩ | h
    · exact absurd (h ▸ hp) (Nat.not_lt.2 ha)
    · exact h.resolve_left (Nat.not_le.2 hb)
    · exact absurd (hg.succ_lt h).1 (Nat.not_lt.2 ha)
  through := hthrough
  inside := hinside

/-- An if is grafted onto its if block. -/
theorem OpensIf.grafts {join side : BlockId} (h : OpensIf g p join side g') (hg : g.Linked)
    (hp : p < g.blocks.size) : Grafts g p g' := by
  have hjoin : g.blocks.size ≤ join := Nat.le_of_eq h.join_eq.symm
  have hside : g.blocks.size ≤ side := by
    rw [h.side_eq]
    exact Nat.le_succ _
  have hp_join : g'.Reached p join := .step (.refl _ _) (succ_iff.2 ⟨_, h.branch_parent⟩)
  have hp_side : g'.Reached p side := .step (.refl _ _) (succ_iff.2 ⟨_, h.fall_parent⟩)
  have hnew : ∀ b, g.blocks.size ≤ b → b < g'.blocks.size → b = join ∨ b = side := by
    intro b hb hb'
    rw [h.size_eq] at hb'
    rw [h.join_eq, h.side_eq]
    dsimp only [BlockId] at *
    omega
  refine .of_edges hg hp (by rw [h.size_eq]; exact Nat.le_add_right _ _) (fun a b hab => ?_)
    (fun a b hab => ?_) (fun b hb hb' => ?_)
  · obtain ⟨e, he⟩ := succ_iff.1 hab
    by_cases hap : a = p
    · subst hap
      cases e with
      | fall =>
        rw [h.fall_parent] at he
        exact .inl ⟨rfl, Option.some.inj he ▸ hside⟩
      | branch =>
        rw [h.branch_parent] at he
        exact .inl ⟨rfl, Option.some.inj he ▸ hjoin⟩
    · rcases Nat.lt_or_ge a g.blocks.size with ha | ha
      · rw [h.next_other e a ha hap] at he
        exact .inr (.inr (succ_iff.2 ⟨e, he⟩))
      · refine .inr (.inl ⟨ha, ?_⟩)
        rcases hnew a ha (lt_size_of_next he) with rfl | rfl
        · rw [h.next_join] at he
          exact .inr (.inr (succ_iff.2 ⟨e, he⟩))
        · cases e with
          | fall =>
            rw [h.fall_side] at he
            exact .inl (Option.some.inj he ▸ hjoin)
          | branch =>
            rw [h.branch_side] at he
            cases he
  · obtain ⟨e, he⟩ := succ_iff.1 hab
    by_cases hap : a = p
    · subst hap
      exact hp_join.step (succ_iff.2 ⟨e, by rw [h.next_join, he]⟩)
    · refine .step (.refl _ _) (succ_iff.2 ⟨e, ?_⟩)
      rw [h.next_other e a (lt_size_of_next he) hap, he]
  · rcases hnew b hb hb' with rfl | rfl
    · exact hp_join
    · exact hp_side

/-- An else side is grafted onto the if block. -/
theorem OpensElse.grafts {join thenTail side : BlockId} (h : OpensElse g p join thenTail side g')
    (hg : g.Linked) (hbranch : g.next .branch p = some join)
    (htail : g.next .fall thenTail = some join) (htail' : g.next .branch thenTail = none) :
    Grafts g p g' := by
  have hp := lt_size_of_next hbranch
  have hside : g.blocks.size ≤ side := Nat.le_of_eq h.side_eq.symm
  have hp_side : g'.Reached p side := .step (.refl _ _) (succ_iff.2 ⟨_, h.branch_parent⟩)
  have hp_join : g.Succ p join := succ_iff.2 ⟨_, hbranch⟩
  have hnew : ∀ b, g.blocks.size ≤ b → b < g'.blocks.size → b = side := by
    intro b hb hb'
    rw [h.size_eq] at hb'
    rw [h.side_eq]
    exact Nat.le_antisymm (Nat.le_of_lt_succ hb') hb
  refine .of_edges hg hp (by rw [h.size_eq]; exact Nat.le_succ _) (fun a b hab => ?_)
    (fun a b hab => ?_) (fun b hb hb' => ?_)
  · obtain ⟨e, he⟩ := succ_iff.1 hab
    rcases Nat.lt_or_ge a g.blocks.size with ha | ha
    · by_cases hat : a = thenTail
      · subst hat
        cases e with
        | fall =>
          rw [h.fall_thenTail] at he
          cases he
        | branch =>
          rw [h.branch_thenTail] at he
          exact .inr (.inr (succ_iff.2 ⟨.fall, by rw [htail, he]⟩))
      by_cases hap : a = p
      · subst hap
        cases e with
        | fall =>
          rw [h.fall_parent] at he
          exact .inr (.inr (succ_iff.2 ⟨.fall, he⟩))
        | branch =>
          rw [h.branch_parent] at he
          exact .inl ⟨rfl, Option.some.inj he ▸ hside⟩
      · rw [h.next_other e a ha hat hap] at he
        exact .inr (.inr (succ_iff.2 ⟨e, he⟩))
    · refine .inr (.inl ⟨ha, ?_⟩)
      obtain rfl := hnew a ha (lt_size_of_next he)
      cases e with
      | fall =>
        rw [h.fall_side] at he
        exact .inr (.inr (Option.some.inj he ▸ hp_join))
      | branch =>
        rw [h.branch_side] at he
        cases he
  · obtain ⟨e, he⟩ := succ_iff.1 hab
    by_cases hat : a = thenTail
    · subst hat
      cases e with
      | fall =>
        rw [htail] at he
        exact .step (.refl _ _) (succ_iff.2 ⟨.branch, by rw [h.branch_thenTail, he]⟩)
      | branch =>
        rw [htail'] at he
        cases he
    by_cases hap : a = p
    · subst hap
      cases e with
      | fall => exact .step (.refl _ _) (succ_iff.2 ⟨.fall, by rw [h.fall_parent, he]⟩)
      | branch =>
        rw [hbranch] at he
        exact hp_side.step (succ_iff.2 ⟨.fall, by rw [h.fall_side, he]⟩)
    · refine .step (.refl _ _) (succ_iff.2 ⟨e, ?_⟩)
      rw [h.next_other e a (lt_size_of_next he) hat hap, he]
  · obtain rfl := hnew b hb hb'
    exact hp_side

/-- A block that is new in a loop is its header, its body or its exit. -/
theorem OpensLoop.block_cases {head body exit : BlockId} (h : OpensLoop g p head body exit g')
    (hb : g.blocks.size ≤ b) (hb' : b < g'.blocks.size) : b = head ∨ b = body ∨ b = exit := by
  rw [h.size_eq] at hb'
  have := h.exit_eq
  rcases h.head_eq with ⟨-, hh, -⟩ | ⟨hh, hh'⟩
  · dsimp only [BlockId] at *
    omega
  · dsimp only [BlockId] at *
    omega

/-- The body and the exit of a new loop are entered from its header only. -/
theorem OpensLoop.eq_head_of_succ {head body exit : BlockId} (h : OpensLoop g p head body exit g')
    (hg : g.Linked) (hb : g.blocks.size ≤ b) (hne : b ≠ head) (hab : g'.Succ a b) : a = head := by
  obtain ⟨e, he⟩ := succ_iff.1 hab
  have hold : ∀ c, g.next e c = some b → False := fun c hc =>
    absurd (hg.target_lt hc) (Nat.not_lt.2 hb)
  refine Decidable.byContradiction fun hah => ?_
  rcases Nat.lt_or_ge a g.blocks.size with ha | ha
  · by_cases hap : a = p
    · subst hap
      cases e with
      | fall =>
        rw [h.fall_start hah, Option.some.injEq] at he
        exact hne he.symm
      | branch =>
        rw [h.branch_start hah] at he
        cases he
    · rw [h.next_other e a ha hap] at he
      exact hold a he
  · rcases (h.block_cases ha (lt_size_of_next he)).resolve_left hah with rfl | rfl
    · cases e with
      | fall =>
        rw [h.fall_body] at he
        cases he
      | branch =>
        rw [h.branch_body, Option.some.injEq] at he
        exact hne he.symm
    · rw [h.next_exit] at he
      exact hold p he

/-- A loop is grafted onto the block at which it is opened. -/
theorem OpensLoop.grafts {head body exit : BlockId} (h : OpensLoop g p head body exit g')
    (hg : g.Linked) (hp : p < g.blocks.size) : Grafts g p g' := by
  have hbody := h.size_le_body
  have hexit := h.size_le_exit
  have hhead := h.head_cases
  have hp_head : g'.Reached p head := by
    by_cases hph : p = head
    · rw [← hph]
      exact .refl _ _
    · exact .step (.refl _ _) (succ_iff.2 ⟨_, h.fall_start hph⟩)
  have hp_body : g'.Reached p body := hp_head.step (succ_iff.2 ⟨_, h.fall_head⟩)
  have hp_exit : g'.Reached p exit := hp_head.step (succ_iff.2 ⟨_, h.branch_head⟩)
  have hnew : ∀ b, g.blocks.size ≤ b → b < g'.blocks.size → b = head ∨ b = body ∨ b = exit :=
    fun _ => h.block_cases
  have hof_head : ∀ e b, g'.next e head = some b → g.blocks.size ≤ b := by
    intro e b he
    cases e with
    | fall =>
      rw [h.fall_head] at he
      exact Option.some.inj he ▸ hbody
    | branch =>
      rw [h.branch_head] at he
      exact Option.some.inj he ▸ hexit
  refine .of_edges hg hp (by rw [h.size_eq]; exact Nat.le_trans hbody (Nat.le_add_right _ _))
    (fun a b hab => ?_) (fun a b hab => ?_) (fun b hb hb' => ?_)
  · obtain ⟨e, he⟩ := succ_iff.1 hab
    by_cases hah : a = head
    · subst hah
      have hb := hof_head e b he
      rcases hhead with rfl | hge
      · exact .inl ⟨rfl, hb⟩
      · exact .inr (.inl ⟨hge, .inl hb⟩)
    rcases Nat.lt_or_ge a g.blocks.size with ha | ha
    · by_cases hap : a = p
      · subst hap
        cases e with
        | fall =>
          rw [h.fall_start hah] at he
          exact .inl ⟨rfl, Option.some.inj he ▸ (hhead.resolve_left (Ne.symm hah))⟩
        | branch =>
          rw [h.branch_start hah] at he
          cases he
      · rw [h.next_other e a ha hap] at he
        exact .inr (.inr (succ_iff.2 ⟨e, he⟩))
    · refine .inr (.inl ⟨ha, ?_⟩)
      rcases (hnew a ha (lt_size_of_next he)).resolve_left hah with rfl | rfl
      · cases e with
        | fall =>
          rw [h.fall_body] at he
          cases he
        | branch =>
          rw [h.branch_body] at he
          obtain rfl := Option.some.inj he
          exact hhead.elim (fun hh => .inr (.inl hh)) .inl
      · rw [h.next_exit] at he
        exact .inr (.inr (succ_iff.2 ⟨e, he⟩))
  · obtain ⟨e, he⟩ := succ_iff.1 hab
    by_cases hap : a = p
    · subst hap
      exact hp_exit.step (succ_iff.2 ⟨e, by rw [h.next_exit, he]⟩)
    · refine .step (.refl _ _) (succ_iff.2 ⟨e, ?_⟩)
      rw [h.next_other e a (lt_size_of_next he) hap, he]
  · rcases hnew b hb hb' with rfl | rfl | rfl
    · exact hp_head
    · exact hp_body
    · exact hp_exit

end Graph
end StructuredSSA
