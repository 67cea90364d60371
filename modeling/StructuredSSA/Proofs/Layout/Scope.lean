import StructuredSSA.Proofs.Layout.Open
import StructuredSSA.Proofs.Layout.Resolve

/-!
# Scopes while constructs are opened and closed

The scope of a block is the chain of its scope parents.  For a block that construction has come to,
the chain stays among such blocks, and opening a construct leaves it alone: new blocks are entered
from the tail, and the blocks behind the tail keep the edges that lead into them.  What a variable
means in a block is changed by a new binding only if the chain comes to the place of the binding.

## What is here

* `Graph.Above` — the blocks of a scope.
* `Graph.Resolves.rebind` — what a new binding does to a look-up.
* `Site.Kept`, `Layout.prev_openIf`, `Layout.prev_openElse`, `Layout.prev_openLoop` — the edges that
  opening a construct leaves alone.
* `Layout.meaning_openIf`, `Layout.meaning_openElse`, `Layout.meaning_openLoop` — the meanings it
  leaves alone.
-/

set_option autoImplicit false

namespace StructuredSSA

namespace Graph

/-- `a` is `b`, or a block in which a variable is looked up that `b` does not bind. -/
inductive Above (g : Graph) (a : BlockId) : BlockId → Prop where
  | refl : Above g a a
  | step {b p : BlockId} (hp : g.parent b = some p) (rest : Above g a p) : Above g a b

theorem Above.congr {g g' : Graph} {S : BlockId → Prop}
    (hS : ∀ c p, S c → g.parent c = some p → S p)
    (hparent : ∀ c, S c → g'.parent c = g.parent c) {a b : BlockId} (hb : S b)
    (h : g'.Above a b) : g.Above a b := by
  induction h with
  | refl => exact .refl
  | @step b p hp _ ih =>
    rw [hparent b hb] at hp
    exact .step hp (ih (hS b p hb hp))

theorem SameSkeleton.above_iff {g g' : Graph} (h : SameSkeleton g g') {a b : BlockId} :
    g'.Above a b ↔ g.Above a b :=
  ⟨Above.congr (S := fun _ => True) (fun _ _ _ _ => trivial) (fun c _ => h.parent_eq c) trivial,
    Above.congr (S := fun _ => True) (fun _ _ _ _ => trivial) (fun c _ => (h.parent_eq c).symm)
      trivial⟩

/-- A look-up whose chain does not come to `c` does not see what `c` binds. -/
theorem Resolves.of_not_above {g g' : Graph} {c b : BlockId} {x : Var} {v : Option InstrId}
    (hbind : ∀ d, d ≠ c → g'.binding d x = g.binding d x) (hparent : ∀ d, g'.parent d = g.parent d)
    (hb : ¬ g.Above c b) (h : g.Resolves x b v) : g'.Resolves x b v := by
  refine h.congr (S := fun d => ¬ g.Above c d) (fun d p hd hp hp' => hd (.step hp hp'))
    (fun d hd => hbind d ?_) (fun d _ => hparent d) hb
  rintro rfl
  exact hd .refl

/-- **A new binding** in `c` is found by the look-ups that found what `c` meant before, if they come
to `c`, and by no others. -/
theorem Resolves.rebind {g g' : Graph} {c b : BlockId} {x : Var} {before v new : Option InstrId}
    (hbind : ∀ d, g'.binding d x = if d = c then some new else g.binding d x)
    (hparent : ∀ d, g'.parent d = g.parent d) (hbefore : g.Resolves x c before)
    (h : g.Resolves x b v) :
    g'.Resolves x b v ∨ v = before ∧ g'.Resolves x b new ∧ g.Above c b := by
  induction h with
  | @bound b v hb =>
    by_cases hbc : b = c
    · subst hbc
      exact .inr ⟨Resolves.unique (.bound hb) hbefore, .bound (by rw [hbind, if_pos rfl]), .refl⟩
    · exact .inl (.bound (by rw [hbind, if_neg hbc, hb]))
  | @above b p v hb hp rest ih =>
    by_cases hbc : b = c
    · subst hbc
      exact .inr ⟨Resolves.unique (.above hb hp rest) hbefore, .bound (by rw [hbind, if_pos rfl]),
        .refl⟩
    · have hb' : g'.binding b x = none := by rw [hbind, if_neg hbc, hb]
      have hp' : g'.parent b = some p := by rw [hparent, hp]
      rcases ih with h' | ⟨hv, h', habove⟩
      · exact .inl (.above hb' hp' h')
      · exact .inr ⟨hv, .above hb' hp' h', .step hp habove⟩
  | @nowhere b hb hp =>
    by_cases hbc : b = c
    · subst hbc
      exact .inr ⟨Resolves.unique (.nowhere hb hp) hbefore, .bound (by rw [hbind, if_pos rfl]),
        .refl⟩
    · exact .inl (.nowhere (by rw [hbind, if_neg hbc, hb]) (by rw [hparent, hp]))

/-- Copying into `b` what `b` sees anyway changes no look-up. -/
theorem Resolves.copyBindings {g : Graph} {b src c : BlockId} {x : Var} {v : Option InstrId}
    (hb : b < g.blocks.size)
    (hsrc : ∀ v, g.binding b x = none → g.binding src x = some v → g.Resolves x b v)
    (h : g.Resolves x c v) : (g.copyBindings b src).Resolves x c v := by
  have hre := rebinds_copyBindings g b src
  have hparent : ∀ d, (g.copyBindings b src).parent d = g.parent d := hre.skeleton.parent_eq
  cases hbound : (g.copyBindings b src).binding b x with
  | none =>
    refine h.congr (S := fun _ => True) (fun _ _ _ _ => trivial) (fun d _ => ?_)
      (fun d _ => hparent d) trivial
    by_cases hd : d = b
    · rw [binding_copyBindings hb, Option.or_eq_none_iff] at hbound
      rw [hd, binding_copyBindings hb, hbound.1, hbound.2]
      rfl
    · exact hre.binding_eq d x hd
  | some new =>
    have hbefore : g.Resolves x b new := by
      rw [binding_copyBindings hb, Option.or_eq_some_iff] at hbound
      exact hbound.elim .bound fun h' => hsrc new h'.1 h'.2
    have hbind : ∀ d, (g.copyBindings b src).binding d x =
        if d = b then some new else g.binding d x := fun d => by
      split
      · rename_i hd
        rw [hd, hbound]
      · rename_i hd
        exact hre.binding_eq d x hd
    rcases Resolves.rebind hbind hparent hbefore h with h' | ⟨rfl, h', -⟩
    · exact h'
    · exact h'

end Graph

namespace Layout

variable {g g' : Graph} {w : Site}

/-! ## The blocks that construction has come to -/

theorem target_not_reached (l : Layout g w) {b : BlockId} (hb : b ∈ w.tail :: w.passed) :
    b ∉ w.targets := by
  rcases List.mem_cons.1 hb with rfl | hb
  · exact l.tail_not_target
  · exact l.passed_not_target hb

theorem reached_lt (l : Layout g w) {b : BlockId} (hb : b ∈ w.tail :: w.passed) :
    b < g.blocks.size := by
  rcases List.mem_cons.1 hb with rfl | hb
  · exact l.tail_lt
  · exact l.passed_lt hb

/-- What comes before a block that construction has come to has been passed. -/
theorem passed_of_before (l : Layout g w) {a b : BlockId} (hb : b ∈ w.tail :: w.passed)
    (h : [a, b].Sublist w.order) : a ∈ w.passed := by
  have hlt := idxOf_lt_of_pair l.nodup h
  have ha : a ∈ w.order := h.subset (by simp)
  by_contra hna
  have hle : w.order.idxOf b ≤ w.passed.length := by
    rw [Site.order]
    rcases List.mem_cons.1 hb with rfl | hb
    · rw [List.idxOf_append_of_notMem l.tail_not_passed, List.idxOf_cons_self]
      exact Nat.le_refl _
    · rw [List.idxOf_append_of_mem hb]
      exact Nat.le_of_lt (List.idxOf_lt_length_of_mem hb)
  have hge : w.passed.length ≤ w.order.idxOf a := by
    rw [Site.order, List.idxOf_append_of_notMem hna]
    exact Nat.le_add_right _ _
  exact absurd hlt (Nat.not_lt.2 (Nat.le_trans hle hge))

theorem parent_passed (l : Layout g w) {b p : BlockId} (hb : b ∈ w.tail :: w.passed)
    (hp : g.parent b = some p) : p ∈ w.passed :=
  l.passed_of_before hb (l.parent_before hp)

theorem above_reached (l : Layout g w) {a b : BlockId} (hb : b ∈ w.tail :: w.passed)
    (h : g.Above a b) : a ∈ w.tail :: w.passed := by
  induction h with
  | refl => exact hb
  | step hp _ ih => exact ih (List.mem_cons_of_mem _ (l.parent_passed hb hp))

theorem above_passed (l : Layout g w) {a b : BlockId} (hb : b ∈ w.passed) (h : g.Above a b) :
    a ∈ w.passed := by
  induction h with
  | refl => exact hb
  | step hp _ ih => exact ih (l.parent_passed (List.mem_cons_of_mem _ hb) hp)

/-- The scope of a block comes before the block. -/
theorem idxOf_above (l : Layout g w) {a b : BlockId} (h : g.Above a b) :
    w.order.idxOf a ≤ w.order.idxOf b := by
  induction h with
  | refl => exact Nat.le_refl _
  | step hp _ ih =>
    exact Nat.le_trans ih (Nat.le_of_lt (idxOf_lt_of_pair l.nodup (l.parent_before hp)))

theorem not_above_of_before (l : Layout g w) {a b : BlockId} (h : [a, b].Sublist w.order) :
    ¬ g.Above b a := fun habove =>
  absurd (idxOf_lt_of_pair l.nodup h) (Nat.not_lt.2 (l.idxOf_above habove))

/-- Meanings are the same where the look-ups are. -/
theorem meaning_congr (l : Layout g w) {w' : Site} (l' : Layout g' w') {b : BlockId}
    (hb : b < g.blocks.size) (hb' : b < g'.blocks.size) {x : Var}
    (h : ∀ v, g.Resolves x b v → g'.Resolves x b v) : g'.meaning b x = g.meaning b x :=
  l'.meaning_eq hb' (h _ (l.resolves_meaning hb x))

/-- A new binding of one variable in one block does not change what the others mean, nor what the
variable means where the chain does not come to the block. -/
theorem meaning_of_skeleton (l : Layout g w) (h : g.SameSkeleton g') {b c : BlockId}
    (hb : b < g.blocks.size) {x : Var} (hbind : ∀ d, d ≠ c → g'.binding d x = g.binding d x)
    (hc : g.Above c b → g'.binding c x = g.binding c x) : g'.meaning b x = g.meaning b x := by
  refine l.meaning_congr (l.of_sameSkeleton h) hb ((h.lt_size_iff b).2 hb) fun v hv => ?_
  by_cases habove : g.Above c b
  · refine hv.congr (S := fun _ => True) (fun _ _ _ _ => trivial) (fun d _ => ?_)
      (fun d _ => h.parent_eq d) trivial
    by_cases hd : d = c
    · rw [hd]
      exact hc habove
    · exact hbind d hd
  · exact hv.of_not_above hbind h.parent_eq habove

end Layout

/-! ## Edges that stay -/

/-- The way on from a block that construction has not come to is the exit of a frame. -/
theorem Continues.exists_exit {g : Graph} {b a c : BlockId} {fs : List Frame} {e : Edge}
    (h : Continues g b fs) (ha : a ∈ b :: fs.map Frame.target) (hc : g.next e a = some c) :
    ∃ f ∈ fs, f.exit e = some c := by
  induction fs generalizing b with
  | nil =>
    obtain rfl : a = b := List.mem_singleton.1 ha
    rw [h e] at hc
    cases hc
  | cons f fs ih =>
    rcases List.mem_cons.1 ha with rfl | ha
    · exact ⟨f, List.mem_cons_self, by rw [← h.1 e, hc]⟩
    · obtain ⟨f', hf', hexit⟩ := ih h.2 ha
      exact ⟨f', List.mem_cons_of_mem _ hf', hexit⟩

/-- Construction has come to `b`, and no edge of kind `e` into it will be moved: it is not the
header of an open loop, whose back edge comes from the end of the body. -/
structure Site.Kept (w : Site) (e : Edge) (b : BlockId) : Prop where
  reached : b ∈ w.tail :: w.passed
  steady : e = .branch → ∀ f ∈ w.frames, f.part = .loopBody → f.test ≠ b

namespace Layout

variable {g g' : Graph} {w : Site}

/-- An edge that is kept comes from a block that has been passed. -/
theorem source_passed (l : Layout g w) {e : Edge} {a b : BlockId} (hb : w.Kept e b)
    (h : g.next e a = some b) : a ∈ w.passed := by
  by_contra hna
  have ha : a ∈ w.tail :: w.frames.map Frame.target := by
    have := (l.mem_order a).2 (Graph.lt_size_of_next h)
    rw [Site.order, List.mem_append] at this
    exact this.resolve_left hna
  obtain ⟨f, hf, hexit⟩ := l.continues.exists_exit ha h
  have htarget : b ≠ f.target := fun heq =>
    l.target_not_reached hb.reached (heq ▸ List.mem_map_of_mem hf)
  simp only [Frame.exit] at hexit
  split at hexit
  · rename_i hpart
    exact hb.steady rfl f hf hpart (Option.some.inj hexit)
  · cases hexit
  · exact htarget (Option.some.inj hexit).symm
  · cases hexit

/-- The edges into `b` are the same in two graphs if the ways on are. -/
theorem prev_eq_of_next (l : Layout g w) (hg' : g'.Linked) {e : Edge} {b : BlockId}
    (h : ∀ a, g'.next e a = some b ↔ g.next e a = some b) : g'.prev e b = g.prev e b := by
  refine Option.ext fun a => ?_
  rw [← hg' e a b, ← l.linked e a b]
  exact h a

theorem prev_openIf (l : Layout g w) {join side : BlockId} (h : Graph.OpensIf g w.tail join side g')
    {e : Edge} {b : BlockId} (hb : w.Kept e b) : g'.prev e b = g.prev e b := by
  have hlt := l.reached_lt hb.reached
  have hj := h.join_eq
  have hs := h.side_eq
  refine l.prev_eq_of_next h.linked fun a => ⟨fun ha => ?_, fun ha => ?_⟩
  · have hsize := Graph.lt_size_of_next ha
    rw [h.size_eq] at hsize
    by_cases htail : a = w.tail
    · subst htail
      cases e with
      | fall =>
        rw [h.fall_parent, Option.some.injEq] at ha
        exact absurd hlt (by rw [← ha, hs]; exact Nat.not_lt.2 (Nat.le_succ _))
      | branch =>
        rw [h.branch_parent, Option.some.injEq] at ha
        exact absurd hlt (by rw [← ha, hj]; exact Nat.lt_irrefl _)
    by_cases hjoin : a = join
    · subst hjoin
      rw [h.next_join] at ha
      exact absurd (l.source_passed hb ha) l.tail_not_passed
    by_cases hside : a = side
    · subst hside
      cases e with
      | fall =>
        rw [h.fall_side, Option.some.injEq] at ha
        exact absurd hlt (by rw [← ha, hj]; exact Nat.lt_irrefl _)
      | branch =>
        rw [h.branch_side] at ha
        cases ha
    · rw [h.next_other e a (by dsimp only [BlockId] at *; omega) htail] at ha
      exact ha
  · have hpassed := l.source_passed hb ha
    rw [h.next_other e a (l.passed_lt hpassed) fun heq => l.tail_not_passed (heq ▸ hpassed)]
    exact ha

theorem prev_openElse (l : Layout g w) {f : Frame} {fs : List Frame} (hframes : w.frames = f :: fs)
    (hpart : f.part = .thenSide) {side : BlockId}
    (h : Graph.OpensElse g f.test f.target w.tail side g') {e : Edge} {b : BlockId}
    (hb : w.Kept e b) : g'.prev e b = g.prev e b := by
  have hf : f ∈ w.frames := by simp [hframes]
  have hlt := l.reached_lt hb.reached
  have hs := h.side_eq
  have htarget : f.target ≠ b := fun heq =>
    l.target_not_reached hb.reached (heq ▸ List.mem_map_of_mem hf)
  have hside : side ≠ b := fun heq => absurd hlt (by rw [← heq, hs]; exact Nat.lt_irrefl _)
  have hbranch : g.next .branch f.test = some f.target := by
    have := l.framed f hf
    simp only [Frame.Framed, hpart] at this
    exact this.2.1
  -- the branch edge of the test leads to the join before and to the else side after
  have htest : g'.next e f.test = some b ↔ g.next e f.test = some b := by
    cases e with
    | fall => rw [h.fall_parent]
    | branch => simp [h.branch_parent, hbranch, hside, htarget]
  refine l.prev_eq_of_next h.linked fun a => ?_
  by_cases hatest : a = f.test
  · rw [hatest]
    exact htest
  refine ⟨fun ha => ?_, fun ha => ?_⟩
  · have hsize := Graph.lt_size_of_next ha
    rw [h.size_eq] at hsize
    by_cases htail : a = w.tail
    · subst htail
      cases e with
      | fall =>
        rw [h.fall_thenTail] at ha
        cases ha
      | branch =>
        rw [h.branch_thenTail, Option.some.injEq] at ha
        exact absurd ha htarget
    by_cases hnew : a = side
    · subst hnew
      cases e with
      | fall =>
        rw [h.fall_side, Option.some.injEq] at ha
        exact absurd ha htarget
      | branch =>
        rw [h.branch_side] at ha
        cases ha
    · rw [h.next_other e a (by dsimp only [BlockId] at *; omega) htail hatest] at ha
      exact ha
  · have hpassed := l.source_passed hb ha
    rw [h.next_other e a (l.passed_lt hpassed)
      (fun heq => l.tail_not_passed (heq ▸ hpassed)) hatest]
    exact ha

/-- The header of a new loop gets its back edge; all other edges are kept. -/
theorem prev_openLoop (l : Layout g w) {head body exit : BlockId}
    (h : Graph.OpensLoop g w.tail head body exit g') {e : Edge} {b : BlockId} (hb : w.Kept e b)
    (hhead : e = .branch → b ≠ head) : g'.prev e b = g.prev e b := by
  have hlt := l.reached_lt hb.reached
  have hbody : body ≠ b := fun heq => absurd hlt (Nat.not_lt.2 (heq ▸ h.size_le_body))
  have hexit : exit ≠ b := fun heq => absurd hlt (Nat.not_lt.2 (heq ▸ h.size_le_exit))
  refine l.prev_eq_of_next h.linked fun a => ⟨fun ha => ?_, fun ha => ?_⟩
  · have hsize := Graph.lt_size_of_next ha
    rw [h.size_eq] at hsize
    by_cases ha₁ : a = head
    · subst ha₁
      cases e with
      | fall =>
        rw [h.fall_head, Option.some.injEq] at ha
        exact absurd ha hbody
      | branch =>
        rw [h.branch_head, Option.some.injEq] at ha
        exact absurd ha hexit
    by_cases ha₂ : a = body
    · subst ha₂
      cases e with
      | fall =>
        rw [h.fall_body] at ha
        cases ha
      | branch =>
        rw [h.branch_body, Option.some.injEq] at ha
        exact absurd ha.symm (hhead rfl)
    by_cases ha₃ : a = exit
    · subst ha₃
      rw [h.next_exit] at ha
      exact absurd (l.source_passed hb ha) l.tail_not_passed
    by_cases htail : a = w.tail
    · subst htail
      cases e with
      | fall =>
        rw [h.fall_start ha₁, Option.some.injEq] at ha
        rcases h.head_eq with ⟨heq, -⟩ | ⟨heq, -⟩
        · exact absurd heq.symm ha₁
        · exact absurd hlt (by rw [← ha, heq]; exact Nat.lt_irrefl _)
      | branch =>
        rw [h.branch_start ha₁] at ha
        cases ha
    · have hold : a < g.blocks.size := by
        have hx := h.exit_eq
        have hh := h.head_eq
        dsimp only [BlockId] at *
        omega
      rw [h.next_other e a hold htail] at ha
      exact ha
  · have hpassed := l.source_passed hb ha
    rw [h.next_other e a (l.passed_lt hpassed) fun heq => l.tail_not_passed (heq ▸ hpassed)]
    exact ha

/-! ## Meanings that stay -/

/-- The scope parent is the same if the edges into the block are, but for the back edge of a
loop. -/
theorem parent_eq_of_prev (l : Layout g w) {b : BlockId} (hb : b ∈ w.tail :: w.passed)
    (hrole : ∀ r, r = .elseSide ∨ r = .loopExit → g'.hasRole b r = g.hasRole b r)
    (hprev : ∀ e, w.Kept e b →
      (e = .branch → g.hasRole b .elseSide = true ∨ g.hasRole b .loopExit = true) →
      g'.prev e b = g.prev e b) : g'.parent b = g.parent b := by
  rw [Graph.parent, Graph.parent, hrole _ (.inl rfl), hrole _ (.inr rfl)]
  split
  · rename_i hcond
    rw [Bool.or_eq_true] at hcond
    refine hprev .branch ⟨hb, fun _ f hf hpart heq => ?_⟩ fun _ => hcond
    have hframed := l.framed f hf
    simp only [Frame.Framed, hpart] at hframed
    have := l.headed _ hframed.1
    rw [heq] at this
    simp [this] at hcond
  · exact hprev .fall ⟨hb, fun h => by cases h⟩ fun h => by cases h

theorem parent_openIf (l : Layout g w) {join side : BlockId}
    (h : Graph.OpensIf g w.tail join side g') {b : BlockId} (hb : b ∈ w.tail :: w.passed) :
    g'.parent b = g.parent b := by
  refine l.parent_eq_of_prev hb (fun r hr => ?_) fun e hkept _ => l.prev_openIf h hkept
  rw [h.hasRole_eq]
  rcases hr with rfl | rfl <;> simp

theorem parent_openElse (l : Layout g w) {f : Frame} {fs : List Frame}
    (hframes : w.frames = f :: fs) (hpart : f.part = .thenSide) {side : BlockId}
    (h : Graph.OpensElse g f.test f.target w.tail side g') {b : BlockId}
    (hb : b ∈ w.tail :: w.passed) : g'.parent b = g.parent b := by
  refine l.parent_eq_of_prev hb (fun r hr => ?_) fun e hkept _ =>
    l.prev_openElse hframes hpart h hkept
  have hne : b ≠ side := by
    rw [h.side_eq]
    exact Nat.ne_of_lt (l.reached_lt hb)
  rw [h.hasRole_eq]
  simp [hne]

theorem parent_openLoop (l : Layout g w) {head body exit : BlockId}
    (h : Graph.OpensLoop g w.tail head body exit g') {b : BlockId} (hb : b ∈ w.tail :: w.passed) :
    g'.parent b = g.parent b := by
  have hlt := l.reached_lt hb
  refine l.parent_eq_of_prev hb (fun r hr => ?_) fun e hkept hrole =>
    l.prev_openLoop h hkept fun he heq => ?_
  · have hne : b ≠ exit := Nat.ne_of_lt (Nat.lt_of_lt_of_le hlt h.size_le_exit)
    rw [h.hasRole_eq]
    rcases hr with rfl | rfl <;> simp [hne]
  · -- a block with a branch into it does not become a header
    subst heq
    rcases h.head_eq with ⟨rfl, -, -, hprev⟩ | ⟨heq, -⟩
    · refine l.branched _ ?_ hprev
      rcases hrole he with h' | h'
      · exact .inl h'
      · exact .inr (.inl h')
    · exact absurd hlt (by rw [heq]; exact Nat.lt_irrefl _)

/-- Meanings are the same in the blocks that construction has come to, if their scope parents are
and no binding changes. -/
theorem meaning_of_parent (l : Layout g w) {w' : Site} (l' : Layout g' w')
    (hstock : g.SameStock g') (hsize : g.blocks.size ≤ g'.blocks.size)
    (hparent : ∀ c ∈ w.tail :: w.passed, g'.parent c = g.parent c) {b : BlockId}
    (hb : b ∈ w.tail :: w.passed) (x : Var) : g'.meaning b x = g.meaning b x := by
  have hlt := l.reached_lt hb
  refine l.meaning_congr l' hlt (Nat.lt_of_lt_of_le hlt hsize) fun v hv => ?_
  exact hv.congr (S := fun c => c ∈ w.tail :: w.passed)
    (fun c p hc hp => List.mem_cons_of_mem _ (l.parent_passed hc hp))
    (fun c _ => hstock.binding_eq c x) hparent hb

/-! ## The end of a construct -/

/-- Where `b` sees what `origin` sees, **taking over the bindings in force** changes no look-up. -/
theorem resolves_inheritScope (l : Layout g w) {b origin c : BlockId} {x : Var} {v : Option InstrId}
    (hb : b < g.blocks.size)
    (hsees : ∀ v, g.binding b x = none → g.Resolves x origin v → g.Resolves x b v)
    (h : g.Resolves x c v) : (g.inheritScope b origin).Resolves x c v := by
  have hfirst : ∀ {c v}, g.Resolves x c v → (g.copyBindings b origin).Resolves x c v := fun h =>
    h.copyBindings hb fun v hnone hv => hsees v hnone (.bound hv)
  have hre := Graph.rebinds_copyBindings g b origin
  rw [Graph.inheritScope]
  split
  · rename_i p hp
    refine (hfirst h).copyBindings (by rw [hre.skeleton.size_eq]; exact hb) fun v hnone hv => ?_
    split at hp
    · -- the block before a loop is where the header looks variables up
      rename_i hrole
      have hpb : p ≠ b := by
        rintro rfl
        rw [hnone] at hv
        cases hv
      rw [Graph.binding_copyBindings hb, Option.or_eq_none_iff] at hnone
      rw [hre.binding_eq p x hpb] at hv
      obtain ⟨helse, hexit, -⟩ := l.headed origin hrole
      have hparent : g.parent origin = some p := by
        rw [Graph.parent, helse, hexit]
        exact hp
      exact hfirst (hsees v hnone.1 (.above hnone.2 hparent (.bound hv)))
    · cases hp
  · exact hfirst h

end Layout
end StructuredSSA
