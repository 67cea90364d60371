import StructuredSSA.Proofs.Layout.Basic

/-!
# Opening constructs keeps the layout

The blocks that a construct adds come right behind the tail in the order of the text.  Each of the
three ways to open a construct leads to a graph that fits the site with one frame more, or with the
else side in place of the then side.

* `Layout.Opened` — what the three have in common: blocks behind the tail, and links that change at
  the tail, at the test and at the new blocks only.
* `Layout.opened` — the layout is kept; `openIf`, `openElse` and `openLoop` are its cases.  What is
  particular to each is told before it: which blocks are new, what roles they have, and where the
  links that changed lead.
-/

set_option autoImplicit false

namespace StructuredSSA
namespace Layout

variable {g g' : Graph} {w : Site}

/-! ## Blocks behind the tail -/

/-- The order with new blocks right behind the tail. -/
def inserted (w : Site) (new : List BlockId) : List BlockId :=
  w.passed ++ w.tail :: (new ++ w.targets)

theorem pair_sublist {l : List BlockId} (l₁ l₂ : List BlockId) {a b : BlockId}
    (hl : l = l₁ ++ a :: l₂) (hb : b ∈ l₂) : [a, b].Sublist l := by
  rw [hl]
  exact ((List.singleton_sublist.2 hb).cons_cons a).trans (List.sublist_append_right _ _)

theorem passed_before {new : List BlockId} {a b : BlockId} (ha : a ∈ w.passed)
    (hb : b ∈ w.tail :: (new ++ w.targets)) : [a, b].Sublist (inserted w new) := by
  obtain ⟨l₁, l₂, hl⟩ := List.append_of_mem ha
  exact pair_sublist l₁ (l₂ ++ w.tail :: (new ++ w.targets))
    (by simp [inserted, hl]) (List.mem_append_right _ hb)

theorem tail_before {new : List BlockId} {b : BlockId} (hb : b ∈ new ++ w.targets) :
    [w.tail, b].Sublist (inserted w new) :=
  pair_sublist w.passed _ rfl hb

theorem new_before (l₁ : List BlockId) {new l₂ : List BlockId} {a b : BlockId}
    (hnew : new = l₁ ++ a :: l₂) (hb : b ∈ l₂ ++ w.targets) : [a, b].Sublist (inserted w new) :=
  pair_sublist (w.passed ++ w.tail :: l₁) _ (by simp [inserted, hnew]) hb

theorem order_sublist_inserted (w : Site) (new : List BlockId) :
    w.order.Sublist (inserted w new) :=
  List.Sublist.append (List.Sublist.refl _) ((List.sublist_append_right _ _).cons_cons _)

theorem ne_of_fresh (l : Layout g w) {b c : BlockId} (hb : b ∈ w.order) (hc : g.blocks.size ≤ c) :
    b ≠ c :=
  Nat.ne_of_lt (Nat.lt_of_lt_of_le ((l.mem_order b).1 hb) hc)

theorem nodup_inserted (l : Layout g w) {new : List BlockId} (hnew : new.Nodup)
    (hfresh : ∀ b ∈ new, g.blocks.size ≤ b) : (inserted w new).Nodup := by
  have hold := l.nodup
  have hlt : ∀ b ∈ new, b ∉ w.order := fun b hb hb' =>
    Nat.not_lt.2 (hfresh b hb) ((l.mem_order b).1 hb')
  simp only [Site.order, List.nodup_append, List.nodup_cons, List.mem_cons, List.mem_append]
    at hold hlt
  simp only [inserted, List.nodup_append, List.nodup_cons, List.mem_cons, List.mem_append]
  grind

theorem mem_inserted {new : List BlockId} {b : BlockId} :
    b ∈ inserted w new ↔ b ∈ w.order ∨ b ∈ new := by
  simp only [Site.order, inserted, List.mem_append, List.mem_cons]
  grind

/-- A block that is not the next to be opened at keeps its way on, so the frames stay framed. -/
theorem framed_of_eq {f : Frame} (hf : f.Framed g)
    (hnext : ∀ b ∈ f.behind, ∀ e, g'.next e b = g.next e b)
    (horigin : g'.originOf f.target = g.originOf f.target)
    (hif : ∀ b ∈ f.behind, g'.hasRole b .ifHead = g.hasRole b .ifHead)
    (hloop : g.hasRole f.test .loopHead = true → g'.hasRole f.test .loopHead = true)
    (hjoin : g.hasRole f.target .join = true → g'.hasRole f.target .join = true) :
    f.Framed g' := by
  simp only [Frame.Framed, Frame.behind] at *
  split at hf <;> simp_all

/-- A way on from the tail leads to a block behind a frame, or back to a header. -/
theorem next_tail_mem (l : Layout g w) {e : Edge} {b : BlockId} (h : g.next e w.tail = some b)
    (hmono : ∀ c r, g.hasRole c r = true → g'.hasRole c r = true)
    (hr : e = .branch → g'.hasRole b .loopHead = false) : b ∈ w.targets := by
  cases e with
  | fall => exact l.fall_tail_mem h
  | branch =>
    have hloop := hr rfl
    rw [hmono b _ (l.branch_tail h).2] at hloop
    cases hloop

/-- The header of a loop that is opened at the tail is not behind the tail. -/
theorem head_not_passed (l : Layout g w) {head body exit : BlockId}
    (h : Graph.OpensLoop g w.tail head body exit g') : head ∉ w.passed := fun hpassed => by
  rcases h.head_cases with rfl | hle
  · exact l.tail_not_passed hpassed
  · exact Nat.not_lt.2 hle (l.passed_lt hpassed)

/-! ## A construct is opened, or turned to its other side -/

/-- `g'` is `g` with the blocks `new` behind the tail of `w`, and construction stands at `w'` in it,
inside the frame `f` with the frames `fs` around it.  But for the new blocks, the tail and the test
of `f`, the blocks lead on where they led. -/
structure Opened (g : Graph) (w : Site) (new : List BlockId) (f : Frame) (fs : List Frame)
    (g' : Graph) (w' : Site) : Prop where
  frames_eq : w'.frames = f :: fs
  order_eq : w'.order = inserted w new
  passed_subset : w.passed ⊆ w'.passed
  sublist : fs.Sublist w.frames
  linked : g'.Linked
  lt_size_iff : ∀ b, b < g'.blocks.size ↔ b ∈ w.order ∨ b ∈ new
  fresh : ∀ b ∈ new, g.blocks.size ≤ b
  nodup : new.Nodup
  tail_mem : w'.tail ∈ new
  target_mem : f.target ∈ new ∨ f.target ∈ w.targets
  next_other : ∀ b ∈ w.order, b ≠ w.tail → b ≠ f.test → ∀ e, g'.next e b = g.next e b
  /-- Where the links changed, control moves forward, or back to a loop header. -/
  forward : ∀ e a b, a = w.tail ∨ a = f.test ∨ a ∈ new → g'.next e a = some b →
    (e = .branch → g'.hasRole b .loopHead = false) → [a, b].Sublist (inserted w new)
  exit : ∀ e, g'.next e w'.tail = f.exit e
  continues : Continues g' f.target fs
  framed : f.Framed g'
  behind : ∀ b ∈ f.behind, b ∈ w'.passed
  nested : ∀ o ∈ fs, ∀ b ∈ o.behind, [b, f.test].Sublist (inserted w new)
  /-- An old block gets no role but, at the tail, that of a test. -/
  hasRole_old : ∀ b ∈ w.order, ∀ r, b ≠ w.tail ∨ r ≠ .ifHead ∧ r ≠ .loopHead →
    g'.hasRole b r = g.hasRole b r
  hasRole_mono : ∀ b r, g.hasRole b r = true → g'.hasRole b r = true
  originOf_old : ∀ b ∈ w.order, g'.originOf b = g.originOf b
  headed : ∀ b, b = w.tail ∨ b ∈ new → g'.hasRole b .loopHead = true →
    g'.hasRole b .elseSide = false ∧ g'.hasRole b .loopExit = false ∧ g'.hasRole b .join = false
  branched : ∀ b ∈ new, g'.hasRole b .elseSide = true ∨ g'.hasRole b .loopExit = true ∨
    g'.hasRole b .join = true → g'.prev .branch b ≠ none
  /-- What the tail or the test branched to is branched to still. -/
  taken : ∀ a ∈ w.order, a = w.tail ∨ a = f.test → ∀ b, g.next .branch a = some b →
    g'.prev .branch b ≠ none
  untested : ∀ b ∈ new, g'.hasRole b .ifHead = false

namespace Opened

variable {new : List BlockId} {f : Frame} {fs : List Frame} {w' : Site}

theorem order_sublist (h : Opened g w new f fs g' w') : w.order.Sublist w'.order := by
  rw [h.order_eq]
  exact order_sublist_inserted w new

/-- A branch goes on leading where it led, or another takes its place. -/
theorem prev_branch (h : Opened g w new f fs g' w') (l : Layout g w) {b : BlockId}
    (hb : g.prev .branch b ≠ none) : g'.prev .branch b ≠ none := by
  obtain ⟨a, ha⟩ := Option.ne_none_iff_exists'.1 hb
  have hnext := (l.linked .branch a b).2 ha
  have hmem := (l.mem_order a).2 (Graph.lt_size_of_next hnext)
  by_cases hat : a = w.tail ∨ a = f.test
  · exact h.taken a hmem hat b hnext
  · rw [not_or] at hat
    rw [← h.next_other a hmem hat.1 hat.2] at hnext
    rw [(h.linked .branch a b).1 hnext]
    simp

/-- The frames around `f` have blocks behind them that are neither the tail nor the test of `f`. -/
theorem outer_framed (h : Opened g w new f fs g' w') (l : Layout g w) {o : Frame} (ho : o ∈ fs) :
    o.Framed g' := by
  have hw := h.sublist.subset ho
  have hbehind : ∀ b ∈ o.behind, b ∈ w.order ∧ b ≠ w.tail ∧ b ≠ f.test := fun b hb => by
    have hpassed := l.behind o hw b hb
    refine ⟨List.mem_append_left _ hpassed, fun heq => l.tail_not_passed (heq ▸ hpassed), ?_⟩
    have := (l.nodup_inserted h.nodup h.fresh).sublist (h.nested o ho b hb)
    simpa using this
  have htarget : o.target ∈ w.order :=
    List.mem_append_right _ (List.mem_cons_of_mem _ (List.mem_map_of_mem hw))
  refine framed_of_eq (l.framed o hw)
    (fun b hb => h.next_other b (hbehind b hb).1 (hbehind b hb).2.1 (hbehind b hb).2.2)
    (h.originOf_old _ htarget)
    (fun b hb => h.hasRole_old b (hbehind b hb).1 _ (.inl (hbehind b hb).2.1))
    (h.hasRole_mono _ _) ?_
  rw [h.hasRole_old _ htarget _ (.inr (by simp))]
  exact id

end Opened

/-- **Opening keeps the layout.** -/
theorem opened {new : List BlockId} {f : Frame} {fs : List Frame} {w' : Site} (l : Layout g w)
    (h : Opened g w new f fs g' w') : Layout g' w' := by
  have hold := h.order_sublist
  have htargets : w'.targets = f.target :: fs.map Frame.target := by
    rw [Site.targets, h.frames_eq]
    rfl
  -- a block leads on where it led, or it is one of those whose links `Opened` tells
  have hcases : ∀ e a b, g'.next e a = some b →
      (a ∈ w.order ∧ g.next e a = some b) ∨ a = w.tail ∨ a = f.test ∨ a ∈ new := by
    intro e a b hab
    rcases (h.lt_size_iff a).1 (Graph.lt_size_of_next hab) with ha | ha
    · by_cases hat : a = w.tail
      · exact .inr (.inl hat)
      · by_cases hap : a = f.test
        · exact .inr (.inr (.inl hap))
        · exact .inl ⟨ha, h.next_other a ha hat hap e ▸ hab⟩
    · exact .inr (.inr (.inr ha))
  refine {
    linked := h.linked
    nodup := h.order_eq ▸ l.nodup_inserted h.nodup h.fresh
    mem_order := fun b => by rw [h.order_eq, mem_inserted, h.lt_size_iff]
    fall_forward := fun a b hab => ?_
    branch_forward := fun a b hab hr => ?_
    continues := h.frames_eq ▸ ⟨h.exit, h.continues⟩
    framed := ?_
    behind := ?_
    nested := ?_
    headed := fun b hb => ?_
    branched := fun b hb => ?_
    untested := fun b hb => ?_ }
  · rcases hcases .fall a b hab with ⟨-, hab'⟩ | ha
    · exact (l.fall_forward a b hab').trans hold
    · exact h.order_eq ▸ h.forward .fall a b ha hab fun h' => by cases h'
  · rcases hcases .branch a b hab with ⟨-, hab'⟩ | ha
    · refine (l.branch_forward a b hab' ?_).trans hold
      exact Bool.eq_false_iff.2 fun hb => by simp [h.hasRole_mono b _ hb] at hr
    · exact h.order_eq ▸ h.forward .branch a b ha hab fun _ => hr
  · rw [h.frames_eq]
    exact List.forall_mem_cons.2 ⟨h.framed, fun o ho => h.outer_framed l ho⟩
  · rw [h.frames_eq]
    exact List.forall_mem_cons.2 ⟨h.behind, fun o ho b hb =>
      h.passed_subset (l.behind o (h.sublist.subset ho) b hb)⟩
  · rw [h.order_eq, h.frames_eq]
    exact List.pairwise_cons.2 ⟨h.nested, (l.nested.sublist h.sublist).imp fun hn b hb =>
      (hn b hb).trans (order_sublist_inserted w new)⟩
  · by_cases hb' : b = w.tail ∨ b ∈ new
    · exact h.headed b hb' hb
    · rw [not_or] at hb'
      have hmem := ((h.lt_size_iff b).1 (Graph.lt_size_of_hasRole hb)).resolve_right hb'.2
      simp only [h.hasRole_old b hmem _ (.inl hb'.1)] at hb ⊢
      exact l.headed b hb
  · by_cases hb' : b ∈ new
    · exact h.branched b hb' hb
    · have hlt : b < g'.blocks.size := by
        rcases hb with hb | hb | hb <;> exact Graph.lt_size_of_hasRole hb
      have hmem := ((h.lt_size_iff b).1 hlt).resolve_right hb'
      rw [h.hasRole_old b hmem _ (.inr (by simp)), h.hasRole_old b hmem _ (.inr (by simp)),
        h.hasRole_old b hmem _ (.inr (by simp))] at hb
      exact h.prev_branch l (l.branched b hb)
  · have hb' : b ∈ new ∨ b ∈ w.targets := by
      rw [htargets] at hb
      rcases List.mem_cons.1 hb with rfl | hb
      · exact .inl h.tail_mem
      · rcases List.mem_cons.1 hb with rfl | hb
        · exact h.target_mem
        · exact .inr ((h.sublist.map _).subset hb)
    rcases hb' with hb' | hb'
    · exact h.untested b hb'
    · rw [h.hasRole_old b (List.mem_append_right _ (List.mem_cons_of_mem _ hb')) _
        (.inl fun heq => l.tail_not_target (heq ▸ hb'))]
      exact l.untested b (List.mem_cons_of_mem _ hb')

/-! ## Ifs -/

section If

variable {join side : BlockId}

/-- The then side and the join are new. -/
theorem openIf_fresh (h : Graph.OpensIf g w.tail join side g') {b : BlockId}
    (hb : b ∈ [side, join]) : g.blocks.size ≤ b := by
  have hb' : b = side ∨ b = join := by simpa using hb
  rcases hb' with rfl | rfl
  · exact h.side_eq ▸ Nat.le_succ _
  · exact Nat.le_of_eq h.join_eq.symm

theorem openIf_lt_size_iff (l : Layout g w) (h : Graph.OpensIf g w.tail join side g')
    (b : BlockId) : b < g'.blocks.size ↔ b ∈ w.order ∨ b ∈ [side, join] := by
  rw [l.mem_order, h.size_eq, h.join_eq, h.side_eq]
  simp only [List.mem_cons, List.not_mem_nil, or_false]
  dsimp only [BlockId] at *
  omega

theorem openIf_hasRole_mono (h : Graph.OpensIf g w.tail join side g') (b : BlockId) (r : Role)
    (hb : g.hasRole b r = true) : g'.hasRole b r = true := by
  rw [h.hasRole_eq, hb]
  rfl

theorem openIf_hasRole_old (l : Layout g w) (h : Graph.OpensIf g w.tail join side g') {b : BlockId}
    (hb : b ∈ w.order) (r : Role) :
    g'.hasRole b r = (g.hasRole b r || decide (b = w.tail ∧ r = .ifHead)) := by
  have hj := l.ne_of_fresh hb (openIf_fresh h (b := join) (by simp))
  have hs := l.ne_of_fresh hb (openIf_fresh h (b := side) (by simp))
  simp [h.hasRole_eq, hj, hs]

theorem openIf_hasRole_new (l : Layout g w) (h : Graph.OpensIf g w.tail join side g') {b : BlockId}
    (hb : b ∈ [side, join]) (r : Role) :
    g'.hasRole b r = decide (b = join ∧ r = .join ∨ b = side ∧ r = .thenSide) := by
  have hfresh := openIf_fresh h hb
  have htail := l.ne_of_fresh l.tail_mem hfresh
  simp [h.hasRole_eq, Graph.hasRole_eq_false_of_size_le hfresh, htail.symm]

/-- The test leads to the then side and to the join, the then side to the join, and the join to
where the tail led. -/
theorem openIf_forward (l : Layout g w) (h : Graph.OpensIf g w.tail join side g') {e : Edge}
    {a b : BlockId} (ha : a = w.tail ∨ a ∈ [side, join]) (hab : g'.next e a = some b)
    (hr : e = .branch → g'.hasRole b .loopHead = false) :
    [a, b].Sublist (inserted w [side, join]) := by
  have ha' : a = w.tail ∨ a = side ∨ a = join := by simpa using ha
  rcases ha' with rfl | rfl | rfl
  · cases e with
    | fall =>
      rw [h.fall_parent] at hab
      cases hab
      exact tail_before (by simp)
    | branch =>
      rw [h.branch_parent] at hab
      cases hab
      exact tail_before (by simp)
  · cases e with
    | fall =>
      rw [h.fall_side] at hab
      cases hab
      exact new_before [] rfl (by simp)
    | branch =>
      rw [h.branch_side] at hab
      cases hab
  · rw [h.next_join] at hab
    exact new_before [side] rfl (l.next_tail_mem hab (openIf_hasRole_mono h) hr)

theorem openIf_headed (l : Layout g w) (h : Graph.OpensIf g w.tail join side g') {b : BlockId}
    (hb : b = w.tail ∨ b ∈ [side, join]) (hloop : g'.hasRole b .loopHead = true) :
    g'.hasRole b .elseSide = false ∧ g'.hasRole b .loopExit = false ∧
      g'.hasRole b .join = false := by
  rcases hb with rfl | hb
  · simp only [l.openIf_hasRole_old h l.tail_mem] at hloop ⊢
    simp at hloop ⊢
    exact l.headed w.tail hloop
  · simp [l.openIf_hasRole_new h hb] at hloop

/-- Of the new blocks only the join cannot become a loop header, and the test branches to it. -/
theorem openIf_branched (l : Layout g w) (h : Graph.OpensIf g w.tail join side g') {b : BlockId}
    (hb : b ∈ [side, join]) (hr : g'.hasRole b .elseSide = true ∨
      g'.hasRole b .loopExit = true ∨ g'.hasRole b .join = true) : g'.prev .branch b ≠ none := by
  have hjoin : b = join := by simpa [l.openIf_hasRole_new h hb] using hr
  rw [hjoin, (h.linked .branch _ _).1 h.branch_parent]
  simp

/-- What the test branched to, the join branches to. -/
theorem openIf_taken (h : Graph.OpensIf g w.tail join side g') {b : BlockId}
    (hab : g.next .branch w.tail = some b) : g'.prev .branch b ≠ none := by
  rw [← h.next_join] at hab
  rw [(h.linked .branch join b).1 hab]
  simp

theorem openIf (l : Layout g w) (h : Graph.OpensIf g w.tail join side g')
    (before : Var → Option InstrId) (start : InstrId) :
    Layout g' (w.openIf join side before start) :=
  l.opened {
    frames_eq := rfl
    order_eq := by simp [Site.openIf, Site.push, Site.order, Site.targets, inserted]
    passed_subset := List.subset_append_left _ _
    sublist := List.Sublist.refl _
    linked := h.linked
    lt_size_iff := l.openIf_lt_size_iff h
    fresh := fun _ => openIf_fresh h
    nodup := by simp [h.join_eq, h.side_eq]
    tail_mem := List.mem_cons_self
    target_mem := .inl (by simp)
    next_other := fun b hb hat _ e => h.next_other e b ((l.mem_order b).1 hb) hat
    forward := fun _ _ _ ha hab => l.openIf_forward h (or_self_left.1 ha) hab
    exit := fun e => by
      cases e with
      | fall => exact h.fall_side
      | branch => exact h.branch_side
    continues := l.continues.of_next_eq h.next_join fun c hc e =>
      h.next_other e c (l.target_lt hc) fun heq => l.tail_not_target (heq ▸ hc)
    framed := ⟨by simp [h.hasRole_eq], h.branch_parent, by simp [h.originOf_eq],
      by simp [h.hasRole_eq]⟩
    behind := fun b hb => by
      simp only [Frame.behind, List.mem_singleton] at hb
      simp [Site.openIf, Site.push, hb]
    nested := fun o ho b hb => passed_before (l.behind o ho b hb) (by simp)
    hasRole_old := fun b hb r hr => by
      rw [l.openIf_hasRole_old h hb]
      rcases hr with hr | ⟨hr, -⟩ <;> simp [hr]
    hasRole_mono := openIf_hasRole_mono h
    originOf_old := fun b hb => by
      rw [h.originOf_eq, if_neg (l.ne_of_fresh hb (openIf_fresh h (by simp)))]
    headed := fun _ hb => l.openIf_headed h hb
    branched := fun _ hb => l.openIf_branched h hb
    taken := fun _ _ ha _ hab => openIf_taken h ((or_self_iff.1 ha) ▸ hab)
    untested := fun b hb => by simp [l.openIf_hasRole_new h hb] }

end If

/-! ## Else sides -/

section Else

variable {f : Frame} {fs : List Frame} {side : BlockId}

theorem openElse_hasRole_old (l : Layout g w) (h : Graph.OpensElse g f.test f.target w.tail side g')
    {b : BlockId} (hb : b ∈ w.order) (r : Role) : g'.hasRole b r = g.hasRole b r := by
  have hne := l.ne_of_fresh hb (Nat.le_of_eq h.side_eq.symm)
  simp [h.hasRole_eq, hne]

theorem openElse_hasRole_side (h : Graph.OpensElse g f.test f.target w.tail side g') (r : Role) :
    g'.hasRole side r = decide (r = .elseSide) := by
  simp [h.hasRole_eq, Graph.hasRole_eq_false_of_size_le (Nat.le_of_eq h.side_eq.symm)]

/-- The then side branches to the join that it fell through into, and the test to the else side,
which falls through into the join. -/
theorem openElse_forward (l : Layout g w) (hframes : w.frames = f :: fs)
    (hpart : f.part = .thenSide) (h : Graph.OpensElse g f.test f.target w.tail side g') {e : Edge}
    {a b : BlockId} (ha : a = w.tail ∨ a = f.test ∨ a = side) (hab : g'.next e a = some b) :
    [a, b].Sublist (inserted w [side]) := by
  have hf : f ∈ w.frames := by simp [hframes]
  have hold := order_sublist_inserted w [side]
  rcases ha with rfl | rfl | rfl
  · cases e with
    | fall =>
      rw [h.fall_thenTail] at hab
      cases hab
    | branch =>
      rw [h.branch_thenTail] at hab
      cases hab
      exact (l.fall_forward _ _ (l.next_tail_if hframes (by simp [hpart])).1).trans hold
  · cases e with
    | fall =>
      rw [h.fall_parent] at hab
      exact (l.fall_forward _ _ hab).trans hold
    | branch =>
      rw [h.branch_parent] at hab
      cases hab
      exact passed_before (l.behind f hf _ (test_mem_behind f)) (by simp)
  · cases e with
    | fall =>
      rw [h.fall_side] at hab
      cases hab
      exact new_before [] rfl (by simp [Site.targets_of_cons hframes])
    | branch =>
      rw [h.branch_side] at hab
      cases hab

theorem openElse_framed (l : Layout g w) (hframes : w.frames = f :: fs)
    (hpart : f.part = .thenSide) (h : Graph.OpensElse g f.test f.target w.tail side g') :
    Frame.Framed g' { f with part := .elseSide w.tail } := by
  obtain ⟨-, -, horigin, hjoin⟩ := l.framed_thenSide (f := f) (by simp [hframes]) hpart
  have htarget : f.target ∈ w.order := by simp [Site.order, Site.targets_of_cons hframes]
  refine ⟨?_, h.branch_thenTail, h.fall_thenTail, ?_, (h.originOf_eq _).trans horigin, ?_⟩
  · rw [h.branch_parent]
    rfl
  · rw [l.openElse_hasRole_old h l.tail_mem]
    exact l.untested _ List.mem_cons_self
  · rw [l.openElse_hasRole_old h htarget]
    exact hjoin

theorem openElse_headed (l : Layout g w) (h : Graph.OpensElse g f.test f.target w.tail side g')
    {b : BlockId} (hb : b = w.tail ∨ b ∈ [side]) (hloop : g'.hasRole b .loopHead = true) :
    g'.hasRole b .elseSide = false ∧ g'.hasRole b .loopExit = false ∧
      g'.hasRole b .join = false := by
  rcases hb with rfl | hb
  · simp only [l.openElse_hasRole_old h l.tail_mem] at hloop ⊢
    exact l.headed _ hloop
  · rw [List.mem_singleton.1 hb, openElse_hasRole_side h] at hloop
    cases hloop

/-- The tail branched nowhere, and what the test branched to is the join, to which the end of the
then side branches now. -/
theorem openElse_taken (l : Layout g w) (hframes : w.frames = f :: fs)
    (hpart : f.part = .thenSide) (h : Graph.OpensElse g f.test f.target w.tail side g')
    {a b : BlockId} (ha : a = w.tail ∨ a = f.test) (hab : g.next .branch a = some b) :
    g'.prev .branch b ≠ none := by
  rcases ha with rfl | rfl
  · rw [(l.next_tail_if hframes (by simp [hpart])).2] at hab
    cases hab
  · rw [(l.framed_thenSide (by simp [hframes]) hpart).2.1] at hab
    cases hab
    rw [(h.linked .branch _ _).1 h.branch_thenTail]
    simp

theorem openElse (l : Layout g w) (hframes : w.frames = f :: fs) (hpart : f.part = .thenSide)
    (h : Graph.OpensElse g f.test f.target w.tail side g') : Layout g' (w.openElse side) := by
  have htargets := Site.targets_of_cons hframes
  have htest : f.test ∈ w.passed := l.behind f (by simp [hframes]) _ (test_mem_behind f)
  have hcontinues := l.continues
  have hnested := l.nested
  rw [hframes] at hcontinues hnested
  rw [Site.openElse_eq hframes side]
  exact l.opened {
    frames_eq := rfl
    order_eq := by simp [Site.order, Site.targets, inserted, hframes]
    passed_subset := List.subset_append_left _ _
    sublist := hframes ▸ List.sublist_cons_self f fs
    linked := h.linked
    lt_size_iff := fun b => by
      rw [l.mem_order, h.size_eq, h.side_eq, List.mem_singleton]
      exact Nat.lt_succ_iff_lt_or_eq
    fresh := fun b hb => Nat.le_of_eq ((List.mem_singleton.1 hb).trans h.side_eq).symm
    nodup := by simp
    tail_mem := List.mem_singleton_self side
    target_mem := .inr (by simp [htargets])
    next_other := fun b hb hat hap e => h.next_other e b ((l.mem_order b).1 hb) hat hap
    forward := fun _ _ _ ha hab _ =>
      l.openElse_forward hframes hpart h (ha.imp_right (.imp_right List.mem_singleton.1)) hab
    exit := fun e => by
      cases e with
      | fall => exact h.fall_side
      | branch => exact h.branch_side
    continues := hcontinues.2.congr fun c hc e => by
      replace hc : c ∈ w.targets := htargets ▸ hc
      exact h.next_other e c (l.target_lt hc) (fun heq => l.tail_not_target (heq ▸ hc))
        fun heq => l.passed_not_target htest (heq ▸ hc)
    framed := l.openElse_framed hframes hpart h
    behind := fun b hb => by
      have hb' : b = f.test ∨ b = w.tail := by simpa [Frame.behind] using hb
      rcases hb' with rfl | rfl
      · exact List.mem_append_left _ htest
      · exact List.mem_append_right _ (List.mem_singleton_self _)
    nested := fun o ho b hb =>
      ((List.pairwise_cons.1 hnested).1 o ho b hb).trans (order_sublist_inserted w [side])
    hasRole_old := fun b hb r _ => l.openElse_hasRole_old h hb r
    hasRole_mono := fun b r hb => by
      rw [h.hasRole_eq, hb]
      rfl
    originOf_old := fun b _ => h.originOf_eq b
    headed := fun _ hb => l.openElse_headed h hb
    branched := fun b hb _ => by
      rw [List.mem_singleton.1 hb, (h.linked .branch _ _).1 h.branch_parent]
      simp
    taken := fun _ _ ha _ hab => l.openElse_taken hframes hpart h ha hab
    untested := fun b hb => by
      rw [List.mem_singleton.1 hb, openElse_hasRole_side h]
      rfl }

end Else

/-! ## Loops -/

section Loop

variable {head body exit : BlockId}

/-- The blocks that a loop adds, in the order of the text. -/
def loopBlocks (w : Site) (head body exit : BlockId) : List BlockId :=
  (if head = w.tail then [] else [head]) ++ [body, exit]

theorem mem_loopBlocks {b : BlockId} :
    b ∈ loopBlocks w head body exit ↔ (head ≠ w.tail ∧ b = head) ∨ b = body ∨ b = exit := by
  rw [loopBlocks]
  split <;> simp_all

/-- The header of a loop is the tail, or behind it. -/
theorem head_mem (w : Site) (head body exit : BlockId) :
    head ∈ w.tail :: (loopBlocks w head body exit ++ w.targets) := by
  rw [loopBlocks]
  split <;> simp_all

theorem head_before (w : Site) {b : BlockId} (hb : b = body ∨ b = exit) :
    [head, b].Sublist (inserted w (loopBlocks w head body exit)) := by
  have hmem : b ∈ [body, exit] ++ w.targets := by
    rcases hb with rfl | rfl <;> simp
  rw [loopBlocks]
  split
  · rename_i heq
    exact heq ▸ tail_before hmem
  · exact new_before [] rfl hmem

theorem exit_before {b : BlockId} (hb : b ∈ w.targets) :
    [exit, b].Sublist (inserted w (loopBlocks w head body exit)) := by
  rw [loopBlocks]
  split
  · exact new_before [body] rfl hb
  · exact new_before [head, body] rfl hb

/-- A header that is not new is the tail. -/
theorem openLoop_head_eq (l : Layout g w) (h : Graph.OpensLoop g w.tail head body exit g')
    (hmem : head ∈ w.order) : head = w.tail :=
  h.head_cases.resolve_right (Nat.not_le.2 ((l.mem_order head).1 hmem))

theorem openLoop_fresh (l : Layout g w) (h : Graph.OpensLoop g w.tail head body exit g')
    {b : BlockId} (hb : b ∈ loopBlocks w head body exit) : g.blocks.size ≤ b := by
  rcases mem_loopBlocks.1 hb with ⟨hne, rfl⟩ | rfl | rfl
  · exact Nat.not_lt.1 fun hlt => hne (l.openLoop_head_eq h ((l.mem_order b).2 hlt))
  · exact h.size_le_body
  · exact h.size_le_exit

theorem openLoop_lt_size_iff (l : Layout g w) (h : Graph.OpensLoop g w.tail head body exit g')
    (b : BlockId) : b < g'.blocks.size ↔ b ∈ w.order ∨ b ∈ loopBlocks w head body exit := by
  have htail := l.tail_lt
  have hx := h.exit_eq
  have hh := h.head_eq
  rw [h.size_eq, l.mem_order, mem_loopBlocks]
  dsimp only [BlockId] at *
  omega

theorem openLoop_hasRole_mono (h : Graph.OpensLoop g w.tail head body exit g') (b : BlockId)
    (r : Role) (hb : g.hasRole b r = true) : g'.hasRole b r = true := by
  rw [h.hasRole_eq, hb]
  rfl

theorem openLoop_hasRole_old (l : Layout g w) (h : Graph.OpensLoop g w.tail head body exit g')
    {b : BlockId} (hb : b ∈ w.order) (r : Role) :
    g'.hasRole b r = (g.hasRole b r || decide (b = head ∧ r = .loopHead)) := by
  have hbody := l.ne_of_fresh hb h.size_le_body
  have hexit := l.ne_of_fresh hb h.size_le_exit
  simp [h.hasRole_eq, hbody, hexit]

theorem openLoop_hasRole_new (l : Layout g w) (h : Graph.OpensLoop g w.tail head body exit g')
    {b : BlockId} (hb : b ∈ loopBlocks w head body exit) (r : Role) :
    g'.hasRole b r = decide (b = head ∧ r = .loopHead ∨ b = body ∧ r = .loopBody ∨
      b = exit ∧ r = .loopExit) := by
  simp [h.hasRole_eq, Graph.hasRole_eq_false_of_size_le (l.openLoop_fresh h hb), Bool.or_assoc]

/-- A new header is fallen into, and leads to the body and to the exit; the body leads back to it,
and the exit to where the tail led. -/
theorem openLoop_forward (l : Layout g w) (h : Graph.OpensLoop g w.tail head body exit g')
    {e : Edge} {a b : BlockId} (ha : a = w.tail ∨ a = head ∨ a ∈ loopBlocks w head body exit)
    (hab : g'.next e a = some b) (hr : e = .branch → g'.hasRole b .loopHead = false) :
    [a, b].Sublist (inserted w (loopBlocks w head body exit)) := by
  have ha' : a = head ∨ (a = w.tail ∧ a ≠ head) ∨ a = body ∨ a = exit := by
    rw [mem_loopBlocks] at ha
    by_cases hah : a = head
    · exact .inl hah
    · rcases ha with ha | ha | ⟨-, ha⟩ | ha
      · exact .inr (.inl ⟨ha, hah⟩)
      · exact absurd ha hah
      · exact absurd ha hah
      · exact .inr (.inr ha)
  rcases ha' with rfl | ⟨rfl, hah⟩ | rfl | rfl
  · cases e with
    | fall =>
      rw [h.fall_head] at hab
      cases hab
      exact head_before w (.inl rfl)
    | branch =>
      rw [h.branch_head] at hab
      cases hab
      exact head_before w (.inr rfl)
  · cases e with
    | fall =>
      rw [h.fall_start hah] at hab
      cases hab
      exact tail_before ((List.mem_cons.1 (head_mem w _ _ _)).resolve_left hah.symm)
    | branch =>
      rw [h.branch_start hah] at hab
      cases hab
  · cases e with
    | fall =>
      rw [h.fall_body] at hab
      cases hab
    | branch =>
      -- the only way back
      rw [h.branch_body] at hab
      cases hab
      have hr := hr rfl
      simp [h.hasRole_eq] at hr
  · rw [h.next_exit] at hab
    exact exit_before (l.next_tail_mem hab (openLoop_hasRole_mono h) hr)

/-- Nothing branches to a block that becomes a header, so it is none of those that are branched
to. -/
theorem openLoop_headed (l : Layout g w) (h : Graph.OpensLoop g w.tail head body exit g')
    {b : BlockId} (hb : b = w.tail ∨ b ∈ loopBlocks w head body exit)
    (hloop : g'.hasRole b .loopHead = true) :
    g'.hasRole b .elseSide = false ∧ g'.hasRole b .loopExit = false ∧
      g'.hasRole b .join = false := by
  rcases hb with rfl | hb
  · simp only [l.openLoop_hasRole_old h l.tail_mem] at hloop ⊢
    by_cases hhead : head = w.tail
    · rcases h.head_eq with ⟨-, -, -, hprev⟩ | ⟨heq, -⟩
      · have hnot : ¬ (g.hasRole w.tail .elseSide = true ∨ g.hasRole w.tail .loopExit = true ∨
            g.hasRole w.tail .join = true) := fun hr => l.branched _ hr hprev
        simpa using hnot
      · exact absurd l.tail_lt (hhead.symm.trans heq ▸ Nat.lt_irrefl _)
    · simp [Ne.symm hhead] at hloop ⊢
      exact l.headed _ hloop
  · have hdistinct := h.distinct l.tail_lt
    have hhead : b = head := by simpa [l.openLoop_hasRole_new h hb] using hloop
    subst hhead
    simp [l.openLoop_hasRole_new h hb, hdistinct]

theorem openLoop_branched (l : Layout g w) (h : Graph.OpensLoop g w.tail head body exit g')
    {b : BlockId} (hb : b ∈ loopBlocks w head body exit) (hr : g'.hasRole b .elseSide = true ∨
      g'.hasRole b .loopExit = true ∨ g'.hasRole b .join = true) : g'.prev .branch b ≠ none := by
  have hexit : b = exit := by simpa [l.openLoop_hasRole_new h hb] using hr
  rw [hexit, (h.linked .branch _ _).1 h.branch_head]
  simp

/-- What the tail branched to, the exit branches to. -/
theorem openLoop_taken (h : Graph.OpensLoop g w.tail head body exit g') {b : BlockId}
    (hab : g.next .branch w.tail = some b) : g'.prev .branch b ≠ none := by
  rw [← h.next_exit] at hab
  rw [(h.linked .branch exit b).1 hab]
  simp

theorem openLoop (l : Layout g w) (h : Graph.OpensLoop g w.tail head body exit g')
    (before : Var → Option InstrId) (start : InstrId) :
    Layout g' (w.openLoop head body exit before start) :=
  l.opened {
    frames_eq := rfl
    order_eq := by
      simp only [Site.openLoop, Site.push, Site.order, Site.targets, inserted, loopBlocks]
      split <;> simp
    passed_subset := List.subset_append_left _ _
    sublist := List.Sublist.refl _
    linked := h.linked
    lt_size_iff := l.openLoop_lt_size_iff h
    fresh := fun _ => l.openLoop_fresh h
    nodup := by
      have hdistinct := h.distinct l.tail_lt
      rw [loopBlocks]
      split <;> simp [hdistinct]
    tail_mem := mem_loopBlocks.2 (.inr (.inl rfl))
    target_mem := .inl (mem_loopBlocks.2 (.inr (.inr rfl)))
    next_other := fun b hb hat _ e => h.next_other e b ((l.mem_order b).1 hb) hat
    forward := fun _ _ _ ha hab => l.openLoop_forward h ha hab
    exit := fun e => by
      cases e with
      | fall => exact h.fall_body
      | branch => exact h.branch_body
    continues := l.continues.of_next_eq h.next_exit fun c hc e =>
      h.next_other e c (l.target_lt hc) fun heq => l.tail_not_target (heq ▸ hc)
    framed := ⟨by simp [h.hasRole_eq], h.branch_head⟩
    behind := fun b hb => by
      simp only [Frame.behind, List.mem_singleton] at hb
      simp only [Site.openLoop, Site.push, hb]
      split <;> simp_all
    nested := fun o ho b hb => passed_before (l.behind o ho b hb) (head_mem w _ _ _)
    hasRole_old := fun b hb r hr => by
      rw [l.openLoop_hasRole_old h hb]
      by_cases hbh : b = head
      · have hr' := hr.resolve_left fun hat => hat (hbh.trans (l.openLoop_head_eq h (hbh ▸ hb)))
        simp [hr'.2]
      · simp [hbh]
    hasRole_mono := openLoop_hasRole_mono h
    originOf_old := fun b hb => by
      rw [h.originOf_eq, if_neg (l.ne_of_fresh hb h.size_le_exit)]
    headed := fun _ hb => l.openLoop_headed h hb
    branched := fun _ hb => l.openLoop_branched h hb
    taken := fun a hmem ha _ hab => by
      have hat : a = w.tail := ha.elim id fun hah => hah.trans (l.openLoop_head_eq h (hah ▸ hmem))
      exact openLoop_taken h (hat ▸ hab)
    untested := fun b hb => by simp [l.openLoop_hasRole_new h hb] }

end Loop

end Layout
end StructuredSSA
