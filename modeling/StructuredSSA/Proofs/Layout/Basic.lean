import StructuredSSA.Proofs.Graph.Open

/-!
# The layout of a body under construction

No stack of open constructs is kept, and blocks are numbered in the order in which they are added,
which is neither the order of the text nor that of execution.  The proofs keep both beside the
graph: a `Frame` for every open construct, and an order of the blocks in which control moves forward
unless it jumps back to a loop header.

## What is here

* `Frame` — an open construct, with the side of it that is being built.
* `Site` — the open constructs, the block at the end of what has been built, and the blocks before
  it.
* `Layout` — how the links and roles of a graph fit a site.
* `Layout.framed_thenSide` and the like, `Layout.next_tail_if`, `Layout.next_tail_loopBody` — what
  that says of one frame, by the side that is being built.
* `Layout.region_tail` — the region that the edges tell is the innermost frame.
* `Layout.pop` — leaving a construct.
-/

set_option autoImplicit false

namespace StructuredSSA

/-- The side of an open construct that is being built. -/
inductive Part where
  | thenSide
  /-- The else side; the then side ends in `thenTail`. -/
  | elseSide (thenTail : BlockId)
  | loopBody
deriving DecidableEq

/-- An open construct. -/
structure Frame where
  part : Part
  /-- The if block or the loop header. -/
  test : BlockId
  /-- The block behind the construct: the join or the loop exit. -/
  target : BlockId
  /-- What the variables meant where the construct was opened. -/
  before : Var → Option InstrId
  /-- The number of the first instruction that was added after the construct was opened. -/
  start : InstrId

namespace Frame

/-- Where the last block of the side leads. -/
def exit (f : Frame) (e : Edge) : Option BlockId :=
  match f.part, e with
  | .loopBody, .branch => some f.test
  | .loopBody, .fall => none
  | _, .fall => some f.target
  | _, .branch => none

/-- The region that the side makes up. -/
def region (f : Frame) : Region :=
  match f.part with
  | .thenSide => .thenSide f.target
  | .elseSide _ => .elseSide f.target
  | .loopBody => .loopBody f.test

/-- How the blocks of an open construct are linked. -/
def Framed (g : Graph) (f : Frame) : Prop :=
  match f.part with
  | .thenSide => g.hasRole f.test .ifHead = true ∧ g.next .branch f.test = some f.target ∧
      g.originOf f.target = some f.test ∧ g.hasRole f.target .join = true
  | .elseSide tt => (g.next .branch f.test).isSome = true ∧ g.next .branch tt = some f.target ∧
      g.next .fall tt = none ∧ g.hasRole tt .ifHead = false ∧ g.originOf f.target = some f.test ∧
      g.hasRole f.target .join = true
  | .loopBody => g.hasRole f.test .loopHead = true ∧ g.next .branch f.test = some f.target

/-- The blocks of an open construct that are behind the point of construction. -/
def behind (f : Frame) : List BlockId :=
  match f.part with
  | .elseSide tt => [f.test, tt]
  | _ => [f.test]

end Frame

/-- Where construction stands. -/
structure Site where
  /-- The blocks that nothing will be added to but phis, jumps and edges. -/
  passed : List BlockId
  /-- The block at the end of what has been built. -/
  tail : BlockId
  /-- The open constructs, the innermost first. -/
  frames : List Frame

namespace Site

/-- The blocks behind the open constructs, the innermost first. -/
def targets (w : Site) : List BlockId := w.frames.map Frame.target

/-- The blocks in the order of the text. -/
def order (w : Site) : List BlockId := w.passed ++ w.tail :: w.targets

/-- The region that `tail` is in. -/
def region (w : Site) : Region := (w.frames.head?.map Frame.region).getD .outermost

/-- A construct is opened: `blocks` are behind construction now, which goes on in `first`. -/
def push (w : Site) (blocks : List BlockId) (first : BlockId) (f : Frame) : Site where
  passed := w.passed ++ blocks
  tail := first
  frames := f :: w.frames

/-- An if is opened at the tail. -/
def openIf (w : Site) (join side : BlockId) (before : Var → Option InstrId) (start : InstrId) :
    Site :=
  w.push [w.tail] side ⟨.thenSide, w.tail, join, before, start⟩

/-- The else side is opened of the if whose then side ends in the tail. -/
def openElse (w : Site) (side : BlockId) : Site :=
  match w.frames with
  | f :: fs => ⟨w.passed ++ [w.tail], side, { f with part := .elseSide w.tail } :: fs⟩
  | [] => w

/-- A loop is opened at the tail, which may itself be the header. -/
def openLoop (w : Site) (head body exit : BlockId) (before : Var → Option InstrId)
    (start : InstrId) : Site :=
  w.push (if head = w.tail then [w.tail] else [w.tail, head]) body
    ⟨.loopBody, head, exit, before, start⟩

/-- The innermost construct is left. -/
def pop (w : Site) : Site :=
  match w.frames with
  | f :: fs => { passed := w.passed ++ [w.tail], tail := f.target, frames := fs }
  | [] => w

theorem openElse_eq {w : Site} {f : Frame} {fs : List Frame} (hframes : w.frames = f :: fs)
    (side : BlockId) : w.openElse side =
      ⟨w.passed ++ [w.tail], side, { f with part := .elseSide w.tail } :: fs⟩ := by
  rw [openElse, hframes]

theorem targets_of_cons {w : Site} {f : Frame} {fs : List Frame} (hframes : w.frames = f :: fs) :
    w.targets = f.target :: fs.map Frame.target := by
  rw [targets, hframes]
  rfl

theorem pop_eq {w : Site} {f : Frame} {fs : List Frame} (hframes : w.frames = f :: fs) :
    w.pop = ⟨w.passed ++ [w.tail], f.target, fs⟩ := by
  rw [pop, hframes]

end Site

/-- The block `b` and the blocks behind the frames each continue as the next frame says. -/
def Continues (g : Graph) : BlockId → List Frame → Prop
  | b, [] => ∀ e, g.next e b = none
  | b, f :: fs => (∀ e, g.next e b = f.exit e) ∧ Continues g f.target fs

theorem Continues.congr {g g' : Graph} {b : BlockId} {fs : List Frame}
    (h : ∀ c ∈ b :: fs.map Frame.target, ∀ e, g'.next e c = g.next e c)
    (hc : Continues g b fs) : Continues g' b fs := by
  induction fs generalizing b with
  | nil =>
    intro e
    rw [h b (by simp) e]
    exact hc e
  | cons f fs ih =>
    refine ⟨fun e => ?_, ih (fun c hc' => h c (List.mem_cons_of_mem _ hc')) hc.2⟩
    rw [h b (by simp) e]
    exact hc.1 e

theorem Continues.of_next_eq {g g' : Graph} {b b' : BlockId} {fs : List Frame}
    (hb : ∀ e, g'.next e b' = g.next e b)
    (h : ∀ c ∈ fs.map Frame.target, ∀ e, g'.next e c = g.next e c)
    (hc : Continues g b fs) : Continues g' b' fs := by
  cases fs with
  | nil =>
    intro e
    rw [hb e]
    exact hc e
  | cons f fs =>
    refine ⟨fun e => ?_, hc.2.congr h⟩
    rw [hb e]
    exact hc.1 e

/-- **The layout invariant**: how the links and roles of `g` fit the site. -/
structure Layout (g : Graph) (w : Site) : Prop where
  linked : g.Linked
  nodup : w.order.Nodup
  mem_order : ∀ b, b ∈ w.order ↔ b < g.blocks.size
  /-- Control falls forward. -/
  fall_forward : ∀ a b, g.next .fall a = some b → [a, b].Sublist w.order
  /-- Control branches forward, or back to a loop header. -/
  branch_forward : ∀ a b, g.next .branch a = some b → g.hasRole b .loopHead = false →
    [a, b].Sublist w.order
  continues : Continues g w.tail w.frames
  framed : ∀ f ∈ w.frames, f.Framed g
  behind : ∀ f ∈ w.frames, ∀ b ∈ f.behind, b ∈ w.passed
  /-- What an outer construct has behind it comes before the inner construct. -/
  nested : w.frames.Pairwise fun inner outer => ∀ b ∈ outer.behind, [b, inner.test].Sublist w.order
  /-- A loop header is entered by fallthrough. -/
  headed : ∀ b, g.hasRole b .loopHead = true → g.hasRole b .elseSide = false ∧
    g.hasRole b .loopExit = false ∧ g.hasRole b .join = false
  /-- The blocks that cannot become loop headers have a branch into them. -/
  branched : ∀ b, g.hasRole b .elseSide = true ∨ g.hasRole b .loopExit = true ∨
    g.hasRole b .join = true → g.prev .branch b ≠ none
  /-- No if is opened at a block that construction has not come to. -/
  untested : ∀ b ∈ w.tail :: w.targets, g.hasRole b .ifHead = false

namespace Layout

variable {g g' : Graph} {w : Site}

theorem of_sameSkeleton (h : Graph.SameSkeleton g g') (l : Layout g w) : Layout g' w where
  linked := l.linked.of_sameSkeleton h
  nodup := l.nodup
  mem_order b := by rw [l.mem_order, h.lt_size_iff]
  fall_forward a b hab := l.fall_forward a b (by rw [← h.next_eq]; exact hab)
  branch_forward a b hab hr :=
    l.branch_forward a b (by rw [← h.next_eq]; exact hab) (by rw [← h.hasRole_eq]; exact hr)
  continues := l.continues.congr fun c _ e => h.next_eq e c
  framed f hf := by
    simp only [Frame.Framed, h.next_eq, h.hasRole_eq, h.originOf_eq]
    exact l.framed f hf
  behind := l.behind
  nested := l.nested
  headed b hb := by
    simp only [h.hasRole_eq] at hb ⊢
    exact l.headed b hb
  branched b hb := by
    simp only [h.hasRole_eq, h.prev_eq] at hb ⊢
    exact l.branched b hb
  untested b hb := by
    rw [h.hasRole_eq]
    exact l.untested b hb

theorem tail_mem (_ : Layout g w) : w.tail ∈ w.order := by simp [Site.order]

theorem tail_lt (l : Layout g w) : w.tail < g.blocks.size := (l.mem_order _).1 l.tail_mem

theorem passed_lt (l : Layout g w) {b : BlockId} (h : b ∈ w.passed) : b < g.blocks.size :=
  (l.mem_order b).1 (List.mem_append_left _ h)

theorem target_lt (l : Layout g w) {b : BlockId} (h : b ∈ w.targets) : b < g.blocks.size :=
  (l.mem_order b).1 (List.mem_append_right _ (List.mem_cons_of_mem _ h))

theorem tail_not_passed (l : Layout g w) : w.tail ∉ w.passed := fun h =>
  (List.nodup_append.1 l.nodup).2.2 _ h w.tail (by simp) rfl

theorem tail_not_target (l : Layout g w) : w.tail ∉ w.targets := by
  have h := (List.nodup_append.1 l.nodup).2.1
  exact (List.nodup_cons.1 h).1

theorem passed_not_target (l : Layout g w) {b : BlockId} (h : b ∈ w.passed) : b ∉ w.targets :=
  fun h' => (List.nodup_append.1 l.nodup).2.2 _ h b (List.mem_cons_of_mem _ h') rfl

theorem ne_of_sublist (l : Layout g w) {a b : BlockId} (h : [a, b].Sublist w.order) : a ≠ b := by
  have := l.nodup.sublist h
  simpa using this

/-- The branch of an if whose then side is being built still leads to its join. -/
theorem framed_thenSide (l : Layout g w) {f : Frame} (hf : f ∈ w.frames)
    (hpart : f.part = .thenSide) : g.hasRole f.test .ifHead = true ∧
      g.next .branch f.test = some f.target ∧ g.originOf f.target = some f.test ∧
      g.hasRole f.target .join = true := by
  have hframed := l.framed f hf
  simpa only [Frame.Framed, hpart] using hframed

/-- While the else side is being built, the end of the then side branches to the join. -/
theorem framed_elseSide (l : Layout g w) {f : Frame} (hf : f ∈ w.frames) {tt : BlockId}
    (hpart : f.part = .elseSide tt) : (g.next .branch f.test).isSome = true ∧
      g.next .branch tt = some f.target ∧ g.next .fall tt = none ∧
      g.hasRole tt .ifHead = false ∧ g.originOf f.target = some f.test ∧
      g.hasRole f.target .join = true := by
  have hframed := l.framed f hf
  simpa only [Frame.Framed, hpart] using hframed

theorem framed_loopBody (l : Layout g w) {f : Frame} (hf : f ∈ w.frames)
    (hpart : f.part = .loopBody) :
    g.hasRole f.test .loopHead = true ∧ g.next .branch f.test = some f.target := by
  have hframed := l.framed f hf
  simpa only [Frame.Framed, hpart] using hframed

/-- The join of an if remembers it. -/
theorem framed_join (l : Layout g w) {f : Frame} (hf : f ∈ w.frames) (hpart : f.part ≠ .loopBody) :
    g.originOf f.target = some f.test ∧ g.hasRole f.target .join = true := by
  cases hp : f.part with
  | thenSide => exact (l.framed_thenSide hf hp).2.2
  | elseSide tt => exact (l.framed_elseSide hf hp).2.2.2.2
  | loopBody => exact absurd hp hpart

/-- The test of an open construct has a branch edge. -/
theorem branch_test (l : Layout g w) {f : Frame} (hf : f ∈ w.frames) :
    (g.next .branch f.test).isSome = true := by
  cases hp : f.part with
  | thenSide => simp [(l.framed_thenSide hf hp).2.1]
  | elseSide tt => exact (l.framed_elseSide hf hp).1
  | loopBody => simp [(l.framed_loopBody hf hp).2]

theorem test_mem_behind (f : Frame) : f.test ∈ f.behind := by
  simp only [Frame.behind]
  split <;> simp

/-- The way on from the tail. -/
theorem next_tail (l : Layout g w) (e : Edge) :
    g.next e w.tail = (w.frames.head?).bind (·.exit e) := by
  have h := l.continues
  cases hf : w.frames with
  | nil =>
    rw [hf] at h
    exact h e
  | cons f fs =>
    rw [hf] at h
    exact h.1 e

theorem next_tail_of_cons (l : Layout g w) {f : Frame} {fs : List Frame}
    (hframes : w.frames = f :: fs) (e : Edge) : g.next e w.tail = f.exit e := by
  rw [l.next_tail, hframes]
  rfl

/-- The end of a side of an if falls through into the join. -/
theorem next_tail_if (l : Layout g w) {f : Frame} {fs : List Frame}
    (hframes : w.frames = f :: fs) (hpart : f.part ≠ .loopBody) :
    g.next .fall w.tail = some f.target ∧ g.next .branch w.tail = none := by
  rw [l.next_tail_of_cons hframes, l.next_tail_of_cons hframes]
  cases hp : f.part with
  | loopBody => exact absurd hp hpart
  | _ => simp [Frame.exit, hp]

/-- The end of a loop body branches back to the header. -/
theorem next_tail_loopBody (l : Layout g w) {f : Frame} {fs : List Frame}
    (hframes : w.frames = f :: fs) (hpart : f.part = .loopBody) :
    g.next .fall w.tail = none ∧ g.next .branch w.tail = some f.test := by
  simp [l.next_tail_of_cons hframes, Frame.exit, hpart]

/-- Control that falls off the tail comes to the block behind a frame. -/
theorem fall_tail_mem (l : Layout g w) {b : BlockId} (h : g.next .fall w.tail = some b) :
    b ∈ w.targets := by
  rw [l.next_tail, Site.targets] at *
  cases hf : w.frames with
  | nil => simp [hf] at h
  | cons f fs =>
    rw [hf] at h
    simp only [List.head?_cons, Option.bind_some, Frame.exit] at h
    split at h <;> simp_all

/-- A branch at the tail goes back to the header of the innermost loop. -/
theorem branch_tail (l : Layout g w) {b : BlockId} (h : g.next .branch w.tail = some b) :
    b ∈ w.passed ∧ g.hasRole b .loopHead = true := by
  rw [l.next_tail] at h
  cases hf : w.frames with
  | nil => simp [hf] at h
  | cons f fs =>
    rw [hf] at h
    have hmem : f ∈ w.frames := by simp [hf]
    have hframed := l.framed f hmem
    have hbehind := l.behind f hmem
    simp only [List.head?_cons, Option.bind_some, Frame.exit] at h
    split at h <;> simp_all [Frame.Framed, Frame.behind]

theorem plainExit (l : Layout g w) : g.PlainExit w.tail := by
  intro h hh
  refine ⟨(l.branch_tail hh).2, ?_⟩
  rw [l.next_tail] at hh ⊢
  cases hf : w.frames with
  | nil => rfl
  | cons f fs =>
    rw [hf] at hh
    simp only [List.head?_cons, Option.bind_some, Frame.exit] at hh ⊢
    split at hh <;> simp_all

theorem branch_tail_ne (l : Layout g w) : g.next .branch w.tail ≠ some w.tail := fun h =>
  l.tail_not_passed (l.branch_tail h).1

/-! ## Regions -/

/-- What the edges of a block tell about the construct around it, if the block continues as the
frames say. -/
theorem region_of_continues {g : Graph} {b : BlockId} {fs : List Frame} (hg : g.Linked)
    (hc : Continues g b fs) (hframed : ∀ f ∈ fs, f.Framed g) {blk : Block}
    (hblk : g.block? b = some blk) :
    g.region blk = (fs.head?.map Frame.region).getD .outermost := by
  have hfall : blk.fallTo = g.next .fall b := Graph.fallTo_eq hblk
  have hbranch : blk.branchTo = g.next .branch b := by
    rw [Graph.next, hblk]
    rfl
  cases fs with
  | nil =>
    have hj : g.joinAhead? blk = none := by
      rw [Graph.joinAhead?, hfall, hc .fall]
      rfl
    have hb : g.backEdge? blk = none := by
      rw [Graph.backEdge?, hbranch, hc .branch]
      rfl
    rw [Graph.region, hj, hb]
    rfl
  | cons f fs =>
    have hf := hframed f (by simp)
    have hexit := hc.1
    simp only [List.head?_cons, Option.map_some, Option.getD_some, Frame.region]
    cases hp : f.part with
    | thenSide =>
      simp only [Frame.Framed, hp] at hf
      simp only [Frame.exit, hp] at hexit
      have hj : g.joinAhead? blk = some f.target := by
        rw [Graph.joinAhead?, hfall, hexit .fall]
        exact if_pos hf.2.2.2
      have hprev := (hg .branch _ _).1 hf.2.1
      have hif : g.branchedFromIf f.target = true := by
        rw [Graph.branchedFromIf]
        change ((g.prev .branch f.target).any (g.hasRole · .ifHead)) = true
        rw [hprev]
        exact hf.1
      simp only [Graph.region, hj, hif, if_true]
    | elseSide tt =>
      simp only [Frame.Framed, hp] at hf
      simp only [Frame.exit, hp] at hexit
      have hj : g.joinAhead? blk = some f.target := by
        rw [Graph.joinAhead?, hfall, hexit .fall]
        exact if_pos hf.2.2.2.2.2
      have hprev := (hg .branch _ _).1 hf.2.1
      have hif : g.branchedFromIf f.target = false := by
        rw [Graph.branchedFromIf]
        change ((g.prev .branch f.target).any (g.hasRole · .ifHead)) = false
        rw [hprev]
        exact hf.2.2.2.1
      simp [Graph.region, hj, hif]
    | loopBody =>
      simp only [Frame.Framed, hp] at hf
      simp only [Frame.exit, hp] at hexit
      have hj : g.joinAhead? blk = none := by
        rw [Graph.joinAhead?, hfall, hexit .fall]
        rfl
      have hb : g.backEdge? blk = some f.test := by
        rw [Graph.backEdge?, hbranch, hexit .branch]
        exact if_pos hf.1
      simp only [Graph.region, hj, hb]

/-- **The innermost frame is what the edges of the tail tell.** -/
theorem region_tail (l : Layout g w) {blk : Block} (hblk : g.block? w.tail = some blk) :
    g.region blk = w.region :=
  region_of_continues l.linked l.continues l.framed hblk

/-! ## Leaving a construct -/

/-- The order is the same when the innermost construct is left. -/
theorem order_pop (w : Site) : w.pop.order = w.order := by
  rw [Site.pop]
  split
  · rename_i f fs hf
    simp [Site.order, Site.targets, hf]
  · rfl

theorem pop (l : Layout g w) : Layout g w.pop := by
  cases hf : w.frames with
  | nil =>
    have : w.pop = w := by rw [Site.pop, hf]
    rw [this]
    exact l
  | cons f fs =>
    have hpop : w.pop = ⟨w.passed ++ [w.tail], f.target, fs⟩ := by rw [Site.pop, hf]
    have hsub : ∀ f' ∈ fs, f' ∈ w.frames := fun f' h => by simp [hf, h]
    refine { l with
      nodup := by rw [order_pop]; exact l.nodup
      mem_order := fun b => by rw [order_pop]; exact l.mem_order b
      fall_forward := fun a b h => by rw [order_pop]; exact l.fall_forward a b h
      branch_forward := fun a b h hr => by rw [order_pop]; exact l.branch_forward a b h hr
      continues := ?_
      framed := ?_
      behind := ?_
      nested := ?_
      untested := ?_ }
    · rw [hpop]
      have := l.continues
      rw [hf] at this
      exact this.2
    · rw [hpop]
      exact fun f' h => l.framed f' (hsub f' h)
    · rw [hpop]
      exact fun f' h b hb => List.mem_append_left _ (l.behind f' (hsub f' h) b hb)
    · have hnested := l.nested
      rw [order_pop, hpop]
      rw [hf] at hnested
      exact (List.pairwise_cons.1 hnested).2
    · rw [hpop]
      intro b hb
      refine l.untested b (List.mem_cons_of_mem _ ?_)
      rw [Site.targets, hf]
      exact hb

end Layout
end StructuredSSA
