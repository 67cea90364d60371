import StructuredSSA.Proofs.Exec.Ifs

/-!
# Executing loops

Control comes to the header of a loop, goes through the body and back to the header as long as the
test holds, and leaves the loop.  What becomes of a variable at the header is the same in every
round: either its phi, or what it was before the loop.

The rounds are an induction of their own, on the fuel of the source program, and it is the only one
over executions; everything else is by induction on the statement.  The invariant is that control is
on one of the two edges into the header and that the variables have what this edge brings
(`AtHeader`).  It does not matter which edge: the phis choose by the edge, and behind them the first
round and all others look the same.

## What is here

* `Rounds`, `Rounds.run` — one round of a loop, and all of them.
* `Course.comes_to_header` — control comes to the header, which may be the block that construction
  was in already.
* `Course.tests_loop` — the phis and the test are executed.
* `Closing.jumps_back`, `Closing.leaves_loop` — control goes back, or behind the loop.
* `Stmt.simulates_loop` — loops.
* `Stmt.simulates` — all statements.

Only executions that come to an end are followed.  A program that goes on forever is not compared
with its graph.
-/

set_option autoImplicit false

namespace StructuredSSA

/-! ## Rounds -/

/-- What one round of a loop does, and the end of it: `P` holds in the header and `Q` behind the
loop. -/
structure Rounds (g : Graph) (input : Nat → Int64) (xs : List Var) (cond : Test) (s : Stmt)
    (P Q : Store → Point × Machine → Prop) : Prop where
  round : ∀ {fuel st st₁ st₂ q}, P st q → g.UpToDate q → st.Defines xs →
    cond.eval input st = some (true, st₁) → s.run input fuel st₁ = some st₂ →
    ∃ q₂, g.Goes input q q₂ ∧ P st₂ q₂
  leave : ∀ {st st₁ q}, P st q → g.UpToDate q → st.Defines xs →
    cond.eval input st = some (false, st₁) → ∃ q', g.Goes input q q' ∧ Q st₁ q'

/-- **A loop is executed round by round.** -/
theorem Rounds.run {g : Graph} {input : Nat → Int64} {xs : List Var} {cond : Test} {s : Stmt}
    {P Q : Store → Point × Machine → Prop} (h : Rounds g input xs cond s P Q) (hproper : g.Proper)
    {fuel : Nat} {st st' : Store} {q : Point × Machine} (hP : P st q) (hq : g.UpToDate q)
    (hst : st.Defines xs)
    (hrun : (Stmt.loop cond s).run input fuel st = some st') :
    ∃ q', g.Goes input q q' ∧ Q st' q' := by
  induction fuel generalizing st q with
  | zero => cases hrun
  | succ fuel ih =>
    obtain ⟨⟨holds, st₁⟩, heval, hrun⟩ := Option.bind_eq_some_iff.1 hrun
    cases holds with
    | true =>
      obtain ⟨st₂, hbody, hrest⟩ := Option.bind_eq_some_iff.1 hrun
      obtain ⟨q₂, hgoes, hP₂⟩ := h.round hP hq hst heval hbody
      have hst₂ := Stmt.defines_run hbody (hst.of_values_eq (Test.values_eq_of_eval heval))
      obtain ⟨q', hgoes', hQ⟩ := ih hP₂ (hproper.goes hq hgoes) hst₂ hrest
      exact ⟨q', hgoes.trans hgoes', hQ⟩
    | false =>
      cases hrun
      exact h.leave hP hq hst heval

/-- Control is about to come to the header of the loop `f` along one of the edges into it, and the
variables have what this edge brings. -/
inductive AtHeader (U : Body) (w : Site) (f : Frame) (u : Body) (st : Store) :
    Point × Machine → Prop where
  | intro {blk : Block} {e : Edge} {side : Side} {m : Machine}
      (hblk : U.graph.block? f.phiBlock = some blk)
      (hside : Graph.arrivesFirst blk e = true ↔ side = .first)
      (hagrees : Agrees U.graph u.graph w.pop.loops
        (f.brings u.graph (u.graph.meaning w.tail) side) st m) :
      AtHeader U w f u st (.entering f.phiBlock e, m)

namespace Closing

variable {w wE : Site} {f : Frame} {u v U : Body}

/-- **Control goes back to the header** from the end of the body. -/
theorem jumps_back (c : Closing w f u v wE U) (hpart : f.part = .loopBody) (input : Nat → Int64)
    {u₁ : Body} {target : Option Target}
    (hreceives : u₁.graph.Receives w.tail (.branch .always target) u.graph)
    (hcurrent : u₁.current = w.tail) (hclear : ¬ u₁.graph.HasBranch w.tail)
    {st : Store} {q : Point × Machine} (ht : Tracks U.graph w u₁ st q) :
    U.graph.Goes input q (.entering f.test .branch, q.2) := by
  have hbranch : U.graph.HasBranch w.tail :=
    c.before.proceeds.hasBranch_mono ((hreceives.hasBranch_iff _).2 (.inr ⟨rfl, rfl⟩))
  have hplain : U.graph.plain w.tail = u₁.graph.plain w.tail ++ [u₁.graph.nextId] := by
    rw [c.plain_tail, hreceives.plain_eq rfl (.inr hclear), if_pos rfl]
  have hfall : U.graph.next .fall w.tail = none := by
    simp only [c.next_tail, Frame.exit, hpart]
  have hjump : U.graph.next .branch w.tail = some f.test := by
    simp only [c.next_tail, Frame.exit, hpart]
  obtain ⟨target', hop⟩ := c.before.op?_jump hbranch hfall hplain
  rw [← hcurrent] at hplain hjump
  refine ht.position.jumps ?_ ?_ hplain hop hjump q.2
  · rw [hcurrent]
    exact c.after.passed_lt c.tail_passed
  · rw [hcurrent]
    exact fun _ hnone => c.not_isPhi_tail fun x hx =>
      hnone x ((hreceives.samePhis rfl).hasPhi_iff.1 hx)

/-- **Control leaves the loop**, and the variables are what they were at the header. -/
theorem leaves_loop (c : Closing w f u v wE U) (hpart : f.part = .loopBody) (input : Nat → Int64)
    (hcurrent : v.current = f.target) (hnone : ∀ x, ¬ u.graph.HasPhi f.target x) {g : Graph}
    (hsame : Graph.SameRenewals w.pop.loops u.graph g) (hempty : ∀ x, ¬ g.HasPhi f.test x)
    {st : Store} {m : Machine} (hagrees : Agrees U.graph g w.loops f.before st m) :
    U.graph.next .branch f.test = some f.target ∧
      ∃ q, U.graph.Goes input (.entering f.target .branch, m) q ∧ Tracks U.graph w.pop v st q := by
  have l := c.before.orderly.built.layout
  have hframed := l.framed_loopBody c.mem_frames hpart
  have hclosed : w.pop.Closed f.target := by
    have := c.after.orderly.built.layout.closed_tail
    rwa [c.pop_tail] at this
  have hprev : v.graph.prev .branch f.target ≠ none := by
    rw [c.skeleton.prev_eq, (l.linked .branch _ _).1 hframed.2]
    exact Option.some_ne_none _
  have hfilled : Filled v.graph w.pop f.target := ⟨hclosed, fun _ => .inl hprev⟩
  have hisPhi := c.after.not_isPhi_of_filled hfilled fun x hx =>
    hnone x (c.hasPhi_of_closed hclosed hx)
  have hlt : f.target < U.graph.blocks.size :=
    (c.after.proceeds.filled hfilled).1.closed.lt_size c.after.finished.built.layout
  refine ⟨(c.next_test .branch).trans hframed.2, _,
    .single (Graph.moves_enter_of_not_isPhi hlt hisPhi m), ?_, ?_⟩
  · rw [← hcurrent]
    refine .inside ?_ fun _ => hcurrent ▸ .inl hprev
    rw [hcurrent, c.plain_target]
    rfl
  · refine hagrees.congr fun x => ?_
    rw [c.fate_tail, c.loops_eq hpart, Frame.fate_cons_selected hpart hsame (hempty x)]

end Closing

namespace Script.EntersLoop

variable {w w₁ : Site} {t t₀ t₁ : Script} {cond : Test} {head body exit : BlockId}

/-- The header is empty, and is not the body. -/
theorem head_empty (h : t.EntersLoop w cond head body exit w₁ t₀ t₁) (r : Ready w t.body) :
    t₀.body.graph.listed head = [] ∧ head ≠ body := by
  have hopens := h.opens
  refine ⟨?_, (hopens.distinct r.built.layout.tail_lt).1⟩
  rw [hopens.stock.listed_eq]
  rcases hopens.head_eq with ⟨hhead, -, hnil, -⟩ | ⟨hhead, -⟩
  · exact hhead ▸ hnil
  · exact Graph.listed_eq_nil_of_size_le (Nat.le_of_eq hhead.symm)

/-- The header has no phis yet. -/
theorem not_hasPhi_head (h : t.EntersLoop w cond head body exit w₁ t₀ t₁) (r : Ready w t.body)
    (x : Var) : ¬ t.body.graph.HasPhi head x := fun hx =>
  Graph.not_hasPhi_of_listed_nil (h.head_empty r).1 (h.opens.stock.samePhis.hasPhi_iff.2 hx)

theorem tail_eq (h : t.EntersLoop w cond head body exit w₁ t₀ t₁) : w₁.tail = body := by
  rw [h.site_eq]
  rfl

/-- Control is about to come into a tail that becomes a header: it could not be one otherwise. -/
theorem at_header (h : t.EntersLoop w cond head body exit w₁ t₀ t₁) (r : Ready w t.body)
    (hhead : head = w.tail) {g : Graph} {p : Point} (hat : t.body.At w g p) :
    p = .entering head .fall := by
  have hempty : t.body.graph.listed w.tail = [] ∧ t.body.graph.prev .branch w.tail = none := by
    rcases h.opens.head_eq with ⟨-, -, hempty⟩ | ⟨hfresh, -⟩
    · exact hempty
    · exact absurd (hfresh.symm.trans hhead) r.built.layout.tail_lt.ne'
  cases hat with
  | inside hrest hoccupied =>
    have hplain : t.body.graph.plain w.tail = [] := by
      rw [Graph.plain, hempty.1]
      rfl
    rw [r.current_eq] at hoccupied
    rcases hoccupied rfl with hprev | hne
    · exact absurd hempty.2 hprev
    · exact absurd hplain hne
  | entering => rw [hhead, r.current_eq]

/-- No statement in a loop brings a phi to its exit. -/
theorem not_hasPhi_exit (h : t.EntersLoop w cond head body exit w₁ t₀ t₁)
    {xs : List Var} {w₂ : Site}
    {t₂ : Script} (hstays : (t₁.moveTo body).Stays w₁ xs w₂ t₂) (x : Var) :
    ¬ t₂.body.graph.HasPhi exit x := by
  intro hx
  have hopened := h.opens_frame
  have l := h.ready.built.layout
  have htarget : exit ∈ w₁.targets := List.mem_map_of_mem hopened.mem_frames
  rcases (hstays.phis _ (List.mem_append_right _ htarget) x).1 hx with hx | ⟨hblock, -⟩
  · exact Graph.not_hasPhi_of_listed_nil (Graph.listed_eq_nil_of_size_le h.opens.size_le_exit)
      (h.phis.hasPhi_iff.1 hx)
  · rw [hopened.phiBlock?_eq] at hblock
    have heq : head = exit := Option.some.inj hblock
    have hpassed := l.behind _ hopened.mem_frames head (Layout.test_mem_behind _)
    exact l.passed_not_target (heq ▸ hpassed) htarget

end Script.EntersLoop

namespace Course

variable {options : Options} {w w₁ w₂ wE : Site}
  {t t₀ t₁ t₂ t' tE : Script} {U : Body} {input : Nat → Int64} {xs : List Var} {cond : Test}
  {head body exit : BlockId}

/-- Control falls through from the header to the body. -/
theorem falls_to_body (c : Course options wE tE U)
    (henter : t.EntersLoop w cond head body exit w₁ t₀ t₁) (hpasses : t₀.Passes options w₁ wE tE) :
    U.graph.next .fall head = some w₁.tail := by
  have hpassed := henter.ready.built.layout.behind _ henter.opens_frame.mem_frames head
    (Layout.test_mem_behind _)
  rw [((c.leads hpasses).proceeds.steady ⟨hpassed, fun he => by cases he⟩).2, henter.tail_eq]
  exact henter.opens.fall_head

/-- Control falls through from the tail to a new header. -/
theorem falls_to_header (c : Course options wE tE U) (r : Ready w t.body)
    (hreached : t.Reached options w) (henter : t.EntersLoop w cond head body exit w₁ t₀ t₁)
    (hpasses : t₀.Passes options w₁ wE tE) (hhead : head ≠ w.tail) {st : Store}
    {q : Point × Machine} (ht : Tracks U.graph w t.body st q) :
    U.graph.Goes input q (.entering head .fall, q.2) := by
  have hopens := henter.opens
  have h₀ := c.leads hpasses
  have l := r.built.layout
  have hsite := henter.site_eq
  rw [Site.openLoop, if_neg hhead] at hsite
  have hpassed : w.tail ∈ w₁.passed := by simp [hsite, Site.push]
  have hframes : ∀ f ∈ w₁.frames, f.test ≠ w.tail ∧ f.part ≠ .elseSide w.tail := fun f hf => by
    rw [hsite] at hf
    rcases List.mem_cons.1 hf with rfl | hf
    · exact ⟨hhead, Part.noConfusion⟩
    · exact ⟨l.test_ne_tail hf, l.elseSide_ne_tail hf⟩
  have hclosed : w.Closed w.tail → w₁.Closed w.tail := fun hclosed => by
    refine hclosed.of_passed [w.tail, head] (by rw [hsite]; rfl) (by simp) fun f hf => ?_
    rw [hsite] at hf
    rcases List.mem_cons.1 hf with rfl | hf
    · rw [Frame.phiBlock_eq_test rfl]
      exact hhead
    · exact hclosed.closed f hf
  have hplain : U.graph.plain w.tail = t.body.graph.plain w.tail := by
    have hne := (Orderly.run hreached).numbered.tail_ne_head l
    rw [h₀.plain_eq ⟨hpassed, hne, fun f hf heq => absurd heq (hframes f hf).1⟩
      (.inr fun f hf => (hframes f hf).2), hopens.stock.plain_eq]
  have hnext : U.graph.next .fall w.tail = some head := by
    rw [(h₀.proceeds.steady ⟨hpassed, fun he => by cases he⟩).2]
    exact hopens.fall_start hhead.symm
  rw [← r.current_eq] at hplain hnext
  refine ht.position.falls ?_ ?_ hplain hnext q.2
  · rw [r.current_eq]
    exact h₀.passed_lt hpassed
  · rw [r.current_eq]
    exact fun hcl hnone => h₀.not_isPhi_of_passed hpassed (hclosed hcl) fun x hx =>
      hnone x (hopens.stock.samePhis.hasPhi_iff.1 hx)

/-- **Control comes to the header** of a loop. -/
theorem comes_to_header (c : Course options wE tE U) (r : Ready w t.body)
    (hreached : t.Reached options w) (input : Nat → Int64)
    (henter : t.EntersLoop w cond head body exit w₁ t₀ t₁) (hpasses : t₀.Passes options w₁ wE tE)
    {st : Store} {q : Point × Machine} (ht : Tracks U.graph w t.body st q) :
    U.graph.Goes input q (.entering head .fall, q.2) := by
  by_cases hhead : head = w.tail
  · obtain ⟨p, m⟩ := q
    obtain rfl : p = .entering head .fall := henter.at_header r hhead ht.position
    exact .refl
  · exact c.falls_to_header r hreached henter hpasses hhead ht

/-- **Control is at the test** when it has come through the header. -/
theorem tracks_header (c : Course options wE tE U) (r : Ready w t.body)
    (henter : t.EntersLoop w cond head body exit w₁ t₀ t₁) (hpasses : t₀.Passes options w₁ wE tE)
    {st : Store} {m : Machine}
    (hagrees : Agrees U.graph t₀.body.graph w₁.loops (t.body.graph.meaning w.tail) st m) :
    Tracks U.graph w₁ t₀.body st (.inside head (U.graph.plain head), m) := by
  obtain ⟨hempty, hne⟩ := henter.head_empty r
  have hsite := henter.site_eq
  have hplain : t₀.body.graph.plain head = [] := by
    rw [Graph.plain, hempty]
    rfl
  refine ⟨?_, ?_⟩
  · rw [← henter.current_eq]
    refine .inside ?_ fun htail => ?_
    · rw [henter.current_eq, hplain]
      rfl
    · rw [henter.current_eq, hsite] at htail
      exact absurd htail hne
  · have hbefore : t₀.body.graph.meaning w₁.tail = t.body.graph.meaning w.tail :=
      (c.leads hpasses).meaning_before (f := ⟨.loopBody, head, exit, _, t.body.graph.nextId⟩)
        (by rw [hsite]; rfl) fun x => Graph.not_hasPhi_of_listed_nil hempty
    rw [hbefore]
    exact hagrees

/-- **The test of a loop** is executed in the header. -/
theorem tests_loop (c : Course options wE tE U) (r : Ready w t.body)
    (hreached : t.Reached options w)
    (henter : t.EntersLoop w cond head body exit w₁ t₀ t₁) {f : Frame}
    (hopened : t.Opens w f [] w₁ (t₁.moveTo body)) (hpart : f.part = .loopBody)
    (htest : f.test = head) (hpasses : (t₁.moveTo body).Passes options w₁ wE tE) {u v : Body}
    (hclosing : Closing w₂ f u v wE U) (hloops : w₂.pop.loops = w.loops)
    (hsame : Graph.SameRenewals w.loops u.graph t.body.graph) {st st' : Store} {holds : Bool}
    {q : Point × Machine} (h : AtHeader U w₂ f u st q) (hq : U.graph.UpToDate q)
    (hdefined : ∀ x, u.graph.HasPhi f.phiBlock x → (st.values x).isSome = true)
    (heval : cond.eval input st = some (holds, st')) :
    ∃ m', Agrees U.graph t.body.graph w₁.loops f.before st' m' ∧ st'.values = st.values ∧
      ∀ d, U.graph.next (Test.edge holds) f.test = some d →
        U.graph.Goes input q (.entering d (Test.edge holds), m') := by
  obtain ⟨hblk, hside, hagrees⟩ := h
  have hreached₀ := hreached.advance henter.begins
  have hreached₁ := hreached₀.advance henter.tests
  have hpasses₁ := hpasses.back hreached₁ henter.moves
  have hpasses₀ := hpasses₁.back hreached₀ henter.tests
  have hloop := Site.loops_cons hopened.frames_eq hpart
  obtain ⟨m₁, hgoes, hbehind⟩ := hclosing.enters input hblk hside hagrees
    fun x hx => hdefined x (hx.imp fun i hi => hclosing.phiOf_iff.1 hi)
  have hagrees₁ : Agrees U.graph t.body.graph w₁.loops (t.body.graph.meaning w.tail) st m₁ := by
    rw [← hopened.before_eq, hloop]
    refine hbehind _ _ _ fun x => ?_
    rw [Frame.fate_cons_selected hpart hsame (htest ▸ henter.not_hasPhi_head r x), hloops]
  have hclear : ¬ t₀.body.graph.HasBranch f.test := htest ▸ henter.clear
  have hheader : f.phiBlock = head := (Frame.phiBlock_eq_test hpart).trans htest
  rw [hheader] at hq hgoes ⊢
  obtain ⟨m', hagrees', hvalues, hgoes'⟩ := c.tests henter.lower_eq hopened.frames_eq
    (henter.current_eq.trans htest.symm) hclear hreached₀ hpasses₁
    (c.tracks_header r henter hpasses₀ (hagrees₁.since (.of_samePhis henter.opens.stock.samePhis)))
    (c.proper.goes hq hgoes) heval
  have hbefore : t₁.body.graph.meaning w₁.tail = f.before := (c.meaning_opened hopened hpasses :)
  rw [hbefore] at hagrees'
  exact ⟨m', hagrees'.since (Graph.SameRenewals.of_samePhis henter.phis).symm, hvalues,
    fun d hd => hgoes.trans (hgoes' d hd)⟩

end Course

/-! ## Loops -/

namespace Stmt

variable {options : Options} {input : Nat → Int64} {xs : List Var}

theorem simulates_loop (cond : Test) {s : Stmt}
    (hs : s.Simulates options input xs) (hwithin : s.assigned ⊆ xs) :
    (loop cond s).Simulates options input xs := by
  intro w t r hreached
  obtain ⟨head, body, exit, w₁, t₀, t₁, henter⟩ := Script.exists_enterLoop r cond
  have hopened := henter.opens_frame
  set f : Frame := ⟨.loopBody, head, exit, t.body.graph.meaning w.tail, t.body.graph.nextId⟩
    with hf
  have hreached₁ := hreached.advance hopened.advances
  obtain ⟨w₂, t₂, hlower, hstays, hfollows⟩ := hs hopened.ready hreached₁
  have hopened₂ := hopened.stays hstays
  have hreached₂ := hreached.advance hopened₂.advances
  obtain ⟨tq, u, t', target, hleave, hleaves, hreceives⟩ :=
    Script.exists_leaveLoop hopened₂.ready hopened₂.frames_eq rfl
  have hencloses := hopened₂.encloses_loop hleaves hreceives
  refine ⟨w₂.pop, t', ?_, hencloses.stays,
    fun wE tE U c hpasses region htimely fuel st st' q hq hst ht hrun => ?_⟩
  · simp only [lower, henter.enter_eq, hlower, bind, Except.bind]
    exact hleave
  have hreachedq := hreached₂.advance hleaves.before
  have hpasses₂ := (hpasses.back hreachedq hleaves.after).back hreached₂ hleaves.before
  have hpasses₁ := hpasses₂.back hreached₁ hstays.advances
  have hreached₀ := hreached.advance henter.begins
  have hpasses₀ := (hpasses₁.back (hreached₀.advance henter.tests) henter.moves).back hreached₀
    henter.tests
  have hclosing := c.closing hleaves hopened₂.frames_eq hreachedq hpasses
  have hloops : w₂.pop.loops = w.loops :=
    Site.loops_congr (by rw [Site.pop_eq hopened₂.frames_eq])
  have hphis := hreceives.samePhis rfl
  have hsame : Graph.SameRenewals w.loops tq.body.graph t.body.graph :=
    ((hopened₂.sameRenewals r).trans (.of_samePhis hphis)).symm
  have hassigned : ∀ x, tq.body.graph.HasPhi f.phiBlock x → x ∈ s.assigned := fun x hx =>
    hopened₂.mem_of_hasPhi hphis hx
  have hdefined : ∀ x, tq.body.graph.HasPhi f.phiBlock x → x ∈ xs := fun x hx =>
    hwithin (hassigned x hx)
  have htimely₁ : s.Timely U.graph w₁.loops (.loopBody head) (t₁.moveTo body) := by
    rw [Site.loops_cons hopened.frames_eq rfl]
    exact htimely.loop (f := f) henter.enter_eq r.valueOf_eq fun x hx =>
      hassigned x (hx.imp fun i hi => hclosing.phiOf_iff.1 hi)
  have hnone : ∀ x, ¬ tq.body.graph.HasPhi f.target x := fun x hx =>
    henter.not_hasPhi_exit hstays x (hphis.hasPhi_iff.1 hx)
  have hfall := c.falls_to_body henter hpasses₀
  have hbefore := c.meaning_opened hopened hpasses₁
  have hmeaning : tq.body.graph.meaning w₂.tail = t₂.body.graph.meaning w₂.tail :=
    (c.leads hpasses₂).meaning_tail hreceives.skeleton hreceives.binding_eq
  obtain ⟨blk, hblk⟩ := Graph.exists_block hclosing.target_lt
  have hrounds : Rounds U.graph input xs cond s (AtHeader U w₂ f tq.body)
      (Tracks U.graph w₂.pop t'.body) := by
    constructor
    case round =>
      intro fuel st st₁ st₂ q h hq hst heval hrun
      obtain ⟨m', hagrees, hvalues, hgoes⟩ :=
        c.tests_loop r hreached henter hopened rfl rfl hpasses₁
        hclosing hloops hsame h hq (fun x hx => hst x (hdefined x hx)) heval
      rw [← hbefore] at hagrees
      have hat := hopened.ready.at_entering (henter.tail_eq ▸ henter.empty) U.graph
      obtain ⟨q₂, hgoes₂, ht₂⟩ := hfollows c hpasses₂ _ htimely₁ fuel st₁ st₂
        (.entering w₁.tail .fall, m') (c.proper.goes hq (hgoes _ hfall)) (hst.of_values_eq hvalues)
        ⟨hat, hagrees.since (.of_samePhis henter.phis)⟩ hrun
      have hback := hclosing.jumps_back rfl input hreceives hopened₂.ready.current_eq
        hopened₂.ready.clear ht₂
      refine ⟨_, ((hgoes _ hfall).trans hgoes₂).trans hback, ?_⟩
      have hagrees₂ := ht₂.agrees.since (.of_samePhis hphis)
      rw [← hmeaning] at hagrees₂
      exact .intro hblk (hclosing.arrives hblk) (hclosing.agrees_loop rfl hagrees₂)
    case leave =>
      intro st st₁ q h hq hst heval
      obtain ⟨m', hagrees, hvalues, hgoes⟩ :=
        c.tests_loop r hreached henter hopened rfl rfl hpasses₁
        hclosing hloops hsame h hq (fun x hx => hst x (hdefined x hx)) heval
      rw [← Site.loops_congr hstays.frames_eq] at hagrees
      obtain ⟨hnext, q', hgoes', ht'⟩ :=
        hclosing.leaves_loop rfl input hleaves.current_eq hnone (hloops ▸ hsame)
          (henter.not_hasPhi_head r) hagrees
      exact ⟨q', (hgoes _ hnext).trans hgoes', ht'⟩
  have hcomes := c.comes_to_header r hreached input henter hpasses₀ ht
  have hentry : AtHeader U w₂ f tq.body st (.entering head .fall, q.2) := by
    have harrives : Graph.arrivesFirst blk .fall = true ↔ Side.first = .first :=
      hclosing.arrives_other hblk Edge.noConfusion Side.noConfusion
    refine .intro hblk harrives ?_
    rw [hloops]
    exact ht.agrees.since hsame.symm
  obtain ⟨q', hgoes, ht'⟩ := hrounds.run c.proper hentry (c.proper.goes hq hcomes) hst hrun
  exact ⟨q', hcomes.trans hgoes, ht'⟩

/-! ## All statements -/

/-- **Control follows the execution of every statement** in which constructs assign only variables
that have values. -/
theorem simulates (input : Nat → Int64) (s : Stmt) {xs : List Var}
    (hs : s.AssignsWithin xs) : s.Simulates options input xs := by
  induction s generalizing xs with
  | skip => exact simulates_skip
  | seq s s' ih ih' => exact simulates_seq (ih hs.1) (ih' hs.2) hs.1
  | assign x e => exact simulates_assign x e
  | write e => exact simulates_write e
  | ifThen cond s ih => exact simulates_ifThen cond (ih (.of_subset hs)) hs
  | ifElse cond s s' ih ih' =>
    have hs : s.assigned ++ s'.assigned ⊆ xs := hs
    exact simulates_ifElse cond (ih (.of_subset (List.append_subset.1 hs).1))
      (ih' (.of_subset (List.append_subset.1 hs).2)) hs
  | loop cond s ih => exact simulates_loop cond (ih (.of_subset hs)) hs

end Stmt
end StructuredSSA
