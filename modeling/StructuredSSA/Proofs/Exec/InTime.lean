import StructuredSSA.Proofs.Exec.Exprs
import StructuredSSA.Proofs.Source.Renewed

/-!
# Checking that loops renew their variables in time

Whether loops renew their variables in time is a statement about the values that a construction
comes to, and cannot be read off a program.  This check can: `Stmt.inTime` is a Boolean function on
syntax.

It looks at each loop by itself and follows its body, with the variables that have been assigned on
the way; of these the loop has phis.  A number that is read or computed is a new instruction, or one
that has been computed in the loop already, so it is no value from before the loop.  A literal may
be one, and so may a variable.  Such an assignment is in time if the loop is the innermost construct
around it, since then the loop gets a phi of the variable at once, or if the variable has been
assigned before; and a variable that is copied must either have been assigned before or not be
assigned in the loop at all.

## What is here

* `Stmt.inTime` — the check.
* `Script.InLoop` — where construction stands in a loop, and what is known there.
* `Script.InLoop.reaches` — it is known wherever lowering the body of the loop comes to.
* `Stmt.renews_of_inTime` — in a program that passes the check, loops renew their variables in time.

The check is coarse where an assignment of a literal or of a variable stands in an if or in another
loop inside of the loop: it has to be preceded by an assignment outside of them.  A program that
fails the check may be all right.
-/

set_option autoImplicit false

namespace StructuredSSA

namespace Stmt

/-- The assignments in the statement are in time for a loop around it, in which the variables `as`
are assigned, and `xs` have been assigned already; `inner` tells whether the loop is the innermost
construct around the statement. -/
def inTimeFor (as : List Var) : List Var → Bool → Stmt → Bool
  | _, _, .skip | _, _, .write _ => true
  | xs, inner, .seq s t =>
    s.inTimeFor as xs inner && t.inTimeFor as (if inner then xs ++ s.assigned else xs) inner
  | _, _, .assign _ .read | _, _, .assign _ (.arith _ _ _) => true
  | xs, inner, .assign x (.lit _) => inner || decide (x ∈ xs)
  | xs, inner, .assign x (.var y) =>
    (inner || decide (x ∈ xs)) && (decide (y ∈ xs) || decide (y ∉ as))
  | xs, _, .ifThen _ s => s.inTimeFor as xs false
  | xs, _, .ifElse _ s t => s.inTimeFor as xs false && t.inTimeFor as xs false
  | xs, _, .loop _ s => s.inTimeFor as xs false

/-- The assignments in each loop are in time. -/
def inTime : Stmt → Bool
  | .skip | .assign _ _ | .write _ => true
  | .seq s t | .ifElse _ s t => s.inTime && t.inTime
  | .ifThen _ s => s.inTime
  | .loop _ s => s.inTimeFor s.assigned [] true && s.inTime

/-- A part of a statement that passes the check passes it. -/
theorem Reaches.inTime {r r' : Region} {t t' : Script} {s u : Stmt} (h : Reaches r t s r' t' u)
    (hcheck : s.inTime = true) : u.inTime = true := by
  induction h with
  | here => exact hcheck
  | first _ ih | thenSide _ _ ih => exact ih (Bool.and_eq_true_iff.1 hcheck).1
  | second _ _ ih | elseSide _ _ _ _ ih | loopBody _ _ ih =>
    exact ih (Bool.and_eq_true_iff.1 hcheck).2
  | thenOnly _ _ ih => exact ih hcheck

end Stmt

/-! ## New values -/

variable {options : Options} {w w' w₁ : Site} {t t' t₁ t₂ t₃ : Script}

/-- **A number that is read or computed is no older than any open loop.** -/
theorem Expr.start_le_of_lower {e : Expr} (hvar : ∀ y, e ≠ .var y) (hlit : ∀ v, e ≠ .lit v)
    {o : Operand} (r : Ready w t.body) (hreached : t.Reached options w)
    (hlower : e.lower t = .ok (o, t')) :
    ∃ i, o.value = some i ∧ ∀ f ∈ w.loops, f.start ≤ i := by
  cases e with
  | var y => exact absurd rfl (hvar y)
  | lit v => exact absurd rfl (hlit v)
  | read =>
    obtain ⟨t₁, hemit, -⟩ := Script.exists_emit_added r.built .read rfl rfl rfl r.accepts
      (by nofun) (by nofun) r.clear_current
    simp only [lower, hemit, bind, Except.bind, pure, Except.pure, Except.ok.injEq,
      Prod.mk.injEq] at hlower
    obtain ⟨rfl, rfl⟩ := hlower
    exact ⟨_, rfl, fun f hf =>
      (Orderly.run hreached).numbered.start_le f (Site.mem_loops.1 hf).1⟩
  | arith op a b =>
    obtain ⟨o₁, t₁, o₂, t₂, h⟩ := a.exists_pair b r.built r.accepts r.clear_current
    have hreached₂ := hreached.advance h.advances
    have hnumbered := (Orderly.run hreached₂).numbered
    obtain ⟨i, t₃, hemit, -, -, hcases⟩ := Script.exists_emit_cases h.built
      (.binary (.arith op) o₁ o₂) rfl rfl (h.adds.accepts r.accepts) h.obtains h.means
      (h.adds.clear r.clear_current)
    simp only [lower, h.left_eq, h.right_eq, hemit, bind, Except.bind, pure, Except.pure,
      Except.ok.injEq, Prod.mk.injEq] at hlower
    obtain ⟨rfl, rfl⟩ := hlower
    rcases hcases with ⟨-, hreuses⟩ | ⟨rfl, -⟩
    · exact ⟨i, rfl, (Looped.run hreached₂).start_le hnumbered hreuses.recent⟩
    · exact ⟨_, rfl, fun f hf => hnumbered.start_le f (Site.mem_loops.1 hf).1⟩

/-! ## Inside of a loop -/

/-- Construction stands in a loop with the header `head`, before which the variables had the values
`before`.  The loop has phis of `xs`, and of what is assigned next if it is the innermost
construct. -/
structure Script.InLoop (options : Options) (head : BlockId)
    (before : Var → Except Fault (Option InstrId)) (xs : List Var) (inner : Bool) (w : Site)
    (t : Script) : Prop where
  ready : Ready w t.body
  reached : t.Reached options w
  passed : head ∈ w.passed
  older : ∃ f ∈ w.loops, ∀ y i, before y = .ok (some i) → i < f.start
  renewed : ∀ x ∈ xs, t.body.graph.HasPhi head x
  innermost : inner = true → w.phiBlock? = some head

namespace Script.InLoop

variable {head : BlockId} {before : Var → Except Fault (Option InstrId)} {as xs ys : List Var}
  {inner : Bool} {f : Frame} {r r' : Region} {s u : Stmt} {x : Var} {e : Expr} {o : Operand}

/-- A statement has been built. -/
theorem stays (h : InLoop options head before xs inner w t) (hstays : t.Stays w ys w' t') :
    InLoop options head before (if inner then xs ++ ys else xs) inner w' t' where
  ready := hstays.ready
  reached := h.reached.advance hstays.advances
  passed := hstays.passed_subset h.passed
  older := by
    rw [Site.loops_congr hstays.frames_eq]
    exact h.older
  renewed x hx := by
    rw [hstays.phis head (List.mem_append_left _ h.passed)]
    split at hx
    · rename_i hinner
      exact (List.mem_append.1 hx).imp (h.renewed x) fun hx => ⟨h.innermost hinner, hx⟩
    · exact .inl (h.renewed x hx)
  innermost hinner := by
    rw [← h.innermost hinner, Site.phiBlock?, Site.phiBlock?, hstays.frames_eq]

/-- A construct has been opened. -/
theorem opens (h : InLoop options head before xs inner w t) (hopens : t.Opens w f ys w₁ t₁) :
    InLoop options head before xs false w₁ t₁ where
  ready := hopens.ready
  reached := h.reached.advance hopens.advances
  passed := hopens.passed_subset h.passed
  older := by
    obtain ⟨f', hf', hlt⟩ := h.older
    obtain ⟨hmem, hpart⟩ := Site.mem_loops.1 hf'
    refine ⟨f', Site.mem_loops.2 ⟨?_, hpart⟩, hlt⟩
    rw [hopens.frames_eq]
    exact List.mem_cons_of_mem _ hmem
  renewed x hx := (hopens.others head (List.mem_append_left _ h.passed) x).2 (h.renewed x hx)
  innermost := Bool.noConfusion

/-- **What is known in a loop** is known wherever lowering its body comes to, and the check goes on
there. -/
theorem reaches (hreach : Stmt.Reaches r t s r' t' u)
    (h : InLoop options head before xs inner w t) (hcheck : s.inTimeFor as xs inner = true) :
    ∃ w' xs' inner', InLoop options head before xs' inner' w' t' ∧
      u.inTimeFor as xs' inner' = true := by
  induction hreach generalizing w xs inner with
  | here => exact ⟨w, xs, inner, h, hcheck⟩
  | first _ ih => exact ih h (Bool.and_eq_true_iff.1 hcheck).1
  | @second _ _ _ _ _ s₁ _ _ before _ ih =>
    obtain ⟨w₁, t₁, hs₁, hstays⟩ := s₁.exists_lower h.ready
    cases before.symm.trans hs₁
    exact ih (h.stays hstays) (Bool.and_eq_true_iff.1 hcheck).2
  | @thenOnly _ _ _ _ _ c _ _ _ _ enter _ ih =>
    obtain ⟨f, w₁, t₁, henter, -, hopens⟩ := Script.exists_opensIf h.ready c
    cases enter.symm.trans henter
    exact ih (h.opens hopens) hcheck
  | @thenSide _ _ _ _ _ c _ _ _ _ _ enter _ ih =>
    obtain ⟨f, w₁, t₁, henter, -, hopens⟩ := Script.exists_opensIf h.ready c
    cases enter.symm.trans henter
    exact ih (h.opens hopens) (Bool.and_eq_true_iff.1 hcheck).1
  | @elseSide _ _ _ _ _ _ _ c s₁ _ _ _ _ enter before turn _ ih =>
    obtain ⟨f, w₁, t₁, henter, hpart, hopens⟩ := Script.exists_opensIf h.ready c
    cases enter.symm.trans henter
    obtain ⟨w₂, t₂, hs₁, hstays⟩ := s₁.exists_lower hopens.ready
    cases before.symm.trans hs₁
    obtain ⟨tt, w₃, t₃, hturn, -, hopens₃⟩ := (hopens.stays hstays).exists_enterElse hpart
    cases turn.symm.trans hturn
    exact ih (h.opens hopens₃) (Bool.and_eq_true_iff.1 hcheck).2
  | @loopBody _ _ _ _ _ c _ _ _ enter _ ih =>
    obtain ⟨f, w₁, t₁, henter, -, hopens⟩ := Script.exists_opensLoop h.ready c
    cases enter.symm.trans henter
    exact ih (h.opens hopens) hcheck

/-- The loop has a phi of a variable when it has been assigned. -/
theorem hasPhi_assign (h : InLoop options head before xs inner w t)
    (hx : (inner || decide (x ∈ xs)) = true) (hlower : e.lower t = .ok (o, t₂))
    (hassign : t₂.assign x o.value = .ok t₃) : t₃.body.graph.HasPhi head x := by
  obtain ⟨o', t₂', hlower', hadv, hadds, hb, ho, -⟩ :=
    e.exists_lower h.ready.built h.ready.accepts h.ready.clear_current
  cases hlower.symm.trans hlower'
  have hstays := Script.Stays.of_adds h.ready hadv hadds hb
  obtain ⟨t₃', hassign', hstays'⟩ := Script.exists_assign hstays.ready x ho
  cases hassign.symm.trans hassign'
  rw [hstays'.phis head (List.mem_append_left _ h.passed), hstays.phis head
    (List.mem_append_left _ h.passed)]
  rcases Bool.or_eq_true_iff.1 hx with hinner | hx
  · exact .inr ⟨h.innermost hinner, List.mem_singleton_self x⟩
  · exact .inl (.inl (h.renewed x (of_decide_eq_true hx)))

/-- **An assignment that passes the check is in time.** -/
theorem assign (h : InLoop options head before xs inner w t)
    (hcheck : (Stmt.assign x e).inTimeFor as xs inner = true) (hlower : e.lower t = .ok (o, t₂))
    (hassign : t₂.assign x o.value = .ok t₃) :
    (before x = .ok o.value → t₃.body.graph.HasPhi head x) ∧
      ∀ y, e = .var y → before y = .ok o.value → y ∈ as → t.body.graph.HasPhi head y := by
  have hnew : (∀ y, e ≠ .var y) → (∀ v, e ≠ .lit v) → ∀ y, before y ≠ .ok o.value := by
    intro hvar hlit y hy
    obtain ⟨i, hi, hle⟩ := Expr.start_le_of_lower hvar hlit h.ready h.reached hlower
    obtain ⟨f, hf, hlt⟩ := h.older
    rw [hi] at hy
    exact Nat.not_lt.2 (hle f hf) (hlt y i hy)
  cases e with
  | read | arith =>
    exact ⟨fun hx => absurd hx (hnew (by nofun) (by nofun) x), fun y hy => by cases hy⟩
  | lit v => exact ⟨fun _ => h.hasPhi_assign hcheck hlower hassign, fun y hy => by cases hy⟩
  | var z =>
    obtain ⟨hx, hz⟩ := Bool.and_eq_true_iff.1 hcheck
    refine ⟨fun _ => h.hasPhi_assign hx hlower hassign, fun y hy _ hmem => ?_⟩
    cases hy
    rcases Bool.or_eq_true_iff.1 hz with hz | hz
    · exact h.renewed _ (of_decide_eq_true hz)
    · exact absurd hmem (of_decide_eq_true hz)

end Script.InLoop

namespace Stmt

/-- **In a program that passes the check**, loops renew their variables in time. -/
theorem renews_of_inTime (s : Stmt) (hcheck : s.inTime = true) : s.Renews options := by
  intro r t c body head t₁ hreach henter r' t' x e o t₂ t₃ hreach' hlower hassign
  obtain ⟨w, hadv, hready, -⟩ := hreach.ready (Ready.start options)
  have hstart : Script.Reached options .start { body := .start options } := .nil
  have hreached := hstart.advance hadv
  obtain ⟨hbody, -⟩ := Bool.and_eq_true_iff.1 (hreach.inTime hcheck)
  obtain ⟨f, w₁, t₁', henter', hpart, hopens⟩ := Script.exists_opensLoop hready c
  cases henter.symm.trans henter'
  have hreached₁ := hreached.advance hopens.advances
  have hinside : Script.InLoop options f.test t.body.valueOf [] true w₁ t₁ :=
    { ready := hopens.ready
      reached := hreached₁
      passed := hopens.ready.built.layout.behind f hopens.mem_frames _ (Layout.test_mem_behind f)
      older := by
        refine ⟨f, Site.mem_loops.2 ⟨hopens.mem_frames, hpart⟩, fun y i hi => ?_⟩
        rw [hready.valueOf_eq, ← hopens.before_eq] at hi
        exact (Orderly.run hreached₁).precedes f hopens.mem_frames y i (Except.ok.inj hi)
      renewed := fun _ hx => absurd hx List.not_mem_nil
      innermost := fun _ => by rw [hopens.phiBlock?_eq, Frame.phiBlock_eq_test hpart] }
  obtain ⟨w', xs', inner', hknown, hcheck'⟩ := hinside.reaches hreach' hbody
  exact hknown.assign hcheck' hlower hassign

-- A counter of an inner loop may be reset to what it was before the outer loop.
example : (loop ⟨.var 0, .ne, .lit 0⟩
    (.seq (.assign 1 (.lit 0))
      (.seq (.loop ⟨.var 1, .lt, .lit 3⟩ (.assign 1 (.arith .add (.var 1) (.lit 1))))
        (.assign 0 (.arith .sub (.var 0) (.lit 1)))))).inTime = true := by
  decide

end Stmt
end StructuredSSA
