import StructuredSSA.Proofs.Body.Dominance
import StructuredSSA.Proofs.Source.Visits

/-!
# When sharing respects dominance

An instruction is retired in favour of one that covers it.  The only thing that can go wrong after
that is a revival: the first of the instructions that lose their stand-in takes its place for the
others, wherever they are.  As long as each of them is covered by it, every retired instruction is
covered by the live instruction in its stead, at all times; and where one is not, sharing has gone
wrong.

## What is here

* `Stmt.roots_cover_iff` — the exact condition.
* `Stmt.roots_cover_fails` — a program that breaks it.
-/

set_option autoImplicit false

namespace StructuredSSA

namespace Graph

/-- Where every instruction is covered by its stand-in, it is covered by its root. -/
theorem HasRoot.covers {g : Graph} (hc : g.Contents) (hg : g.Connected)
    (hpairs : ∀ d e, g.standIn? d = some e → g.Covers e d) {d r : InstrId} (hr : g.HasRoot d r)
    (hd : g.standIn? d ≠ none) : g.Covers r d := by
  induction hr with
  | live hlive => exact absurd hlive hd
  | @step d e r hstand rest ih =>
    cases rest with
    | live => exact hpairs d _ hstand
    | step hstand' rest' =>
      exact (ih (by rw [hstand']; simp)).trans hc hg (hpairs d e hstand)

namespace Settles

variable {g g' : Graph}

theorem growth (h : Settles g g') : Extends g g' :=
  .of_sameSkeleton h.skeleton fun _ _ hi => by rw [h.home?_eq, hi]

end Settles
end Graph

namespace Stmt

/-- **Sharing respects dominance exactly as long as each revival does.**  At all times during the
construction of a structured program and at its end, every retired instruction is covered by the
live instruction in its stead, if and only if every command that gives a retired instruction another
stand-in gives it one that covers it. -/
theorem roots_cover_iff (options : Options) (s : Stmt) :
    (∀ p, s.Visits options p → ∀ d r, p.main.graph.isRetired d = true →
      p.main.graph.root? d = some r → p.main.graph.Covers r d) ↔
    ∀ p p', s.Takes options p p' → ∀ d e r, p.main.graph.standIn? d = some e →
      p'.main.graph.standIn? d = some r → r ≠ e → p'.main.graph.Covers r d := by
  obtain ⟨w, t, g₁, g, h⟩ := s.exists_compiles options
  constructor
  · intro hcovers p p' htakes d e r hd hd' hne
    obtain ⟨w₁, u₁, w₂, u₂, cs, c, hcs, hrun, hstep, rfl, rfl⟩ := (h.takes_iff p p').1 htakes
    have hb := hrun.built (.start options)
    -- the new stand-in is live, hence the root
    have hlive : u₂.graph.standIn? r = none := by
      rcases (hstep.advances hb).standIn?_cases (Shared.run hrun).offering d r hd' with
        h' | ⟨h', -⟩ | ⟨-, h'⟩
      · rw [show u₁.graph.standIn? d = some e from hd, Option.some.injEq] at h'
        exact absurd h'.symm hne
      · rw [show u₁.graph.standIn? d = some e from hd] at h'
        cases h'
      · exact h'
    refine hcovers _ ((h.visits_iff _).2 (.inl ⟨w₂, u₂, _, hcs, hrun.trans (.single hstep), rfl⟩))
      d r ?_ (Graph.root?_eq_some_iff.2 (.step hd' (.live hlive)))
    rw [Graph.isRetired_eq, hd']
    rfl
  · intro hrevivals p hvisits
    have hpairs : ∀ {w' u cs}, cs <+: t.issued → Run .start (Body.start options) cs w' u →
        ∀ d e, u.graph.standIn? d = some e → u.graph.Covers e d := by
      intro w' u cs hcs hrun
      refine hrun.preserves_along
        (P := fun _ u => ∀ d e, u.graph.standIn? d = some e → u.graph.Covers e d)
        (.start options) (fun d e hd => ?_) ?_
      · rw [Graph.standIn?, Body.instr?_start] at hd
        cases hd
      · intro cs₁ c cs₂ w₁ u₁ w₂ u₂ heq hrun₁ hb hp hstep d e' hd'
        have hadv := hstep.advances hb
        have hissued : cs₁ ++ [c] <+: t.issued :=
          .trans ⟨cs₂, by rw [heq]; simp⟩ hcs
        cases hd : u₁.graph.standIn? d with
        | none =>
          rcases hadv.standIn?_cases (Shared.run hrun₁).offering d e' hd' with
            h' | ⟨-, h'⟩ | ⟨h', -⟩
          · rw [hd] at h'
            cases h'
          · exact h'
          · exact absurd hd h'
        | some e =>
          by_cases hne : e' = e
          · subst hne
            exact hadv.growth.covers hb.contents (hp d e' hd)
          · exact hrevivals _ _ ((h.takes_iff _ _).2
              ⟨w₁, u₁, w₂, u₂, cs₁, c, hissued, hrun₁, hstep, rfl, rfl⟩) d e e' hd hd' hne
    have hroots : ∀ {g : Graph}, g.Contents → g.Connected →
        (∀ d e, g.standIn? d = some e → g.Covers e d) →
        ∀ d r, g.isRetired d = true → g.root? d = some r → g.Covers r d := by
      intro g hc hg hpairs d r hd hr
      refine (Graph.root?_eq_some_iff.1 hr).covers hc hg hpairs fun hnone => ?_
      rw [Graph.isRetired_eq, hnone] at hd
      cases hd
    rcases (h.visits_iff p).1 hvisits with ⟨w', u, cs, hcs, hrun, rfl⟩ | rfl
    · exact hroots (hrun.built (.start options)).contents (Shared.run hrun).connected
        (hpairs hcs hrun)
    · -- neither the end of the program nor settling changes a stand-in
      have hext := Graph.Extends.of_places h.ended
      have hsettled := h.settles.growth
      have hall := hpairs (List.prefix_refl _) h.run
      have hcovers : ∀ d r, g₁.isRetired d = true → g₁.root? d = some r → g₁.Covers r d := by
        refine hroots h.complete.built.contents (hext.connected (Shared.run h.run).connected)
          fun d e hd => hext.covers h.ready.built.contents (hall d e ?_)
        rw [← h.ended.standIn?_eq, hd]
      intro d r hd hr
      refine hsettled.covers h.complete.built.contents (hcovers d r ?_ ?_)
      · rw [Graph.isRetired_eq, ← h.settles.standIn?_eq, ← Graph.isRetired_eq]
        exact hd
      · rw [Graph.root?_eq_some_iff] at hr ⊢
        exact hr.congr fun j => (h.settles.standIn?_eq j).symm

/-- A loop in which a sum is computed, and again on both sides of an if, through another variable of
the same value; then the first variable changes. -/
def splitSums : Stmt :=
  .seq (.assign 0 .read) (.seq (.assign 1 (.var 0)) (.seq (.assign 2 .read)
    (.loop ⟨.var 0, .ne, .lit 0⟩
      (.seq (.assign 3 (.arith .add (.var 0) (.lit 1)))
        (.seq (.ifElse ⟨.var 2, .eq, .lit 0⟩
            (.write (.arith .add (.var 1) (.lit 1))) (.write (.arith .add (.var 1) (.lit 1))))
          (.assign 0 (.arith .sub (.var 0) (.lit 1))))))))

/-- When the program is finished, the sum of the then side stands in for that of the else side. -/
theorem splitSums_compile : (splitSums.compile {}).toOption.any (fun r =>
    r.2.main.graph.isRetired 13 && r.2.main.graph.root? 13 == some 11 &&
    r.2.main.graph.home? 13 == some 7 && r.2.main.graph.home? 11 == some 6 &&
    r.2.main.graph.next .fall 0 == some 1 && r.2.main.graph.next .fall 1 == some 2 &&
    r.2.main.graph.next .fall 2 == some 3 && r.2.main.graph.next .branch 3 == some 7) = true := by
  decide +kernel

/-- Control comes to the else side without computing the sum of the then side. -/
theorem roots_cover_fails : ∃ p, splitSums.Visits {} p ∧ ∃ d r, p.main.graph.isRetired d = true ∧
    p.main.graph.root? d = some r ∧ ¬ p.main.graph.Covers r d := by
  obtain ⟨⟨xs, p⟩, hcompile, hp⟩ := Option.any_eq_true _ _ |>.1 splitSums_compile
  simp only [Bool.and_eq_true, beq_iff_eq] at hp
  obtain ⟨⟨⟨⟨⟨⟨⟨hret, hroot⟩, hd⟩, hr⟩, h01⟩, h12⟩, h23⟩, h37⟩ := hp
  have hcompile' : splitSums.compile {} = .ok (xs, p) := by
    cases hc : splitSums.compile {} with
    | error e =>
      rw [hc] at hcompile
      cases hcompile
    | ok r =>
      rw [hc] at hcompile
      cases hcompile
      rfl
  refine ⟨p, .finished hcompile', 13, 11, hret, hroot, ?_⟩
  rintro ⟨a, b, ha, hb, hab⟩
  rw [hr, Option.some.injEq] at ha
  rw [hd, Option.some.injEq] at hb
  subst ha hb
  rcases hab with ⟨heq, -⟩ | ⟨-, hdom⟩
  · cases heq
  · have hpath : p.main.graph.Path Body.head 7 [7, 3, 2, 1, 0] :=
      .step (.step (.step (.step .here (Graph.succ_iff.2 ⟨_, h01⟩)) (Graph.succ_iff.2 ⟨_, h12⟩))
        (Graph.succ_iff.2 ⟨_, h23⟩)) (Graph.succ_iff.2 ⟨_, h37⟩)
    exact absurd (hdom _ hpath) (by decide)

end Stmt
end StructuredSSA
