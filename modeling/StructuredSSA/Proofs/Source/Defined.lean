import StructuredSSA.Proofs.Body.Defined
import StructuredSSA.Proofs.Source.Compile

/-!
# Definitions dominate uses

At no time during the construction of a structured program can control come to an instruction
without having computed what it reads, or leave along an edge without having computed what the phis
behind the edge select.

## What is here

* `Graph.DefsDominate` — the property of a graph.
* `Stmt.defs_dominate` — the graphs of structured programs have it at all times.
-/

set_option autoImplicit false

namespace StructuredSSA

/-- **Definitions dominate uses.** -/
structure Graph.DefsDominate (g : Graph) : Prop where
  /-- What an instruction other than a phi reads is listed before it, or in another block that
  dominates its block. -/
  plain : ∀ b i d, i ∈ g.listed b → g.Reads i d → [d, i].Sublist (g.listed b) ∨
    ∃ a, a ≠ b ∧ d ∈ g.listed a ∧ g.Dominates Body.head a b
  /-- Each side of a phi comes from some block, and the block of what the phi selects on this side
  dominates it. -/
  phi : ∀ b i side, i ∈ g.listed b → g.isPhi i = true → ∃ q, g.entry side b = some q ∧
    ∀ d, g.Selects i side d → ∃ a, d ∈ g.listed a ∧ g.Dominates Body.head a q

theorem Founded.defsDominate {g : Graph} {w : Site} (r : Founded g w) (hc : g.Contents) :
    g.DefsDominate where
  plain b i d hi hreads := by
    refine (r.plain b i d ((hc.mem_listed b i).1 hi) hreads).imp_right ?_
    rintro ⟨a, hne, ha, hdom⟩
    exact ⟨a, hne, (hc.mem_listed a d).2 ha, hdom⟩
  phi b i side hi hphi := by
    obtain ⟨q, hq, hknows⟩ := r.phis b i side ((hc.mem_listed b i).1 hi) hphi
    refine ⟨q, hq, fun d hd => ?_⟩
    obtain ⟨a, ha, hdom⟩ := hknows d hd
    exact ⟨a, (hc.mem_listed a d).2 ha, hdom⟩

/-- **Definitions dominate uses** after each of the commands that a structured program issues,
whether equal computations share their results or not. -/
theorem Stmt.defs_dominate (options : Options) (s : Stmt) : ∃ t, s.build options = .ok t ∧
    ∀ cs, cs <+: t.issued → ∃ p, (Program.start options).execAll (cs.map .body) = .ok p ∧
      p.main.graph.DefsDominate := by
  obtain ⟨w, t, hbuild, hrun, -, -⟩ := s.exists_build options
  refine ⟨t, hbuild, fun cs hcs => ?_⟩
  obtain ⟨w', u, -, hrun', -, -⟩ := hrun.upTo hcs
  refine ⟨_, Program.execAll_body (p := .start options) rfl hrun'.execAll_eq, ?_⟩
  exact (Defined.run hrun').founded.defsDominate (hrun'.built (.start options)).contents

end StructuredSSA
