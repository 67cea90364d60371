import StructuredSSA.Proofs.Body.Advance

/-!
# What blocks offer in any construction

A block offers the arithmetic that was known where it was opened and what has been added to it
since.  Whatever commands are issued, each of these instructions exists and is arithmetic with the
opcode under which it is offered, so that the search for a result to share never stops.

## What is here

* `Graph.Offers` — what is offered is there.
* `Graph.Wires.offered_from`, `Graph.Develops.offers` — no change offers anything else.
* `Body.Reachable.offers` — this holds of every construction.
-/

set_option autoImplicit false

namespace StructuredSSA

namespace Graph

/-- **What is offered is there**: every block offers arithmetic, each under its opcode. -/
def Offers (g : Graph) : Prop :=
  ∀ b k i, i ∈ (g.offered b).candidates k → ∃ op, g.op? i = some op ∧ op.arith? = some k

variable {g g' : Graph}

/-- What a block is offered after its blocks have been rewired, some block was offered before. -/
theorem Wires.offered_from (h : Wires g g') (b : BlockId) : ∃ c, g'.offered b = g.offered c := by
  cases h with
  | addBlock r dom =>
    rw [offered_withBlock]
    split
    · exact ⟨dom, rfl⟩
    · exact ⟨b, rfl⟩
  | link e src dst hs hd => exact ⟨b, (sameContents_link g e src dst).offered_eq b⟩
  | unlinkNext e src => exact ⟨b, (sameContents_unlinkNext g e src).offered_eq b⟩
  | setOrigin c origin hb ho => exact ⟨b, offered_setOrigin g c origin b⟩
  | addRole c r hb hempty => exact ⟨b, offered_addRole g c r b⟩

namespace Offers

theorem of_keeps (o : g.Offers) (hkeeps : Keeps g g')
    (h : ∀ b, ∃ c, g'.offered b = g.offered c) : g'.Offers := by
  intro b k i hi
  obtain ⟨c, hc⟩ := h b
  rw [hc] at hi
  obtain ⟨op, hop, hk⟩ := o c k i hi
  obtain ⟨op', hop', harith⟩ := hkeeps.arith?_eq hop
  exact ⟨op', hop', harith.trans hk⟩

theorem places (o : g.Offers) {c : BlockId} {op : Operation} (h : Places g c op g') :
    g'.Offers := by
  intro b k i hi
  rcases h.offered_cases hi with ⟨rfl, hk⟩ | hi
  · exact ⟨op, h.op?_new, hk⟩
  · obtain ⟨o, ho, hk⟩ := o b k i hi
    obtain ⟨o', ho', harith⟩ := h.keeps.arith?_eq ho
    exact ⟨o', ho', harith.trans hk⟩

theorem alters (o : g.Offers) (h : Alters g g') : g'.Offers := by
  cases h with
  | wire h => exact o.of_keeps (.of_instr? h.sameStock.instr?_eq) h.offered_from
  | rework h => exact o.of_keeps h.keeps fun b => ⟨b, h.offered_eq b⟩
  | place h => exact o.places h

end Offers

theorem Develops.offers (h : Develops g g') (o : g.Offers) : g'.Offers :=
  h.invariant (fun _ _ halters o => o.alters halters) o

end Graph

namespace Body

variable {u u' : Body}

theorem Advances.offers (h : u.Advances u') (o : u.graph.Offers) : u'.graph.Offers := by
  cases h with
  | work hopen hopen' h => exact h.offers o
  | settle hopen hopen' h hsettle =>
    obtain ⟨g, hg, rfl⟩ := withLandings_of_settle hsettle
    exact (h.offers o).of_keeps (Graph.settles_of_withLandings hg).keeps fun b =>
      ⟨b, Graph.offered_of_withLandings hg b⟩
  | add hsettled hsettled' h hstand => exact h.offers o

theorem offers_start (options : Options) : (start options).graph.Offers :=
  (Built.start options).contents.offers

/-- **Every body that can be built** offers only what is there. -/
theorem Reachable.offers {options : Options} (h : Reachable options u) : u.graph.Offers :=
  h.invariant (fun _ _ hadvances o => hadvances.offers o) (offers_start options)

end Body
end StructuredSSA
