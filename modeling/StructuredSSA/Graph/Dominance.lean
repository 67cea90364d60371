import StructuredSSA.Graph.Basic

/-!
# Dominance

A block dominates another if control cannot reach the other without passing through it.

## What is here

* `Graph.Succ` — one block leads to another by an edge.
* `Graph.Path` — a way from one block to another, with the blocks it passes through.
* `Graph.Dominates` — every way from the root passes through a block.
-/

set_option autoImplicit false

namespace StructuredSSA
namespace Graph

/-- There is an edge from `a` to `b`. -/
def Succ (g : Graph) (a b : BlockId) : Prop :=
  ∃ blk e, g.block? a = some blk ∧ blk.next e = some b

/-- A way from `a` to `b` that passes through the blocks `via`, both ends included. -/
inductive Path (g : Graph) (a : BlockId) : BlockId → List BlockId → Prop where
  | here : Path g a a [a]
  | step {b c : BlockId} {via : List BlockId} (before : Path g a b via) (edge : g.Succ b c) :
      Path g a c (c :: via)

/-- Every way from `root` to `b` passes through `a`. -/
def Dominates (g : Graph) (root a b : BlockId) : Prop :=
  ∀ via, g.Path root b via → a ∈ via

theorem Path.target_mem {g : Graph} {a b : BlockId} {via : List BlockId} (h : g.Path a b via) :
    b ∈ via := by
  cases h <;> simp

theorem Path.source_mem {g : Graph} {a b : BlockId} {via : List BlockId} (h : g.Path a b via) :
    a ∈ via := by
  induction h with
  | here => simp
  | step _ _ ih => exact List.mem_cons_of_mem _ ih

theorem Dominates.refl (g : Graph) (root b : BlockId) : g.Dominates root b b :=
  fun _ h => h.target_mem

theorem Dominates.root (g : Graph) (root b : BlockId) : g.Dominates root root b :=
  fun _ h => h.source_mem

/-- A way to `b` that passes through `c` starts with a way to `c`. -/
theorem Path.until {g : Graph} {a b : BlockId} {via : List BlockId} (h : g.Path a b via)
    {c : BlockId} (hc : c ∈ via) : ∃ via', g.Path a c via' ∧ via' ⊆ via := by
  induction h with
  | here =>
    obtain rfl : c = a := by simpa using hc
    exact ⟨_, .here, fun _ h => h⟩
  | @step b d via before edge ih =>
    rcases List.mem_cons.1 hc with rfl | hc
    · exact ⟨_, .step before edge, fun _ h => h⟩
    · obtain ⟨via', h, hs⟩ := ih hc
      exact ⟨via', h, fun _ hx => List.mem_cons_of_mem _ (hs hx)⟩

/-- **Dominance is transitive.** -/
theorem Dominates.trans {g : Graph} {root a b c : BlockId} (hab : g.Dominates root a b)
    (hbc : g.Dominates root b c) : g.Dominates root a c := by
  intro via h
  obtain ⟨via', h', hs⟩ := h.until (hbc via h)
  exact hs (hab via' h')

end Graph
end StructuredSSA
