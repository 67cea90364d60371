import StructuredSSA.Body.Settle
import StructuredSSA.Proofs.Graph.View

/-!
# Where control lands

The landing of a block is searched for in so many steps.  Here it is said without counting which
instruction control comes to: the first one of the first block, on the way along fallthrough edges,
that lists any.

## What is here

* `Graph.ComesTo` — control that enters a block comes to an instruction.
* `Graph.ComesTo.exists_listed` — a block lists it.
* `Graph.comesTo_of_landing` — the search finds it.
-/

set_option autoImplicit false

namespace StructuredSSA
namespace Graph

/-- Control that enters `b` **comes to** `i`: blocks that list nothing are fallen through, and the
first block that lists anything lists `i` first. -/
inductive ComesTo (g : Graph) : BlockId → InstrId → Prop where
  | here {b : BlockId} {i : InstrId} {rest : List InstrId} (h : g.listed b = i :: rest) :
      ComesTo g b i
  | fall {b c : BlockId} {i : InstrId} (hempty : g.listed b = []) (hnext : g.next .fall b = some c)
      (rest : ComesTo g c i) : ComesTo g b i

variable {g : Graph} {b : BlockId} {i : InstrId}

theorem ComesTo.exists_listed (h : g.ComesTo b i) : ∃ c, i ∈ g.listed c := by
  induction h with
  | @here b i rest h =>
    refine ⟨b, ?_⟩
    rw [h]
    exact List.mem_cons_self
  | fall _ _ _ ih => exact ih

/-- The search comes to what control comes to, however many blocks it may visit. -/
theorem comesTo_of_landingWithin {fuel : Nat} {blk : Block} (hblk : g.block? b = some blk)
    (h : g.landingWithin fuel blk = some i) : g.ComesTo b i := by
  have hlisted : g.listed b = blk.instrs := by
    rw [listed, hblk]
    rfl
  induction fuel generalizing b blk with
  | zero => cases h
  | succ fuel ih =>
    rw [landingWithin] at h
    split at h
    · rename_i j hfirst
      cases h
      obtain ⟨rest, hrest⟩ := List.head?_eq_some_iff.1 hfirst
      exact .here (hlisted.trans hrest)
    · rename_i hfirst
      split at h
      · rename_i blk' hnext
        obtain ⟨c, hc, hblk'⟩ := Option.bind_eq_some_iff.1 hnext
        refine .fall (hlisted.trans (List.head?_eq_none_iff.1 hfirst)) ?_ (ih hblk' h ?_)
        · rw [next, hblk]
          exact hc
        · rw [listed, hblk']
          rfl
      · cases h

/-- **The landing of a block** is the instruction that control comes to. -/
theorem comesTo_of_landing (h : g.landing b = .ok i) : g.ComesTo b i := by
  obtain ⟨blk, hblk, h⟩ := bind_eq_ok_iff.1 h
  exact comesTo_of_landingWithin (block_eq_ok_iff.1 hblk) (expect_eq_ok_iff.1 h)

end Graph
end StructuredSSA
