import StructuredSSA.Graph.Exec
import StructuredSSA.Proofs.Source.Compile
import StructuredSSA.Source.Eval

/-!
# Where meaning is lost

A finished program is executed from its head block, and is meant to write what its source writes.
It does not if a loop copies a variable and changes it afterwards: the copy keeps what the variable
meant before the loop, because a new loop phi is not put into bindings.

## What is here

* `Graph.Writes.unique` — execution writes one thing only.
* `Stmt.writes_fails` — a program that loses its meaning.
-/

set_option autoImplicit false

namespace StructuredSSA

namespace Graph

variable {g : Graph} {input : Nat → Int64}

/-- An execution that has ended does not depend on how long it was allowed to take. -/
theorem run_mono {fuel fuel' : Nat} {m m' : Machine} {b : BlockId} {e : Edge}
    (h : g.run input fuel m b e = some m') (hle : fuel ≤ fuel') :
    g.run input fuel' m b e = some m' := by
  induction fuel generalizing fuel' m b e with
  | zero => cases h
  | succ fuel ih =>
    cases fuel' with
    | zero => cases hle
    | succ fuel' =>
      have hle := Nat.le_of_succ_le_succ hle
      rw [run, Option.bind_eq_bind, Option.bind_eq_some_iff] at h ⊢
      obtain ⟨blk, hblk, h⟩ := h
      refine ⟨blk, hblk, ?_⟩
      rw [Option.bind_eq_bind, Option.bind_eq_some_iff] at h ⊢
      obtain ⟨⟨m₁, flow⟩, hexec, h⟩ := h
      refine ⟨⟨m₁, flow⟩, hexec, ?_⟩
      cases flow with
      | stop => exact h
      | onward =>
        obtain ⟨c, hc, h⟩ := Option.bind_eq_some_iff.1 h
        exact Option.bind_eq_some_iff.2 ⟨c, hc, ih h hle⟩
      | branch =>
        obtain ⟨c, hc, h⟩ := Option.bind_eq_some_iff.1 h
        exact Option.bind_eq_some_iff.2 ⟨c, hc, ih h hle⟩

/-- **Execution writes one thing only.** -/
theorem Writes.unique {b : BlockId} {out out' : List Int64} (h : g.Writes b input out)
    (h' : g.Writes b input out') : out = out' := by
  obtain ⟨fuel, m, hm, rfl⟩ := h
  obtain ⟨fuel', m', hm', rfl⟩ := h'
  have := (run_mono hm (Nat.le_max_left fuel fuel')).symm.trans
    (run_mono hm' (Nat.le_max_right fuel fuel'))
  rw [Option.some.inj this]

end Graph

namespace Stmt

/-- A countdown that keeps the number before the latest. -/
def countdown : Stmt :=
  .seq (.assign 0 .read) (.seq (.assign 1 (.var 0))
    (.seq (.loop ⟨.var 0, .ne, .lit 0⟩
        (.seq (.assign 1 (.var 0)) (.assign 0 (.arith .add (.var 0) (.lit (-1))))))
      (.write (.var 1))))

/-- From two, the number before the latest is one. -/
theorem countdown_run :
    (countdown.run (fun _ => 2) 8 {}).any (fun st => st.written == [1]) = true := by
  decide +kernel

/-- The finished program writes the first number. -/
theorem countdown_compile : (countdown.compile { share := false }).toOption.any (fun r =>
    (r.2.main.graph.run (fun _ => 2) 8 {} Body.head .fall).any
      (fun m => m.written == [2])) = true := by
  decide +kernel

/-- **The finished program does not write what its source writes.** -/
theorem writes_fails : countdown.AssignsFirst ∧ ∃ xs p input out,
    countdown.compile { share := false } = .ok (xs, p) ∧ countdown.Writes input out ∧
      ¬ p.main.graph.Writes Body.head input out := by
  refine ⟨by decide, ?_⟩
  obtain ⟨xs, p, hcompile, hp⟩ := exists_compile_eq countdown_compile
  obtain ⟨m, hm, hout⟩ := Option.any_eq_true _ _ |>.1 hp
  obtain ⟨st, hst, hwritten⟩ := Option.any_eq_true _ _ |>.1 countdown_run
  rw [beq_iff_eq] at hout hwritten
  refine ⟨xs, p, fun _ => 2, [1], hcompile, ⟨8, st, hst, by rw [hwritten]; rfl⟩, fun h => ?_⟩
  have := h.unique ⟨8, m, hm, rfl⟩
  rw [hout] at this
  exact absurd this (by decide)

end Stmt
end StructuredSSA
