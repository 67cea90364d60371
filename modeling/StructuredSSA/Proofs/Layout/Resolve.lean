import Mathlib.Data.List.Perm.Subperm
import StructuredSSA.Proofs.Graph.Contents
import StructuredSSA.Proofs.Layout.Basic

/-!
# Looking variables up

The scope parent of a block comes before it in the order of the text, so a look-up ends.  What it
finds is described by `Graph.Resolves`, which knows nothing of fuel.

## What is here

* `Graph.parent` — the scope parent of a block.
* `Graph.Resolves`, `Graph.meaning` — what a variable means in a block.
* `Layout.resolves_iff` — `Graph.resolve` finds exactly this.
* `Graph.Resolves.congr` — a look-up does not see changes elsewhere.
-/

set_option autoImplicit false

namespace StructuredSSA

namespace Graph

/-- The block in which a variable is looked up that `b` does not bind. -/
def parent (g : Graph) (b : BlockId) : Option BlockId :=
  if g.hasRole b .elseSide || g.hasRole b .loopExit then g.prev .branch b else g.prev .fall b

/-- The value of `x` as `b` sees it. -/
inductive Resolves (g : Graph) (x : Var) : BlockId → Option InstrId → Prop where
  | bound {b : BlockId} {v : Option InstrId} (h : g.binding b x = some v) : Resolves g x b v
  | above {b p : BlockId} {v : Option InstrId} (h : g.binding b x = none)
      (hp : g.parent b = some p) (rest : Resolves g x p v) : Resolves g x b v
  | nowhere {b : BlockId} (h : g.binding b x = none) (hp : g.parent b = none) :
      Resolves g x b none

/-- What `x` means in `b`, and nothing if the look-up stops. -/
def meaning (g : Graph) (b : BlockId) (x : Var) : Option InstrId :=
  match g.resolve b x with
  | .ok v => v
  | .error _ => none

theorem scopeParent_eq {g : Graph} {b : BlockId} {blk : Block} (h : g.block? b = some blk) :
    blk.scopeParent = g.parent b := by
  rw [parent, Block.scopeParent, hasRole, hasRole, prev, prev, h]
  rfl

namespace Resolves

variable {g g' : Graph} {x : Var} {b : BlockId} {v v' : Option InstrId}

theorem unique (h : g.Resolves x b v) (h' : g.Resolves x b v') : v = v' := by
  induction h with
  | bound hb =>
    cases h' with
    | bound hb' =>
      rw [hb] at hb'
      exact Option.some.inj hb'
    | above hb' =>
      rw [hb] at hb'
      cases hb'
    | nowhere hb' =>
      rw [hb] at hb'
      cases hb'
  | above hb hp _ ih =>
    cases h' with
    | bound hb' =>
      rw [hb] at hb'
      cases hb'
    | above _ hp' rest' =>
      rw [hp, Option.some.injEq] at hp'
      subst hp'
      exact ih rest'
    | nowhere _ hp' =>
      rw [hp] at hp'
      cases hp'
  | nowhere hb hp =>
    cases h' with
    | bound hb' =>
      rw [hb] at hb'
      cases hb'
    | above _ hp' =>
      rw [hp] at hp'
      cases hp'
    | nowhere => rfl

/-- What is found is bound somewhere. -/
theorem exists_binding (h : g.Resolves x b v) (hv : v ≠ none) : ∃ c, g.binding c x = some v := by
  induction h with
  | @bound b v hb => exact ⟨b, hb⟩
  | above _ _ _ ih => exact ih hv
  | nowhere => exact absurd rfl hv

/-- A look-up that stays among blocks of `S` does not see changes to others. -/
theorem congr {S : BlockId → Prop} (hS : ∀ c p, S c → g.parent c = some p → S p)
    (hbind : ∀ c, S c → g'.binding c x = g.binding c x)
    (hparent : ∀ c, S c → g'.parent c = g.parent c) (hb : S b) (h : g.Resolves x b v) :
    g'.Resolves x b v := by
  induction h with
  | @bound b v hbound => exact .bound (by rw [hbind b hb, hbound])
  | @above b p v hnone hp _ ih =>
    exact .above (by rw [hbind b hb, hnone]) (by rw [hparent b hb, hp]) (ih (hS b p hb hp))
  | @nowhere b hnone hp =>
    exact .nowhere (by rw [hbind b hb, hnone]) (by rw [hparent b hb, hp])

end Resolves

theorem SameSkeleton.parent_eq {g g' : Graph} (h : SameSkeleton g g') (b : BlockId) :
    g'.parent b = g.parent b := by
  rw [parent, parent, h.hasRole_eq, h.hasRole_eq, h.prev_eq, h.prev_eq]

end Graph

theorem idxOf_lt_of_pair {l : List BlockId} (hl : l.Nodup) {a b : BlockId}
    (h : [a, b].Sublist l) : l.idxOf a < l.idxOf b := by
  induction l with
  | nil => cases h
  | cons c l ih =>
    obtain ⟨hc, hl'⟩ := List.nodup_cons.1 hl
    cases h with
    | cons _ h' =>
      have hca : c ≠ a := fun heq => hc (heq ▸ h'.subset (by simp))
      have hcb : c ≠ b := fun heq => hc (heq ▸ h'.subset (by simp))
      rw [List.idxOf_cons_ne _ hca, List.idxOf_cons_ne _ hcb]
      exact Nat.succ_lt_succ (ih hl' h')
    | cons_cons _ h' =>
      have hcb : a ≠ b := fun heq => hc (heq ▸ h'.subset (by simp))
      rw [List.idxOf_cons_self, List.idxOf_cons_ne _ hcb]
      exact Nat.succ_pos _

namespace Layout

variable {g : Graph} {w : Site}

/-- The scope parent comes first in the order of the text. -/
theorem parent_before (l : Layout g w) {b p : BlockId} (h : g.parent b = some p) :
    [p, b].Sublist w.order := by
  rw [Graph.parent] at h
  split at h
  · rename_i hrole
    refine l.branch_forward p b ((l.linked .branch p b).2 h) ?_
    cases hloop : g.hasRole b .loopHead with
    | false => rfl
    | true =>
      have := l.headed b hloop
      simp [this] at hrole
  · exact l.fall_forward p b ((l.linked .fall p b).2 h)

theorem parent_lt (l : Layout g w) {b p : BlockId} (h : g.parent b = some p) :
    p < g.blocks.size :=
  (l.mem_order p).1 ((l.parent_before h).subset (by simp))

theorem exists_resolveWithin (l : Layout g w) (x : Var) (fuel : Nat) {b : BlockId}
    (hb : b < g.blocks.size) (hfuel : w.order.idxOf b < fuel) :
    ∃ v, g.resolveWithin x fuel b = .ok v ∧ g.Resolves x b v := by
  induction fuel generalizing b with
  | zero => exact absurd hfuel (Nat.not_lt_zero _)
  | succ fuel ih =>
    obtain ⟨blk, hblk⟩ := Graph.exists_block hb
    have hblk' : g.block b = .ok blk := Graph.block_eq_ok_iff.2 hblk
    have hbind : g.binding b x = blk.symbols.get? x := by rw [Graph.binding, hblk]; rfl
    have hpar := Graph.scopeParent_eq hblk
    cases hget : blk.symbols.get? x with
    | some v =>
      refine ⟨v, ?_, .bound (by rw [hbind, hget])⟩
      simp only [Graph.resolveWithin, hblk', hget, bind, Except.bind]
    | none =>
      cases hp : g.parent b with
      | none =>
        refine ⟨none, ?_, .nowhere (by rw [hbind, hget]) hp⟩
        simp only [Graph.resolveWithin, hblk', hget, hpar, hp, bind, Except.bind]
      | some p =>
        have hbefore := idxOf_lt_of_pair l.nodup (l.parent_before hp)
        obtain ⟨v, hv, hres⟩ := ih (l.parent_lt hp) (by omega)
        refine ⟨v, ?_, .above (by rw [hbind, hget]) hp hres⟩
        simp only [Graph.resolveWithin, hblk', hget, hpar, hp, bind, Except.bind]
        exact hv

theorem length_order_le (l : Layout g w) : w.order.length ≤ g.blocks.size := by
  have hsub : w.order ⊆ List.range g.blocks.size := fun c hc =>
    List.mem_range.2 ((l.mem_order c).1 hc)
  have := (List.Nodup.subperm l.nodup hsub).length_le
  rwa [List.length_range] at this

/-- **A look-up ends**, and finds what the variable means. -/
theorem exists_resolve (l : Layout g w) {b : BlockId} (hb : b < g.blocks.size) (x : Var) :
    ∃ v, g.resolve b x = .ok v ∧ g.Resolves x b v := by
  refine l.exists_resolveWithin x _ hb ?_
  have hlen := l.length_order_le
  have := List.idxOf_le_length (a := b) (l := w.order)
  omega

theorem resolves_iff (l : Layout g w) {b : BlockId} (hb : b < g.blocks.size) (x : Var)
    (v : Option InstrId) : g.resolve b x = .ok v ↔ g.Resolves x b v := by
  obtain ⟨v', hv', hres⟩ := l.exists_resolve hb x
  constructor
  · intro h
    rw [hv'] at h
    cases h
    exact hres
  · intro h
    rw [hv', hres.unique h]

theorem resolves_meaning (l : Layout g w) {b : BlockId} (hb : b < g.blocks.size) (x : Var) :
    g.Resolves x b (g.meaning b x) := by
  obtain ⟨v, hv, hres⟩ := l.exists_resolve hb x
  rw [Graph.meaning, hv]
  exact hres

theorem resolve_eq (l : Layout g w) {b : BlockId} (hb : b < g.blocks.size) (x : Var) :
    g.resolve b x = .ok (g.meaning b x) :=
  (l.resolves_iff hb x _).2 (l.resolves_meaning hb x)

theorem meaning_eq (l : Layout g w) {b : BlockId} (hb : b < g.blocks.size) {x : Var}
    {v : Option InstrId} (h : g.Resolves x b v) : g.meaning b x = v :=
  (l.resolves_meaning hb x).unique h

end Layout
end StructuredSSA
