import StructuredSSA.Proofs.Body.Dominance
import StructuredSSA.Proofs.Body.Levels
import StructuredSSA.Proofs.Layout.Entry

/-!
# Where the sides of phis come from

The sides of the phis of an open construct come from the blocks that the construct names: the side
being built from the tail, and the other side from a block behind construction.  When another
construct is opened, a side may come from a new block, which only adds to the way there.

## What is here

* `Bare.entry_side`, `Bare.entry_other` — the sides of an open construct.
* `Graph.KeepsEntries` — where the sides of phis come from when the graph grows.
* `Layout.keepsEntries_openIf`, `Layout.keepsEntries_openElse`, `Layout.keepsEntries_openLoop` — the
  three cases.
-/

set_option autoImplicit false

namespace StructuredSSA

namespace Bare

variable {g : Graph} {w : Site} {f : Frame} {fs : List Frame}

theorem branches_elseSide (hb : Bare g w) (l : Layout g w) (hf : f ∈ w.frames) {tt : BlockId}
    (hpart : f.part = .elseSide tt) :
    g.thenBranches f.target = true ∧ g.prev .branch f.target = some tt := by
  obtain ⟨-, hbranch, -, -, horigin, hjoin⟩ := l.framed_elseSide hf hpart
  have hprev := (l.linked .branch _ _).1 hbranch
  have hhead : g.hasRole f.target .loopHead = false := by
    rw [Bool.eq_false_iff]
    intro h
    have hnot := (l.headed _ h).2.2
    rw [hjoin] at hnot
    cases hnot
  refine ⟨?_, hprev⟩
  simp [Graph.thenBranches, hprev, horigin, hhead, hb.distinct f hf tt hpart]

/-- The side being built comes from the tail. -/
theorem entry_side (hb : Bare g w) (l : Layout g w) (hframes : w.frames = f :: fs) :
    g.entry f.side f.phiBlock = some w.tail := by
  have hf : f ∈ w.frames := by simp [hframes]
  have htail : ∀ e c, f.exit e = some c → g.prev e c = some w.tail := fun e c hc => by
    refine (l.linked e _ _).1 ?_
    rw [l.next_tail_of_cons hframes, hc]
  cases hpart : f.part with
  | thenSide =>
    obtain ⟨hthen, -⟩ := l.branches_thenSide hf hpart
    simp only [Frame.side, Frame.phiBlock, hpart, Graph.entry, hthen]
    exact htail .fall f.target (by simp [Frame.exit, hpart])
  | elseSide tt =>
    obtain ⟨hthen, -⟩ := hb.branches_elseSide l hf hpart
    simp only [Frame.side, Frame.phiBlock, hpart, Graph.entry, hthen, if_true]
    exact htail .fall f.target (by simp [Frame.exit, hpart])
  | loopBody =>
    have hthen : g.thenBranches f.test = false := by
      simp [Graph.thenBranches, (l.framed_loopBody hf hpart).1]
    simp only [Frame.side, Frame.phiBlock, hpart, Graph.entry, hthen]
    exact htail .branch f.test (by simp [Frame.exit, hpart])

/-- The other side of a join comes from a block behind construction. -/
theorem entry_other (hb : Bare g w) (l : Layout g w) (hf : f ∈ w.frames)
    (hpart : f.part ≠ .loopBody)
    {side : Side} (hside : side ≠ f.side) : ∃ q ∈ f.behind, g.entry side f.phiBlock = some q ∧
      ∀ x, g.meaning f.test x = f.before x → f.other g x = g.meaning q x := by
  cases hp : f.part with
  | thenSide =>
    obtain ⟨hthen, hprev⟩ := l.branches_thenSide hf hp
    have hsecond : side = .second := by
      cases side with
      | first => simp [Frame.side, hp] at hside
      | second => rfl
    subst hsecond
    refine ⟨f.test, Layout.test_mem_behind f, ?_, fun x hx => ?_⟩
    · simp only [Frame.phiBlock, hp, Graph.entry, hthen]
      exact hprev
    · rw [Frame.other, hp, hx]
  | elseSide tt =>
    obtain ⟨hthen, hprev⟩ := hb.branches_elseSide l hf hp
    have hfirst : side = .first := by
      cases side with
      | first => rfl
      | second => simp [Frame.side, hp] at hside
    subst hfirst
    refine ⟨tt, by simp [Frame.behind, hp], ?_, fun x _ => ?_⟩
    · simp only [Frame.phiBlock, hp, Graph.entry, hthen, if_true]
      exact hprev
    · rw [Frame.other, hp]
  | loopBody => exact absurd hp hpart

end Bare

/-! ## Opening a construct -/

/-- Each side of a phi that was there comes from a block that is dominated by the one it came
from. -/
def Graph.KeepsEntries (g : Graph) (w : Site) (g' : Graph) : Prop :=
  ∀ b side q, b < g.blocks.size → (b = w.tail → g.listed b ≠ []) →
    g.hasRole b .join = true ∨ g.hasRole b .loopHead = true → g.entry side b = some q →
    ∃ q', g'.entry side b = some q' ∧ g'.Dominates Body.head q q'

namespace Layout

variable {g g' : Graph} {w : Site}

theorem keepsEntries_openIf (l : Layout g w) {join side : BlockId}
    (h : g.OpensIf w.tail join side g') : g.KeepsEntries w g' := by
  intro b s q hlt _ hrole hq
  have hne : b ≠ join := by
    rw [h.join_eq]
    exact Nat.ne_of_lt hlt
  refine ⟨_, l.entry_takenOver h.linked h.next_join h.next_other ?_ ?_ hrole hq, ?_⟩
  · simp [h.hasRole_eq]
  · rw [h.originOf_eq, if_neg hne]
  · split
    · rename_i heq
      rw [heq]
      exact (h.grafts l.linked l.tail_lt).dominates_new (Nat.lt_of_le_of_lt (Nat.zero_le _) hlt)
        (Nat.le_of_eq h.join_eq.symm)
    · exact .refl _ _ _

theorem keepsEntries_openLoop (l : Layout g w) {head body exit : BlockId}
    (h : g.OpensLoop w.tail head body exit g') : g.KeepsEntries w g' := by
  intro b s q hlt htail hrole hq
  have hne : b ≠ exit := Nat.ne_of_lt (Nat.lt_of_lt_of_le hlt h.size_le_exit)
  have hhead : b ≠ head := by
    rintro rfl
    rcases h.head_eq with ⟨heq, -, hnil, -⟩ | ⟨heq, -⟩
    · exact htail heq (heq ▸ hnil)
    · exact absurd hlt (by rw [heq]; exact Nat.lt_irrefl _)
  refine ⟨_, l.entry_takenOver h.linked h.next_exit h.next_other ?_ ?_ hrole hq, ?_⟩
  · simp [h.hasRole_eq, hhead]
  · rw [h.originOf_eq, if_neg hne]
  · split
    · rename_i heq
      rw [heq]
      exact (h.grafts l.linked l.tail_lt).dominates_new
        (Nat.lt_of_le_of_lt (Nat.zero_le _) hlt) h.size_le_exit
    · exact .refl _ _ _

/-- When an else side is opened, the second side of the join comes from there. -/
theorem keepsEntries_openElse (l : Layout g w) (hb : Bare g w) {f : Frame} {fs : List Frame}
    (hframes : w.frames = f :: fs) (hpart : f.part = .thenSide) {side : BlockId}
    (h : g.OpensElse f.test f.target w.tail side g') (hgrafts : g.Grafts f.test g') :
    g.KeepsEntries w g' := by
  intro b s q hlt _ hrole hq
  have hf : f ∈ w.frames := by simp [hframes]
  have hframed := l.framed_thenSide hf hpart
  have hexit : ∀ e, g.next e w.tail = f.exit e := l.next_tail_of_cons hframes
  by_cases hbt : b = f.target
  · subst hbt
    have hw := Site.openElse_eq hframes side
    have l' := l.openElse hframes hpart h
    have hb' := hb.openElse l hframes hpart h
    rw [hw] at l' hb'
    obtain ⟨hthen, hprev⟩ := hb'.branches_elseSide (f := { f with part := .elseSide w.tail }) l'
      (by simp) rfl
    obtain ⟨hthen', hprev'⟩ := l.branches_thenSide hf hpart
    cases s with
    | first =>
      have hfall := hb.entry_side l hframes
      simp only [Frame.side, Frame.phiBlock, hpart] at hfall
      rw [hfall, Option.some.injEq] at hq
      subst hq
      exact ⟨w.tail, by simp only [Graph.entry, hthen, if_true]; exact hprev, .refl _ _ _⟩
    | second =>
      simp only [Graph.entry, hthen', hprev'] at hq
      cases hq
      refine ⟨side, hb'.entry_side (f := { f with part := .elseSide w.tail }) l' rfl, ?_⟩
      exact hgrafts.dominates_new (Nat.lt_of_le_of_lt (Nat.zero_le _) hlt)
        (Nat.le_of_eq h.side_eq.symm)
  · have hprev : ∀ e a, g.prev e b = some a → g'.prev e b = some a := by
      intro e a ha
      have hnext := (l.linked e a b).2 ha
      have hat : a ≠ w.tail := by
        rintro rfl
        rw [hexit] at hnext
        cases e <;> simp [Frame.exit, hpart] at hnext
        exact hbt hnext.symm
      refine (h.linked e a b).1 ?_
      by_cases hap : a = f.test
      · subst hap
        cases e with
        | fall => rw [h.fall_parent, hnext]
        | branch =>
          rw [hframed.2.1, Option.some.injEq] at hnext
          exact absurd hnext.symm hbt
      · rw [h.next_other e a (Graph.lt_size_of_next hnext) hat hap, hnext]
    exact ⟨q, Graph.entry_moved (m := id) (l.thenBranches_eq hrole (by simp [h.hasRole_eq])
      (h.originOf_eq b) fun a _ => hprev .branch a) hprev hq, .refl _ _ _⟩

end Layout
end StructuredSSA
