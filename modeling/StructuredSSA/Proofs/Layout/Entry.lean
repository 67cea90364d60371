import StructuredSSA.Body.Merge
import StructuredSSA.Graph.Exec
import StructuredSSA.Proofs.Graph.Dominance
import StructuredSSA.Proofs.Layout.Scope

/-!
# What the sides of a phi bring

A phi selects by the edge on which control arrives, so each of its sides belongs to a block that
leads to it.  At a join the first side belongs to the end of the then side, and the second to the
end of the else side or, if there is none, to the if block itself.  At a loop header the second side
belongs to the end of the body.

A side of a phi *brings* the right value if it is what the variable means in that block.

## What is here

* `Graph.entry` — the block that a side of the phis of a block belongs to.
* `Graph.phiOperand?` — the operand of a phi.
* `Graph.Brings`, `Graph.PhisAgree` — phis whose operands are right.
* `Layout.brings_iff` — the same in terms of `Graph.meaning`.
-/

set_option autoImplicit false

namespace StructuredSSA

/-- The operand of a phi on one side. -/
def Operation.side? (side : Side) : Operation → Option Operand
  | .binary .phi l r =>
    match side with
    | .first => some l
    | .second => some r
  | _ => none

namespace Operation

theorem side?_mapOperands (f : Operand → Operand) (side : Side) (op : Operation) :
    (op.mapOperands f).side? side = (op.side? side).map f := by
  cases op with
  | binary k l r => cases k <;> cases side <;> rfl
  | _ => rfl

theorem side?_setSide (side side' : Side) (v : Option InstrId) (op : Operation) :
    (op.setSide side' v).side? side =
      (op.side? side).map fun o => if side = side' then { o with value := v } else o := by
  cases op with
  | binary k l r => cases k <;> cases side <;> cases side' <;> rfl
  | _ => rfl

theorem isPhi_of_side? {op : Operation} {side : Side} {o : Operand} (h : op.side? side = some o) :
    op.isPhi = true := by
  cases op with
  | binary k l r => cases k <;> first | rfl | cases h
  | _ => cases h

theorem mem_operands_of_side? {op : Operation} {side : Side} {o : Operand}
    (h : op.side? side = some o) : o ∈ op.operands := by
  cases op with
  | binary k l r => cases k <;> cases side <;> cases h <;> simp [operands]
  | _ => cases h

end Operation

namespace Graph

/-- The then side of the if that `b` joins branches to `b`, because there is an else side, which
falls through. -/
def thenBranches (g : Graph) (b : BlockId) : Bool :=
  !g.hasRole b .loopHead && g.prev .branch b != g.originOf b

/-- The block from which control brings the given side of the phis of `b`. -/
def entry (g : Graph) (side : Side) (b : BlockId) : Option BlockId :=
  match side with
  | .first => if g.thenBranches b then g.prev .branch b else g.prev .fall b
  | .second => if g.thenBranches b then g.prev .fall b else g.prev .branch b

/-- The operand of the phi `i` on one side. -/
def phiOperand? (g : Graph) (i : InstrId) (side : Side) : Option Operand :=
  (g.op? i).bind (·.side? side)

/-- The operand of the phi `i` on the given side is what its variable means where it comes from. -/
def Brings (g : Graph) (i : InstrId) (side : Side) : Prop :=
  ∃ b q x v, g.home? i = some b ∧ g.entry side b = some q ∧
    g.phiOperand? i side = some (.through x v) ∧ g.resolve q x = .ok v

/-- The sides of the phis of `b` that are looked at: both at a join, and the second one at a loop
header.  The first side of a header brings what the variable meant where the loop was opened, and
that may be the header itself. -/
def Checked (g : Graph) (b : BlockId) (side : Side) : Prop :=
  g.hasRole b .join = true ∨ g.hasRole b .loopHead = true ∧ side = .second

/-- **The phis of joins and loop headers agree with the blocks that lead to them.** -/
def PhisAgree (g : Graph) : Prop :=
  ∀ i b side, g.isPhi i = true → g.home? i = some b → g.Checked b side → g.Brings i side

/-! ## Operands -/

theorem isPhi_of_phiOperand? {g : Graph} {i : InstrId} {side : Side} {o : Operand}
    (h : g.phiOperand? i side = some o) : g.isPhi i = true := by
  obtain ⟨op, hop, hside⟩ := Option.bind_eq_some_iff.1 h
  rw [isPhi_eq, hop]
  exact Operation.isPhi_of_side? hside

theorem phiOperand?_congr {g g' : Graph} {i : InstrId}
    (h : ∀ o, o.isPhi = true → (g'.op? i = some o ↔ g.op? i = some o)) (side : Side) :
    g'.phiOperand? i side = g.phiOperand? i side := by
  have hone : ∀ {g g' : Graph}, (∀ o, o.isPhi = true → (g'.op? i = some o ↔ g.op? i = some o)) →
      ∀ o, g.phiOperand? i side = some o → g'.phiOperand? i side = some o := by
    intro g g' h o ho
    have hphi := isPhi_of_phiOperand? ho
    rw [isPhi_eq, Option.any_eq_true] at hphi
    obtain ⟨op, hop, hop'⟩ := hphi
    rw [phiOperand?, (h op hop').2 hop]
    rw [phiOperand?, hop] at ho
    exact ho
  refine Option.ext fun o => ⟨hone (fun o ho => (h o ho).symm) o, hone h o⟩

/-- The operands of a phi are read through one variable. -/
theorem Contents.exists_phi {g : Graph} (hc : g.Contents) {i : InstrId} (h : g.isPhi i = true) :
    ∃ x l r, g.op? i = some (.phi x l r) := by
  rw [isPhi_eq, Option.any_eq_true] at h
  obtain ⟨op, hop, hphi⟩ := h
  cases op with
  | binary k l r =>
    cases k with
    | phi =>
      obtain ⟨x, hl, hr⟩ := hc.phi_vars i l r hop
      obtain ⟨vl, varl⟩ := l
      obtain ⟨vr, varr⟩ := r
      obtain rfl : varl = some x := hl
      obtain rfl : varr = some x := hr
      exact ⟨x, vl, vr, hop⟩
    | _ => cases hphi
  | _ => cases hphi

theorem phiOperand?_phi {g : Graph} {i : InstrId} {x : Var} {l r : Option InstrId}
    (h : g.op? i = some (.phi x l r)) (side : Side) : g.phiOperand? i side =
      some (.through x (match side with | .first => l | .second => r)) := by
  rw [phiOperand?, h]
  cases side <;> rfl

/-! ## Entries -/

/-- The sides belong to the edges that execution takes them to belong to. -/
theorem entry_eq_some_iff {g : Graph} {b q : BlockId} {blk : Block} (h : g.block? b = some blk)
    (side : Side) : g.entry side b = some q ↔
      ∃ e, (arrivesFirst blk e = true ↔ side = .first) ∧ g.prev e b = some q := by
  have hthen : g.thenBranches b = (!blk.hasRole .loopHead && blk.branchFrom != blk.origin) := by
    rw [thenBranches, hasRole, prev, originOf, h]
    rfl
  have hedge : ∀ e, arrivesFirst blk e = (g.thenBranches b == decide (e = .branch)) := by
    intro e
    rw [arrivesFirst, hthen]
    cases blk.hasRole .loopHead <;> by_cases horigin : blk.branchFrom = blk.origin <;> cases e <;>
      simp [horigin]
  have hexists : ∀ P : Edge → Prop, (∃ e, P e) ↔ P .fall ∨ P .branch := by
    intro P
    constructor
    · rintro ⟨e, he⟩
      cases e
      exacts [.inl he, .inr he]
    · rintro (h | h)
      exacts [⟨_, h⟩, ⟨_, h⟩]
  simp only [hedge, hexists]
  cases side <;> cases hb : g.thenBranches b <;> simp [entry, hb]

theorem entry_congr {g g' : Graph} {b : BlockId} (hprev : ∀ e, g'.prev e b = g.prev e b)
    (hrole : g'.hasRole b .loopHead = g.hasRole b .loopHead)
    (horigin : g'.originOf b = g.originOf b) (side : Side) : g'.entry side b = g.entry side b := by
  have hthen : g'.thenBranches b = g.thenBranches b := by
    rw [thenBranches, thenBranches, hprev, hrole, horigin]
  cases side <;> simp only [entry, hthen, hprev]

theorem SameSkeleton.entry_eq {g g' : Graph} (h : SameSkeleton g g') (side : Side) (b : BlockId) :
    g'.entry side b = g.entry side b :=
  entry_congr (fun e => h.prev_eq e b) (h.hasRole_eq b _) (h.originOf_eq b) side

/-- The sides of the phis in `b` come from where they came from, moved by `m`. -/
theorem entry_moved {g g' : Graph} {b q : BlockId} {m : BlockId → BlockId}
    (hthen : g'.thenBranches b = g.thenBranches b)
    (hprev : ∀ e a, g.prev e b = some a → g'.prev e b = some (m a)) {side : Side}
    (hq : g.entry side b = some q) : g'.entry side b = some (m q) := by
  cases side <;> rw [entry] at hq ⊢ <;> rw [hthen] <;> split at hq <;> rename_i h <;>
    simp only [h, if_true] <;> exact hprev _ _ hq

theorem SameSkeleton.checked_iff {g g' : Graph} (h : SameSkeleton g g') {b : BlockId}
    {side : Side} : g'.Checked b side ↔ g.Checked b side := by
  rw [Checked, Checked, h.hasRole_eq, h.hasRole_eq]

end Graph

namespace Layout

variable {g g' : Graph} {w : Site} {b : BlockId}

/-- Each side comes from a block that leads there. -/
theorem succ_of_entry (l : Layout g w) {side : Side} {q : BlockId} (h : g.entry side b = some q) :
    g.Succ q b := by
  rw [l.linked.succ_iff_prev]
  cases side <;> rw [Graph.entry] at h <;> split at h <;> exact ⟨_, h⟩

theorem entry_lt (l : Layout g w) {side : Side} {q : BlockId} (h : g.entry side b = some q) :
    q < g.blocks.size :=
  (l.linked.succ_lt (l.succ_of_entry h)).1

/-- The tail branches to loop headers only. -/
theorem loopHead_of_branch_tail (l : Layout g w) (h : g.next .branch w.tail = some b) :
    g.hasRole b .loopHead = true := by
  rw [l.next_tail] at h
  obtain ⟨f, hf, hexit⟩ := Option.bind_eq_some_iff.1 h
  have hframed := l.framed f (List.mem_of_mem_head? hf)
  cases hpart : f.part with
  | loopBody =>
    simp only [Frame.exit, hpart, Option.some.injEq] at hexit
    simp only [Frame.Framed, hpart] at hframed
    rw [← hexit]
    exact hframed.1
  | _ => simp [Frame.exit, hpart] at hexit

/-- A join is entered by a branch, so if its branch is the same, its sides are the same way
round. -/
theorem thenBranches_eq (l : Layout g w)
    (hrole : g.hasRole b .join = true ∨ g.hasRole b .loopHead = true)
    (hloop : g'.hasRole b .loopHead = g.hasRole b .loopHead)
    (horigin : g'.originOf b = g.originOf b)
    (hprev : ∀ a, g.hasRole b .loopHead = false → g.prev .branch b = some a →
      g'.prev .branch b = some a) : g'.thenBranches b = g.thenBranches b := by
  rw [Graph.thenBranches, Graph.thenBranches, hloop, horigin]
  cases hhead : g.hasRole b .loopHead with
  | true => rfl
  | false =>
    have hjoin : g.hasRole b .join = true :=
      hrole.resolve_right (by rw [hhead]; exact Bool.false_ne_true)
    obtain ⟨a, ha⟩ := Option.ne_none_iff_exists'.1 (l.branched b (.inr (.inr hjoin)))
    rw [hprev a hhead ha, ha]

/-- Another block takes over the edges of the tail. -/
theorem entry_takenOver (l : Layout g w) {exit : BlockId} (hlinked : g'.Linked)
    (hexit : ∀ e, g'.next e exit = g.next e w.tail)
    (hother : ∀ e a, a < g.blocks.size → a ≠ w.tail → g'.next e a = g.next e a)
    (hloop : g'.hasRole b .loopHead = g.hasRole b .loopHead)
    (horigin : g'.originOf b = g.originOf b)
    (hrole : g.hasRole b .join = true ∨ g.hasRole b .loopHead = true) {side : Side} {q : BlockId}
    (hq : g.entry side b = some q) :
    g'.entry side b = some (if q = w.tail then exit else q) := by
  have hprev : ∀ e a, g.prev e b = some a →
      g'.prev e b = some (if a = w.tail then exit else a) := by
    intro e a ha
    have hnext := (l.linked e a b).2 ha
    refine (hlinked e _ b).1 ?_
    split
    · rename_i heq
      rw [hexit, ← heq, hnext]
    · rename_i hne
      rw [hother e a (Graph.lt_size_of_next hnext) hne, hnext]
  refine Graph.entry_moved (m := fun a => if a = w.tail then exit else a)
    (l.thenBranches_eq hrole hloop horigin fun a hhead ha => ?_) hprev hq
  have hne : a ≠ w.tail := by
    rintro rfl
    rw [l.loopHead_of_branch_tail ((l.linked _ _ _).2 ha)] at hhead
    cases hhead
  rw [hprev .branch a ha, if_neg hne]

theorem branches_thenSide (l : Layout g w) {f : Frame}
    (hf : f ∈ w.frames) (hpart : f.part = .thenSide) :
    g.thenBranches f.target = false ∧ g.prev .branch f.target = some f.test := by
  obtain ⟨-, hbranch, horigin, -⟩ := l.framed_thenSide hf hpart
  have hprev := (l.linked .branch _ _).1 hbranch
  refine ⟨?_, hprev⟩
  rw [Graph.thenBranches, hprev, horigin]
  simp

/-- Whether a side brings the right value, once the block it comes from is known. -/
theorem brings_iff (l : Layout g w) {i : InstrId} {side : Side} {b q : BlockId} {x : Var}
    {v : Option InstrId} (hb : g.home? i = some b) (hq : g.entry side b = some q)
    (hlt : q < g.blocks.size) (hv : g.phiOperand? i side = some (.through x v)) :
    g.Brings i side ↔ v = g.meaning q x := by
  constructor
  · rintro ⟨b', q', x', v', hb', hq', hv', hres⟩
    rw [hb, Option.some.injEq] at hb'
    subst hb'
    rw [hq, Option.some.injEq] at hq'
    subst hq'
    rw [hv, Option.some.injEq, Operand.through, Operand.through, Operand.mk.injEq] at hv'
    obtain ⟨rfl, hx⟩ := hv'
    cases hx
    rw [l.resolves_iff hlt] at hres
    exact (l.meaning_eq hlt hres).symm
  · rintro rfl
    exact ⟨b, q, x, _, hb, hq, hv, (l.resolves_iff hlt x _).2 (l.resolves_meaning hlt x)⟩

end Layout
end StructuredSSA
