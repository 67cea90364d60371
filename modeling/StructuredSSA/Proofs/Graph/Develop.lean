import StructuredSSA.Proofs.Graph.Contents
import StructuredSSA.Proofs.Graph.Wire

/-!
# How a graph develops

Once an instruction has been added it is never taken away, and little of it changes: the values that
its operands have, the target of a branch, and what stands in for it.  The rest is its *outline*.
This is so whatever the graph looks like, so nothing is asked of it here.

## What is here

* `Operation.outline` — what stays of an operation.
* `Instr.Keeps`, `Graph.Keeps` — an instruction later on, and a graph that still has what another
  has.
* `Graph.Reworks` — changes that add nothing and leave the blocks as they are.
* `Graph.Alters`, `Graph.Develops` — one change to a graph under construction, and changes in a row.
* `Graph.Develops.wired`, `Graph.Develops.keeps` — what all of them keep.
-/

set_option autoImplicit false

namespace StructuredSSA

/-! ## Outlines -/

namespace Operation

/-- What stays of an operation: all but the values of its operands and the target of a branch. -/
def outline : Operation → Operation
  | .branch cond _ => .branch cond none
  | op => op.mapOperands fun o => { o with value := none }

theorem outline_mapOperands {f : Operand → Operand} (hf : ∀ o, (f o).var = o.var) (op : Operation) :
    (op.mapOperands f).outline = op.outline := by
  cases op <;> simp [outline, mapOperands, hf]

theorem outline_redirect (x : Var) (old : Option InstrId) (new : InstrId) (op : Operation) :
    (op.redirect x old new).outline = op.outline :=
  outline_mapOperands (Operand.var_redirect x old new) op

theorem outline_setSide (side : Side) (value : Option InstrId) (op : Operation) :
    (op.setSide side value).outline = op.outline := by
  cases op with
  | binary k l r => cases side <;> rfl
  | _ => rfl

theorem outline_aim (t : Target) (op : Operation) : (op.aim t).outline = op.outline := by
  cases op <;> rfl

@[simp] theorem isPhi_outline (op : Operation) : op.outline.isPhi = op.isPhi := by
  cases op with
  | binary k l r => cases k <;> rfl
  | _ => rfl

@[simp] theorem arith?_outline (op : Operation) : op.outline.arith? = op.arith? := by
  cases op <;> rfl

end Operation

/-- `ins'` is the instruction `ins` later on. -/
structure Instr.Keeps (ins ins' : Instr) : Prop where
  id_eq : ins'.id = ins.id
  block_eq : ins'.block = ins.block
  outline_eq : ins'.op.outline = ins.op.outline

namespace Instr.Keeps

variable {ins ins' ins'' : Instr}

theorem refl (ins : Instr) : ins.Keeps ins := ⟨rfl, rfl, rfl⟩

theorem trans (h : ins.Keeps ins') (h' : ins'.Keeps ins'') : ins.Keeps ins'' :=
  ⟨h'.id_eq.trans h.id_eq, h'.block_eq.trans h.block_eq, h'.outline_eq.trans h.outline_eq⟩

theorem isPhi_eq (h : ins.Keeps ins') : ins'.op.isPhi = ins.op.isPhi := by
  rw [← Operation.isPhi_outline, h.outline_eq, Operation.isPhi_outline]

theorem arith?_eq (h : ins.Keeps ins') : ins'.op.arith? = ins.op.arith? := by
  rw [← Operation.arith?_outline, h.outline_eq, Operation.arith?_outline]

end Instr.Keeps

namespace Graph

/-- `g'` still has every instruction of `g`. -/
def Keeps (g g' : Graph) : Prop :=
  ∀ i ins, g.instr? i = some ins → ∃ ins', g'.instr? i = some ins' ∧ ins.Keeps ins'

/-- The same blocks with the same instructions in them, some of which have been changed. -/
structure Reworks (g g' : Graph) : Prop where
  skeleton : SameSkeleton g g'
  nextId_eq : g'.nextId = g.nextId
  listed_eq : ∀ b, g'.listed b = g.listed b
  offered_eq : ∀ b, g'.offered b = g.offered b
  keeps : Keeps g g'

variable {g g' g'' : Graph}

namespace Keeps

theorem refl (g : Graph) : Keeps g g := fun _ ins hins => ⟨ins, hins, .refl ins⟩

theorem trans (h : Keeps g g') (h' : Keeps g' g'') : Keeps g g'' := by
  intro i ins hins
  obtain ⟨ins', hins', hkeeps⟩ := h i ins hins
  obtain ⟨ins'', hins'', hkeeps'⟩ := h' i ins' hins'
  exact ⟨ins'', hins'', hkeeps.trans hkeeps'⟩

theorem nextId_le (h : Keeps g g') : g.nextId ≤ g'.nextId := by
  refine Nat.le_of_not_lt fun hlt => ?_
  obtain ⟨ins, hins⟩ := Graph.exists_instr ⟨Nat.succ_pos _, hlt⟩
  obtain ⟨ins', hins', -⟩ := h _ ins hins
  exact Nat.lt_irrefl _ (lt_nextId_of_instr? hins').2

theorem of_instr? (h : ∀ i, g'.instr? i = g.instr? i) : Keeps g g' := fun i ins hins =>
  ⟨ins, by rw [h, hins], .refl ins⟩

/-- Where no instruction has been added, each comes from one that was there. -/
theorem exists_instr (h : Keeps g g') (hid : g'.nextId = g.nextId) {i : InstrId} {ins' : Instr}
    (hins' : g'.instr? i = some ins') : ∃ ins, g.instr? i = some ins ∧ ins.Keeps ins' := by
  have hi := lt_nextId_of_instr? hins'
  rw [hid] at hi
  obtain ⟨ins, hins⟩ := Graph.exists_instr hi
  obtain ⟨ins₁, hins₁, hkeeps⟩ := h i ins hins
  obtain rfl : ins₁ = ins' := Option.some.inj (hins₁.symm.trans hins')
  exact ⟨ins, hins, hkeeps⟩

theorem home?_eq (h : Keeps g g') (hid : g'.nextId = g.nextId) (i : InstrId) :
    g'.home? i = g.home? i := by
  rw [home?, home?]
  cases hins' : g'.instr? i with
  | none =>
    cases hins : g.instr? i with
    | none => rfl
    | some ins =>
      obtain ⟨ins', h', -⟩ := h i ins hins
      rw [hins'] at h'
      cases h'
  | some ins' =>
    obtain ⟨ins, hins, hkeeps⟩ := h.exists_instr hid hins'
    rw [hins, Option.map_some, Option.map_some, hkeeps.block_eq]

/-- An instruction that is there keeps its kind. -/
theorem isPhi_eq (h : Keeps g g') {i : InstrId} (hi : (g.instr? i).isSome = true) :
    g'.isPhi i = g.isPhi i := by
  obtain ⟨ins, hins⟩ := Option.isSome_iff_exists.1 hi
  obtain ⟨ins', hins', hkeeps⟩ := h i ins hins
  rw [isPhi, isPhi, hins, hins']
  exact hkeeps.isPhi_eq

/-- Arithmetic that is there stays arithmetic with the same opcode. -/
theorem arith?_eq (h : Keeps g g') {i : InstrId} {op : Operation} (hop : g.op? i = some op) :
    ∃ op', g'.op? i = some op' ∧ op'.arith? = op.arith? := by
  obtain ⟨ins, hins, rfl⟩ := Option.map_eq_some_iff.1 hop
  obtain ⟨ins', hins', hkeeps⟩ := h i ins hins
  exact ⟨ins'.op, by rw [op?, hins', Option.map_some], hkeeps.arith?_eq⟩

end Keeps

/-! ## Reworking -/

namespace Reworks

theorem trans (h : Reworks g g') (h' : Reworks g' g'') : Reworks g g'' :=
  ⟨h.skeleton.trans h'.skeleton, h'.nextId_eq.trans h.nextId_eq,
    fun b => (h'.listed_eq b).trans (h.listed_eq b),
    fun b => (h'.offered_eq b).trans (h.offered_eq b), h.keeps.trans h'.keeps⟩

theorem of_sameShape (h : SameShape g g') (hop : ∀ i, g'.op? i = g.op? i) : Reworks g g' := by
  refine ⟨h.skeleton, h.nextId_eq, h.listed_eq, h.offered_eq, fun i ins hins => ?_⟩
  obtain ⟨ins', hins'⟩ := Option.isSome_iff_exists.1
    ((h.instr?_isSome_eq i).trans (by rw [hins]; rfl))
  obtain ⟨ins₁, hins₁, hid, hblock, -⟩ := h.instr?_similar i ins' hins'
  obtain rfl : ins = ins₁ := Option.some.inj (hins.symm.trans hins₁)
  have hop := hop i
  rw [op?, hins', op?, hins] at hop
  exact ⟨ins', hins', hid, hblock, congrArg Operation.outline (Option.some.inj hop)⟩

theorem of_rebinds {b : BlockId} (h : Rebinds g b g') : Reworks g g' :=
  ⟨h.skeleton, h.nextId_eq, h.listed_eq, h.offered_eq, .of_instr? h.instr?_eq⟩

theorem modifyInstr (g : Graph) (i : InstrId) {f : Instr → Instr}
    (hf : ∀ ins : Instr, ins.Keeps (f ins)) : Reworks g (g.modifyInstr i f) := by
  refine ⟨sameSkeleton_modifyInstr g i f, nextId_modifyInstr g i f, listed_modifyInstr g i f,
    offered_modifyInstr g i f, fun j ins hins => ?_⟩
  rw [instr?_modifyInstr, hins]
  split
  · exact ⟨f ins, rfl, hf ins⟩
  · exact ⟨ins, rfl, .refl ins⟩

theorem mapOp (g : Graph) (i : InstrId) {f : Operation → Operation}
    (hf : ∀ op, (f op).outline = op.outline) : Reworks g (g.modifyInstr i (·.mapOp f)) :=
  modifyInstr g i fun ins => ⟨rfl, rfl, hf ins.op⟩

theorem setStandIn (g : Graph) (i : InstrId) (e : Option InstrId) :
    Reworks g (g.modifyInstr i (·.setStandIn e)) :=
  modifyInstr g i fun _ => ⟨rfl, rfl, rfl⟩

theorem targetOf {b : BlockId} {t : Target} (h : g.targetOf b = .ok (t, g')) : Reworks g g' := by
  obtain ⟨blk, -, h⟩ := bind_eq_ok_iff.1 h
  split at h <;> cases h
  · exact of_sameShape (.refl g) fun _ => rfl
  · exact of_sameShape (sameShape_await g b) (op?_modifyBlock g b _)

theorem wired (h : Reworks g g') (w : g.Wired) : g'.Wired := w.of_sameSkeleton h.skeleton

theorem isPhi_eq (h : Reworks g g') (i : InstrId) : g'.isPhi i = g.isPhi i := by
  cases hi : (g.instr? i).isSome with
  | true => exact h.keeps.isPhi_eq hi
  | false =>
    have hi' : (g'.instr? i).isSome = false := by
      rw [Bool.eq_false_iff, ne_eq, instr?_isSome_iff] at hi ⊢
      rwa [h.nextId_eq]
    rw [Option.isSome_eq_false_iff, Option.isNone_iff_eq_none] at hi hi'
    rw [isPhi, isPhi, hi, hi']

end Reworks

/-! ## Develops -/

theorem Places.keeps {b : BlockId} {op : Operation} (h : Places g b op g') : Keeps g g' := by
  intro i ins hins
  have hi : i ≠ g.nextId := Nat.ne_of_lt (lt_nextId_of_instr? hins).2
  rcases h.instr?_old i hi with heq | ⟨ins₁, ins', hins₁, hins', c, hop, rfl⟩
  · exact ⟨ins, by rw [heq, hins], .refl ins⟩
  · obtain rfl : ins = ins₁ := Option.some.inj (hins.symm.trans hins₁)
    exact ⟨_, hins', rfl, rfl, by rw [hop]; rfl⟩

/-- **One change** to a graph under construction. -/
inductive Alters (g : Graph) : Graph → Prop where
  | wire {g' : Graph} (h : Wires g g') : Alters g g'
  | rework {g' : Graph} (h : Reworks g g') : Alters g g'
  | place {b : BlockId} {op : Operation} {g' : Graph} (h : Places g b op g') : Alters g g'

/-- Changes in a row. -/
def Develops : Graph → Graph → Prop := Relation.ReflTransGen Alters

namespace Alters

theorem wired (h : Alters g g') (w : g.Wired) : g'.Wired := by
  cases h with
  | wire h => exact h.wired w
  | rework h => exact h.wired w
  | place h => exact w.of_sameSkeleton h.skeleton

theorem keeps (h : Alters g g') : Keeps g g' := by
  cases h with
  | wire h => exact .of_instr? h.sameStock.instr?_eq
  | rework h => exact h.keeps
  | place h => exact h.keeps

end Alters

namespace Develops

theorem rewires (h : Rewires g g') : Develops g g' :=
  Relation.ReflTransGen.mono (p := Alters) (fun _ _ h => .wire h) _ _ h

theorem rework (h : Reworks g g') : Develops g g' := .single (.rework h)

/-- **What each change preserves**, changes in a row preserve. -/
theorem invariant {P : Graph → Prop} (h : Develops g g') (step : ∀ f f', Alters f f' → P f → P f')
    (hg : P g) : P g' := by
  induction h with
  | refl => exact hg
  | tail _ hlast ih => exact step _ _ hlast ih

theorem wired (h : Develops g g') (w : g.Wired) : g'.Wired :=
  h.invariant (fun _ _ halters => halters.wired) w

theorem keeps (h : Develops g g') : Keeps g g' :=
  h.invariant (fun _ _ halters hkeeps => hkeeps.trans halters.keeps) (.refl g)

end Develops

end Graph
end StructuredSSA
