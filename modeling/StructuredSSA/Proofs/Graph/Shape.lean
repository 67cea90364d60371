import StructuredSSA.Body.Merge
import StructuredSSA.Proofs.Graph.View

/-!
# Changes that keep the shape of a graph

Once an instruction has been placed, only the values it reads and its stand-in change, and if it is
a branch its target.  `Operation.Similar` relates operations that differ in operand values only, and
`Graph.SameShape` relates graphs whose instructions are similar one by one.
-/

set_option autoImplicit false

namespace StructuredSSA

namespace Operation

/-- The variable that a phi selects for. -/
def phiVar? : Operation → Option Var
  | .binary .phi l _ => l.var
  | _ => none

/-- The same operation, read through the same variables, on values that may differ. -/
structure Similar (op op' : Operation) : Prop where
  isPhi_eq : op'.isPhi = op.isPhi
  arith_eq : op'.arith? = op.arith?
  vars_eq : op'.operands.map (·.var) = op.operands.map (·.var)
  branch_iff : ∀ c t, op' = .branch c t ↔ op = .branch c t

namespace Similar

theorem refl (op : Operation) : Similar op op := ⟨rfl, rfl, rfl, fun _ _ => Iff.rfl⟩

theorem symm {op op' : Operation} (h : Similar op op') : Similar op' op :=
  ⟨h.isPhi_eq.symm, h.arith_eq.symm, h.vars_eq.symm, fun c t => (h.branch_iff c t).symm⟩

theorem trans {op op' op'' : Operation} (h : Similar op op') (h' : Similar op' op'') :
    Similar op op'' where
  isPhi_eq := h'.isPhi_eq.trans h.isPhi_eq
  arith_eq := h'.arith_eq.trans h.arith_eq
  vars_eq := h'.vars_eq.trans h.vars_eq
  branch_iff c t := (h'.branch_iff c t).trans (h.branch_iff c t)

theorem isBranch_eq {op op' : Operation} (h : Similar op op') : op'.isBranch = op.isBranch := by
  cases hop : op with
  | branch c t => rw [(h.branch_iff c t).2 hop]
  | _ =>
    cases hop' : op' with
    | branch c t =>
      have := (h.branch_iff c t).1 hop'
      rw [hop] at this
      cases this
    | _ => rfl

theorem phiVar?_eq {op op' : Operation} (h : Similar op op') : op'.phiVar? = op.phiVar? := by
  have hphi := h.isPhi_eq
  have hvars := h.vars_eq
  cases op with
  | binary k l r =>
    cases op' with
    | binary k' l' r' => cases k <;> cases k' <;> simp_all [isPhi, operands, phiVar?]
    | _ => cases k <;> simp_all [isPhi, operands]
  | _ =>
    cases op' with
    | binary k' l' r' => cases k' <;> simp_all [isPhi, operands]
    | _ => rfl

end Similar

theorem similar_mapOperands {f : Operand → Operand} (hf : ∀ o, (f o).var = o.var)
    (op : Operation) : Similar op (op.mapOperands f) where
  isPhi_eq := isPhi_mapOperands f op
  arith_eq := arith?_mapOperands f op
  vars_eq := by
    rw [operands_mapOperands, List.map_map]
    exact List.map_congr_left fun o _ => hf o
  branch_iff c t := by cases op <;> simp [mapOperands]

theorem similar_redirect (x : Var) (old : Option InstrId) (new : InstrId) (op : Operation) :
    Similar op (op.redirect x old new) :=
  similar_mapOperands (Operand.var_redirect x old new) op

theorem similar_setSide (side : Side) (value : Option InstrId) (op : Operation) :
    Similar op (op.setSide side value) := by
  cases op with
  | binary k l r => cases side <;> exact ⟨by cases k <;> rfl, rfl, rfl, by simp [setSide]⟩
  | _ => exact .refl _

end Operation

namespace Graph

open Operation (Similar)

/-- The same blocks with the same contents, and instructions that differ in their operand values and
stand-ins at most. -/
structure SameShape (g g' : Graph) : Prop where
  skeleton : SameSkeleton g g'
  nextId_eq : g'.nextId = g.nextId
  instr?_similar : ∀ i ins', g'.instr? i = some ins' → ∃ ins, g.instr? i = some ins ∧
    ins'.id = ins.id ∧ ins'.block = ins.block ∧ Similar ins.op ins'.op
  listed_eq : ∀ b, g'.listed b = g.listed b
  binding_eq : ∀ b x, g'.binding b x = g.binding b x
  offered_eq : ∀ b, g'.offered b = g.offered b

namespace SameShape

variable {g g' g'' : Graph}

theorem refl (g : Graph) : SameShape g g :=
  ⟨.refl g, rfl, fun _ ins' h => ⟨ins', h, rfl, rfl, .refl _⟩, fun _ => rfl, fun _ _ => rfl,
    fun _ => rfl⟩

theorem trans (h : SameShape g g') (h' : SameShape g' g'') : SameShape g g'' where
  skeleton := h.skeleton.trans h'.skeleton
  nextId_eq := h'.nextId_eq.trans h.nextId_eq
  instr?_similar i ins'' hins'' := by
    obtain ⟨ins', hins', hid', hblock', hop'⟩ := h'.instr?_similar i ins'' hins''
    obtain ⟨ins, hins, hid, hblock, hop⟩ := h.instr?_similar i ins' hins'
    exact ⟨ins, hins, hid'.trans hid, hblock'.trans hblock, hop.trans hop'⟩
  listed_eq b := (h'.listed_eq b).trans (h.listed_eq b)
  binding_eq b x := (h'.binding_eq b x).trans (h.binding_eq b x)
  offered_eq b := (h'.offered_eq b).trans (h.offered_eq b)

theorem instr?_isSome_eq (h : SameShape g g') (i : InstrId) :
    (g'.instr? i).isSome = (g.instr? i).isSome := by
  rw [Bool.eq_iff_iff, instr?_isSome_iff, instr?_isSome_iff, h.nextId_eq]

theorem instr?_none_iff (h : SameShape g g') (i : InstrId) :
    g'.instr? i = none ↔ g.instr? i = none := by
  rw [← Option.not_isSome_iff_eq_none, ← Option.not_isSome_iff_eq_none, h.instr?_isSome_eq]

theorem home?_eq (h : SameShape g g') (i : InstrId) : g'.home? i = g.home? i := by
  rw [home?, home?]
  cases hins' : g'.instr? i with
  | none => rw [(h.instr?_none_iff i).1 hins']
  | some ins' =>
    obtain ⟨ins, hins, -, hblock, -⟩ := h.instr?_similar i ins' hins'
    rw [hins, Option.map_some, Option.map_some, hblock]

theorem op?_isSome_eq (h : SameShape g g') (i : InstrId) :
    (g'.op? i).isSome = (g.op? i).isSome := by
  rw [op?, op?, Option.isSome_map, Option.isSome_map, h.instr?_isSome_eq]

/-- Each operation of the new graph comes from a similar one. -/
theorem op?_similar (h : SameShape g g') {i : InstrId} {op' : Operation}
    (hop' : g'.op? i = some op') : ∃ op, g.op? i = some op ∧ Similar op op' := by
  obtain ⟨ins', hins', rfl⟩ := Option.map_eq_some_iff.1 hop'
  obtain ⟨ins, hins, -, -, hop⟩ := h.instr?_similar i ins' hins'
  exact ⟨ins.op, by rw [op?, hins]; rfl, hop⟩

theorem isBranch_eq (h : SameShape g g') (i : InstrId) : g'.isBranch i = g.isBranch i := by
  rw [Graph.isBranch_eq, Graph.isBranch_eq]
  cases hop' : g'.op? i with
  | none =>
    have := h.op?_isSome_eq i
    rw [hop', Option.isSome_none, eq_comm, Option.isSome_eq_false_iff, Option.isNone_iff_eq_none]
      at this
    rw [this]
  | some op' =>
    obtain ⟨op, hop, hsim⟩ := h.op?_similar hop'
    rw [hop, Option.any_some, Option.any_some, hsim.isBranch_eq]

theorem isPhi_eq (h : SameShape g g') (i : InstrId) : g'.isPhi i = g.isPhi i := by
  rw [Graph.isPhi_eq, Graph.isPhi_eq]
  cases hop' : g'.op? i with
  | none =>
    have := h.op?_isSome_eq i
    rw [hop', Option.isSome_none, eq_comm, Option.isSome_eq_false_iff, Option.isNone_iff_eq_none]
      at this
    rw [this]
  | some op' =>
    obtain ⟨op, hop, hsim⟩ := h.op?_similar hop'
    rw [hop, Option.any_some, Option.any_some, hsim.isPhi_eq]

end SameShape

/-- Changing one instruction in its operand values or its stand-in keeps the shape. -/
theorem sameShape_modifyInstr (g : Graph) (i : InstrId) {f : Instr → Instr}
    (hf : ∀ ins, (f ins).id = ins.id ∧ (f ins).block = ins.block ∧ Similar ins.op (f ins).op) :
    SameShape g (g.modifyInstr i f) where
  skeleton := sameSkeleton_modifyInstr g i f
  nextId_eq := nextId_modifyInstr g i f
  instr?_similar j ins' hins' := by
    rw [instr?_modifyInstr] at hins'
    split at hins'
    · obtain ⟨ins, hins, rfl⟩ := Option.map_eq_some_iff.1 hins'
      exact ⟨ins, hins, hf ins⟩
    · exact ⟨ins', hins', rfl, rfl, .refl _⟩
  listed_eq b := listed_modifyInstr g i f b
  binding_eq b x := binding_modifyInstr g i f b x
  offered_eq b := offered_modifyInstr g i f b

theorem sameShape_mapOp (g : Graph) (i : InstrId) {h : Operation → Operation}
    (hh : ∀ op, Similar op (h op)) : SameShape g (g.modifyInstr i (·.mapOp h)) :=
  sameShape_modifyInstr g i fun ins => ⟨rfl, rfl, hh ins.op⟩

theorem sameShape_setStandIn (g : Graph) (i : InstrId) (e : Option InstrId) :
    SameShape g (g.modifyInstr i (·.setStandIn e)) :=
  sameShape_modifyInstr g i fun ins => ⟨rfl, rfl, .refl ins.op⟩

end Graph
end StructuredSSA
