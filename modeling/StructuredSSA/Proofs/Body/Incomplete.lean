import StructuredSSA.Proofs.Body.Effect
import StructuredSSA.Proofs.Body.Run
import StructuredSSA.Proofs.Body.Settled

/-!
# The report of variables that may be read too early

A phi that lacks a value on some side is kept in a table, from which the report is read off.  The
table is changed where a phi is inserted, where one of its sides is set, and where a loop phi fills
a missing side of another phi.  It is exact all the same, as long as phis come from merging alone.

## What is here

* `Operation.lacksValue`, `Graph.lacksValue` — phis that lack a value.
* `Body.Tracked` — the table has exactly those.
* `Body.Effect.tracked` — one effect keeps it exact.
* `Body.incomplete_exact` — the table and the report in every construction.
-/

set_option autoImplicit false

namespace StructuredSSA

/-! ## Phis that lack a value -/

namespace Operation

/-- A phi that lacks a value on some side. -/
def lacksValue (op : Operation) : Bool := op.isPhi && !op.isComplete

theorem lacksValue_of_not_phi {op : Operation} (h : op.isPhi = false) : op.lacksValue = false := by
  rw [lacksValue, h, Bool.false_and]

theorem lacksValue_of_phi {op : Operation} (h : op.isPhi = true) :
    op.lacksValue = !op.isComplete := by
  rw [lacksValue, h, Bool.true_and]

theorem lacksValue_iff {op : Operation} : op.lacksValue = true ↔
    ∃ l r, op = .binary .phi l r ∧ (l.value = none ∨ r.value = none) := by
  cases op with
  | binary k l r =>
    cases k with
    | phi =>
      cases hl : l.value <;> cases hr : r.value <;>
        simp [lacksValue, isPhi, isComplete, operands, hl, hr]
    | _ => simp [lacksValue, isPhi]
  | _ => simp [lacksValue, isPhi]

theorem isComplete_phi (x : Var) (first second : Option InstrId) :
    (phi x first second).isComplete = (first.isSome && second.isSome) := by
  simp [phi, isComplete, operands, Operand.through]

/-- A redirected read has a value. -/
theorem isComplete_redirect {op : Operation} (h : op.isComplete = true) (x : Var)
    (old : Option InstrId) (new : InstrId) : (op.redirect x old new).isComplete = true := by
  rw [isComplete, List.all_eq_true] at h ⊢
  intro o ho
  rw [redirect, operands_mapOperands] at ho
  obtain ⟨o₀, ho₀, rfl⟩ := List.mem_map.1 ho
  rw [Operand.redirect]
  split
  · rfl
  · exact h o₀ ho₀

/-- A phi that lacks a value after its reads have been redirected lacked one before. -/
theorem lacksValue_redirect {op : Operation} {x : Var} {old : Option InstrId} {new : InstrId}
    (h : (op.redirect x old new).isComplete = false) :
    (op.redirect x old new).lacksValue = op.lacksValue := by
  have hold : op.isComplete = false := by
    cases hc : op.isComplete with
    | false => rfl
    | true =>
      rw [isComplete_redirect hc] at h
      cases h
  rw [lacksValue, h, redirect, isPhi_mapOperands, lacksValue, hold]

theorem isComplete_mapValues (f : InstrId → InstrId) (op : Operation) :
    (op.mapValues f).isComplete = op.isComplete := by
  rw [isComplete, mapValues, operands_mapOperands, List.all_map, isComplete]
  refine congrArg (List.all op.operands) (funext fun o => ?_)
  exact Option.isSome_map

theorem lacksValue_mapValues (f : InstrId → InstrId) (op : Operation) :
    (op.mapValues f).lacksValue = op.lacksValue := by
  rw [lacksValue, isComplete_mapValues, mapValues, isPhi_mapOperands, lacksValue]

end Operation

namespace Graph

/-- Instruction `i` exists and is a phi that lacks a value on some side. -/
def lacksValue (g : Graph) (i : InstrId) : Bool := (g.op? i).any Operation.lacksValue

variable {g g' : Graph}

theorem lacksValue_iff {i : InstrId} : g.lacksValue i = true ↔
    ∃ l r, g.op? i = some (.binary .phi l r) ∧ (l.value = none ∨ r.value = none) := by
  rw [lacksValue, Option.any_eq_true]
  constructor
  · rintro ⟨op, hop, hlacks⟩
    obtain ⟨l, r, rfl, hnone⟩ := Operation.lacksValue_iff.1 hlacks
    exact ⟨l, r, hop, hnone⟩
  · rintro ⟨l, r, hop, hnone⟩
    exact ⟨_, hop, Operation.lacksValue_iff.2 ⟨l, r, rfl, hnone⟩⟩

theorem lacksValue_nextId (g : Graph) : g.lacksValue g.nextId = false := by
  rw [lacksValue, op?, Places.instr?_nextId]
  rfl

/-- Branches do not matter. -/
theorem lacksValue_congr {j : InstrId}
    (h : ∀ op, op.isBranch = false → (g'.op? j = some op ↔ g.op? j = some op)) :
    g'.lacksValue j = g.lacksValue j := by
  rw [Bool.eq_iff_iff, lacksValue_iff, lacksValue_iff]
  exact exists_congr fun l => exists_congr fun r => and_congr_left fun _ => h _ rfl

theorem lacksValue_of_op? {j : InstrId} (h : g'.op? j = g.op? j) :
    g'.lacksValue j = g.lacksValue j := by
  rw [lacksValue, h, lacksValue]

theorem Places.lacksValue_eq {b : BlockId} {op : Operation} (h : Places g b op g') (j : InstrId) :
    g'.lacksValue j = if j = g.nextId then op.lacksValue else g.lacksValue j := by
  split
  · rename_i hj
    rw [hj, lacksValue, h.op?_new]
    rfl
  · rename_i hj
    refine lacksValue_congr fun o ho => ?_
    rw [h.op?_eq ho]
    simp [hj]

theorem SettlesInstr.lacksValue_eq {live : InstrId → InstrId} {ins ins' : Instr}
    (h : SettlesInstr live ins ins') : ins'.op.lacksValue = ins.op.lacksValue := by
  cases hbr : ins.op.isBranch with
  | false => rw [h.op_eq hbr, Operation.lacksValue_mapValues]
  | true =>
    have hbr' : ins'.op.isBranch = true := h.isBranch_eq.trans hbr
    rw [Operation.lacksValue_of_not_phi (Operation.isPhi_of_isBranch hbr),
      Operation.lacksValue_of_not_phi (Operation.isPhi_of_isBranch hbr')]

end Graph

/-! ## Effects -/

namespace Body

/-- **The table of incomplete phis is exact.** -/
def Tracked (u : Body) : Prop := ∀ i, (u.incomplete.get? i).isSome = u.graph.lacksValue i

variable {adds : Operation → Prop} {u u' : Body}

namespace Tracked

theorem sameWork (t : u.Tracked) (h : u.SameWork u') : u'.Tracked := by
  intro i
  rw [h.incomplete_eq, t i, Graph.lacksValue_congr (h.op?_iff i)]

theorem place (t : u.Tracked) {b : BlockId} {op : Operation} {i : InstrId}
    (hop : op.isPhi = false) (h : u.place b op = .ok (i, u')) : u'.Tracked := by
  obtain ⟨-, op', g, hlands, hplaces, rfl⟩ := places_of_place h
  intro k
  rw [hplaces.lacksValue_eq, t k]
  split
  · rename_i hk
    rw [hk, Graph.lacksValue_nextId,
      Operation.lacksValue_of_not_phi (hlands.isPhi_eq.trans hop)]
  · rfl

theorem placeRetired (t : u.Tracked) {op : Operation} {e i : InstrId}
    (harith : op.arith?.isSome = true) (h : u.placeRetired op e = .ok (i, u')) : u'.Tracked := by
  obtain ⟨⟨j, v⟩, hv, h⟩ := bind_eq_ok_iff.1 h
  cases h
  have hplaced := t.place (Operation.isPhi_of_arith harith) hv
  intro k
  exact (hplaced k).trans (Graph.lacksValue_of_op? (Graph.op?_modifyInstr_setStandIn _ _ _ _)).symm

theorem insertPhi (t : u.Tracked) {b : BlockId} {x : Var} {first second : Option InstrId}
    {i : InstrId} (h : u.insertPhi b x first second = .ok (i, u')) : u'.Tracked := by
  obtain ⟨⟨j, v⟩, hv, h⟩ := bind_eq_ok_iff.1 h
  cases h
  obtain ⟨rfl, op', g, hlands, hplaces, rfl⟩ := places_of_place hv
  obtain rfl : op' = .phi x first second := by
    rcases hlands with h | ⟨c, h, -⟩
    · exact h
    · cases h
  have hlacks : (Operation.phi x first second).lacksValue = !(first.isSome && second.isSome) := by
    rw [Operation.lacksValue_of_phi rfl, Operation.isComplete_phi]
  intro k
  rw [Graph.lacksValue_of_op? ((Graph.rebinds_bindIn g b x _).op?_eq k), hplaces.lacksValue_eq]
  dsimp only
  by_cases hk : k = u.graph.nextId
  · rw [if_pos hk, hlacks, hk]
    split
    · rename_i hcomplete
      rw [t, Graph.lacksValue_nextId, hcomplete]
      rfl
    · rename_i hcomplete
      rw [Bool.not_eq_true] at hcomplete
      rw [Table.get?_insert, if_pos rfl, hcomplete]
      rfl
  · rw [if_neg hk, ← t k]
    split
    · rfl
    · rw [Table.get?_insert, if_neg (Ne.symm hk)]

theorem setPhiSide (t : u.Tracked) {i : InstrId} (hphi : u.graph.isPhi i = true) (x : Var)
    (side : Side) (value : Option InstrId) : (u.setPhiSide i x side value).Tracked := by
  intro k
  rw [Body.setPhiSide]
  dsimp only
  rw [Table.get?_update]
  split
  · rename_i hk
    subst hk
    have hshape := Graph.sameShape_mapOp u.graph i (Operation.similar_setSide side value)
    have hphi' := (hshape.isPhi_eq i).trans hphi
    rw [Graph.isPhi_eq, Option.any_eq_true] at hphi'
    obtain ⟨op, hop, hop'⟩ := hphi'
    obtain ⟨ins, hins, rfl⟩ := Option.map_eq_some_iff.1 hop
    rw [Graph.lacksValue, hop, Option.any_some, Operation.lacksValue_of_phi hop', hins,
      Option.any_some]
    cases ins.op.isComplete <;> rfl
  · rename_i hk
    rw [t k]
    refine (Graph.lacksValue_of_op? ?_).symm
    rw [Graph.op?_modifyInstr_mapOp, if_neg hk]

/-- Striking a phi that has become complete. -/
theorem noteCompletion {i : InstrId}
    (hother : ∀ j, i ≠ j → (u.incomplete.get? j).isSome = u.graph.lacksValue j)
    (hself : (u.graph.op? i).any Operation.isComplete = false →
      (u.incomplete.get? i).isSome = u.graph.lacksValue i) : (u.noteCompletion i).Tracked := by
  have hany : (u.graph.instr? i).any (·.op.isComplete) =
      (u.graph.op? i).any Operation.isComplete := by
    rw [Graph.op?, Option.any_map]
  intro j
  rw [Body.noteCompletion, hany]
  by_cases hj : i = j
  · subst hj
    split
    · rename_i hcomplete
      obtain ⟨op, hop, hc⟩ := Option.any_eq_true _ _ |>.1 hcomplete
      rw [Table.get?_erase, if_pos rfl, Graph.lacksValue, hop, Option.any_some,
        Operation.lacksValue, hc]
      simp
    · rename_i hcomplete
      exact hself (by simpa using hcomplete)
  · split
    · rw [Table.get?_erase, if_neg hj]
      exact hother j hj
    · exact hother j hj

theorem withRead (t : u.Tracked) (x : Var) (before : Option InstrId) (phi i : InstrId) :
    (u.withRead x before phi i).Tracked := by
  rw [Body.withRead]
  split
  · have hop : ∀ j, (({ u with
        graph := u.graph.modifyInstr i (·.mapOp (·.redirect x before phi)) } : Body).revived
          i).graph.op? j =
        if i = j then (u.graph.op? j).map (·.redirect x before phi)
        else u.graph.op? j := fun j => by
      rw [op?_revived]
      exact Graph.op?_modifyInstr_mapOp _ _ _ _
    refine noteCompletion (fun j hj => ?_) fun hcomplete => ?_
    · rw [incomplete_revived, t j]
      exact (Graph.lacksValue_of_op? ((hop j).trans (if_neg hj))).symm
    · rw [incomplete_revived, t i, Graph.lacksValue, Graph.lacksValue]
      rw [hop, if_pos rfl] at hcomplete ⊢
      cases hold : u.graph.op? i with
      | none => rfl
      | some op =>
        rw [hold] at hcomplete
        exact (Operation.lacksValue_redirect hcomplete).symm
  · exact t

theorem settle (t : u.Tracked) (h : u.settle = .ok u') : u'.Tracked := by
  obtain ⟨g, hsettles, rfl⟩ := settles_of_settle h
  intro i
  exact (t i).trans (hsettles.any_eq (fun h => h.lacksValue_eq) i).symm

end Tracked

/-- **One effect keeps the table exact**, unless it adds a phi that does not come from merging. -/
theorem Effect.tracked (h : Effect adds u u') (hadds : ∀ op, adds op → op.isPhi = false)
    (t : u.Tracked) : u'.Tracked := by
  cases h with
  | arrange h => exact t.sameWork h.sameWork
  | place hop h => exact t.place (hadds _ hop) h
  | placeRetired _ harith _ _ h => exact t.placeRetired harith h
  | insertPhi h => exact t.insertPhi h
  | setPhiSide hphi x side value => exact t.setPhiSide hphi x side value
  | redirectRead h =>
    obtain rfl := eq_of_redirectRead h
    exact t.withRead _ _ _ _
  | settle h => exact t.settle h

theorem Effects.tracked (h : Effects adds u u') (hadds : ∀ op, adds op → op.isPhi = false)
    (t : u.Tracked) : u'.Tracked :=
  h.invariant (fun _ _ heffect => heffect.tracked hadds) t

theorem tracked_start (options : Options) : (start options).Tracked := by
  intro i
  rw [Graph.lacksValue, Graph.op?, instr?_start]
  rfl

/-! ## Every construction -/

/-- The operation that the caller of a command supplies. -/
def Command.supplied? : Command → Option Operation
  | .emit op => some op
  | .settleWith last => some last
  | _ => none

/-- What a command adds besides what its caller supplies is no phi. -/
theorem Command.Adds.isPhi_eq_false {c : Command} {op : Operation} (h : c.Adds op)
    (hc : ∀ o, c.supplied? = some o → o.isPhi = false) : op.isPhi = false := by
  cases h with
  | emit | settleWith => exact hc op rfl
  | _ => rfl

/-- The report is empty where nothing is incomplete. -/
theorem unassigned_eq_nil_iff : u.unassigned = [] ↔ ∀ i, u.incomplete.get? i = none := by
  constructor
  · intro h i
    cases hi : u.incomplete.get? i with
    | none => rfl
    | some x =>
      have hx : x ∈ u.unassigned := Table.mem_keys_ofKeys.2 (Table.mem_values.2 ⟨i, hi⟩)
      rw [h] at hx
      cases hx
  · intro h
    rw [List.eq_nil_iff_forall_not_mem]
    intro x hx
    obtain ⟨i, hi⟩ := Table.mem_values.1 (Table.mem_keys_ofKeys.1 hx)
    rw [h i] at hi
    cases hi

/-- **The report of incomplete phis is exact in every construction** whose caller supplies no phis:
the table has exactly the phis that lack a value on some side, and the report is empty if and only
if every phi has both values. -/
theorem incomplete_exact {options : Options} {cs : List Command}
    (h : (start options).execAll cs = .ok u)
    (hcs : ∀ c ∈ cs, ∀ op, c.supplied? = some op → op.isPhi = false) :
    (∀ i, (u.incomplete.get? i).isSome = true ↔
      ∃ l r, u.graph.op? i = some (.binary .phi l r) ∧ (l.value = none ∨ r.value = none)) ∧
    (u.unassigned = [] ↔ ∀ i l r, u.graph.op? i = some (.binary .phi l r) →
      l.value.isSome = true ∧ r.value.isSome = true) := by
  have hexact : ∀ i, (u.incomplete.get? i).isSome = true ↔
      ∃ l r, u.graph.op? i = some (.binary .phi l r) ∧ (l.value = none ∨ r.value = none) := by
    have t : u.Tracked :=
      (execAll_effects h fun c hc op hop => hop.isPhi_eq_false (hcs c hc)).tracked
        (fun _ hop => hop) (tracked_start options)
    intro i
    rw [t i, Graph.lacksValue_iff]
  refine ⟨hexact, ?_⟩
  rw [unassigned_eq_nil_iff]
  constructor
  · intro hnone i l r hop
    have hneither : ¬ (l.value = none ∨ r.value = none) := fun hmissing => by
      have hsome := (hexact i).2 ⟨l, r, hop, hmissing⟩
      rw [hnone i] at hsome
      cases hsome
    rw [not_or] at hneither
    exact ⟨Option.isSome_iff_ne_none.2 hneither.1, Option.isSome_iff_ne_none.2 hneither.2⟩
  · intro hall i
    rw [← Option.not_isSome_iff_eq_none, hexact i]
    rintro ⟨l, r, hop, hmissing⟩
    obtain ⟨hl, hr⟩ := hall i l r hop
    rcases hmissing with hmissing | hmissing
    · rw [hmissing] at hl
      cases hl
    · rw [hmissing] at hr
      cases hr

/-- In a loop a variable is assigned on one side of an if only.  Its phi at the join lacks a value
until the if is closed: then the loop gets a phi, which fills it and lacks a value itself. -/
def filledPhi : List Command :=
  [.openLoop, .emit (.binary .cmp {} {}), .emit (.branch (.whenever .eq) none), .moveTo 2,
    .openIf, .emit (.binary .cmp {} {}), .emit (.branch (.whenever .eq) none), .moveTo 5,
    .emit .read, .assign 0 (some 5), .moveTo 4, .closeIf 2]

theorem isPhi_of_supplied_filledPhi :
    ∀ c ∈ filledPhi, ∀ op, c.supplied? = some op → op.isPhi = false := by
  simp [filledPhi, Command.supplied?, Operation.isPhi]

theorem exists_filledPhi : ∃ u, (start {}).execAll filledPhi = .ok u ∧
    u.graph.isPhi 6 = true ∧ u.incomplete.get? 6 = none ∧ u.unassigned = [0] := by
  have h : ((start {}).execAll filledPhi).toOption.any (fun u =>
      u.graph.isPhi 6 = true ∧ u.incomplete.get? 6 = none ∧ u.unassigned = [0]) = true := by
    decide +kernel
  obtain ⟨u, hu, hall⟩ := exists_ok_of_any h
  exact ⟨u, hu, of_decide_eq_true hall⟩

theorem incomplete_exact_filledPhi : ∃ u, (start {}).execAll filledPhi = .ok u ∧
    u.graph.isPhi 6 = true ∧ u.incomplete.get? 6 = none ∧ u.unassigned = [0] ∧
    (∀ i, (u.incomplete.get? i).isSome = true ↔
      ∃ l r, u.graph.op? i = some (.binary .phi l r) ∧ (l.value = none ∨ r.value = none)) ∧
    (u.unassigned = [] ↔ ∀ i l r, u.graph.op? i = some (.binary .phi l r) →
      l.value.isSome = true ∧ r.value.isSome = true) := by
  obtain ⟨u, hu, hphi, hfilled, hreport⟩ := exists_filledPhi
  exact ⟨u, hu, hphi, hfilled, hreport, incomplete_exact hu isPhi_of_supplied_filledPhi⟩

end Body
end StructuredSSA
