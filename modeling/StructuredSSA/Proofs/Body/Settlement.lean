import StructuredSSA.Proofs.Body.Retired
import StructuredSSA.Proofs.Body.Sequence
import StructuredSSA.Proofs.Graph.Landing

/-!
# The result of settling

Settling makes four passes over a body: it looks for the roots of retired instructions, puts them in
the place of what is retired, drops what is retired from the blocks, and points branches at
landings.  What comes out is said here all at once, in terms of the body as it was before.

## What is here

* `Graph.Replaces` — what becomes of a value that is read or bound.
* `Body.Settlement` — what settling makes of a body.
* `Body.settled_exactly` — it does, whatever construction led to the body.
-/

set_option autoImplicit false

namespace StructuredSSA

namespace Graph

/-- In place of a retired instruction the live one at the end of its chain of stand-ins is read;
anything else stays. -/
inductive Replaces (g : Graph) : Option InstrId → Option InstrId → Prop where
  | missing : Replaces g none none
  | live {i : InstrId} (h : g.isRetired i = false) : Replaces g (some i) (some i)
  | retired {i r : InstrId} (h : g.isRetired i = true) (root : g.HasRoot i r) :
      Replaces g (some i) (some r)

variable {g g' : Graph}

theorem HasRoot.isRetired_root {i r : InstrId} (h : g.HasRoot i r) : g.isRetired r = false := by
  rw [isRetired_eq, h.standIn?_root]
  rfl

theorem replaces_liveOf (h : ∀ i, ∃ r, g.HasRoot i r) (v : Option InstrId) :
    g.Replaces v (v.map g.liveOf) := by
  cases v with
  | none => exact .missing
  | some i =>
    obtain ⟨r, hr⟩ := h i
    rw [Option.map_some, hr.liveOf_eq]
    cases hretired : g.isRetired i with
    | true => exact .retired hretired hr
    | false =>
      have hlive : g.HasRoot i i := .live (by
        rw [isRetired_eq, Option.isSome_eq_false_iff, Option.isNone_iff_eq_none] at hretired
        exact hretired)
      obtain rfl : r = i := by rw [← hr.liveOf_eq, hlive.liveOf_eq]
      exact .live hretired

/-- What replaces a value is not retired. -/
theorem Replaces.isRetired_eq_false {v : Option InstrId} {i : InstrId}
    (h : g.Replaces v (some i)) : g.isRetired i = false := by
  cases h with
  | live h => exact h
  | retired h root => exact root.isRetired_root

/-- The operands of a settled instruction. -/
theorem SettlesInstr.forall₂_operands {ins ins' : Instr} (h : SettlesInstr g.liveOf ins ins')
    (hroots : ∀ i, ∃ r, g.HasRoot i r) : List.Forall₂
      (fun o o' : Operand => o'.var = o.var ∧ g.Replaces o.value o'.value)
      ins.op.operands ins'.op.operands := by
  cases hbr : ins.op.isBranch with
  | false =>
    rw [h.op_eq hbr, Operation.mapValues, Operation.operands_mapOperands,
      List.forall₂_map_right_iff]
    exact List.forall₂_same.2 fun o _ => ⟨rfl, replaces_liveOf hroots o.value⟩
  | true =>
    have hnone : ∀ {op : Operation}, op.isBranch = true → op.operands = [] := fun {op} hop => by
      cases op <;> first | rfl | cases hop
    rw [hnone hbr, hnone (h.isBranch_eq.trans hbr)]
    exact .nil

theorem SettlesInstr.reads_live {ins ins' : Instr} (h : SettlesInstr g.liveOf ins ins')
    (hroots : ∀ i, ∃ r, g.HasRoot i r) {o : Operand} (ho : o ∈ ins'.op.operands) {v : InstrId}
    (hv : o.value = some v) : g.isRetired v = false := by
  have hall : List.Forall₂
      (fun o' _ : Operand => (∀ v, o'.value = some v → g.isRetired v = false) ∧ True)
      ins'.op.operands ins.op.operands :=
    .flip ((h.forall₂_operands hroots).imp fun o o' hreplaces =>
      ⟨fun v hv => Replaces.isRetired_eq_false (hv ▸ hreplaces.2), trivial⟩)
  exact ((List.forall₂_and_left _ _).1 hall).1 o ho v hv

end Graph

namespace Body

variable {u u' : Body} {options : Options}

/-- **What settling makes of a body.** -/
structure Settlement (u u' : Body) : Prop where
  /-- Every operand reads what replaces the value that it read, through the same variable.  Nothing
  else of an instruction changes but the target of a branch. -/
  instr : ∀ i ins, u.graph.instr? i = some ins → ∃ ins', u'.graph.instr? i = some ins' ∧
    ins'.id = ins.id ∧ ins'.block = ins.block ∧ ins'.standIn = ins.standIn ∧
    ins'.op.outline = ins.op.outline ∧ List.Forall₂
      (fun o o' : Operand => o'.var = o.var ∧ u.graph.Replaces o.value o'.value)
      ins.op.operands ins'.op.operands
  /-- Variables are bound to what replaces the values that they were bound to. -/
  binding : ∀ b x, Option.Rel u.graph.Replaces (u.graph.binding b x) (u'.graph.binding b x)
  /-- No operand reads a retired instruction. -/
  reads_live : ∀ i op, u'.graph.op? i = some op → ∀ o ∈ op.operands, ∀ v, o.value = some v →
    u'.graph.isRetired v = false
  /-- No variable is bound to a retired instruction. -/
  binds_live : ∀ b x v, u'.graph.binding b x = some (some v) → u'.graph.isRetired v = false
  /-- Blocks list what they listed before, in the same order, without the retired instructions. -/
  listed : ∀ b, u'.graph.listed b = (u.graph.listed b).filter fun i => !u.graph.isRetired i
  /-- A branch had a target, which named a block; it is pointed at the instruction that control
  comes to from there, and that one is live. -/
  branch : ∀ i c t, u'.graph.op? i = some (.branch c t) → ∃ t₀ b j,
    u.graph.op? i = some (.branch c (some t₀)) ∧ u.graph.Names t₀ b ∧ t = some (.instr j) ∧
    u'.graph.ComesTo b j ∧ (u'.graph.instr? j).isSome = true ∧ u'.graph.isRetired j = false
  /-- No block is waited for. -/
  awaited : ∀ b blk, u'.graph.block? b = some blk → blk.awaited = false
  /-- Roles, links and origins stay, and no block is added. -/
  skeleton : u.graph.SameSkeleton u'.graph
  offered : ∀ b, u'.graph.offered b = u.graph.offered b
  /-- No instruction is added. -/
  nextId_eq : u'.graph.nextId = u.graph.nextId
  /-- Nothing but the graph changes, and the body is settled from now on. -/
  rest : u' = { u with graph := u'.graph, isSettled := true }

/-- **What comes out of settling**, whatever construction led to the body. -/
theorem settled_exactly (h : Reachable options u) (hsettle : u.settle = .ok u') :
    u.Settlement u' := by
  have hroots := h.shares.books.rooted
  have hreachable : Reachable options u' := by
    obtain ⟨cs, hcs⟩ := h
    refine ⟨cs ++ [.settle], ?_⟩
    rw [execAll, List.foldlM_append]
    exact bind_eq_ok_iff.2 ⟨u, hcs, by rw [List.foldlM_cons, exec, hsettle]; rfl⟩
  have hlisted := hreachable.sequenced.mem_listed
  obtain ⟨g, hg, rfl⟩ := withLandings_of_settle hsettle
  have hsettles := Graph.settles_of_withLandings hg
  have hbinding : ∀ b x, Option.Rel u.graph.Replaces (u.graph.binding b x) (g.binding b x) := by
    intro b x
    rw [hsettles.binding_eq]
    cases u.graph.binding b x with
    | none => exact .none
    | some v => exact .some (Graph.replaces_liveOf hroots v)
  refine {
    instr := fun i ins hins => ?_
    binding := hbinding
    reads_live := fun i op hop o ho v hv => ?_
    binds_live := fun b x v hv => ?_
    listed := hsettles.listed_eq
    branch := fun i c t hop => ?_
    awaited := hsettles.awaited_eq
    skeleton := hsettles.skeleton
    offered := Graph.offered_of_withLandings hg
    nextId_eq := hsettles.nextId_eq
    rest := rfl }
  · obtain ⟨ins', hins', hone⟩ := hsettles.instr i ins hins
    obtain ⟨ins₁, hins₁, hkeeps⟩ := hsettles.keeps i ins hins
    obtain rfl : ins₁ = ins' := Option.some.inj (hins₁.symm.trans hins')
    exact ⟨ins₁, hins', hone.id_eq, hone.block_eq, hone.standIn_eq, hkeeps.outline_eq,
      hone.forall₂_operands hroots⟩
  · obtain ⟨ins', hins', rfl⟩ := Option.map_eq_some_iff.1 hop
    obtain ⟨ins, hins, hone⟩ := hsettles.exists_instr hins'
    rw [hsettles.isRetired_eq]
    exact hone.reads_live hroots ho hv
  · rw [hsettles.isRetired_eq]
    have hrel := hbinding b x
    change g.binding b x = some (some v) at hv
    rw [hv] at hrel
    generalize u.graph.binding b x = v₀ at hrel
    cases hrel with
    | some hreplaces => exact hreplaces.isRetired_eq_false
  · have hbranch : g.isBranch i = true := by
      rw [Graph.isBranch_eq, hop]
      rfl
    rw [hsettles.isBranch_eq, Graph.isBranch_eq, Option.any_eq_true] at hbranch
    obtain ⟨op, hop₀, hbr⟩ := hbranch
    obtain ⟨ins, hins, rfl⟩ := Option.map_eq_some_iff.1 hop₀
    obtain ⟨ins', haimed, -⟩ := Graph.aimed_of_withLandings hg hins
    cases hins_op : ins.op with
    | branch c₀ target =>
      obtain ⟨t₀, b, rfl, hnames⟩ := Graph.names_of_aimed haimed hins_op
      rw [hins_op] at hop₀
      obtain ⟨j, hj, hop'⟩ := hsettles.landing i c₀ t₀ b hop₀ hnames
      obtain ⟨rfl, rfl⟩ : c = c₀ ∧ t = some (.instr j) := by
        cases hop.symm.trans hop'
        exact ⟨rfl, rfl⟩
      have hcomes := Graph.comesTo_of_landing hj
      obtain ⟨d, hd⟩ := hcomes.exists_listed
      obtain ⟨hhome, hlive⟩ := (hlisted d j).1 hd
      obtain ⟨insj, hinsj, -⟩ := Option.map_eq_some_iff.1 hhome
      exact ⟨t₀, b, j, hop₀, hnames, rfl, hcomes, by rw [hinsj]; rfl, by simpa using hlive⟩
    | _ =>
      rw [hins_op] at hbr
      cases hbr

/-- The same sum twice, the second time as all that the else side holds: settling leaves that side
empty, and the branch into it lands in the join behind it. -/
def emptiedElse : List Command :=
  [.emit .read, .emit (doubleOf 0), .openIf, .emit (.binary .cmp (.result 1) (.result 2)),
    .emit (.branch (.whenever .eq) none), .moveTo 3, .emit .read, .openElse 1, .moveTo 4,
    .emit (doubleOf 1), .assign 0 (some 6), .aimBranch 1, .emitJump 3, .moveTo 2, .closeIf 1,
    .emit (.unary .write (.result 6))]

theorem exists_emptiedElse : ∃ u u', Reachable {} u ∧ u.settle = .ok u' ∧
    u.graph.listed 4 = [6] ∧ u'.graph.listed 4 = [] ∧
    u'.graph.op? 4 = some (.branch (.whenever .eq) (some (.instr 7))) := by
  have h : ((start {}).execAll emptiedElse).toOption.any (fun u =>
      u.settle.toOption.any (fun u' => u.graph.listed 4 = [6] ∧ u'.graph.listed 4 = [] ∧
        u'.graph.op? 4 = some (.branch (.whenever .eq) (some (.instr 7))))) = true := by
    decide +kernel
  obtain ⟨u, hu, h⟩ := exists_ok_of_any h
  obtain ⟨u', hu', hall⟩ := exists_ok_of_any h
  exact ⟨u, u', ⟨_, hu⟩, hu', of_decide_eq_true hall⟩

theorem settled_exactly_emptiedElse : ∃ u u', Reachable {} u ∧ u.settle = .ok u' ∧
    u.graph.listed 4 = [6] ∧ u'.graph.listed 4 = [] ∧
    u'.graph.op? 4 = some (.branch (.whenever .eq) (some (.instr 7))) ∧ u.Settlement u' := by
  obtain ⟨u, u', hu, hsettle, hbefore, hafter, hlands⟩ := exists_emptiedElse
  exact ⟨u, u', hu, hsettle, hbefore, hafter, hlands, settled_exactly hu hsettle⟩

end Body
end StructuredSSA
