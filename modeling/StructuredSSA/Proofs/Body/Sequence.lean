import StructuredSSA.Proofs.Body.Advance
import StructuredSSA.Proofs.Graph.Sequence

/-!
# The sequences of every construction

Instructions are kept in two places: by number among all instructions, and in the sequence of a
block.  The two stay in step through every command.  Nothing is lost, nothing is listed twice, and
what a sequence leaves out was retired when the body was settled.

## What is here

* `Graph.Sequenced.settles` — settling strikes the retired instructions and no others.
* `Body.Sequenced`, `Body.Reachable.sequenced` — the invariant.
* `Body.sequences_in_step` — what the sequences list, and what commands keep of an instruction.
* `Body.sequences_in_order` — the order in which they list it.
-/

set_option autoImplicit false

namespace StructuredSSA

namespace Graph

theorem Settles.isRetired_eq {g g' : Graph} (h : g.Settles g') (i : InstrId) :
    g'.isRetired i = g.isRetired i := by
  rw [Graph.isRetired_eq, Graph.isRetired_eq, h.standIn?_eq]

theorem lt_nextId_of_isRetired {g : Graph} {i : InstrId} (h : g.isRetired i = true) :
    i < g.nextId := by
  obtain ⟨ins, hins, -⟩ := (Option.any_eq_true _ _).1 h
  exact (lt_nextId_of_instr? hins).2

theorem mem_instrs_of_instr? {g : Graph} {i : InstrId} {ins : Instr} (h : g.instr? i = some ins) :
    ins ∈ g.instrs := by
  cases i with
  | zero => cases h
  | succ k => exact Array.mem_of_getElem? h

theorem Sequenced.settles {g g' : Graph} (s : g.Sequenced fun _ => False) (h : g.Settles g') :
    g'.Sequenced fun i => g'.isRetired i = true where
  id_eq i ins' hins' := by
    obtain ⟨ins, hins, hsettles⟩ := h.exists_instr hins'
    exact hsettles.id_eq.trans (s.id_eq i ins hins)
  mem_listed b i := by
    rw [h.listed_eq, List.mem_filter, s.mem_listed, h.keeps.home?_eq h.nextId_eq, h.isRetired_eq]
    simp
  lt_of_gone i hi := lt_nextId_of_isRetired hi
  inOrder b := (s.inOrder b).filter (h.skeleton.hasRole_eq b _) (h.listed_eq b) h.isPhi_eq

end Graph

namespace Body

variable {u u' : Body} {options : Options}

/-- Blocks and instructions are in step; once the body is settled, the retired instructions are gone
from the blocks. -/
def Sequenced (u : Body) : Prop :=
  u.graph.Sequenced fun i => u.isSettled = true ∧ u.graph.isRetired i = true

theorem sequenced_iff_of_open (hopen : u.isSettled = false) :
    u.Sequenced ↔ u.graph.Sequenced fun _ => False :=
  ⟨fun s => s.congr fun i => by simp [hopen], fun s => s.congr fun i => by simp [hopen]⟩

theorem sequenced_of_settle (hopen : u.isSettled = false) (s : u.Sequenced)
    (h : u.settle = .ok u') : u'.Sequenced := by
  obtain ⟨g, hsettles, rfl⟩ := settles_of_settle h
  exact (((sequenced_iff_of_open hopen).1 s).settles hsettles).congr fun i => by simp

theorem Sequenced.develops (s : u.Sequenced) (h : u.graph.Develops u'.graph)
    (hsettled : u'.isSettled = u.isSettled)
    (hretired : u.isSettled = true → ∀ i, u'.graph.isRetired i = u.graph.isRetired i) :
    u'.Sequenced := by
  refine (Graph.Sequenced.develops s h).congr fun i => ?_
  rw [hsettled]
  exact and_congr_right fun hs => by rw [hretired hs]

theorem Advances.sequenced (h : u.Advances u') (s : u.Sequenced) : u'.Sequenced := by
  cases h with
  | work hopen hopen' h =>
    exact s.develops h (hopen'.trans hopen.symm) fun hs => by
      rw [hopen] at hs
      cases hs
  | @settle v _ hopen hopen' h hsettle =>
    have hv : v.Sequenced := s.develops h (hopen'.trans hopen.symm) fun hs => by
      rw [hopen] at hs
      cases hs
    exact sequenced_of_settle hopen' hv hsettle
  | add hsettled hsettled' h hstand =>
    exact s.develops h (hsettled'.trans hsettled.symm) fun _ i => by
      rw [Graph.isRetired_eq, Graph.isRetired_eq, hstand]

theorem sequenced_start (options : Options) : (start options).Sequenced where
  id_eq i ins h := by
    rw [instr?_start] at h
    cases h
  mem_listed b i := by
    rw [listed_start, Graph.home?, instr?_start]
    simp
  lt_of_gone i h := by cases h.1
  inOrder b := .of_empty (listed_start options b)

/-- **Every body that can be built** lists its instructions block by block. -/
theorem Reachable.sequenced (h : Reachable options u) : u.Sequenced :=
  h.invariant (fun _ _ hadvances s => hadvances.sequenced s) (sequenced_start options)

/-! ## What is listed -/

theorem count_listed (s : u.Sequenced) {i : InstrId} {ins : Instr}
    (hins : u.graph.instr? i = some ins) (b : BlockId) : (u.graph.listed b).count i =
      if b = ins.block ∧ ¬ (u.isSettled = true ∧ ins.isRetired = true) then 1 else 0 := by
  have hretired : u.graph.isRetired i = ins.isRetired := by
    rw [Graph.isRetired, hins]
    rfl
  have hmem : i ∈ u.graph.listed b ↔
      b = ins.block ∧ ¬ (u.isSettled = true ∧ ins.isRetired = true) := by
    rw [s.mem_listed, Graph.home?, hins, hretired]
    exact and_congr_left' (by rw [Option.map_some, Option.some.injEq, eq_comm])
  by_cases hi : i ∈ u.graph.listed b
  · rw [if_pos (hmem.1 hi)]
    exact List.count_eq_one_of_mem (s.inOrder b).nodup hi
  · rw [if_neg fun h => hi (hmem.2 h)]
    exact List.count_eq_zero.2 hi

/-- **Blocks and instructions stay in step.**  Instructions are numbered from one; each is listed
once by the block it lives in and nowhere else, unless it is retired and the body has been settled;
and no command takes an instruction away or changes more of it than the values of its operands, the
target of a branch and what stands in for it. -/
theorem sequences_in_step (h : Reachable options u) :
    (∀ k ins, u.graph.instrs[k]? = some ins → ins.id = k + 1) ∧
      (∀ ins ∈ u.graph.instrs, ∀ b, (u.graph.listed b).count ins.id =
        if b = ins.block ∧ ¬ (u.isSettled = true ∧ ins.isRetired = true) then 1 else 0) ∧
      (∀ b, ∀ i ∈ u.graph.listed b, ∃ ins ∈ u.graph.instrs, ins.id = i) ∧
      ∀ c o u', u.exec c = .ok (o, u') → ∀ (k : Nat) (ins : Instr), u.graph.instrs[k]? = some ins →
        ∃ ins' : Instr, u'.graph.instrs[k]? = some ins' ∧ ins'.id = ins.id ∧
          ins'.block = ins.block ∧ ins'.op.outline = ins.op.outline := by
  have s := h.sequenced
  refine ⟨fun k ins hins => s.id_eq (k + 1) ins hins, fun ins hmem b => ?_, fun b i hi => ?_,
    fun c o u' hexec k ins hins => ?_⟩
  · obtain ⟨k, hk⟩ := Array.mem_iff_getElem?.1 hmem
    rw [s.id_eq (k + 1) ins hk]
    exact count_listed (i := k + 1) s hk b
  · obtain ⟨ins, hins, -⟩ := Option.map_eq_some_iff.1 ((s.mem_listed b i).1 hi).1
    exact ⟨ins, Graph.mem_instrs_of_instr? hins, s.id_eq i ins hins⟩
  · obtain ⟨ins', hins', hkeeps⟩ := (exec_advances hexec h.wired).keeps (k + 1) ins hins
    exact ⟨ins', hins', hkeeps.id_eq, hkeeps.block_eq, hkeeps.outline_eq⟩

/-- The same sum twice, read through two variables: the second is retired, and gone once the body is
settled.  A constant is added even then. -/
def settledSums : List Command :=
  [.emit .read, .emit (.binary (.arith .add) (.through 0 (some 1)) (.through 0 (some 1))),
    .emit (.binary (.arith .add) (.through 1 (some 1)) (.through 1 (some 1))), .settleWith .halt,
    .constant 7]

theorem exists_settledSums : ∃ u, Reachable {} u ∧ u.isSettled = true ∧
    u.graph.isRetired 3 = true ∧ u.graph.listed 0 = [5] ∧ u.graph.listed 1 = [1, 2, 4] := by
  have h : ((start {}).execAll settledSums).toOption.any (fun u => u.isSettled = true ∧
      u.graph.isRetired 3 = true ∧ u.graph.listed 0 = [5] ∧
      u.graph.listed 1 = [1, 2, 4]) = true := by
    decide +kernel
  obtain ⟨u, hu, hall⟩ := exists_ok_of_any h
  exact ⟨u, ⟨_, hu⟩, of_decide_eq_true hall⟩

theorem sequences_in_step_settledSums : ∃ u, Reachable {} u ∧ u.isSettled = true ∧
    u.graph.isRetired 3 = true ∧ u.graph.listed 0 = [5] ∧ u.graph.listed 1 = [1, 2, 4] ∧
    (∀ k ins, u.graph.instrs[k]? = some ins → ins.id = k + 1) ∧
    (∀ ins ∈ u.graph.instrs, ∀ b, (u.graph.listed b).count ins.id =
      if b = ins.block ∧ ¬ (u.isSettled = true ∧ ins.isRetired = true) then 1 else 0) ∧
    (∀ b, ∀ i ∈ u.graph.listed b, ∃ ins ∈ u.graph.instrs, ins.id = i) ∧
    ∀ c o u', u.exec c = .ok (o, u') → ∀ (k : Nat) (ins : Instr), u.graph.instrs[k]? = some ins →
      ∃ ins' : Instr, u'.graph.instrs[k]? = some ins' ∧ ins'.id = ins.id ∧ ins'.block = ins.block ∧
        ins'.op.outline = ins.op.outline := by
  obtain ⟨u, hu, hsettled, hretired, hhead, hentry⟩ := exists_settledSums
  exact ⟨u, hu, hsettled, hretired, hhead, hentry, sequences_in_step hu⟩

/-! ## In which order -/

/-- **The order of sequences.**  A loop header lists its phis ahead of everything else, and phis and
other instructions each in the order in which they were added; any other block lists all of its
instructions in that order. -/
theorem sequences_in_order (h : Reachable options u) (b : BlockId) :
    (u.graph.hasRole b .loopHead = true → ∃ phis rest, u.graph.listed b = phis ++ rest ∧
      (∀ i ∈ phis, ∃ op, u.graph.op? i = some op ∧ op.isPhi = true) ∧
      (∀ i ∈ rest, ∃ op, u.graph.op? i = some op ∧ op.isPhi = false) ∧
      phis.Pairwise (· < ·) ∧ rest.Pairwise (· < ·)) ∧
    (u.graph.hasRole b .loopHead = false → (u.graph.listed b).Pairwise (· < ·)) := by
  have s := h.sequenced
  refine ⟨fun hrole => ?_, (s.inOrder b).plain⟩
  obtain ⟨phis, rest, hsplit, hfirst⟩ := (s.inOrder b).header hrole
  have hop : ∀ i ∈ phis ++ rest, ∃ op, u.graph.op? i = some op ∧ op.isPhi = u.graph.isPhi i := by
    intro i hi
    rw [← hsplit, s.mem_listed] at hi
    obtain ⟨ins, hins, -⟩ := Option.map_eq_some_iff.1 hi.1
    refine ⟨ins.op, by rw [Graph.op?, hins]; rfl, ?_⟩
    rw [Graph.isPhi, hins]
    rfl
  refine ⟨phis, rest, hsplit, fun i hi => ?_, fun i hi => ?_, hfirst.phis_lt, hfirst.rest_lt⟩
  · obtain ⟨op, hop, hphi⟩ := hop i (List.mem_append_left _ hi)
    exact ⟨op, hop, hphi.trans (hfirst.isPhi i hi)⟩
  · obtain ⟨op, hop, hphi⟩ := hop i (List.mem_append_right _ hi)
    exact ⟨op, hop, hphi.trans (hfirst.not_isPhi i hi)⟩

/-- Two variables are assigned in a loop: their phis come ahead of the exit test, which was there
before. -/
def loopPhis : List Command :=
  [.emit .read, .assign 0 (some 1), .openLoop,
    .emit (.binary .cmp (.through 0 (some 1)) (.through 0 (some 1))),
    .emit (.branch (.whenever .eq) none), .moveTo 3, .emit .read, .assign 0 (some 4),
    .assign 1 (some 1)]

theorem exists_loopPhis : ∃ u, Reachable {} u ∧ u.graph.hasRole 2 .loopHead = true ∧
    u.graph.listed 2 = [5, 6, 2, 3] := by
  have h : ((start {}).execAll loopPhis).toOption.any (fun u =>
      u.graph.hasRole 2 .loopHead = true ∧ u.graph.listed 2 = [5, 6, 2, 3]) = true := by
    decide +kernel
  obtain ⟨u, hu, hall⟩ := exists_ok_of_any h
  exact ⟨u, ⟨_, hu⟩, of_decide_eq_true hall⟩

theorem sequences_in_order_loopPhis : ∃ u, Reachable {} u ∧
    u.graph.hasRole 2 .loopHead = true ∧ u.graph.listed 2 = [5, 6, 2, 3] ∧
    (u.graph.hasRole 2 .loopHead = true → ∃ phis rest, u.graph.listed 2 = phis ++ rest ∧
      (∀ i ∈ phis, ∃ op, u.graph.op? i = some op ∧ op.isPhi = true) ∧
      (∀ i ∈ rest, ∃ op, u.graph.op? i = some op ∧ op.isPhi = false) ∧
      phis.Pairwise (· < ·) ∧ rest.Pairwise (· < ·)) ∧
    (u.graph.hasRole 2 .loopHead = false → (u.graph.listed 2).Pairwise (· < ·)) := by
  obtain ⟨u, hu, hrole, hlisted⟩ := exists_loopPhis
  exact ⟨u, hu, hrole, hlisted, sequences_in_order hu 2⟩

end Body
end StructuredSSA
