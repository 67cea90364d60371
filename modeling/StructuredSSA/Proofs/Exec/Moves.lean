import Mathlib.Logic.Relation
import StructuredSSA.Proofs.Graph.Phis
import StructuredSSA.Proofs.Layout.Entry

/-!
# Executing a graph step by step

`Graph.run` executes a graph block by block.  To compare an execution with something that stops in
the middle of a block, it is taken apart here: control is inside of a block, with instructions to
come, or on an edge, and moves on from there by one instruction, by the phis of a block, or by an
edge.  The phis of a block are one step, since they read the values from before all of them.

## What is here

* `Point` — where control is.
* `Graph.Moves` — one step, and `Graph.Goes` any number of them.
* `Graph.selected` — what the phis of a block do, and `Graph.moves_enter` that they do it, for the
  side that control comes from.
* `Graph.Goes.writes` — steps that come to the end of the program make up a run of the graph, with
  enough fuel.

The bridge to `Graph.run` goes in this direction only: steps give a run.  That is all that is asked
for further on, where the steps are found by following the source program.
-/

set_option autoImplicit false

namespace StructuredSSA

/-- Where control is. -/
inductive Point where
  /-- In the block `b`, with the instructions `rest` to come. -/
  | inside (b : BlockId) (rest : List InstrId)
  /-- On an edge of kind `e` into the block `b`. -/
  | entering (b : BlockId) (e : Edge)
deriving DecidableEq, Repr

namespace Graph

/-- The machine after the phis of `b` have been executed by control that comes from the given
side. -/
def selected (g : Graph) (b : BlockId) (side : Side) (m : Machine) : Machine :=
  { m with values := fun i =>
      if i ∈ g.listed b ∧ g.isPhi i = true then (g.phiOperand? i side).bind m.read
      else m.values i }

/-- One step of an execution. -/
inductive Moves (g : Graph) (input : Nat → Int64) : Point × Machine → Point × Machine → Prop where
  /-- The phis of a block are executed. -/
  | enter {b : BlockId} {e : Edge} {blk : Block} {m m' : Machine} (hblk : g.block? b = some blk)
      (hphis : m.selectPhis (arrivesFirst blk e)
        ((blk.instrs.filterMap g.instr?).filter (·.op.isPhi)) = some m') :
      Moves g input (.entering b e, m) (.inside b (g.plain b), m')
  /-- An instruction is executed. -/
  | exec {b : BlockId} {i : InstrId} {rest : List InstrId} {ins : Instr} {m m' : Machine}
      (hins : g.instr? i = some ins) (hstep : m.step input ins = some (m', .onward)) :
      Moves g input (.inside b (i :: rest), m) (.inside b rest, m')
  /-- Control falls off the end of a block. -/
  | fall {b c : BlockId} {m : Machine} (hnext : g.next .fall b = some c) :
      Moves g input (.inside b [], m) (.entering c .fall, m)
  /-- A branch is taken. -/
  | branch {b c : BlockId} {i : InstrId} {rest : List InstrId} {ins : Instr} {m m' : Machine}
      (hins : g.instr? i = some ins) (hstep : m.step input ins = some (m', .branch))
      (hnext : g.next .branch b = some c) :
      Moves g input (.inside b (i :: rest), m) (.entering c .branch, m')

/-- Any number of steps. -/
def Goes (g : Graph) (input : Nat → Int64) : Point × Machine → Point × Machine → Prop :=
  Relation.ReflTransGen (g.Moves input)

/-! ## Blocks -/

variable {g : Graph} {input : Nat → Int64} {m m' : Machine}

theorem filterMap_instr?_filter (g : Graph) (is : List InstrId) (p : Operation → Bool) :
    (is.filterMap g.instr?).filter (fun ins => p ins.op) =
      (is.filter fun i => (g.op? i).any p).filterMap g.instr? := by
  induction is with
  | nil => rfl
  | cons i is ih =>
    cases hi : g.instr? i with
    | none => simp [hi, op?, ih]
    | some ins => cases hp : p ins.op <;> simp [hi, op?, hp, ih]

/-- What is executed of a block after its phis. -/
theorem filterMap_plain {b : BlockId} {blk : Block} (hblk : g.block? b = some blk) :
    (blk.instrs.filterMap g.instr?).filter (fun ins => !ins.op.isPhi) =
      (g.plain b).filterMap g.instr? := by
  have hlisted : g.listed b = blk.instrs := by simp [listed, hblk]
  rw [plain, hlisted]
  induction blk.instrs with
  | nil => rfl
  | cons i is ih =>
    cases hi : g.instr? i with
    | none => simpa [List.filter_cons, isPhi, hi] using ih
    | some ins => cases hp : ins.op.isPhi <;> simp [hi, isPhi, hp, ih]

theorem selectPhis_eq (hc : g.Contents) (side : Side) (is : List InstrId)
    (hread : ∀ i ∈ is, g.isPhi i = true ∧ ((g.phiOperand? i side).bind m.read).isSome = true) :
    m.selectPhis (decide (side = .first)) (is.filterMap g.instr?) =
      some { m with values := fun i =>
        if i ∈ is then (g.phiOperand? i side).bind m.read
        else m.values i } := by
  induction is with
  | nil => simp [Machine.selectPhis]
  | cons i is ih =>
    obtain ⟨⟨hphi, hsome⟩, hrest⟩ := List.forall_mem_cons.1 hread
    obtain ⟨x, l, r, hop⟩ := hc.exists_phi hphi
    obtain ⟨ins, hins, hinsop⟩ := Option.map_eq_some_iff.1 hop
    obtain ⟨v, hv⟩ := Option.isSome_iff_exists.1 hsome
    have hside : m.read (if side = .first then .through x l else .through x r) = some v := by
      rw [phiOperand?_phi hop] at hv
      cases side <;> simpa using hv
    rw [List.filterMap_cons_some hins, Machine.selectPhis, ih hrest]
    simp only [hinsop, Operation.phi, Option.bind_eq_bind, Option.bind_some,
      decide_eq_true_eq, hside, Option.pure_def, Option.some.injEq, Machine.set, hc.id_eq _ _ hins,
      Machine.mk.injEq, and_true]
    funext j
    by_cases hj : j = i
    · simp [hj, hv]
    · simp [hj]

/-- **Control enters a block** from a side on which all phis find values. -/
theorem moves_enter (hc : g.Contents) {b : BlockId} {blk : Block} {e : Edge} {side : Side}
    (hblk : g.block? b = some blk) (hside : arrivesFirst blk e = true ↔ side = .first)
    (hread : ∀ i ∈ g.listed b, g.isPhi i = true →
      ((g.phiOperand? i side).bind m.read).isSome = true) :
    g.Moves input (.entering b e, m) (.inside b (g.plain b), g.selected b side m) := by
  refine .enter hblk ?_
  have hlisted : g.listed b = blk.instrs := by simp [listed, hblk]
  have hfirst : arrivesFirst blk e = decide (side = .first) := by
    rw [Bool.eq_iff_iff, decide_eq_true_eq]
    exact hside
  rw [filterMap_instr?_filter g blk.instrs (fun op => op.isPhi), hfirst, ← hlisted,
    selectPhis_eq hc side _ fun i hi => ?_]
  · simp [selected, ← isPhi_eq]
  · have h := List.mem_filter.1 hi
    rw [← isPhi_eq] at h
    exact ⟨h.2, hread i h.1 h.2⟩

/-- Control enters a block without phis. -/
theorem moves_enter_of_not_isPhi {b : BlockId} {e : Edge} (hb : b < g.blocks.size)
    (h : ∀ i ∈ g.listed b, g.isPhi i = false) (m : Machine) :
    g.Moves input (.entering b e, m) (.inside b (g.plain b), m) := by
  obtain ⟨blk, hblk⟩ := exists_block hb
  have hlisted : g.listed b = blk.instrs := by simp [listed, hblk]
  refine .enter hblk ?_
  rw [filterMap_instr?_filter g blk.instrs (fun op => op.isPhi), List.filter_eq_nil_iff.2]
  · rfl
  · intro i hi
    rw [← isPhi_eq, h i (hlisted ▸ hi)]
    exact Bool.false_ne_true

/-! ## Whole executions -/

/-- Executes a graph from a point on, through at most `fuel` more blocks. -/
def resume (g : Graph) (input : Nat → Int64) (fuel : Nat) : Point × Machine → Option Machine
  | (.entering b e, m) => g.run input fuel m b e
  | (.inside b rest, m) => do
    let (m, flow) ← m.steps input (rest.filterMap g.instr?)
    match flow with
    | .stop => return m
    | .onward => g.run input fuel m (← g.next .fall b) .fall
    | .branch => g.run input fuel m (← g.next .branch b) .branch

/-- An execution that is resumed after a step could have been resumed before it. -/
theorem Moves.exists_resume {p q : Point × Machine} (h : g.Moves input p q) {fuel : Nat}
    (hq : g.resume input fuel q = some m) : ∃ fuel', g.resume input fuel' p = some m := by
  cases h with
  | @enter b e blk m₀ m₁ hblk hphis =>
    refine ⟨fuel + 1, ?_⟩
    rw [resume, run, hblk]
    simp only [Option.bind_eq_bind, Option.bind_some, execBlock, hphis, filterMap_plain hblk]
    rw [resume] at hq
    simp only [next, hblk, Option.bind_some, Option.bind_eq_bind] at hq
    exact hq
  | exec hins hstep =>
    refine ⟨fuel, ?_⟩
    simpa only [resume, List.filterMap_cons_some hins, Machine.steps, hstep, Option.bind_eq_bind,
      Option.bind_some] using hq
  | fall hnext =>
    refine ⟨fuel, ?_⟩
    simpa only [resume, List.filterMap_nil, Machine.steps, hnext, Option.bind_eq_bind,
      Option.bind_some] using hq
  | branch hins hstep hnext =>
    refine ⟨fuel, ?_⟩
    simpa only [resume, List.filterMap_cons_some hins, Machine.steps, hstep, hnext,
      Option.bind_eq_bind, Option.bind_some, Option.pure_def] using hq

theorem Goes.exists_resume {p q : Point × Machine} (h : g.Goes input p q) {fuel : Nat}
    (hq : g.resume input fuel q = some m) : ∃ fuel', g.resume input fuel' p = some m := by
  induction h using Relation.ReflTransGen.head_induction_on with
  | refl => exact ⟨fuel, hq⟩
  | head hmoves _ ih =>
    obtain ⟨fuel', h'⟩ := ih
    exact hmoves.exists_resume h'

/-- **An execution that comes to the end of the program** has written what it has written there. -/
theorem Goes.writes {b c : BlockId} {i : InstrId} {rest : List InstrId}
    (h : g.Goes input (.entering b .fall, {}) (.inside c (i :: rest), m))
    (hop : g.op? i = some .halt) : g.Writes b input m.written.reverse := by
  obtain ⟨ins, hins, hinsop⟩ := Option.map_eq_some_iff.1 hop
  have hstop : g.resume input 0 (.inside c (i :: rest), m) = some m := by
    simp [resume, List.filterMap_cons_some hins, Machine.steps, Machine.step, hinsop]
  obtain ⟨fuel, hrun⟩ := h.exists_resume hstop
  exact ⟨fuel, m, hrun, rfl⟩

end Graph
end StructuredSSA
