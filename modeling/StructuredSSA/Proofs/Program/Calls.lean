import StructuredSSA.Program.Command
import StructuredSSA.Proofs.Body.Run
import StructuredSSA.Proofs.Graph.Append

/-!
# Calls

A call is checked against the function it names before anything is added, so a call that is refused
leaves the program as it was.  A call that is accepted adds its moves, itself and, if its value is
asked for, one more move, all in a row at the end of the current block.  The function may be the
very one whose body is being built.

## What is here

* `Body.exists_emit_plain`, `Body.exists_moveArgs`, `Body.exists_emitCall` — what is added.
* `Program.Named`, `Program.Misfits` — the function that a call means, and calls that do not fit.
* `Program.CallEnds` — how a call ends.
* `Program.calls_exact` — how both kinds of call end.
-/

set_option autoImplicit false

namespace StructuredSSA

namespace Body

variable {u : Body}

/-- What a call with `args` adds, if the first of it is instruction `first`: the moves of the
arguments into the registers from `1` on, and the call that names them. -/
def callOps (f : Var) (name : String) (args : List Operand) (first : InstrId) : List Operation :=
  (args.zipIdx 1).map (fun (src, register) => .move src register) ++
    [.call f name (List.range' first args.length)]

/-- Adding an operation that cannot be shared. -/
theorem exists_emit_plain (hopen : u.isSettled = false) (hcurrent : u.current < u.graph.blocks.size)
    (op : Operation) (hop : op.IsPlain) :
    ∃ g, u.emit op = .ok (u.graph.nextId, { u with graph := g }) ∧
      u.graph.Appends u.current [op] g := by
  obtain ⟨g, hplace, happends⟩ := Graph.exists_appends hcurrent hop
  refine ⟨g, ?_, happends⟩
  obtain ⟨blk, hblk⟩ := Graph.exists_block hcurrent
  have hrequire : u.requireOpen = .ok () := require_eq_ok_iff.2 (by simp [hopen])
  have hnone : u.shareable? op = .ok none := by
    rw [shareable?]
    split
    · simp only [Graph.block_eq_ok_iff.2 hblk, Graph.match?, hop.arith?_eq, bind, Except.bind]
    · rfl
  simp only [emit, hrequire, hnone, Body.place, hplace, bind, Except.bind, pure, Except.pure]

/-- The moves of the arguments, by induction on the arguments. -/
theorem exists_moveArgs (hopen : u.isSettled = false)
    (hcurrent : u.current < u.graph.blocks.size) (args : List Operand) (register : Nat) :
    ∃ g, u.moveArgs register args =
        .ok (List.range' u.graph.nextId args.length, { u with graph := g }) ∧
      u.graph.Appends u.current
        ((args.zipIdx register).map fun (src, register) => .move src register) g := by
  induction args generalizing u register with
  | nil => exact ⟨u.graph, rfl, .nil u.graph u.current⟩
  | cons src rest ih =>
    obtain ⟨g, hemit, hfirst⟩ := exists_emit_plain hopen hcurrent (.move src register)
      ⟨rfl, rfl, rfl⟩
    obtain ⟨g', hmoves, hrest⟩ := ih (u := { u with graph := g }) hopen
      ((hfirst.lt_size_iff _).2 hcurrent) (register + 1)
    have hnext : g.nextId = u.graph.nextId + 1 := hfirst.nextId_eq
    refine ⟨g', ?_, hfirst.trans hrest⟩
    simp only [moveArgs, hemit, hmoves, bind, Except.bind, pure, Except.pure, hnext,
      List.length_cons, List.range'_succ]

/-- The moves and the call itself. -/
theorem exists_emitCall (hopen : u.isSettled = false)
    (hcurrent : u.current < u.graph.blocks.size) (f : Var) (name : String) (args : List Operand) :
    ∃ g, u.emitCall f name args = .ok (u.graph.nextId + args.length, { u with graph := g }) ∧
      u.graph.Appends u.current (callOps f name args u.graph.nextId) g := by
  obtain ⟨g, hmoves, hfirst⟩ := exists_moveArgs hopen hcurrent args 1
  obtain ⟨g', hemit, hcall⟩ := exists_emit_plain (u := { u with graph := g }) hopen
    ((hfirst.lt_size_iff _).2 hcurrent)
    (.call f name (List.range' u.graph.nextId args.length)) ⟨rfl, rfl, rfl⟩
  have hnext : g.nextId = u.graph.nextId + args.length := by
    rw [hfirst.nextId_eq, List.length_map, List.length_zipIdx]
  refine ⟨g', ?_, hfirst.trans hcall⟩
  simp only [emitCall, hmoves, hemit, hnext, bind, Except.bind]

end Body

namespace Program

variable {p p' : Program} {f : Var}

/-! ## The function that is called -/

/-- The first function named `f` is `d`. -/
def Named (p : Program) (f : Var) (d : Definition) : Prop :=
  ∃ before after, p.functions = before ++ d :: after ∧ d.ident = some f ∧
    ∀ d' ∈ before, d'.ident ≠ some f

/-- A call of `f` with `count` arguments does not fit: no function is named `f`, or the first one
has another number of parameters. -/
def Misfits (p : Program) (f : Var) (count : Nat) : Prop :=
  (∀ d ∈ p.functions, d.ident ≠ some f) ∨ ∃ d, p.Named f d ∧ d.params.length ≠ count

theorem function?_eq_some_iff {d : Definition} : p.function? f = some d ↔ p.Named f d := by
  rw [function?, List.find?_eq_some_iff_append, Named]
  simp only [beq_iff_eq, Bool.not_eq_true', beq_eq_false_iff_ne]
  constructor
  · rintro ⟨hd, before, after, hsplit, hbefore⟩
    exact ⟨before, after, hsplit, hd, hbefore⟩
  · rintro ⟨before, after, hsplit, hd, hbefore⟩
    exact ⟨hd, before, after, hsplit, hbefore⟩

theorem function?_eq_none_iff : p.function? f = none ↔ ∀ d ∈ p.functions, d.ident ≠ some f := by
  rw [function?, List.find?_eq_none]
  simp only [beq_iff_eq]

theorem refusal?_isSome_iff (name : String) (count : Nat) :
    (∃ e, p.refusal? f name count = some e) ↔ p.Misfits f count := by
  rw [refusal?, Misfits, ← function?_eq_none_iff]
  cases hfound : p.function? f with
  | none => simp
  | some d =>
    have hnamed : ∀ d', p.Named f d' ↔ d = d' := fun d' => by
      rw [← function?_eq_some_iff, hfound, Option.some.injEq]
    by_cases hlength : d.params.length = count <;> simp [hnamed, hlength]

theorem isVoid_iff : p.isVoid f = true ↔ ∃ d, p.Named f d ∧ d.isVoid = true := by
  rw [isVoid, Option.any_eq_true]
  exact exists_congr fun d => and_congr_left' function?_eq_some_iff

/-! ## How calls end -/

/-- **How a call ends**: it is refused in the cases of `refused`, and then the program is what it
was; or else instruction `i` is the call, and `ops` have been appended to the current block. -/
structure CallEnds (p : Program) (refused : Prop) (i : InstrId) (ops : List Operation)
    (r : Except CallError InstrId) (p' : Program) : Prop where
  refused_iff : (∃ e, r = .error e) ↔ refused
  unchanged : ∀ e, r = .error e → p' = p
  appended : ∀ j, r = .ok j → j = i ∧
    ∃ g, p.body.graph.Appends p.body.current ops g ∧ p' = p.setBody { p.body with graph := g }

section Ends

variable {refused : Prop} {i : InstrId} {ops : List Operation}

theorem CallEnds.of_refused (h : refused) (e : CallError) :
    p.CallEnds refused i ops (.error e) p where
  refused_iff := iff_of_true ⟨e, rfl⟩ h
  unchanged _ _ := rfl
  appended j hj := by cases hj

theorem CallEnds.of_appended (h : ¬ refused) {g : Graph}
    (happends : p.body.graph.Appends p.body.current ops g) :
    p.CallEnds refused i ops (.ok i) (p.setBody { p.body with graph := g }) where
  refused_iff := iff_of_false (by simp) h
  unchanged e he := by cases he
  appended j hj := by
    cases hj
    exact ⟨rfl, g, happends, rfl⟩

end Ends

theorem exists_call (hopen : p.body.isSettled = false)
    (hcurrent : p.body.current < p.body.graph.blocks.size) (f : Var) (name : String)
    (args : List Operand) : ∃ r p', p.call f name args = .ok (r, p') ∧
      p.CallEnds (p.Misfits f args.length) (p.body.graph.nextId + args.length)
        (Body.callOps f name args p.body.graph.nextId) r p' := by
  rw [call]
  cases hrefusal : p.refusal? f name args.length with
  | some e => exact ⟨_, _, rfl, .of_refused ((refusal?_isSome_iff name _).1 ⟨e, hrefusal⟩) e⟩
  | none =>
    have hfits : ¬ p.Misfits f args.length := by
      rw [← refusal?_isSome_iff name]
      simp [hrefusal]
    obtain ⟨g, hemit, happends⟩ := Body.exists_emitCall hopen hcurrent f name args
    refine ⟨_, _, ?_, .of_appended hfits happends⟩
    simp only [hemit, bind, Except.bind, pure, Except.pure]

theorem exists_callForValue (hopen : p.body.isSettled = false)
    (hcurrent : p.body.current < p.body.graph.blocks.size) (f : Var) (name : String)
    (args : List Operand) : ∃ r p', p.callForValue f name args = .ok (r, p') ∧
      p.CallEnds (p.Misfits f args.length ∨ ∃ d, p.Named f d ∧ d.isVoid = true)
        (p.body.graph.nextId + args.length)
        (Body.callOps f name args p.body.graph.nextId ++
          [.move (.result (p.body.graph.nextId + args.length)) p.options.returnRegister]) r p' := by
  rw [callForValue]
  split
  · rename_i hvoid
    exact ⟨_, _, rfl, .of_refused (.inr (isVoid_iff.1 hvoid)) _⟩
  · rename_i hvalue
    rw [isVoid_iff] at hvalue
    cases hrefusal : p.refusal? f name args.length with
    | some e =>
      exact ⟨_, _, rfl, .of_refused (.inl ((refusal?_isSome_iff name _).1 ⟨e, hrefusal⟩)) e⟩
    | none =>
      have hfits : ¬ p.Misfits f args.length := by
        rw [← refusal?_isSome_iff name]
        simp [hrefusal]
      obtain ⟨g, hemit, hcall⟩ := Body.exists_emitCall hopen hcurrent f name args
      obtain ⟨g', hmove, hlast⟩ := Body.exists_emit_plain (u := { p.body with graph := g }) hopen
        ((hcall.lt_size_iff _).2 hcurrent)
        (.move (.result (p.body.graph.nextId + args.length)) p.options.returnRegister)
        ⟨rfl, rfl, rfl⟩
      refine ⟨_, _, ?_, .of_appended (not_or.2 ⟨hfits, hvalue⟩) (hcall.trans hlast)⟩
      simp only [hemit, hmove, bind, Except.bind, pure, Except.pure]

/-- **Calls are checked first and added exactly.**  A call is refused if no function has the name or
the first one that has it takes another number of arguments, and a call for a value also if that
function has none; the program is what it was then.  Otherwise the moves of the arguments, the call
and, for a value, the move of its result are appended to the current block. -/
theorem calls_exact (p : Program) (hopen : p.body.isSettled = false)
    (hcurrent : p.body.current < p.body.graph.blocks.size) (f : Var) (name : String)
    (args : List Operand) :
    (∃ r p', p.call f name args = .ok (r, p') ∧
      p.CallEnds (p.Misfits f args.length) (p.body.graph.nextId + args.length)
        (Body.callOps f name args p.body.graph.nextId) r p') ∧
    ∃ r p', p.callForValue f name args = .ok (r, p') ∧
      p.CallEnds (p.Misfits f args.length ∨ ∃ d, p.Named f d ∧ d.isVoid = true)
        (p.body.graph.nextId + args.length)
        (Body.callOps f name args p.body.graph.nextId ++
          [.move (.result (p.body.graph.nextId + args.length)) p.options.returnRegister]) r p' :=
  ⟨exists_call hopen hcurrent f name args, exists_callForValue hopen hcurrent f name args⟩

/-- A function that is about to call itself, at the join of an if for which a branch waits. -/
def callAtJoin : List Command :=
  [.openFunction false, .nameFunction 7, .addParam 0, .bindParams, .body .openIf,
    .body (.emit (.binary .cmp (.through 0 (some 1)) (.through 0 (some 1)))),
    .body (.emit (.branch (.whenever .eq) none)), .body (.aimBranch 1), .body (.moveTo 2)]

theorem exists_callAtJoin : ∃ p, (start {}).execAll callAtJoin = .ok p ∧
    p.body.isSettled = false ∧ p.body.current < p.body.graph.blocks.size ∧
    p.body.graph.op? 3 = some (.branch (.whenever .eq) (some (.startOf p.body.current))) ∧
    (p.callForValue 7 "f" [.through 0 (some 1)]).toOption.any (fun r =>
      r.2.body.graph.op? 3 = some (.branch (.whenever .eq) (some (.instr 4)))) = true := by
  have h : ((start {}).execAll callAtJoin).toOption.any (fun p =>
      p.body.isSettled = false ∧ p.body.current < p.body.graph.blocks.size ∧
      p.body.graph.op? 3 = some (.branch (.whenever .eq) (some (.startOf p.body.current))) ∧
      (p.callForValue 7 "f" [.through 0 (some 1)]).toOption.any (fun r =>
        r.2.body.graph.op? 3 = some (.branch (.whenever .eq) (some (.instr 4)))) = true)
      = true := by
    decide +kernel
  obtain ⟨p, hp, hall⟩ := exists_ok_of_any h
  exact ⟨p, hp, of_decide_eq_true hall⟩

theorem calls_exact_callAtJoin : ∃ p, (start {}).execAll callAtJoin = .ok p ∧
    p.body.isSettled = false ∧ p.body.current < p.body.graph.blocks.size ∧
    p.body.graph.op? 3 = some (.branch (.whenever .eq) (some (.startOf p.body.current))) ∧
    (p.callForValue 7 "f" [.through 0 (some 1)]).toOption.any (fun r =>
      r.2.body.graph.op? 3 = some (.branch (.whenever .eq) (some (.instr 4)))) = true ∧
    (∃ r p', p.call 7 "f" [.through 0 (some 1)] = .ok (r, p') ∧
      p.CallEnds (p.Misfits 7 1) (p.body.graph.nextId + 1)
        (Body.callOps 7 "f" [.through 0 (some 1)] p.body.graph.nextId) r p') ∧
    ∃ r p', p.callForValue 7 "f" [.through 0 (some 1)] = .ok (r, p') ∧
      p.CallEnds (p.Misfits 7 1 ∨ ∃ d, p.Named 7 d ∧ d.isVoid = true) (p.body.graph.nextId + 1)
        (Body.callOps 7 "f" [.through 0 (some 1)] p.body.graph.nextId ++
          [.move (.result (p.body.graph.nextId + 1)) p.options.returnRegister]) r p' := by
  obtain ⟨p, hp, hopen, hcurrent, hwaits, harrives⟩ := exists_callAtJoin
  exact ⟨p, hp, hopen, hcurrent, hwaits, harrives,
    calls_exact p hopen hcurrent 7 "f" [.through 0 (some 1)]⟩

end Program
end StructuredSSA
