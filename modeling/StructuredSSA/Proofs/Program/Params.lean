import Mathlib.Order.Bounds.Basic
import StructuredSSA.Proofs.Body.Chains
import StructuredSSA.Proofs.Body.Outermost
import StructuredSSA.Proofs.Program.Calls
import StructuredSSA.Proofs.Program.Isolation

/-!
# Arguments arrive where parameters are read

A call moves its arguments into the registers from `1` on, and the parameters of a function are
bound in turn to the arguments in these registers.  The two count by themselves, in different bodies
and at different times.  Here it is shown that they agree.  On the side of the function no construct
is around the entry block, so that a binding made there is all there is to an assignment; a
parameter that is named twice is bound twice, and the later binding counts.

## What is here

* `Graph.ArgumentAt`, `Graph.BindsParams` — arguments in the head, and parameters bound to them.
* `Body.exists_bindParam`, `Body.exists_bindParams` — what binding parameters does.
* `Body.SeesArgument`, `Body.SeesParams` — what the entry sees afterwards.
* `Graph.Passes` — a call with the moves of its arguments.
* `Program.call_passes`, `Program.callForValue_passes` — what a call adds.
* `Program.Means` — the position of the function that a call means.
* `Program.registers_agree` — both sides together.
-/

set_option autoImplicit false

namespace StructuredSSA

open Body (head entry)

/-! ## Binding parameters -/

namespace Graph

variable {g g₁ g' : Graph} {b : BlockId} {i : InstrId} {slot first : Nat} {xs ys : List Var}

/-- Instruction `i` of the head block is the argument that arrives in register `slot`. -/
structure ArgumentAt (g : Graph) (i : InstrId) (slot : Nat) : Prop where
  op?_eq : g.op? i = some (.argument slot)
  home?_eq : g.home? i = some head
  listed : i ∈ g.listed head

theorem ArgumentAt.rebinds (a : g.ArgumentAt i slot) (h : Rebinds g b g') :
    g'.ArgumentAt i slot where
  op?_eq := (h.op?_eq i).trans a.op?_eq
  home?_eq := by
    rw [home?, h.instr?_eq]
    exact a.home?_eq
  listed := by
    rw [h.listed_eq]
    exact a.listed

theorem ArgumentAt.places (a : g.ArgumentAt i slot) {op : Operation} (h : Places g b op g') :
    g'.ArgumentAt i slot where
  op?_eq := (h.op?_eq rfl).2 (.inr ⟨Nat.ne_of_lt (lt_nextId_of_op? a.op?_eq), a.op?_eq⟩)
  home?_eq := by
    rw [h.home?_eq, if_neg (Nat.ne_of_lt (lt_nextId_of_op? a.op?_eq))]
    exact a.home?_eq
  listed := h.mem_listed.2 (.inl a.listed)

/-- **The entry binds `xs` in turn** to the arguments in the registers from `first` on: what counts
of a variable is the last place where it occurs.  Other bindings of the entry stay, and so do
arguments that were there. -/
structure BindsParams (g : Graph) (first : Nat) (xs : List Var) (g' : Graph) : Prop where
  skeleton : SameSkeleton g g'
  bound : ∀ x ∈ xs, ∃ k i, IsGreatest {j | xs[j]? = some x} k ∧
    g'.binding Body.entry x = some (some i) ∧ g'.ArgumentAt i (first + k)
  unbound : ∀ x, x ∉ xs → g'.binding Body.entry x = g.binding Body.entry x
  kept : ∀ i slot, g.ArgumentAt i slot → g'.ArgumentAt i slot

namespace BindsParams

theorem nil (g : Graph) (first : Nat) : g.BindsParams first [] g where
  skeleton := .refl g
  bound x hx := by cases hx
  unbound _ _ := rfl
  kept _ _ a := a

/-- Parameters bound after others: a variable that occurs again is bound again. -/
theorem append (h : g.BindsParams first xs g₁) (h' : g₁.BindsParams (first + xs.length) ys g') :
    g.BindsParams first (xs ++ ys) g' where
  skeleton := h.skeleton.trans h'.skeleton
  bound x hx := by
    by_cases hys : x ∈ ys
    · obtain ⟨k, i, ⟨hk, hgreatest⟩, hbinding, harg⟩ := h'.bound x hys
      refine ⟨xs.length + k, i, ⟨?_, fun j hj => ?_⟩, hbinding, Nat.add_assoc _ _ _ ▸ harg⟩
      · rw [Set.mem_ofPred_eq, List.getElem?_append_right (Nat.le_add_right _ _),
          Nat.add_sub_cancel_left]
        exact hk
      · rw [Set.mem_ofPred_eq, List.getElem?_append] at hj
        split at hj
        · exact Nat.le_trans (Nat.le_of_lt ‹_›) (Nat.le_add_right _ _)
        · have := hgreatest hj
          omega
    · obtain ⟨k, i, ⟨hk, hgreatest⟩, hbinding, harg⟩ :=
        h.bound x ((List.mem_append.1 hx).resolve_right hys)
      refine ⟨k, i, ⟨?_, fun j hj => ?_⟩, (h'.unbound x hys).trans hbinding, h'.kept i _ harg⟩
      · obtain ⟨hlt, -⟩ := List.getElem?_eq_some_iff.1 hk
        rw [Set.mem_ofPred_eq, List.getElem?_append_left hlt]
        exact hk
      · rw [Set.mem_ofPred_eq, List.getElem?_append] at hj
        split at hj
        · exact hgreatest hj
        · exact absurd (List.mem_of_getElem? hj) hys
  unbound x hx := by
    rw [List.mem_append, not_or] at hx
    exact (h'.unbound x hx.2).trans (h.unbound x hx.1)
  kept i slot a := h'.kept i slot (h.kept i slot a)

end BindsParams

/-- A block sees what it binds itself. -/
theorem resolve_of_binding {x : Var} {v : Option InstrId} (hg : g.Linked)
    (h : g.binding b x = some v) : g.resolve b x = .ok v := by
  obtain ⟨blk, hblk, -⟩ := Option.bind_eq_some_iff.1 h
  exact (resolve_eq_ok_iff hg x (lt_size_of_block? hblk) v).2 (.inl (.here h))

end Graph

namespace Body

variable {u u' : Body} {x : Var} {slot : Nat}

/-- Where no construct is around the current block, an assignment is no more than a binding. -/
theorem assign_eq_of_outermost {value : Option InstrId} {blk blk' : Block}
    (hopen : u.isSettled = false) (hblk : u.graph.block? u.current = some blk)
    (hblk' : (u.graph.bindIn u.current x value).block? u.current = some blk')
    (hregion : (u.graph.bindIn u.current x value).region blk' = .outermost) :
    u.assign x value = .ok { u with graph := u.graph.bindIn u.current x value } := by
  have hrequire : u.requireOpen = .ok () := require_eq_ok_iff.2 (by simp [hopen])
  simp only [assign, hrequire, Graph.block_eq_ok_iff.2 hblk, Graph.block_eq_ok_iff.2 hblk', hregion,
    bind, Except.bind]
  rfl

/-- One parameter: the assignment to it ends in the entry, since no construct is around it. -/
theorem exists_bindParam (hopen : u.isSettled = false) (hcurrent : u.current = entry)
    (hdetached : u.Detached) (x : Var) (slot : Nat) :
    ∃ g, u.bindParam x slot = .ok { u with graph := g } ∧ u.graph.BindsParams slot [x] g := by
  obtain ⟨tests, s⟩ := hdetached
  have hentry : entry < u.graph.blocks.size := s.root_lt
  obtain ⟨blk, hblk⟩ := Graph.exists_block hentry
  let g₁ := u.graph.bindIn entry x none
  have hdeclared : u.graph.Rebinds entry g₁ := Graph.rebinds_bindIn _ _ _ _
  have hhead : head < g₁.blocks.size :=
    (hdeclared.skeleton.lt_size_iff _).2 (Nat.lt_trans (by decide : head < entry) hentry)
  obtain ⟨g₂, hplace, hplaces⟩ := Graph.exists_places hhead (.argument slot) fun _ => by simp
  have hskel₂ := hdeclared.skeleton.trans hplaces.skeleton
  have hentry₂ : entry < g₂.blocks.size := (hskel₂.lt_size_iff _).2 hentry
  obtain ⟨blk₂, hblk₂⟩ := Graph.exists_block hentry₂
  let g₃ := g₂.bindIn entry x (some g₁.nextId)
  have hbound : g₂.Rebinds entry g₃ := Graph.rebinds_bindIn _ _ _ _
  have hskel := hskel₂.trans hbound.skeleton
  obtain ⟨blk₃, hblk₃⟩ := Graph.exists_block ((hskel.lt_size_iff _).2 hentry)
  have hregion : g₃.region blk₃ = .outermost := (s.of_sameSkeleton hskel).region_eq hblk₃
  have hbinding : ∀ y, g₃.binding entry y =
      if y = x then some (some g₁.nextId) else u.graph.binding entry y := fun y => by
    rw [Graph.binding_bindIn hentry₂, hplaces.binding_eq, Graph.binding_bindIn hentry]
    by_cases hy : y = x <;> simp [hy]
  refine ⟨g₃, ?_, {
    skeleton := hskel
    bound := fun y hy => ?_
    unbound := fun y hy => ?_
    kept := fun i _ a => ((a.rebinds hdeclared).places hplaces).rebinds hbound }⟩
  · have hdeclare : u.declare x = .ok { u with graph := g₁ } := by
      simp only [declare, hcurrent, Graph.block_eq_ok_iff.2 hblk, bind, Except.bind]
      rfl
    have hargument : ({ u with graph := g₁ } : Body).argument slot =
        .ok (g₁.nextId, { u with graph := g₂ }) := by
      simp only [argument, Body.place, hplace, bind, Except.bind]
      rfl
    have hassign : ({ u with graph := g₂ } : Body).assign x (some g₁.nextId) =
        .ok { u with graph := g₃ } := by
      have hgraph : g₃ = g₂.bindIn u.current x (some g₁.nextId) := by rw [hcurrent]
      rw [hgraph]
      exact assign_eq_of_outermost hopen (by rwa [hcurrent]) (by rwa [hcurrent]) (by rwa [hcurrent])
    simp only [bindParam, hdeclare, hargument, hassign, bind, Except.bind]
  · obtain rfl : y = x := List.mem_singleton.1 hy
    refine ⟨0, g₁.nextId, ⟨rfl, ?_⟩, by rw [hbinding, if_pos rfl], ?_⟩
    · rintro (_ | j) hj
      · exact Nat.le_refl 0
      · cases hj
    · exact Graph.ArgumentAt.rebinds {
        op?_eq := hplaces.op?_new
        home?_eq := by rw [hplaces.home?_eq, if_pos rfl]
        listed := hplaces.mem_listed.2 (.inr ⟨rfl, rfl⟩) } hbound
  · rw [hbinding, if_neg (mt List.mem_singleton.2 hy)]

/-- All parameters, by induction on them. -/
theorem exists_bindParams (hopen : u.isSettled = false) (hcurrent : u.current = entry)
    (hdetached : u.Detached) (xs : List Var) (first : Nat) :
    ∃ g, (xs.zipIdx first).foldlM (fun s (x, slot) => s.bindParam x slot) u =
        .ok { u with graph := g } ∧ u.graph.BindsParams first xs g := by
  induction xs generalizing u first with
  | nil => exact ⟨u.graph, rfl, .nil u.graph first⟩
  | cons x xs ih =>
    obtain ⟨g, hbind, hfirst⟩ := exists_bindParam hopen hcurrent hdetached x first
    obtain ⟨g', hfold, hrest⟩ := ih (u := { u with graph := g }) hopen hcurrent
      (hdetached.of_sameSkeleton hfirst.skeleton) (first + 1)
    refine ⟨g', ?_, hfirst.append hrest⟩
    rw [List.zipIdx_cons, List.foldlM_cons]
    exact bind_eq_ok_iff.2 ⟨_, hbind, hfold⟩

/-- Nothing is assigned in a body that has been settled. -/
theorem open_of_bindParam (h : u.bindParam x slot = .ok u') : u.isSettled = false := by
  obtain ⟨u₁, hdeclare, h⟩ := bind_eq_ok_iff.1 h
  obtain ⟨⟨i, u₂⟩, hargument, h⟩ := bind_eq_ok_iff.1 h
  obtain ⟨_, hopen, -⟩ := bind_eq_ok_iff.1 h
  obtain ⟨blk, -, hdeclare⟩ := bind_eq_ok_iff.1 hdeclare
  cases hdeclare
  rw [← isSettled_of_requireOpen hopen]
  exact (isSettled_place hargument).symm

/-- The entry sees `x` as the argument that arrives in register `slot`. -/
def SeesArgument (u : Body) (x : Var) (slot : Nat) : Prop :=
  ∃ i, u.graph.resolve entry x = .ok (some i) ∧ u.graph.ArgumentAt i slot

/-- **Each parameter is seen as an argument**, the one in the register that counts the last place
where it occurs. -/
def SeesParams (u : Body) (xs : List Var) : Prop :=
  ∀ x ∈ xs, ∃ k, IsGreatest {j | xs[j]? = some x} k ∧ u.SeesArgument x (k + 1)

theorem seesParams_of_binds {xs : List Var} {g : Graph} (hlinked : u.graph.Linked)
    (h : u.graph.BindsParams 1 xs g) : SeesParams { u with graph := g } xs := by
  intro x hx
  obtain ⟨k, i, hk, hbinding, harg⟩ := h.bound x hx
  rw [Nat.add_comm 1 k] at harg
  exact ⟨k, hk, i, Graph.resolve_of_binding (hlinked.of_sameSkeleton h.skeleton) hbinding, harg⟩

/-- A parameter that occurs once is seen as the argument in its own place. -/
theorem SeesParams.at {xs : List Var} (h : u.SeesParams xs) (hnodup : xs.Nodup) {k : Nat}
    (hx : xs[k]? = some x) : u.SeesArgument x (k + 1) := by
  obtain ⟨last, ⟨hlast, -⟩, hargument⟩ := h x (List.mem_of_getElem? hx)
  obtain ⟨hk, -⟩ := List.getElem?_eq_some_iff.1 hx
  obtain rfl : k = last := (List.getElem?_inj hk hnodup).1 (hx.trans hlast.symm)
  exact hargument

end Body

/-! ## Passing arguments -/

namespace Graph

variable {g g' : Graph} {b : BlockId} {i : InstrId} {f : Var} {name : String} {args : List Operand}
  {moves : List InstrId}

/-- **Instruction `i` is a call of `f` that passes `args`**: it names a move for each of them, and
the moves put them into the registers from `1` on. -/
structure Passes (g : Graph) (i : InstrId) (f : Var) (name : String) (args : List Operand)
    (moves : List InstrId) : Prop where
  op?_eq : g.op? i = some (.call f name moves)
  length_eq : moves.length = args.length
  move : ∀ k m, moves[k]? = some m →
    ∃ src, args[k]? = some src ∧ g.op? m = some (.move src (k + 1))

theorem Appends.op?_new {ops : List Operation} (h : g.Appends b ops g') {k : Nat} {op : Operation}
    (hk : ops[k]? = some op) : g'.op? (g.nextId + k) = some op := by
  rw [op?, h.instr?_new k op hk]
  rfl

/-- What a call adds passes the arguments, whatever is added behind it. -/
theorem passes_of_appends {rest : List Operation}
    (h : g.Appends b (Body.callOps f name args g.nextId ++ rest) g') :
    g'.Passes (g.nextId + args.length) f name args (List.range' g.nextId args.length) where
  op?_eq := h.op?_new (by simp [Body.callOps])
  length_eq := List.length_range'
  move k m hm := by
    obtain ⟨hk, rfl⟩ : k < args.length ∧ m = g.nextId + k := by
      rw [List.getElem?_eq_some_iff] at hm
      obtain ⟨hk, hm⟩ := hm
      rw [List.getElem_range', Nat.one_mul] at hm
      exact ⟨by rwa [List.length_range'] at hk, hm.symm⟩
    refine ⟨args[k], List.getElem?_eq_getElem hk, h.op?_new ?_⟩
    rw [Body.callOps, List.append_assoc, List.getElem?_append_left (by simpa using hk),
      List.getElem?_map, List.getElem?_zipIdx, List.getElem?_eq_getElem hk, Nat.add_comm k 1]
    rfl

end Graph

namespace Body

variable {u u' : Body} {i : InstrId}

/-- Whatever cannot be shared is added to an open body, at the end of a block that exists. -/
theorem ready_of_emit {op : Operation} (harith : op.arith? = none) (h : u.emit op = .ok (i, u')) :
    u.isSettled = false ∧ u.current < u.graph.blocks.size := by
  obtain ⟨_, hopen, h⟩ := bind_eq_ok_iff.1 h
  obtain ⟨m, hm, h⟩ := bind_eq_ok_iff.1 h
  refine ⟨isSettled_of_requireOpen hopen, ?_⟩
  split at h
  · obtain ⟨k, -, -, hk⟩ := identical_of_shareable? hm
    rw [harith] at hk
    cases hk
  · obtain ⟨k, oe, -, -, hk, -⟩ := equivalent_of_shareable? hm
    rw [harith] at hk
    cases hk
  · obtain ⟨⟨j, g⟩, hplace, -⟩ := bind_eq_ok_iff.1 h
    obtain ⟨blk, hblk, -⟩ := bind_eq_ok_iff.1 hplace
    exact Graph.lt_size_of_block? (Graph.block_eq_ok_iff.1 hblk)

theorem ready_of_emitCall {f : Var} {name : String} {args : List Operand}
    (h : u.emitCall f name args = .ok (i, u')) :
    u.isSettled = false ∧ u.current < u.graph.blocks.size := by
  obtain ⟨⟨moves, v⟩, hmoves, h⟩ := bind_eq_ok_iff.1 h
  cases args with
  | nil =>
    cases hmoves
    exact ready_of_emit rfl h
  | cons src rest =>
    obtain ⟨⟨j, v'⟩, hemit, -⟩ := bind_eq_ok_iff.1 hmoves
    exact ready_of_emit rfl hemit

end Body

namespace Program

variable {p p' : Program} {f : Var} {name : String} {args : List Operand} {i : InstrId}

theorem exists_named_of_fits (h : ¬ p.Misfits f args.length) :
    ∃ d, p.Named f d ∧ d.params.length = args.length := by
  rw [Misfits, not_or, ← function?_eq_none_iff] at h
  obtain ⟨d, hd⟩ := Option.ne_none_iff_exists'.1 h.1
  rw [function?_eq_some_iff] at hd
  exact ⟨d, hd, Classical.not_not.1 fun hlength => h.2 ⟨d, hd, hlength⟩⟩

/-- What a call that is accepted comes to. -/
theorem CallEnds.passes {refused : Prop} (rest : List Operation)
    (h : p.CallEnds refused (p.body.graph.nextId + args.length)
      (Body.callOps f name args p.body.graph.nextId ++ rest) (.ok i) p')
    (hrefused : p.Misfits f args.length → refused) :
    (∃ d, p.Named f d ∧ d.params.length = args.length) ∧
      ∃ moves, p'.body.graph.Passes i f name args moves := by
  obtain ⟨rfl, g, happends, rfl⟩ := h.appended i rfl
  refine ⟨exists_named_of_fits fun hmisfits => ?_, _, by
    rw [body_setBody]
    exact Graph.passes_of_appends happends⟩
  obtain ⟨e, he⟩ := h.refused_iff.2 (hrefused hmisfits)
  cases he

theorem call_passes (h : p.call f name args = .ok (.ok i, p')) :
    (∃ d, p.Named f d ∧ d.params.length = args.length) ∧
      ∃ moves, p'.body.graph.Passes i f name args moves := by
  have hready : p.body.isSettled = false ∧ p.body.current < p.body.graph.blocks.size := by
    rw [call] at h
    split at h
    · cases h
    · obtain ⟨⟨j, u⟩, hemit, -⟩ := bind_eq_ok_iff.1 h
      exact Body.ready_of_emitCall hemit
  obtain ⟨r, p'', hcall, hends⟩ := exists_call hready.1 hready.2 f name args
  obtain ⟨rfl, rfl⟩ := Prod.mk.inj (Except.ok.inj (h.symm.trans hcall))
  exact CallEnds.passes [] (by rwa [List.append_nil]) id

theorem callForValue_passes (h : p.callForValue f name args = .ok (.ok i, p')) :
    (∃ d, p.Named f d ∧ d.params.length = args.length) ∧
      ∃ moves, p'.body.graph.Passes i f name args moves := by
  have hready : p.body.isSettled = false ∧ p.body.current < p.body.graph.blocks.size := by
    rw [callForValue] at h
    split at h
    · cases h
    · split at h
      · cases h
      · obtain ⟨⟨j, u⟩, hemit, -⟩ := bind_eq_ok_iff.1 h
        exact Body.ready_of_emitCall hemit
  obtain ⟨r, p'', hcall, hends⟩ := exists_callForValue hready.1 hready.2 f name args
  obtain ⟨rfl, rfl⟩ := Prod.mk.inj (Except.ok.inj (h.symm.trans hcall))
  exact hends.passes _ .inl

/-! ## Both sides -/

/-- Calls of `f` are calls of the function at position `k`, which is the first one of this name. -/
def Means (p : Program) (f : Var) (k : Nat) : Prop :=
  IsLeast {j | ∃ d, p.functions[j]? = some d ∧ d.ident = some f} k

theorem Means.named {k : Nat} (h : p.Means f k) {d : Definition} (hd : p.functions[k]? = some d) :
    p.Named f d := by
  obtain ⟨⟨d', hd', hident⟩, hleast⟩ := h
  obtain rfl := Option.some.inj (hd.symm.trans hd')
  obtain ⟨hk, hget⟩ := List.getElem?_eq_some_iff.1 hd
  refine ⟨p.functions.take k, p.functions.drop (k + 1), ?_, hident, fun d' hmem hident' => ?_⟩
  · rw [← hget, ← List.drop_eq_getElem_cons hk, List.take_append_drop]
  · obtain ⟨j, hj, hjk⟩ := List.mem_take_iff_getElem.1 hmem
    have hlt : j < k := Nat.lt_of_lt_of_le hj (Nat.min_le_left _ _)
    have hj' : p.functions[j]? = some d' := List.getElem?_eq_some_iff.2 ⟨by omega, hjk⟩
    exact Nat.not_lt.2 (hleast ⟨d', hj', hident'⟩) hlt

/-- A call that is accepted fits the function that it means, and passes its arguments. -/
theorem Means.passes {k : Nat} (h : p.Means f k) {d : Definition} (hd : p.functions[k]? = some d)
    (hcall : p.call f name args = .ok (.ok i, p') ∨ p.callForValue f name args = .ok (.ok i, p')) :
    d.params.length = args.length ∧ ∃ moves, p'.body.graph.Passes i f name args moves := by
  obtain ⟨⟨d', hnamed, hlength⟩, hpasses⟩ : (∃ d, p.Named f d ∧ d.params.length = args.length) ∧
      ∃ moves, p'.body.graph.Passes i f name args moves := by
    rcases hcall with hcall | hcall
    · exact call_passes hcall
    · exact callForValue_passes hcall
  have hfound := function?_eq_some_iff.2 (h.named hd)
  obtain rfl : d' = d := Option.some.inj ((function?_eq_some_iff.2 hnamed).symm.trans hfound)
  exact ⟨hlength, hpasses⟩

theorem Reachable.opened_reachable {options : Options} (h : Reachable options p) {d : Definition}
    (hd : p.opened = some d) : Body.Reachable options d.body :=
  h.body_reachable (r := some p.closed.length) (by
    rw [bodyAt?, getElem?_functions, if_pos rfl, hd]
    rfl)

/-- The parameters of the open function are bound, whether its body is open or, if there are none of
them, settled. -/
theorem exists_bindParams_of_opened {options : Options} (h : Reachable options p) {d : Definition}
    (hd : p.opened = some d) (hentry : d.body.current = entry)
    (hready : d.body.isSettled = false ∨ d.params = []) :
    ∃ g, p.bindParams =
        .ok { p with opened := some { d with body := { d.body with graph := g } } } ∧
      d.body.graph.BindsParams 1 d.params g := by
  have hbody := h.opened_reachable hd
  obtain ⟨g, hfold, hbinds⟩ : ∃ g, (d.params.zipIdx 1).foldlM
      (fun s (x, slot) => s.bindParam x slot) d.body = .ok { d.body with graph := g } ∧
      d.body.graph.BindsParams 1 d.params g := by
    rcases hready with hopen | hnone
    · exact Body.exists_bindParams hopen hentry hbody.detached d.params 1
    · rw [hnone]
      exact ⟨d.body.graph, rfl, .nil _ _⟩
  refine ⟨g, ?_, hbinds⟩
  have hdefinition : p.definition = .ok d := expect_eq_ok_iff.2 hd
  simp only [bindParams, hdefinition, hfold, bind, Except.bind]
  rfl

/-- Only the empty list of parameters is bound in a body that has been settled. -/
theorem ready_of_bindParams {d : Definition} (hd : p.opened = some d) (h : p.bindParams = .ok p') :
    d.body.isSettled = false ∨ d.params = [] := by
  obtain ⟨d', hd', h⟩ := bind_eq_ok_iff.1 h
  obtain rfl : d = d' := Option.some.inj (hd.symm.trans (expect_eq_ok_iff.1 hd'))
  obtain ⟨u, hfold, -⟩ := bind_eq_ok_iff.1 h
  cases hparams : d.params with
  | nil => exact .inr rfl
  | cons x xs =>
    rw [hparams, List.zipIdx_cons, List.foldlM_cons] at hfold
    obtain ⟨v, hbind, -⟩ := bind_eq_ok_iff.1 hfold
    exact .inl (Body.open_of_bindParam hbind)

/-- **Calls and functions agree on registers.**  Let the parameters of a function be bound while its
entry block is the current one, which succeeds as long as its body is open.  Right after that the
entry sees every parameter as an argument of the head block, the one in the register that counts the
last place where the parameter occurs.  And whenever the function is called later on, from whatever
body, the moves of the call put its arguments into the registers from `1` on; so if no parameter
occurs twice, each argument is put where the parameter in its place is read from. -/
theorem registers_agree {options : Options} (h : Reachable options p) {d : Definition}
    (hd : p.opened = some d) (hentry : d.body.current = entry) :
    (d.body.isSettled = false → ∃ p', p.bindParams = .ok p') ∧
    ∀ p', p.bindParams = .ok p' → ∃ d', p'.opened = some d' ∧ d'.params = d.params ∧
      (∀ x ∈ d.params, ∃ k, IsGreatest {j | d.params[j]? = some x} k ∧
        d'.body.SeesArgument x (k + 1)) ∧
      ∀ cs q, p'.execAll cs = .ok q → ∃ e, q.functions[p.closed.length]? = some e ∧
        d.params <+: e.params ∧
        ∀ f, q.Means f p.closed.length → ∀ name args i q',
          q.call f name args = .ok (.ok i, q') ∨ q.callForValue f name args = .ok (.ok i, q') →
          e.params.length = args.length ∧ ∃ moves, q'.body.graph.Passes i f name args moves ∧
            (d.params.Nodup → ∀ (k : Nat) x, d.params[k]? = some x →
              ∃ m src slot, moves[k]? = some m ∧ args[k]? = some src ∧
                q'.body.graph.op? m = some (.move src slot) ∧ d'.body.SeesArgument x slot) := by
  refine ⟨fun hopen => ?_, fun p' hbind => ?_⟩
  · obtain ⟨g, hbind, -⟩ := exists_bindParams_of_opened h hd hentry (.inl hopen)
    exact ⟨_, hbind⟩
  obtain ⟨g, hbind', hbinds⟩ :=
    exists_bindParams_of_opened h hd hentry (ready_of_bindParams hd hbind)
  obtain rfl := Except.ok.inj (hbind.symm.trans hbind')
  have hsees := Body.seesParams_of_binds (h.opened_reachable hd).wired.linked hbinds
  refine ⟨_, rfl, rfl, hsees, fun cs q hcs => ?_⟩
  obtain ⟨e, he, hprefix⟩ := params_of_execAll hcs (k := p.closed.length) (by
    rw [getElem?_functions, if_pos rfl])
  refine ⟨e, he, hprefix, fun f hmeans name args i q' hcall => ?_⟩
  obtain ⟨hlength, moves, hpasses⟩ := hmeans.passes he hcall
  refine ⟨hlength, moves, hpasses, fun hnodup k x hx => ?_⟩
  have hk : k < moves.length := by
    obtain ⟨hk, -⟩ := List.getElem?_eq_some_iff.1 hx
    rw [hpasses.length_eq, ← hlength]
    exact Nat.lt_of_lt_of_le hk hprefix.length_le
  have hm : moves[k]? = some moves[k] := List.getElem?_eq_getElem hk
  obtain ⟨src, hsrc, hop⟩ := hpasses.move k _ hm
  exact ⟨_, src, k + 1, hm, hsrc, hop, hsees.at hnodup hx⟩

/-- A function with two parameters, whose entry block is the header of a loop. -/
def pairOfParams : List Command :=
  [.openFunction false, .nameFunction 7, .addParam 4, .addParam 5, .body .openLoop]

theorem exists_pairOfParams : ∃ p d p' q i q', (start {}).execAll pairOfParams = .ok p ∧
    p.opened = some d ∧ d.body.current = entry ∧ d.params = [4, 5] ∧ p.closed = [] ∧
    p.bindParams = .ok p' ∧ p'.execAll [.closeFunction, .body (.emit .read)] = .ok q ∧
    (∃ e, q.functions[0]? = some e ∧ e.ident = some 7) ∧
    q.callForValue 7 "f" [.result 1, {}] = .ok (.ok i, q') := by
  have h : ((start {}).execAll pairOfParams).toOption.any (fun p => p.opened.any fun d =>
      d.body.current = entry ∧ d.params = [4, 5] ∧ p.closed = [] ∧
      p.bindParams.toOption.any (fun p' =>
        (p'.execAll [.closeFunction, .body (.emit .read)]).toOption.any fun q =>
          q.functions[0]?.any (fun e => e.ident = some 7) ∧
          (q.callForValue 7 "f" [.result 1, {}]).toOption.any (fun r => r.1.toOption.isSome))) =
      true := by
    decide +kernel
  obtain ⟨p, hp, h⟩ := exists_ok_of_any h
  obtain ⟨d, hd, h⟩ := (Option.any_eq_true _ _).1 h
  obtain ⟨hentry, hparams, hclosed, h⟩ := of_decide_eq_true h
  obtain ⟨p', hbind, h⟩ := exists_ok_of_any h
  obtain ⟨q, hq, h⟩ := exists_ok_of_any h
  obtain ⟨hnamed, h⟩ := of_decide_eq_true h
  obtain ⟨e, he, hident⟩ := (Option.any_eq_true _ _).1 hnamed
  obtain ⟨⟨r, q'⟩, hcall, h⟩ := exists_ok_of_any h
  cases r with
  | error => cases h
  | ok i =>
    exact ⟨p, d, p', q, i, q', hp, hd, hentry, hparams, hclosed, hbind, hq,
      ⟨e, he, of_decide_eq_true hident⟩, hcall⟩

theorem registers_agree_pairOfParams : ∃ p d p' d', (start {}).execAll pairOfParams = .ok p ∧
    p.opened = some d ∧ d.body.current = entry ∧ d.params = [4, 5] ∧ p.bindParams = .ok p' ∧
    p'.opened = some d' ∧
    (∀ x ∈ d.params, ∃ k, IsGreatest {j | d.params[j]? = some x} k ∧
      d'.body.SeesArgument x (k + 1)) ∧
    ∃ q i q' moves, p'.execAll [.closeFunction, .body (.emit .read)] = .ok q ∧
      q.callForValue 7 "f" [.result 1, {}] = .ok (.ok i, q') ∧
      q'.body.graph.Passes i 7 "f" [.result 1, {}] moves ∧
      ∀ (k : Nat) x, d.params[k]? = some x → ∃ m src slot, moves[k]? = some m ∧
        [Operand.result 1, {}][k]? = some src ∧ q'.body.graph.op? m = some (.move src slot) ∧
        d'.body.SeesArgument x slot := by
  obtain ⟨p, d, p', q, i, q', hp, hd, hentry, hparams, hclosed, hbind, hq, hnamed, hcall⟩ :=
    exists_pairOfParams
  obtain ⟨-, hagree⟩ := registers_agree ⟨_, hp⟩ hd hentry
  obtain ⟨d', hd', -, hsees, hcalls⟩ := hagree p' hbind
  obtain ⟨e, -, -, hmeans⟩ := hcalls _ q hq
  have hfirst : q.Means 7 p.closed.length := by
    rw [hclosed]
    exact ⟨hnamed, fun j _ => Nat.zero_le j⟩
  obtain ⟨-, moves, hpasses, hdistinct⟩ := hmeans 7 hfirst "f" _ i q' (.inr hcall)
  have hnodup : d.params.Nodup := by
    rw [hparams]
    decide
  exact ⟨p, d, p', d', hp, hd, hentry, hparams, hbind, hd', hsees, q, i, q', moves, hq, hcall,
    hpasses, hdistinct hnodup⟩

end Program
end StructuredSSA
