import StructuredSSA.Proofs.Body.Offered

/-!
# Adding the same operation again

An operation that has been added need not be computed again while construction stays in its block.
The instruction that answered for it may have been there before, may be new, and may be retired; and
other instructions of the same value may have come after it.  The search for an identical
instruction still ends at it, and no loop is so recent that the instruction would have to be
computed again.

## What is here

* `Body.Begun` — open loops start at instructions that have been numbered, or at the next.
* `Body.Answers` — an instruction is what the search for an operation finds.
* `Body.Stocked` — an operation can be added, and `Body.Stocked.exists_exec` what follows.
* `Body.Command.isStraightLine` — commands that stay in the current block.
* `Body.emit_again` — adding an operation again changes nothing.
-/

set_option autoImplicit false

namespace StructuredSSA
namespace Body

variable {u u' : Body} {op : Operation} {i : InstrId}

/-! ## Where loops start -/

/-- Every open loop was opened before the next instruction. -/
def Begun (u : Body) : Prop := ∀ first ∈ u.loopStarts, first ≤ u.graph.nextId

namespace Begun

theorem of_le (b : u.Begun) (hstarts : u'.loopStarts = u.loopStarts)
    (hle : u.graph.nextId ≤ u'.graph.nextId) : u'.Begun := fun first hfirst =>
  Nat.le_trans (b first (hstarts ▸ hfirst)) hle

theorem place (b : u.Begun) {c : BlockId} (h : u.place c op = .ok (i, u')) : u'.Begun := by
  obtain ⟨-, op', g, -, hplaces, rfl⟩ := places_of_place h
  exact b.of_le rfl (hplaces.nextId_eq ▸ Nat.le_succ _)

theorem of_instrs (b : u.Begun) {g : Graph} (h : g.instrs = u.graph.instrs) :
    Begun { u with graph := g } := by
  refine b.of_le rfl (Nat.le_of_eq ?_)
  rw [Graph.nextId, Graph.nextId, h]

theorem arranges (b : u.Begun) (h : u.Arranges u') : u'.Begun := by
  cases h with
  | moveTo c => exact b
  | bind c x value => exact b
  | inherit c origin => exact b.of_instrs (Graph.rebinds_inheritScope _ _ _).instrs_eq
  | target h => exact b.of_instrs (Graph.instrs_targetOf h)
  | aim j t => exact b.of_le rfl (Nat.le_of_eq (Graph.nextId_modifyInstr _ _ _).symm)
  | openIf h => exact b.of_instrs (Graph.instrs_openIf h)
  | openElse h => exact b.of_instrs (Graph.instrs_openElse h)
  | openLoop h =>
    intro first hfirst
    rcases List.mem_cons.1 hfirst with rfl | hfirst
    · exact Nat.le_refl _
    · exact b.of_instrs (Graph.instrs_openLoop h) first hfirst
  | leaveLoop => exact fun first hfirst => b first (List.mem_of_mem_tail hfirst)

theorem withRead (b : u.Begun) (x : Var) (before : Option InstrId) (phi j : InstrId) :
    (u.withRead x before phi j).Begun := by
  refine b.of_le (SameSetting.withRead x before phi u j).loopStarts_eq (Nat.le_of_eq ?_)
  rw [Body.withRead]
  split
  · rw [graph_noteCompletion, (sameShape_revived _ _).nextId_eq, Graph.nextId_modifyInstr]
  · rfl

/-- Instructions are only ever added, and a loop is opened at the next of them. -/
theorem effect {adds : Operation → Prop} (b : u.Begun) (h : Effect adds u u') : u'.Begun := by
  cases h with
  | arrange h => exact b.arranges h
  | place hop h => exact b.place h
  | placeRetired hop harith hoe hsame h =>
    obtain ⟨⟨j, v⟩, hplace, h⟩ := bind_eq_ok_iff.1 h
    cases h
    exact (b.place hplace).of_le rfl (Nat.le_of_eq (Graph.nextId_modifyInstr _ _ _).symm)
  | insertPhi h =>
    obtain ⟨⟨j, v⟩, hplace, h⟩ := bind_eq_ok_iff.1 h
    cases h
    exact (b.place hplace).of_le rfl (Nat.le_refl _)
  | setPhiSide hphi x side value =>
    exact b.of_le rfl (Nat.le_of_eq (Graph.nextId_modifyInstr _ _ _).symm)
  | redirectRead h =>
    obtain rfl := eq_of_redirectRead h
    exact b.withRead _ _ _ _
  | settle h =>
    obtain ⟨g, hsettles, rfl⟩ := settles_of_settle h
    exact b.of_le rfl (Nat.le_of_eq hsettles.nextId_eq.symm)

end Begun

/-- In **every body that can be built** the open loops start at instructions that have been numbered
or at the next. -/
theorem Reachable.begun {options : Options} (h : Reachable options u) : u.Begun :=
  h.effects.invariant (fun _ _ heffect b => b.effect heffect) fun _ hfirst => by cases hfirst

/-! ## What an operation finds -/

/-- **Instruction `i` answers for `op`**: among what the current block is offered it is the first
that is identical, and no loop has been opened since. -/
structure Answers (u : Body) (op : Operation) (i : InstrId) : Prop where
  op?_eq : u.graph.op? i = some op
  first : ∃ k newer older, op.arith? = some k ∧
    (u.graph.offered u.current).candidates k = newer ++ i :: older ∧
    ∀ j ∈ newer, ∃ o, u.graph.op? j = some o ∧ o ≠ op
  inside : u.predatesLoop i = false

/-- Operations can be added. -/
structure Stocked (u : Body) : Prop where
  isOpen : u.isSettled = false
  shares : u.options.share = true
  current_lt : u.current < u.graph.blocks.size
  offers : u.graph.Offers

namespace Answers

theorem isBranch_eq (a : u.Answers op i) : op.isBranch = false := by
  obtain ⟨k, -, -, hk, -⟩ := a.first
  exact Operation.isBranch_of_arith (by rw [hk]; rfl)

/-- An answer depends on what the current block is offered and on what instructions do. -/
theorem congr (a : u.Answers op i) (hstarts : u'.loopStarts = u.loopStarts)
    (hoffered : u'.graph.offered u'.current = u.graph.offered u.current)
    (hop : ∀ j, u'.graph.op? j = u.graph.op? j) : u'.Answers op i where
  op?_eq := (hop i).trans a.op?_eq
  first := by
    obtain ⟨k, newer, older, hk, hsplit, hnewer⟩ := a.first
    refine ⟨k, newer, older, hk, by rw [hoffered, hsplit], fun j hj => ?_⟩
    rw [hop]
    exact hnewer j hj
  inside := by
    rw [predatesLoop, hstarts]
    exact a.inside

/-- An operation that differs stays behind, in front of the answer or in another list. -/
theorem places (a : u.Answers op i) {c : BlockId} {o : Operation} {g : Graph}
    (h : u.graph.Places c o g) (hne : o ≠ op) : Answers { u with graph := g } op i where
  op?_eq := (h.op?_eq a.isBranch_eq).2 (.inr ⟨Nat.ne_of_lt (Graph.lt_nextId_of_op? a.op?_eq),
    a.op?_eq⟩)
  first := by
    obtain ⟨k, newer, older, hk, hsplit, hnewer⟩ := a.first
    have hold : ∀ j ∈ newer, ∃ o, g.op? j = some o ∧ o ≠ op := by
      intro j hj
      obtain ⟨oj, hoj, hdiff⟩ := hnewer j hj
      rcases h.op?_old (Nat.ne_of_lt (Graph.lt_nextId_of_op? hoj)) with heq | ⟨cond, -, hbranch⟩
      · exact ⟨oj, heq.trans hoj, hdiff⟩
      · refine ⟨_, hbranch, ?_⟩
        rintro rfl
        cases hk
    have hoffered := h.offered_eq u.current
    by_cases hc : u.current = c ∧ o.arith? = some k
    · rw [if_pos hc.1] at hoffered
      refine ⟨k, u.graph.nextId :: newer, older, hk, ?_, fun j hj => ?_⟩
      · change (g.offered u.current).candidates k = _
        rw [hoffered, Available.candidates_with, if_pos hc.2, ← hc.1, hsplit, List.cons_append]
      · rcases List.mem_cons.1 hj with rfl | hj
        · exact ⟨o, h.op?_new, hne⟩
        · exact hold j hj
    · refine ⟨k, newer, older, hk, ?_, hold⟩
      change (g.offered u.current).candidates k = _
      rw [hoffered, ← hsplit]
      split
      · rename_i hcur
        rw [Available.candidates_with, if_neg fun ho => hc ⟨hcur, ho⟩, hcur]
      · rfl
  inside := a.inside

theorem retire (a : u.Answers op i) (d e : InstrId) : (u.retire d e).Answers op i :=
  a.congr rfl (Graph.offered_modifyInstr _ _ _ _) fun _ => Graph.op?_modifyInstr_setStandIn _ _ _ _

/-- An instruction that has just been placed answers for its operation. -/
theorem of_places (b : u.Begun) {g : Graph} (h : u.graph.Places u.current op g)
    (harith : op.arith?.isSome = true) :
    Answers { u with graph := g } op u.graph.nextId where
  op?_eq := h.op?_new
  first := by
    obtain ⟨k, hk⟩ := Option.isSome_iff_exists.1 harith
    refine ⟨k, [], (u.graph.offered u.current).candidates k, hk, ?_, by simp⟩
    change (g.offered u.current).candidates k = _
    rw [h.offered_eq, if_pos rfl, Available.candidates_with, if_pos hk, List.nil_append]
  inside := by
    rw [predatesLoop]
    cases hstarts : u.loopStarts with
    | nil => rfl
    | cons first rest =>
      have hfirst := b first (by rw [hstarts]; exact List.mem_cons_self)
      exact decide_eq_false (Nat.not_lt.2 hfirst)

/-- **What answers for an operation is returned for it**, and nothing else happens. -/
theorem emit_eq (a : u.Answers op i) (s : u.Stocked) : u.emit op = .ok (i, u) := by
  obtain ⟨k, newer, older, hk, hsplit, hnewer⟩ := a.first
  obtain ⟨blk, hblk⟩ := Graph.exists_block s.current_lt
  have hsearch : u.graph.firstWhose (fun o => o = op) ((u.graph.offered u.current).candidates k) =
      .ok (some i) := by
    rw [hsplit]
    refine Graph.firstWhose_of_split (fun j hj => ?_) a.op?_eq (decide_eq_true rfl)
    obtain ⟨o, ho, hne⟩ := hnewer j hj
    exact ⟨o, ho, decide_eq_false hne⟩
  have hshareable : u.shareable? op = .ok (some (.identical i)) := by
    rw [Graph.offered, hblk] at hsearch
    simp only [shareable?, s.shares, if_true, Graph.block_eq_ok_iff.2 hblk, bind, Except.bind,
      Graph.match?, hk]
    simp only [Option.map_some, Option.getD_some] at hsearch
    simp only [hsearch, pure, Except.pure]
  have hopen : u.requireOpen = .ok () := require_eq_ok_iff.2 (by simp [s.isOpen])
  simp only [emit, hopen, hshareable, a.inside, bind, Except.bind, Bool.false_eq_true, if_false,
    pure, Except.pure]

end Answers

/-! ## Staying in the block -/

/-- What stays available from `u` to `u'`: operations can still be added, and what answered for one
answers for it still. -/
structure Steady (u u' : Body) : Prop where
  stocked : u'.Stocked
  answers : ∀ op i, u.Answers op i → u'.Answers op i

namespace Steady

theorem refl (s : u.Stocked) : Steady u u := ⟨s, fun _ _ a => a⟩

theorem trans {v : Body} (h : Steady u v) (h' : Steady v u') : Steady u u' :=
  ⟨h'.stocked, fun op i a => h'.answers op i (h.answers op i a)⟩

end Steady

namespace Stocked

theorem head_lt (s : u.Stocked) : head < u.graph.blocks.size :=
  Nat.lt_of_le_of_lt (Nat.zero_le _) s.current_lt

theorem places (s : u.Stocked) {c : BlockId} {g : Graph} (h : u.graph.Places c op g) :
    Stocked { u with graph := g } :=
  ⟨s.isOpen, s.shares, (h.skeleton.lt_size_iff _).2 s.current_lt, s.offers.places h⟩

theorem retire (s : u.Stocked) (d e : InstrId) : (u.retire d e).Stocked where
  isOpen := s.isOpen
  shares := s.shares
  current_lt := by
    change u.current < (u.graph.modifyInstr d _).blocks.size
    rw [Graph.size_modifyInstr]
    exact s.current_lt
  offers := s.offers.alters (.rework (.setStandIn u.graph d (some e)))

/-- Placing an operation for which there is no answer. -/
theorem exists_place (s : u.Stocked) {c : BlockId} (hc : c < u.graph.blocks.size) (op : Operation)
    (hnone : ∀ i, ¬ u.Answers op i) :
    ∃ u', u.place c op = .ok (u.graph.nextId, u') ∧ u.Steady u' := by
  obtain ⟨op', g, hplace, hlands, hplaces⟩ := Graph.exists_place hc op
  refine ⟨{ u with graph := g }, ?_, s.places hplaces, fun o i a => a.places hplaces ?_⟩
  · simp only [Body.place, hplace, bind, Except.bind, pure, Except.pure]
  · rintro rfl
    rcases hlands with rfl | ⟨cond, -, rfl⟩
    · exact hnone i a
    · cases a.isBranch_eq

theorem exists_placeRetired (s : u.Stocked) (op : Operation) (e : InstrId)
    (hnone : ∀ i, ¬ u.Answers op i) :
    ∃ u', u.placeRetired op e = .ok (u.graph.nextId, u') ∧ u.Steady u' := by
  obtain ⟨v, hplace, hv⟩ := s.exists_place s.current_lt op hnone
  refine ⟨v.retire u.graph.nextId e, ?_, hv.stocked.retire _ _, fun o i a =>
    (hv.answers o i a).retire _ _⟩
  simp only [Body.placeRetired, hplace, bind, Except.bind, pure, Except.pure]

/-- **Adding an operation** succeeds, and what answered for one answers for it still. -/
theorem exists_emit (s : u.Stocked) (op : Operation) :
    ∃ i u', u.emit op = .ok (i, u') ∧ u.Steady u' := by
  by_cases hanswers : ∃ i, u.Answers op i
  · obtain ⟨i, a⟩ := hanswers
    exact ⟨i, u, a.emit_eq s, .refl s⟩
  · have hnone : ∀ i, ¬ u.Answers op i := fun i a => hanswers ⟨i, a⟩
    obtain ⟨m, hm⟩ := exists_shareable s.current_lt (fun k j hj => by
      obtain ⟨o, ho, -⟩ := s.offers u.current k j hj
      rw [ho]
      rfl) op
    have hopen : u.requireOpen = .ok () := require_eq_ok_iff.2 (by simp [s.isOpen])
    rw [emit]
    simp only [hopen, hm, bind, Except.bind]
    cases m with
    | none =>
      obtain ⟨u', hplace, hu'⟩ := s.exists_place s.current_lt op hnone
      exact ⟨_, u', hplace, hu'⟩
    | some m =>
      cases m with
      | identical e =>
        dsimp only
        split
        · obtain ⟨u', hplace, hu'⟩ := s.exists_placeRetired op e hnone
          exact ⟨_, u', hplace, hu'⟩
        · exact ⟨e, u, rfl, .refl s⟩
      | equivalent e =>
        obtain ⟨u', hplace, hu'⟩ := s.exists_placeRetired op e hnone
        exact ⟨_, u', hplace, hu'⟩

end Stocked

/-- An instruction that has just been retired answers for its operation all the same. -/
theorem Answers.of_placeRetired (b : u.Begun) {e : InstrId} (harith : op.arith?.isSome = true)
    (h : u.placeRetired op e = .ok (i, u')) : u'.Answers op i := by
  obtain ⟨⟨j, v⟩, hplace, h⟩ := bind_eq_ok_iff.1 h
  cases h
  obtain ⟨rfl, op', g, hlands, hplaces, rfl⟩ := places_of_place hplace
  rcases hlands with rfl | ⟨cond, rfl, -⟩
  · exact (Answers.of_places b hplaces harith).retire _ _
  · cases harith

/-- **Whatever is returned for an operation answers for it** from then on. -/
theorem Answers.of_emit (b : u.Begun) (harith : op.arith?.isSome = true)
    (h : u.emit op = .ok (i, u')) : u'.Answers op i := by
  obtain ⟨-, -, h⟩ := bind_eq_ok_iff.1 h
  obtain ⟨m, hm, h⟩ := bind_eq_ok_iff.1 h
  split at h
  · rename_i e
    split at h
    · exact .of_placeRetired b harith h
    · rename_i hinside
      cases h
      obtain ⟨-, hmatch⟩ := match?_of_shareable? hm
      obtain ⟨k, newer, older, hk, hsplit, hnewer⟩ := Graph.exists_split_of_match? hmatch
      obtain ⟨-, -, hop, -⟩ := identical_of_shareable? hm
      exact ⟨hop, ⟨k, newer, older, hk, hsplit, hnewer⟩, by simpa using hinside⟩
  · exact .of_placeRetired b harith h
  · obtain ⟨rfl, op', g, hlands, hplaces, rfl⟩ := places_of_place h
    rcases hlands with rfl | ⟨cond, rfl, -⟩
    · exact .of_places b hplaces harith
    · cases harith

/-- The commands that add something and leave construction in its block. -/
def Command.isStraightLine : Command → Bool
  | .emit _ | .constant _ | .argument _ | .declare _ => true
  | _ => false

namespace Stocked

/-- **One command** that stays in the block. -/
theorem exists_exec (s : u.Stocked) {c : Command} (hc : c.isStraightLine = true) :
    ∃ o u', u.exec c = .ok (o, u') ∧ u.Steady u' := by
  have hplain : ∀ {op : Operation}, op.arith? = none → ∀ i, ¬ u.Answers op i := by
    intro op harith i a
    obtain ⟨k, -, -, hk, -⟩ := a.first
    rw [harith] at hk
    cases hk
  cases c with
  | emit op =>
    obtain ⟨i, u', hemit, hu'⟩ := s.exists_emit op
    exact ⟨.instr i, u', by rw [exec, hemit]; rfl, hu'⟩
  | constant v =>
    cases hfound : u.constant? v with
    | some i => exact ⟨.instr i, u, by rw [exec, constant, hfound]; rfl, .refl s⟩
    | none =>
      obtain ⟨u', hplace, hu'⟩ := s.exists_place s.head_lt (.const v) (hplain rfl)
      exact ⟨_, u', by rw [exec, constant, hfound]; dsimp only; rw [hplace]; rfl, hu'⟩
  | argument slot =>
    obtain ⟨u', hplace, hu'⟩ := s.exists_place s.head_lt (.argument slot) (hplain rfl)
    exact ⟨_, u', by rw [exec, argument, hplace]; rfl, hu'⟩
  | declare x =>
    obtain ⟨blk, hblk⟩ := Graph.exists_block s.current_lt
    have hre := Graph.rebinds_bindIn u.graph u.current x none
    refine ⟨.done, { u with graph := u.graph.bindIn u.current x none }, ?_, ⟨s.isOpen, s.shares,
      (hre.skeleton.lt_size_iff _).2 s.current_lt, s.offers.alters (.rework (.of_rebinds hre))⟩,
      fun op i a => a.congr rfl (hre.offered_eq _) hre.op?_eq⟩
    simp only [exec, Body.declare, Graph.block_eq_ok_iff.2 hblk, bind, Except.bind, pure,
      Except.pure]
    rfl
  | _ => cases hc

/-- Commands in a row that stay in the block. -/
theorem exists_execAll (s : u.Stocked) {cs : List Command}
    (hcs : ∀ c ∈ cs, c.isStraightLine = true) : ∃ u', u.execAll cs = .ok u' ∧ u.Steady u' := by
  induction cs generalizing u with
  | nil => exact ⟨u, rfl, .refl s⟩
  | cons c cs ih =>
    obtain ⟨o, v, hexec, hv⟩ := s.exists_exec (hcs c (by simp))
    obtain ⟨u', hall, hu'⟩ := ih hv.stocked fun c' hc' => hcs c' (List.mem_cons_of_mem _ hc')
    refine ⟨u', ?_, hv.trans hu'⟩
    rw [execAll, List.foldlM_cons, hexec]
    exact hall

end Stocked

/-- **Adding an arithmetic operation again changes nothing**, in any construction, inside and
outside of loops, and whatever has been added to the block in between: the same instruction is
returned. -/
theorem emit_again {options : Options} (h : Reachable options u) (hopen : u.isSettled = false)
    (hshare : u.options.share = true) (hcurrent : u.current < u.graph.blocks.size)
    (harith : op.arith?.isSome = true) :
    ∃ i u₁, u.emit op = .ok (i, u₁) ∧ ∀ cs : List Command,
      (∀ c ∈ cs, c.isStraightLine = true) →
        ∃ u₂, u₁.execAll cs = .ok u₂ ∧ u₂.emit op = .ok (i, u₂) := by
  have s : u.Stocked := ⟨hopen, hshare, hcurrent, h.offers⟩
  obtain ⟨i, u₁, hemit, hu₁⟩ := s.exists_emit op
  refine ⟨i, u₁, hemit, fun cs hcs => ?_⟩
  have a : u₁.Answers op i := .of_emit h.begun harith hemit
  obtain ⟨u₂, hall, hu₂⟩ := hu₁.stocked.exists_execAll hcs
  exact ⟨u₂, hall, (hu₂.answers op i a).emit_eq hu₂.stocked⟩

/-- A sum is added, and a loop is opened.  In its body the sum has to be added anew, because the
loop may change its operands. -/
def sumAhead : List Command :=
  [.emit .read, .emit (.binary (.arith .add) (.result 1) (.result 1)), .openLoop,
    .emit (.binary .cmp (.result 1) (.result 1)), .emit (.branch (.whenever .eq) none), .moveTo 3]

theorem exists_sumAhead : ∃ u u₁, Reachable {} u ∧ u.isSettled = false ∧
    u.options.share = true ∧ u.current < u.graph.blocks.size ∧ u.loopStarts = [3] ∧
    u.emit (.binary (.arith .add) (.result 1) (.result 1)) = .ok (5, u₁) ∧
    u₁.graph.standIn? 5 = some 2 := by
  have h : ((start {}).execAll sumAhead).toOption.any (fun u =>
      (u.emit (.binary (.arith .add) (.result 1) (.result 1))).toOption.any fun r =>
        r.1 = 5 ∧ u.isSettled = false ∧ u.options.share = true ∧
        u.current < u.graph.blocks.size ∧ u.loopStarts = [3] ∧
        r.2.graph.standIn? 5 = some 2) = true := by
    decide +kernel
  obtain ⟨u, hu, h⟩ := exists_ok_of_any h
  obtain ⟨⟨i, u₁⟩, hemit, h⟩ := exists_ok_of_any h
  obtain ⟨rfl, hopen, hshare, hcurrent, hloops, hstand⟩ := of_decide_eq_true h
  exact ⟨u, u₁, ⟨_, hu⟩, hopen, hshare, hcurrent, hloops, hemit, hstand⟩

theorem emit_again_sumAhead : ∃ u u₁, Reachable {} u ∧ u.isSettled = false ∧
    u.options.share = true ∧ u.current < u.graph.blocks.size ∧ u.loopStarts = [3] ∧
    u.emit (.binary (.arith .add) (.result 1) (.result 1)) = .ok (5, u₁) ∧
    u₁.graph.standIn? 5 = some 2 ∧
    ∀ cs : List Command, (∀ c ∈ cs, c.isStraightLine = true) →
      ∃ u₂, u₁.execAll cs = .ok u₂ ∧
        u₂.emit (.binary (.arith .add) (.result 1) (.result 1)) = .ok (5, u₂) := by
  obtain ⟨u, u₁, hu, hopen, hshare, hcurrent, hloops, hemit, hstand⟩ := exists_sumAhead
  have harith : (Operation.binary (.arith .add) (.result 1) (.result 1)).arith?.isSome = true := rfl
  obtain ⟨i, v, hemit', hagain⟩ := emit_again hu hopen hshare hcurrent harith
  obtain ⟨rfl, rfl⟩ := Prod.mk.inj (Except.ok.inj (hemit.symm.trans hemit'))
  exact ⟨u, u₁, hu, hopen, hshare, hcurrent, hloops, hemit, hstand, hagain⟩

end Body
end StructuredSSA
