import StructuredSSA.Proofs.Body.Effect
import StructuredSSA.Proofs.Body.Run
import StructuredSSA.Proofs.Body.Settled

/-!
# Retired instructions in any construction

Sharing does not rely on constructs being opened and closed in order.  Whatever commands are issued,
with whatever operands and in whatever blocks, the two books on stand-ins agree, every chain of
stand-ins ends in a live instruction, and that instruction computes what the retired one computes.

## What is here

* `Graph.HasRoot.op?_root`, `Graph.HasRoot.sameValue` — the end of a chain of stand-ins.
* `Body.Effect.shares` — one effect keeps sharing in order; `Body.Effects.shares` many do.
* `Body.stand_ins_consistent` — the books in every construction, also in the middle of a command.
* `Body.retired_computes_root` — retired instructions and their roots in every construction.
-/

set_option autoImplicit false

namespace StructuredSSA

/-! ## Chains of stand-ins -/

namespace Operation

theorem sameValue_trans {o o' o'' : Operation} (h : o.sameValue o' = true)
    (h' : o'.sameValue o'' = true) : o.sameValue o'' = true := by
  obtain ⟨k, l, r, l', r', rfl, rfl, hl, hr⟩ := sameValue_iff.1 h
  obtain ⟨k', _, _, l'', r'', heq, rfl, hl', hr'⟩ := sameValue_iff.1 h'
  cases heq
  exact sameValue_iff.2 ⟨k, l, r, l'', r'', rfl, rfl, hl.trans hl', hr.trans hr'⟩

theorem sameValue_mapValues {o o' : Operation} (f : InstrId → InstrId) (h : o.sameValue o' = true) :
    (o.mapValues f).sameValue (o'.mapValues f) = true := by
  obtain ⟨k, l, r, l', r', rfl, rfl, hl, hr⟩ := sameValue_iff.1 h
  exact sameValue_iff.2
    ⟨k, _, _, _, _, rfl, rfl, congrArg (Option.map f) hl, congrArg (Option.map f) hr⟩

end Operation

namespace Graph

variable {g g' : Graph} {d r : InstrId}

/-- The chain from an instruction that exists ends in one that exists. -/
theorem HasRoot.op?_root (h : g.HasRoot d r) (hm : g.Matched) (hd : (g.op? d).isSome = true) :
    (g.op? r).isSome = true := by
  induction h with
  | live => exact hd
  | @step d e r hstand _ ih =>
    obtain ⟨-, oe, -, hoe, -⟩ := hm d e hstand
    exact ih (by rw [hoe]; rfl)

/-- **A retired instruction computes what its root computes.** -/
theorem HasRoot.sameValue (h : g.HasRoot d r) (hm : g.Matched) (hd : g.standIn? d ≠ none) :
    ∃ od ol, g.op? d = some od ∧ g.op? r = some ol ∧ od.arith?.isSome = true ∧
      od.sameValue ol = true := by
  induction h with
  | live hlive => exact absurd hlive hd
  | @step d e r hstand rest ih =>
    obtain ⟨od, oe, hod, hoe, harith, hsame⟩ := hm d e hstand
    cases rest with
    | live => exact ⟨od, oe, hod, hoe, harith, hsame⟩
    | step hstand' _ =>
      obtain ⟨oe', ol, hoe', hol, -, hsame'⟩ := ih (by rw [hstand']; simp)
      obtain rfl : oe = oe' := Option.some.inj (hoe.symm.trans hoe')
      exact ⟨od, ol, hod, hol, harith, Operation.sameValue_trans hsame hsame'⟩

/-- Settling replaces the operands of both in the same way. -/
theorem Settles.matched (h : g.Settles g') (hm : g.Matched) : g'.Matched := by
  have hop : ∀ {j o}, o.arith?.isSome = true → g.op? j = some o →
      g'.op? j = some (o.mapValues g.liveOf) := by
    intro j o ho hj
    obtain ⟨ins, hins, rfl⟩ := Option.map_eq_some_iff.1 hj
    obtain ⟨ins', hins', hsettles⟩ := h.instr j ins hins
    rw [op?, hins', Option.map_some, hsettles.op_eq (Operation.isBranch_of_arith ho)]
  intro d e hde
  rw [h.standIn?_eq] at hde
  obtain ⟨od, oe, hod, hoe, harith, hsame⟩ := hm d e hde
  have harith' : oe.arith?.isSome = true := by
    obtain ⟨k, l, r, l', r', rfl, rfl, -, -⟩ := Operation.sameValue_iff.1 hsame
    exact harith
  refine ⟨_, _, hop harith hod, hop harith' hoe, ?_, Operation.sameValue_mapValues _ hsame⟩
  rw [Operation.mapValues, Operation.arith?_mapOperands]
  exact harith

end Graph

/-! ## Effects -/

namespace Body

variable {adds : Operation → Prop} {u u' : Body}

namespace Shares

theorem sameWork (s : u.Shares) (h : u.SameWork u') : u'.Shares :=
  s.of_op h.dependents_eq h.standIn?_eq fun j op hop hj =>
    (h.op?_iff j op (Operation.isBranch_of_arith hop)).2 hj

theorem withPlaced (s : u.Shares) {b : BlockId} {op : Operation} {g : Graph}
    (h : u.graph.Places b op g) : Shares { u with graph := g } :=
  ⟨s.books.of_standIn rfl h.standIn?_eq, s.matched.place h⟩

theorem place (s : u.Shares) {b : BlockId} {op : Operation} {i : InstrId}
    (h : u.place b op = .ok (i, u')) : u'.Shares := by
  obtain ⟨-, op', g, -, hplaces, rfl⟩ := places_of_place h
  exact s.withPlaced hplaces

theorem placeRetired (s : u.Shares) {op oe : Operation} {e i : InstrId}
    (harith : op.arith?.isSome = true) (hoe : u.graph.op? e = some oe)
    (hsame : oe.sameValue op = true) (h : u.placeRetired op e = .ok (i, u')) : u'.Shares := by
  obtain ⟨⟨j, v⟩, hv, h⟩ := bind_eq_ok_iff.1 h
  cases h
  obtain ⟨rfl, op', g, hlands, hplaces, rfl⟩ := places_of_place hv
  rcases hlands with rfl | ⟨c, rfl, -⟩
  · exact s.retireNew hplaces harith hoe hsame
  · cases harith

theorem insertPhi (s : u.Shares) {b : BlockId} {x : Var} {first second : Option InstrId}
    {i : InstrId} (h : u.insertPhi b x first second = .ok (i, u')) : u'.Shares := by
  obtain ⟨⟨j, v⟩, hv, h⟩ := bind_eq_ok_iff.1 h
  cases h
  have hre := Graph.rebinds_bindIn v.graph b x (some i)
  exact (s.place hv).of_op rfl hre.standIn?_eq fun j op _ hj => (hre.op?_eq j).trans hj

theorem setPhiSide (s : u.Shares) {i : InstrId} (hphi : u.graph.isPhi i = true) (x : Var)
    (side : Side) (value : Option InstrId) : (u.setPhiSide i x side value).Shares := by
  refine s.of_op rfl (fun j => Graph.standIn?_modifyInstr_mapOp _ _ _ _) fun j op hop hj => ?_
  rw [Body.setPhiSide, Graph.op?_modifyInstr_mapOp, if_neg, hj]
  rintro rfl
  rw [Graph.isPhi_eq, hj, Option.any_some, Operation.isPhi_of_arith hop] at hphi
  cases hphi

theorem settle (s : u.Shares) (h : u.settle = .ok u') : u'.Shares := by
  obtain ⟨g, hsettles, rfl⟩ := settles_of_settle h
  exact ⟨s.books.of_standIn rfl hsettles.standIn?_eq, hsettles.matched s.matched⟩

end Shares

/-- **One effect keeps sharing in order.** -/
theorem Effect.shares (h : Effect adds u u') (s : u.Shares) : u'.Shares := by
  cases h with
  | arrange h => exact s.sameWork h.sameWork
  | place _ h => exact s.place h
  | placeRetired _ harith hoe hsame h => exact s.placeRetired harith hoe hsame h
  | insertPhi h => exact s.insertPhi h
  | setPhiSide hphi x side value => exact s.setPhiSide hphi x side value
  | redirectRead h =>
    obtain rfl := eq_of_redirectRead h
    exact s.withRead _ _ _ _
  | settle h => exact s.settle h

theorem Effects.shares (h : Effects adds u u') (s : u.Shares) : u'.Shares :=
  h.invariant (fun _ _ heffect => heffect.shares) s

theorem Reachable.shares {options : Options} (h : Reachable options u) : u.Shares :=
  h.effects.shares (Built.start options).shares

/-- Every chain of stand-ins still ends when the last instruction has been placed. -/
theorem Shares.settleWith_ne_standInCycle (s : u.Shares) (last : Operation) (i : InstrId) :
    u.settleWith last ≠ .error (.standInCycle i) := by
  intro h
  rcases bind_eq_error_iff.1 h with hopen | ⟨-, -, h⟩
  · cases (require_eq_error_iff.1 hopen).2
  · rcases bind_eq_error_iff.1 h with hplace | ⟨⟨j, v⟩, hplace, h⟩
    · rcases bind_eq_error_iff.1 hplace with hplace | ⟨r, -, hplace⟩
      · rcases bind_eq_error_iff.1 hplace with hblock | ⟨blk, -, hblock⟩
        · cases (expect_eq_error_iff.1 hblock).2
        · cases hblock
      · cases hplace
    · exact settle_ne_standInCycle (s.place hplace).books.rooted i h

/-! ## Every construction -/

/-- **The books on stand-ins are consistent.** -/
structure Consistent (u : Body) : Prop where
  /-- The dependents of an instruction are those that it stands in for. -/
  inverse : ∀ d e, d ∈ u.dependentsOf e ↔ u.graph.standIn? d = some e
  lists : ∀ e ds, u.dependents.get? e = some ds → ds ≠ [] ∧ ds.Nodup
  /-- The stand-ins of an instruction lead to a live one. -/
  rooted : ∀ i, (u.graph.instr? i).isSome = true → ∃ r, u.graph.HasRoot i r ∧
    u.graph.root? i = some r ∧ (u.graph.instr? r).isSome = true ∧ u.graph.isRetired r = false
  /-- No list of dependents is empty in the middle of a command either, when reviving takes the
  first of them. -/
  steady : ∀ v, Effects (fun _ => True) u v → ∀ e, v.dependents.get? e ≠ some []
  /-- So reviving never stops. -/
  revives : ∀ v, Effects (fun _ => True) u v → ∀ i, ∃ v', v.revive i = .ok v'
  /-- Settling never comes to a chain of stand-ins that does not end. -/
  settles : ∀ i, u.settle ≠ .error (.standInCycle i) ∧
    ∀ last, u.settleWith last ≠ .error (.standInCycle i)

/-- **The books on stand-ins are consistent in every construction.** -/
theorem stand_ins_consistent {options : Options} (h : Reachable options u) : u.Consistent := by
  have s := h.shares
  refine {
    inverse := s.books.mem_iff
    lists := fun e ds hds => ⟨?_, ?_⟩
    rooted := fun i hi => ?_
    steady := fun v hv => (hv.shares s).books.nonempty
    revives := fun v hv i => ⟨_, (hv.shares s).books.revive_eq i⟩
    settles := fun i => ⟨settle_ne_standInCycle s.books.rooted i,
      fun last => s.settleWith_ne_standInCycle last i⟩ }
  · rintro rfl
    exact s.books.nonempty e hds
  · have hnodup := s.books.nodup e
    rw [dependentsOf, hds] at hnodup
    exact hnodup
  · obtain ⟨r, hr⟩ := s.books.rooted i
    have hexists : (u.graph.op? r).isSome = true :=
      hr.op?_root s.matched (by rw [Graph.op?, Option.isSome_map]; exact hi)
    rw [Graph.op?, Option.isSome_map] at hexists
    refine ⟨r, hr, hr.root?_eq, hexists, ?_⟩
    rw [Graph.isRetired_eq, hr.standIn?_root]
    rfl

/-- The sum of what `x` was read as with itself. -/
def doubleOf (x : Var) : Operation :=
  .binary (.arith .add) (.through x (some 1)) (.through x (some 1))

/-- In a loop the same sum is added three times, read through three variables.  Then the first of
them gets a loop phi: the second sum is computed again, and stands in for the third. -/
def loopSums : List Command :=
  [.emit .read, .assign 0 (some 1), .openLoop,
    .emit (.binary .cmp (.through 0 (some 1)) (.through 0 (some 1))),
    .emit (.branch (.whenever .eq) none), .moveTo 3, .emit (doubleOf 0), .emit (doubleOf 1),
    .emit (doubleOf 2), .assign 0 (some 4)]

theorem exists_loopSums : ∃ u, Reachable {} u ∧ u.graph.isRetired 6 = true ∧
    u.graph.root? 6 = some 5 :=
  ⟨_, ⟨loopSums, rfl⟩, rfl, rfl⟩

theorem stand_ins_consistent_loopSums : ∃ u, Reachable {} u ∧ u.graph.isRetired 6 = true ∧
    u.Consistent := by
  obtain ⟨u, hu, hretired, -⟩ := exists_loopSums
  exact ⟨u, hu, hretired, stand_ins_consistent hu⟩

/-- **A retired instruction computes what the live instruction in its stead computes**, in every
construction: both are arithmetic with the same opcode, on operands of the same values. -/
theorem retired_computes_root {options : Options} (h : Reachable options u) {d : InstrId}
    (hd : u.graph.isRetired d = true) : ∃ i k l r l' r', u.graph.root? d = some i ∧
      u.graph.isRetired i = false ∧ u.graph.op? d = some (.binary (.arith k) l r) ∧
      u.graph.op? i = some (.binary (.arith k) l' r') ∧
      l.value = l'.value ∧ r.value = r'.value := by
  have s := h.shares
  obtain ⟨i, hi⟩ := s.books.rooted d
  have hstand : u.graph.standIn? d ≠ none := fun hnone => by
    rw [Graph.isRetired_eq, hnone] at hd
    cases hd
  obtain ⟨od, oi, hod, hoi, harith, hsame⟩ := hi.sameValue s.matched hstand
  obtain ⟨op, l, r, l', r', rfl, rfl, hl, hr⟩ := Operation.sameValue_iff.1 hsame
  cases op with
  | arith k =>
    refine ⟨i, k, l, r, l', r', hi.root?_eq, ?_, hod, hoi, hl, hr⟩
    rw [Graph.isRetired_eq, hi.standIn?_root]
    rfl
  | cmp | phi => cases harith

theorem retired_computes_root_loopSums : ∃ u, Reachable {} u ∧ u.graph.isRetired 6 = true ∧
    u.graph.root? 6 = some 5 ∧ ∃ i k l r l' r', u.graph.root? 6 = some i ∧
      u.graph.isRetired i = false ∧ u.graph.op? 6 = some (.binary (.arith k) l r) ∧
      u.graph.op? i = some (.binary (.arith k) l' r') ∧
      l.value = l'.value ∧ r.value = r'.value := by
  obtain ⟨u, hu, hretired, hroot⟩ := exists_loopSums
  exact ⟨u, hu, hretired, hroot, retired_computes_root hu hretired⟩

end Body
end StructuredSSA
