import Mathlib.Order.Bounds.Basic
import StructuredSSA.Proofs.Body.Offered
import StructuredSSA.Proofs.Body.Reuse

/-!
# The candidates for sharing

Of the arithmetic that a block offers, the search for a result to share takes the first instruction
that will do.  A block starts with what was offered by the block it was opened under, which goes on
growing by itself, and instructions are placed in the blocks in any order.  Still the lists stay in
order, because a new instruction has the greatest number of all: so the first instruction that will
do is the most recent one.

## What is here

* `Graph.Indexes` — the lists are in order, and hold the arithmetic of their blocks.
* `Graph.Wires.offered_cases`, `Graph.Indexes.alters` — every change keeps them so.
* `Graph.firstWhose_cases`, `Graph.match_cases` — the search takes the greatest number.
* `Body.candidates_exact` — this is so in every body that can be built.
-/

set_option autoImplicit false

namespace StructuredSSA

namespace Graph

variable {g g' : Graph} {b c : BlockId} {k : ArithOp} {i : InstrId} {op : Operation}

/-! ## The lists -/

/-- **The lists of what blocks offer**: each is in order, most recent first, and what a block lists
is there and is offered by the block if it is arithmetic. -/
structure Indexes (g : Graph) : Prop where
  offers : g.Offers
  descending : ∀ b k, ((g.offered b).candidates k).Pairwise (· > ·)
  listed : ∀ b, ∀ i ∈ g.listed b, ∃ op, g.op? i = some op ∧
    ∀ k, op.arith? = some k → i ∈ (g.offered b).candidates k

/-- Rewiring leaves alone what a block offers, unless the block lists nothing. -/
theorem Wires.offered_cases (h : Wires g g') (b : BlockId) :
    g'.offered b = g.offered b ∨ g.listed b = [] := by
  cases h with
  | addBlock r dom =>
    rw [offered_withBlock]
    split
    · rename_i hb
      rw [hb, Graph.listed, block?_nextBlock]
      exact .inr rfl
    · exact .inl rfl
  | link e src dst hs hd => exact .inl ((sameContents_link g e src dst).offered_eq b)
  | unlinkNext e src => exact .inl ((sameContents_unlinkNext g e src).offered_eq b)
  | setOrigin c origin hb ho => exact .inl (offered_setOrigin g c origin b)
  | addRole c r hb hempty => exact .inl (offered_addRole g c r b)

namespace Indexes

/-- Instructions that were there keep their place in the lists. -/
theorem of_keeps (x : g.Indexes) (hkeeps : Keeps g g')
    (hfrom : ∀ b, ∃ c, g'.offered b = g.offered c)
    (hlisted : ∀ b, ∀ i ∈ g'.listed b, i ∈ g.listed b ∧ g'.offered b = g.offered b) :
    g'.Indexes where
  offers := x.offers.of_keeps hkeeps hfrom
  descending b k := by
    obtain ⟨c, hc⟩ := hfrom b
    rw [hc]
    exact x.descending c k
  listed b i hi := by
    obtain ⟨hold, heq⟩ := hlisted b i hi
    obtain ⟨o, ho, hmem⟩ := x.listed b i hold
    obtain ⟨o', ho', harith⟩ := hkeeps.arith?_eq ho
    rw [heq]
    exact ⟨o', ho', fun k hk => hmem k (harith.symm.trans hk)⟩

theorem wires (x : g.Indexes) (h : Wires g g') : g'.Indexes := by
  refine x.of_keeps (.of_instr? h.sameStock.instr?_eq) h.offered_from fun b i hi => ?_
  rw [h.sameStock.listed_eq] at hi
  refine ⟨hi, (h.offered_cases b).resolve_right fun hempty => ?_⟩
  rw [hempty] at hi
  cases hi

/-- A new instruction has a greater number than any that was offered before. -/
theorem places (x : g.Indexes) (h : Places g c op g') : g'.Indexes where
  offers := x.offers.places h
  descending b k := by
    rw [h.offered_eq]
    split
    · rw [Available.candidates_with]
      split
      · refine List.pairwise_cons.2 ⟨fun j hj => ?_, x.descending c k⟩
        obtain ⟨o, ho, -⟩ := x.offers c k j hj
        exact lt_nextId_of_op? ho
      · exact x.descending c k
    · exact x.descending b k
  listed b i hi := by
    have hoffered (k : ArithOp) (hk : i ∈ (g.offered b).candidates k) :
        i ∈ (g'.offered b).candidates k := by
      rw [h.offered_eq]
      split
      · rename_i hb
        subst hb
        exact Available.mem_candidates_with hk _ _
      · exact hk
    rcases h.mem_listed.1 hi with hold | ⟨rfl, rfl⟩
    · obtain ⟨o, ho, hmem⟩ := x.listed b i hold
      obtain ⟨o', ho', harith⟩ := h.keeps.arith?_eq ho
      exact ⟨o', ho', fun k hk => hoffered k (hmem k (harith.symm.trans hk))⟩
    · refine ⟨op, h.op?_new, fun k hk => ?_⟩
      rw [h.offered_eq, if_pos rfl, Available.candidates_with, if_pos hk]
      exact List.mem_cons_self

theorem alters (x : g.Indexes) (h : Alters g g') : g'.Indexes := by
  cases h with
  | wire h => exact x.wires h
  | rework h =>
    refine x.of_keeps h.keeps (fun b => ⟨b, h.offered_eq b⟩) fun b i hi => ?_
    rw [h.listed_eq] at hi
    exact ⟨hi, h.offered_eq b⟩
  | place h => exact x.places h

end Indexes

theorem Develops.indexes (h : Develops g g') (x : g.Indexes) : g'.Indexes :=
  h.invariant (fun _ _ halters x => x.alters halters) x

/-! ## The search -/

/-- The search through a list in order takes the greatest number that will do. -/
theorem firstWhose_cases {p : Operation → Bool} {P : InstrId → Prop} {js : List InstrId}
    (hdesc : js.Pairwise (· > ·)) (hp : ∀ j ∈ js, ∃ o, g.op? j = some o ∧ (p o = true ↔ P j)) :
    (∃ i, g.firstWhose p js = .ok (some i) ∧ IsGreatest {j | j ∈ js ∧ P j} i) ∨
      g.firstWhose p js = .ok none ∧ ∀ j ∈ js, ¬ P j := by
  induction js with
  | nil => exact .inr ⟨rfl, by simp⟩
  | cons j js ih =>
    obtain ⟨hfirst, hdesc⟩ := List.pairwise_cons.1 hdesc
    obtain ⟨o, ho, hpj⟩ := hp j List.mem_cons_self
    obtain ⟨ins, hins, rfl⟩ := Option.map_eq_some_iff.1 ho
    simp only [firstWhose, instr_eq_ok_iff.2 hins, bind, Except.bind, pure, Except.pure]
    by_cases hPj : P j
    · left
      refine ⟨j, by rw [if_pos (hpj.2 hPj)], ⟨List.mem_cons_self, hPj⟩, ?_⟩
      rintro j' ⟨hj', -⟩
      rcases List.mem_cons.1 hj' with rfl | hj'
      · exact Nat.le_refl j'
      · exact (hfirst j' hj').le
    · rw [if_neg (mt hpj.1 hPj)]
      rcases ih hdesc fun j' hj' => hp j' (List.mem_cons_of_mem j hj') with
        ⟨i, hi, ⟨himem, hPi⟩, hgreatest⟩ | ⟨hnone, hall⟩
      · left
        refine ⟨i, hi, ⟨List.mem_cons_of_mem j himem, hPi⟩, ?_⟩
        rintro j' ⟨hj', hPj'⟩
        rcases List.mem_cons.1 hj' with rfl | hj'
        · exact absurd hPj' hPj
        · exact hgreatest ⟨hj', hPj'⟩
      · right
        refine ⟨hnone, fun j' hj' => ?_⟩
        rcases List.mem_cons.1 hj' with rfl | hj'
        · exact hPj
        · exact hall j' hj'

/-- The instructions among `js` that are the operation `op`. -/
def identicals (g : Graph) (js : List InstrId) (op : Operation) : Set InstrId :=
  {j | j ∈ js ∧ g.op? j = some op}

/-- The instructions among `js` with the opcode `k` and the values of `lhs` and `rhs`, whatever
variables these were read through. -/
def equivalents (g : Graph) (js : List InstrId) (k : ArithOp) (lhs rhs : Operand) : Set InstrId :=
  {j | j ∈ js ∧ ∃ l r, g.op? j = some (.binary (.arith k) l r) ∧
    l.value = lhs.value ∧ r.value = rhs.value}

/-- **The search takes the greatest number**: that of an identical instruction if there is one, or
else that of one which computes the same value. -/
theorem match_cases {a : Available} (hdesc : (a.candidates k).Pairwise (· > ·))
    (hkind : ∀ j ∈ a.candidates k, ∃ l r, g.op? j = some (.binary (.arith k) l r))
    (lhs rhs : Operand) :
    (∃ i, g.match? a (.binary (.arith k) lhs rhs) = .ok (some (.identical i)) ∧
        IsGreatest (g.identicals (a.candidates k) (.binary (.arith k) lhs rhs)) i) ∨
      (∃ i, g.match? a (.binary (.arith k) lhs rhs) = .ok (some (.equivalent i)) ∧
        g.identicals (a.candidates k) (.binary (.arith k) lhs rhs) = ∅ ∧
        IsGreatest (g.equivalents (a.candidates k) k lhs rhs) i) ∨
      g.match? a (.binary (.arith k) lhs rhs) = .ok none ∧
        g.equivalents (a.candidates k) k lhs rhs = ∅ := by
  have hidentical := firstWhose_cases (g := g)
    (p := fun o => decide (o = .binary (.arith k) lhs rhs))
    (P := fun j => g.op? j = some (.binary (.arith k) lhs rhs)) hdesc fun j hj => by
      obtain ⟨l, r, ho⟩ := hkind j hj
      exact ⟨_, ho, by rw [ho, decide_eq_true_iff, Option.some.injEq]⟩
  have hequivalent := firstWhose_cases (g := g)
    (p := fun o => o.sameValue (.binary (.arith k) lhs rhs))
    (P := fun j => ∃ l r, g.op? j = some (.binary (.arith k) l r) ∧
      l.value = lhs.value ∧ r.value = rhs.value) hdesc fun j hj => by
      obtain ⟨l, r, ho⟩ := hkind j hj
      refine ⟨_, ho, ?_⟩
      simp [ho, Operation.sameValue]
  have harith : (Operation.binary (.arith k) lhs rhs).arith? = some k := rfl
  simp only [match?, harith]
  rcases hidentical with ⟨i, hi, hgreatest⟩ | ⟨hi, hall⟩
  · exact .inl ⟨i, by simp only [hi, bind, Except.bind, pure, Except.pure], hgreatest⟩
  · have hempty : g.identicals (a.candidates k) (.binary (.arith k) lhs rhs) = ∅ :=
      Set.eq_empty_of_forall_notMem fun j hj => hall j hj.1 hj.2
    rcases hequivalent with ⟨i', hi', hgreatest⟩ | ⟨hi', hall'⟩
    · refine .inr (.inl ⟨i', ?_, hempty, hgreatest⟩)
      simp only [hi, hi', bind, Except.bind, pure, Except.pure, Option.map_some]
    · refine .inr (.inr ⟨?_, Set.eq_empty_of_forall_notMem fun j hj => hall' j hj.1 hj.2⟩)
      simp only [hi, hi', bind, Except.bind, pure, Except.pure, Option.map_none]

end Graph

theorem Operation.exists_of_arith? {op : Operation} {k : ArithOp} (h : op.arith? = some k) :
    ∃ lhs rhs, op = .binary (.arith k) lhs rhs := by
  cases op with
  | binary k' lhs rhs =>
    cases k' with
    | arith k' =>
      cases h
      exact ⟨lhs, rhs, rfl⟩
    | _ => cases h
  | _ => cases h

namespace Body

variable {options : Options} {u u' : Body} {b : BlockId}

/-! ## In every body that can be built -/

theorem Advances.indexes (h : u.Advances u') (x : u.graph.Indexes) : u'.graph.Indexes := by
  cases h with
  | work hopen hopen' h => exact h.indexes x
  | settle hopen hopen' h hsettle =>
    -- settling drops instructions from blocks and never from what blocks offer
    obtain ⟨g, hg, rfl⟩ := withLandings_of_settle hsettle
    have hsettles := Graph.settles_of_withLandings hg
    have hoffered := Graph.offered_of_withLandings hg
    refine (h.indexes x).of_keeps hsettles.keeps (fun b => ⟨b, hoffered b⟩) fun b i hi => ?_
    rw [hsettles.listed_eq] at hi
    exact ⟨List.mem_of_mem_filter hi, hoffered b⟩
  | add hsettled hsettled' h hstand => exact h.indexes x

theorem indexes_start (options : Options) : (start options).graph.Indexes where
  offers := offers_start options
  descending b k := by
    have hempty : (start options).graph.offered b = {} := by
      rcases b with _ | _ | b
      · rfl
      · rfl
      · rw [Graph.offered, block?_start options (Nat.le_add_left 2 b)]
        rfl
    rw [hempty, Available.candidates_empty]
    exact .nil
  listed b i hi := by
    rw [listed_start] at hi
    cases hi

theorem Reachable.indexes (h : Reachable options u) : u.graph.Indexes :=
  h.invariant (fun _ _ hadvances x => hadvances.indexes x) (indexes_start options)

/-- **What a block offers is in order, and so is the search through it**, after whatever commands.
For every opcode the numbers of the candidates decrease strictly, each candidate is arithmetic with
the opcode, and every such instruction that the block lists is among them.  The search for an
operation never stops: it takes the identical candidate with the greatest number, or else the one
with the greatest number that computes the same value, or else none. -/
theorem candidates_exact (h : Reachable options u) {blk : Block}
    (hblk : u.graph.block? b = some blk) (k : ArithOp) :
    (blk.available.candidates k).Pairwise (· > ·) ∧
      (∀ i ∈ blk.available.candidates k, ∃ lhs rhs,
        u.graph.op? i = some (.binary (.arith k) lhs rhs)) ∧
      (∀ i ∈ blk.instrs, ∀ lhs rhs, u.graph.op? i = some (.binary (.arith k) lhs rhs) →
        i ∈ blk.available.candidates k) ∧
      ∀ lhs rhs,
        (∃ i, u.graph.match? blk.available (.binary (.arith k) lhs rhs) =
            .ok (some (.identical i)) ∧
          IsGreatest (u.graph.identicals (blk.available.candidates k)
            (.binary (.arith k) lhs rhs)) i) ∨
        (∃ i, u.graph.match? blk.available (.binary (.arith k) lhs rhs) =
            .ok (some (.equivalent i)) ∧
          u.graph.identicals (blk.available.candidates k) (.binary (.arith k) lhs rhs) = ∅ ∧
          IsGreatest (u.graph.equivalents (blk.available.candidates k) k lhs rhs) i) ∨
        u.graph.match? blk.available (.binary (.arith k) lhs rhs) = .ok none ∧
          u.graph.equivalents (blk.available.candidates k) k lhs rhs = ∅ := by
  have x := h.indexes
  have hoffered : u.graph.offered b = blk.available := by rw [Graph.offered, hblk]; rfl
  have hlisted : u.graph.listed b = blk.instrs := by rw [Graph.listed, hblk]; rfl
  have hdesc := x.descending b k
  have hkind (i : InstrId) (hi : i ∈ (u.graph.offered b).candidates k) :
      ∃ lhs rhs, u.graph.op? i = some (.binary (.arith k) lhs rhs) := by
    obtain ⟨op, hop, hk⟩ := x.offers b k i hi
    obtain ⟨lhs, rhs, rfl⟩ := Operation.exists_of_arith? hk
    exact ⟨lhs, rhs, hop⟩
  rw [hoffered] at hdesc hkind
  refine ⟨hdesc, hkind, fun i hi lhs rhs hop => ?_, Graph.match_cases hdesc hkind⟩
  rw [← hlisted] at hi
  obtain ⟨o, ho, hmem⟩ := x.listed b i hi
  obtain rfl : o = .binary (.arith k) lhs rhs := Option.some.inj (ho.symm.trans hop)
  rw [← hoffered]
  exact hmem k rfl

/-- Three sums of the same two values, read in three ways, and a side of an if whose header is added
to once more after the side has been opened. -/
def sumsInTurn : List Command :=
  [.constant 7, .emit (.binary (.arith .add) (.result 1) (.result 1)), .openIf, .moveTo 3,
    .emit (.binary (.arith .add) (.through 5 (some 1)) (.result 1)), .moveTo 1,
    .emit (.binary (.arith .add) (.result 1) (.through 6 (some 1)))]

theorem exists_sumsInTurn : ∃ u blk, Reachable { share := false } u ∧
    u.graph.block? 3 = some blk ∧ blk.available.candidates .add = [3, 2] ∧
    u.graph.match? blk.available (.binary (.arith .add) (.result 1) (.result 1)) =
      .ok (some (.identical 2)) ∧
    u.graph.match? blk.available (.binary (.arith .add) (.result 1) (.through 6 (some 1))) =
      .ok (some (.equivalent 3)) :=
  ⟨_, _, ⟨sumsInTurn, rfl⟩, rfl, by decide, by decide, by decide⟩

theorem candidates_exact_sumsInTurn : ∃ u blk, Reachable { share := false } u ∧
    u.graph.block? 3 = some blk ∧ blk.available.candidates .add = [3, 2] ∧
    (∀ i ∈ blk.available.candidates .add, ∃ lhs rhs,
      u.graph.op? i = some (.binary (.arith .add) lhs rhs)) ∧
    (∀ i ∈ blk.instrs, ∀ lhs rhs, u.graph.op? i = some (.binary (.arith .add) lhs rhs) →
      i ∈ blk.available.candidates .add) ∧
    IsGreatest (u.graph.identicals (blk.available.candidates .add)
      (.binary (.arith .add) (.result 1) (.result 1))) 2 ∧
    IsGreatest (u.graph.equivalents (blk.available.candidates .add) .add (.result 1)
      (.through 6 (some 1))) 3 := by
  obtain ⟨u, blk, hu, hblk, hcandidates, hidentical, hequivalent⟩ := exists_sumsInTurn
  obtain ⟨-, hkind, hlisted, hsearch⟩ := candidates_exact hu hblk .add
  refine ⟨u, blk, hu, hblk, hcandidates, hkind, hlisted, ?_, ?_⟩
  · rcases hsearch (.result 1) (.result 1) with ⟨i, hi, hgreatest⟩ | ⟨i, hi, -⟩ | ⟨hi, -⟩
    · rw [hidentical] at hi
      cases hi
      exact hgreatest
    · rw [hidentical] at hi
      cases hi
    · rw [hidentical] at hi
      cases hi
  · rcases hsearch (.result 1) (.through 6 (some 1)) with
      ⟨i, hi, -⟩ | ⟨i, hi, -, hgreatest⟩ | ⟨hi, -⟩
    · rw [hequivalent] at hi
      cases hi
    · rw [hequivalent] at hi
      cases hi
      exact hgreatest
    · rw [hequivalent] at hi
      cases hi

end Body
end StructuredSSA
