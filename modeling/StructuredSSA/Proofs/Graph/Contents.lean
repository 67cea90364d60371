import StructuredSSA.Proofs.Graph.Open
import StructuredSSA.Proofs.Graph.Place
import StructuredSSA.Proofs.Graph.Shape

/-!
# The contents of a graph

Whatever the links between blocks are, a graph under construction keeps its books in order:
instructions stand at their numbers and are listed in their home blocks, bindings and branches name
what exists, only arithmetic is offered, and a block holds one branch at most.  `Graph.Contents`
says this, and every change that construction makes keeps it.
-/

set_option autoImplicit false

namespace StructuredSSA
namespace Graph

open Operation (Similar)

/-- What a branch target names exists. -/
def TargetExists (g : Graph) : Target → Prop
  | .instr i => (g.op? i).isSome = true
  | .startOf b => b < g.blocks.size

/-- A branch with the target enters `b`. -/
def Names (g : Graph) : Target → BlockId → Prop
  | .instr i, b => g.home? i = some b
  | .startOf c, b => c = b

/-- The phi `i` is in `b` and `b` binds `x` to it. -/
def OwnPhi (g : Graph) (b : BlockId) (x : Var) (i : InstrId) : Prop :=
  g.binding b x = some (some i) ∧ g.isPhi i = true ∧ g.home? i = some b

theorem OwnPhi.unique {g : Graph} {b : BlockId} {x : Var} {i j : InstrId} (h : g.OwnPhi b x i)
    (h' : g.OwnPhi b x j) : i = j := by
  have := h.1.symm.trans h'.1
  exact Option.some.inj (Option.some.inj this)

/-- A search for the phi finds it if there is one. -/
theorem eq_some_iff_of_ownPhi? {g : Graph} {b : BlockId} {x : Var} {r : Option InstrId}
    (h : g.ownPhi? b x = .ok r) (i : InstrId) : r = some i ↔ g.OwnPhi b x i := by
  obtain ⟨blk, hblk, h⟩ := bind_eq_ok_iff.1 h
  have hbinding : g.binding b x = blk.symbols.get? x := by
    rw [binding, block_eq_ok_iff.1 hblk, Option.bind_some]
  rw [OwnPhi, hbinding]
  split at h
  · rename_i j hget
    obtain ⟨ins, hins, h⟩ := bind_eq_ok_iff.1 h
    cases h
    rw [instr_eq_ok_iff] at hins
    have hphi : g.isPhi j = ins.op.isPhi := by rw [isPhi, hins, Option.any_some]
    have hhome : g.home? j = some ins.block := by rw [home?, hins, Option.map_some]
    rw [hget]
    constructor
    · intro h
      split at h
      · rename_i hcond
        cases h
        rw [Bool.and_eq_true, beq_iff_eq] at hcond
        exact ⟨rfl, hphi.trans hcond.1, hhome.trans (congrArg some hcond.2)⟩
      · cases h
    · rintro ⟨heq, hi, hh⟩
      cases heq
      rw [hphi] at hi
      rw [hhome, Option.some.injEq] at hh
      simp [hi, hh]
  · rename_i hget
    cases h
    exact iff_of_false (by simp) fun h => hget i h.1

/-- **The contents invariant**: blocks and instructions fit together. -/
structure Contents (g : Graph) : Prop where
  id_eq : ∀ i ins, g.instr? i = some ins → ins.id = i
  home_lt : ∀ i b, g.home? i = some b → b < g.blocks.size
  mem_listed : ∀ b i, i ∈ g.listed b ↔ g.home? i = some b
  bound : ∀ b x i, g.binding b x = some (some i) → (g.op? i).isSome = true
  offers : ∀ b k i, i ∈ (g.offered b).candidates k → ∃ op, g.op? i = some op ∧ op.arith? = some k
  /-- Both sides of a phi are read through its variable. -/
  phi_vars : ∀ i l r, g.op? i = some (.binary .phi l r) → ∃ x, l.var = some x ∧ r.var = some x
  aimed : ∀ i c t, g.op? i = some (.branch c (some t)) → g.TargetExists t
  one_branch : ∀ i j, g.isBranch i = true → g.isBranch j = true → g.home? i = g.home? j → i = j

namespace Contents

variable {g g' : Graph}

theorem home?_isSome (c : Contents g) {i : InstrId} (h : (g.op? i).isSome = true) :
    ∃ b, g.home? i = some b ∧ b < g.blocks.size := by
  rw [op?, Option.isSome_map] at h
  obtain ⟨ins, hins⟩ := Option.isSome_iff_exists.1 h
  have hhome : g.home? i = some ins.block := by rw [home?, hins]; rfl
  exact ⟨ins.block, hhome, c.home_lt i _ hhome⟩

theorem of_sameShape (h : SameShape g g') (c : Contents g) : Contents g' where
  id_eq i ins' hins' := by
    obtain ⟨ins, hins, hid, -, -⟩ := h.instr?_similar i ins' hins'
    rw [hid]
    exact c.id_eq i ins hins
  home_lt i b hb := by
    rw [h.home?_eq] at hb
    rw [h.skeleton.size_eq]
    exact c.home_lt i b hb
  mem_listed b i := by
    rw [h.listed_eq, h.home?_eq]
    exact c.mem_listed b i
  bound b x i hb := by
    rw [h.binding_eq] at hb
    rw [h.op?_isSome_eq]
    exact c.bound b x i hb
  offers b k i hi := by
    rw [h.offered_eq] at hi
    obtain ⟨op, hop, hk⟩ := c.offers b k i hi
    have hsome := h.op?_isSome_eq i
    rw [hop, Option.isSome_some] at hsome
    obtain ⟨op', hop'⟩ := Option.isSome_iff_exists.1 hsome
    obtain ⟨op₀, hop₀, hsim⟩ := h.op?_similar hop'
    rw [hop] at hop₀
    cases hop₀
    exact ⟨op', hop', by rw [hsim.arith_eq, hk]⟩
  phi_vars i l r hop' := by
    obtain ⟨op, hop, hsim⟩ := h.op?_similar hop'
    have hphi := hsim.isPhi_eq
    have hvars := hsim.vars_eq
    cases op with
    | binary k l₀ r₀ =>
      cases k with
      | phi =>
        obtain ⟨x, hl, hr⟩ := c.phi_vars i l₀ r₀ hop
        simp only [Operation.operands, List.map_cons, List.map_nil, List.cons.injEq, and_true]
          at hvars
        exact ⟨x, hvars.1.trans hl, hvars.2.trans hr⟩
      | _ => cases hphi
    | _ => cases hphi
  aimed i cond t hop' := by
    obtain ⟨op, hop, hsim⟩ := h.op?_similar hop'
    rw [(hsim.branch_iff cond (some t)).1 rfl] at hop
    have := c.aimed i cond t hop
    cases t with
    | instr j =>
      rw [TargetExists, h.op?_isSome_eq]
      exact this
    | startOf b =>
      rw [TargetExists, h.skeleton.size_eq]
      exact this
  one_branch i j hi hj hij := by
    rw [h.isBranch_eq] at hi hj
    rw [h.home?_eq, h.home?_eq] at hij
    exact c.one_branch i j hi hj hij

/-- What an operation must satisfy to be placed in `b`. -/
structure Fits (g : Graph) (b : BlockId) (op : Operation) : Prop where
  phi_vars : ∀ l r, op = .binary .phi l r → ∃ x, l.var = some x ∧ r.var = some x
  aimed : ∀ c t, op = .branch c (some t) → g.TargetExists t ∧ t ≠ .startOf b
  one_branch : op.isBranch = true → ∀ i, g.isBranch i = true → g.home? i ≠ some b

theorem Fits.of_plain {b : BlockId} {op : Operation} (hphi : op.isPhi = false)
    (hbranch : op.isBranch = false) : Fits g b op where
  phi_vars l r h := by
    rw [h] at hphi
    cases hphi
  aimed c t h := by
    rw [h] at hbranch
    cases hbranch
  one_branch h := by
    rw [h] at hbranch
    cases hbranch

theorem place (c : Contents g) {b : BlockId} {op : Operation} (hb : b < g.blocks.size)
    (hop : Fits g b op) (h : Places g b op g') : Contents g' where
  id_eq i ins' hins' := by
    by_cases hi : i = g.nextId
    · subst hi
      rw [h.instr?_new] at hins'
      cases hins'
      rfl
    · rcases h.instr?_old i hi with h' | ⟨ins, ins'', hins, hins'', cond, -, rfl⟩
      · rw [h'] at hins'
        exact c.id_eq i ins' hins'
      · rw [hins''] at hins'
        cases hins'
        exact c.id_eq i ins hins
  home_lt i b' hb' := by
    rw [h.skeleton.size_eq]
    rw [h.home?_eq] at hb'
    split at hb'
    · cases hb'
      exact hb
    · exact c.home_lt i b' hb'
  mem_listed b' i := by
    rw [h.mem_listed, h.home?_eq, c.mem_listed]
    split
    · rename_i hi
      subst hi
      have : g.home? g.nextId = none := by rw [home?, Places.instr?_nextId]; rfl
      simp [this, eq_comm]
    · rename_i hi
      simp [hi]
  bound b' x i hx := by
    rw [h.binding_eq] at hx
    rw [h.op?_isSome_eq, c.bound b' x i hx, Bool.or_true]
  offers b' k i hi := by
    rcases h.offered_cases hi with ⟨rfl, hk⟩ | hi
    · exact ⟨op, h.op?_new, hk⟩
    · obtain ⟨op', hop', hk⟩ := c.offers b' k i hi
      have hne : i ≠ g.nextId := Nat.ne_of_lt (lt_nextId_of_op? hop')
      have hbr : op'.isBranch = false := by cases op' <;> first | rfl | cases hk
      exact ⟨op', (h.op?_eq hbr).2 (.inr ⟨hne, hop'⟩), hk⟩
  phi_vars i l r hphi := by
    rcases (h.op?_eq rfl).1 hphi with ⟨-, hnew⟩ | ⟨-, hold⟩
    · exact hop.phi_vars l r hnew.symm
    · exact c.phi_vars i l r hold
  aimed i cond t hi := by
    have hmono : ∀ t, g.TargetExists t → g'.TargetExists t := by
      intro t ht
      cases t with
      | instr j =>
        rw [TargetExists, h.op?_isSome_eq, show (g.op? j).isSome = true from ht, Bool.or_true]
      | startOf b' =>
        rw [TargetExists, h.skeleton.size_eq]
        exact ht
    by_cases hnew : i = g.nextId
    · subst hnew
      rw [h.op?_new] at hi
      cases hi
      exact hmono t (hop.aimed cond t rfl).1
    · rcases h.op?_old hnew with h' | ⟨cond', h₁, h₂⟩
      · rw [h'] at hi
        exact hmono t (c.aimed i cond t hi)
      · rw [h₂] at hi
        cases hi
        rw [TargetExists, h.op?_isSome_eq]
        simp
  one_branch i j hi hj hij := by
    rw [h.home?_eq, h.home?_eq] at hij
    have hclash : ∀ i, i ≠ g.nextId → g'.isBranch i = true → op.isBranch = true →
        g.home? i = some b → False := fun i hne hi hop' hhome =>
      hop.one_branch hop' i (by rw [← h.isBranch_old hne]; exact hi) hhome
    by_cases hi' : i = g.nextId
    · by_cases hj' : j = g.nextId
      · rw [hi', hj']
      · rw [if_pos hi', if_neg hj'] at hij
        rw [hi', h.isBranch_new] at hi
        exact (hclash j hj' hj hi hij.symm).elim
    · by_cases hj' : j = g.nextId
      · rw [if_neg hi', if_pos hj'] at hij
        rw [hj', h.isBranch_new] at hj
        exact (hclash i hi' hi hj hij).elim
      · rw [if_neg hi', if_neg hj'] at hij
        rw [h.isBranch_old hi'] at hi
        rw [h.isBranch_old hj'] at hj
        exact c.one_branch i j hi hj hij

/-- New blocks and new links leave the contents in order. -/
theorem of_sameStock (h : SameStock g g') (hsize : g.blocks.size ≤ g'.blocks.size)
    (hoffered : ∀ b, ∃ b', g'.offered b = g.offered b') (c : Contents g) : Contents g' := by
  have hop : ∀ i, g'.op? i = g.op? i := fun i => by rw [op?, h.instr?_eq, op?]
  have hhome : ∀ i, g'.home? i = g.home? i := fun i => by rw [home?, h.instr?_eq, home?]
  have hbranch : ∀ i, g'.isBranch i = g.isBranch i := fun i => by
    rw [isBranch_eq, hop, ← isBranch_eq]
  refine {
    id_eq := fun i ins hins => c.id_eq i ins (by rw [← h.instr?_eq]; exact hins)
    home_lt := fun i b hb => ?_
    mem_listed := fun b i => by rw [h.listed_eq, hhome]; exact c.mem_listed b i
    bound := fun b x i hx => by
      rw [h.binding_eq] at hx
      rw [hop]
      exact c.bound b x i hx
    offers := fun b k i hi => ?_
    phi_vars := fun i l r hphi => c.phi_vars i l r (by rw [← hop]; exact hphi)
    aimed := fun i cond t hi => ?_
    one_branch := fun i j hi hj hij => ?_ }
  · rw [hhome] at hb
    exact Nat.lt_of_lt_of_le (c.home_lt i b hb) hsize
  · obtain ⟨b', hb'⟩ := hoffered b
    rw [hb'] at hi
    rw [hop]
    exact c.offers b' k i hi
  · rw [hop] at hi
    have := c.aimed i cond t hi
    cases t with
    | instr j =>
      rw [TargetExists, hop]
      exact this
    | startOf b => exact Nat.lt_of_lt_of_le this hsize
  · rw [hbranch] at hi hj
    rw [hhome, hhome] at hij
    exact c.one_branch i j hi hj hij

end Contents

/-! ## Bindings -/

/-- `g'` is `g` but for what `b` binds. -/
structure Rebinds (g : Graph) (b : BlockId) (g' : Graph) : Prop where
  skeleton : SameSkeleton g g'
  instrs_eq : g'.instrs = g.instrs
  listed_eq : ∀ c, g'.listed c = g.listed c
  offered_eq : ∀ c, g'.offered c = g.offered c
  binding_eq : ∀ c x, c ≠ b → g'.binding c x = g.binding c x

namespace Rebinds

variable {g g' g'' : Graph} {b : BlockId}

theorem refl (g : Graph) (b : BlockId) : Rebinds g b g :=
  ⟨.refl g, rfl, fun _ => rfl, fun _ => rfl, fun _ _ _ => rfl⟩

theorem trans (h : Rebinds g b g') (h' : Rebinds g' b g'') : Rebinds g b g'' :=
  ⟨h.skeleton.trans h'.skeleton, h'.instrs_eq.trans h.instrs_eq,
    fun c => (h'.listed_eq c).trans (h.listed_eq c),
    fun c => (h'.offered_eq c).trans (h.offered_eq c),
    fun c x hc => (h'.binding_eq c x hc).trans (h.binding_eq c x hc)⟩

theorem instr?_eq (h : Rebinds g b g') (i : InstrId) : g'.instr? i = g.instr? i := by
  cases i with
  | zero => rfl
  | succ k => rw [instr?, h.instrs_eq, instr?]

theorem op?_eq (h : Rebinds g b g') (i : InstrId) : g'.op? i = g.op? i := by
  rw [op?, h.instr?_eq, op?]

theorem home?_eq (h : Rebinds g b g') (i : InstrId) : g'.home? i = g.home? i := by
  rw [home?, h.instr?_eq, home?]

theorem standIn?_eq (h : Rebinds g b g') (i : InstrId) : g'.standIn? i = g.standIn? i := by
  rw [standIn?, h.instr?_eq, standIn?]

theorem isBranch_eq (h : Rebinds g b g') (i : InstrId) : g'.isBranch i = g.isBranch i := by
  rw [Graph.isBranch_eq, h.op?_eq, ← Graph.isBranch_eq]

theorem isPhi_eq (h : Rebinds g b g') (i : InstrId) : g'.isPhi i = g.isPhi i := by
  rw [Graph.isPhi_eq, h.op?_eq, ← Graph.isPhi_eq]

theorem nextId_eq (h : Rebinds g b g') : g'.nextId = g.nextId := by
  rw [nextId, h.instrs_eq, nextId]

end Rebinds

theorem rebinds_modifyBlock (g : Graph) (b : BlockId) (f : Block → Table (Option InstrId)) :
    Rebinds g b (g.modifyBlock b fun blk => { blk with symbols := f blk }) where
  skeleton := sameSkeleton_modifyBlock g b fun _ => rfl
  instrs_eq := rfl
  listed_eq c := by
    rw [listed_modifyBlock]
    split <;> rfl
  offered_eq c := by
    rw [offered_modifyBlock]
    split <;> rfl
  binding_eq c x hc := by rw [binding_modifyBlock, if_neg (Ne.symm hc)]

theorem rebinds_bindIn (g : Graph) (b : BlockId) (x : Var) (value : Option InstrId) :
    Rebinds g b (g.bindIn b x value) :=
  rebinds_modifyBlock g b fun blk => blk.symbols.insert x value

theorem binding_bindIn {g : Graph} {b : BlockId} (hb : b < g.blocks.size) (x : Var)
    (value : Option InstrId) (c : BlockId) (y : Var) :
    (g.bindIn b x value).binding c y =
      if c = b ∧ y = x then some value else g.binding c y := by
  obtain ⟨blk, hblk⟩ := exists_block hb
  rw [bindIn, binding_modifyBlock]
  by_cases hc : c = b
  · subst hc
    simp [hblk, Block.bind, Table.get?_insert, binding, eq_comm]
  · simp [hc, Ne.symm hc]

theorem rebinds_copyBindings (g : Graph) (b src : BlockId) :
    Rebinds g b (g.copyBindings b src) := by
  rw [copyBindings]
  split
  · exact rebinds_modifyBlock g b _
  · exact .refl g b

/-- Copied bindings fill in what the block does not bind. -/
theorem binding_copyBindings {g : Graph} {b : BlockId} (hb : b < g.blocks.size) (src : BlockId)
    (x : Var) : (g.copyBindings b src).binding b x = (g.binding b x).or (g.binding src x) := by
  obtain ⟨blk, hblk⟩ := exists_block hb
  rw [copyBindings]
  split
  · rename_i other hother
    rw [binding_modifyBlock, if_pos rfl, hblk, binding, binding, hblk, hother]
    exact Table.get?_addMissing _ _ _
  · rename_i hnone
    rw [binding, binding, hnone, hblk]
    simp

theorem rebinds_inheritScope (g : Graph) (b origin : BlockId) :
    Rebinds g b (g.inheritScope b origin) := by
  rw [inheritScope]
  split
  · exact (rebinds_copyBindings g b origin).trans (rebinds_copyBindings _ b _)
  · exact rebinds_copyBindings g b origin

/-- What is bound after the bindings in force have been copied was bound somewhere before. -/
theorem exists_binding_of_inheritScope {g : Graph} {b origin : BlockId} (hb : b < g.blocks.size)
    {x : Var} {v : Option InstrId} (h : (g.inheritScope b origin).binding b x = some v) :
    ∃ c, g.binding c x = some v := by
  have hcopy : ∀ {g : Graph} {src : BlockId}, b < g.blocks.size →
      (g.copyBindings b src).binding b x = some v → ∃ c, g.binding c x = some v := by
    intro g src hb h
    rw [binding_copyBindings hb, Option.or_eq_some_iff] at h
    rcases h with h | ⟨-, h⟩
    · exact ⟨b, h⟩
    · exact ⟨src, h⟩
  rw [inheritScope] at h
  split at h
  · rename_i p hp
    have hsize : b < (g.copyBindings b origin).blocks.size := by
      rw [(rebinds_copyBindings g b origin).skeleton.size_eq]
      exact hb
    obtain ⟨c, hc⟩ := hcopy hsize h
    by_cases hcb : c = b
    · subst hcb
      exact hcopy hb hc
    · rw [(rebinds_copyBindings g b origin).binding_eq c x hcb] at hc
      exact ⟨c, hc⟩
  · exact hcopy hb h

theorem Contents.rebind {g g' : Graph} {b : BlockId} (h : Rebinds g b g')
    (hbound : ∀ x i, g'.binding b x = some (some i) → (g.op? i).isSome = true)
    (c : Contents g) : Contents g' where
  id_eq i ins hins := c.id_eq i ins (by rw [← h.instr?_eq]; exact hins)
  home_lt i b' hb' := by
    rw [h.home?_eq] at hb'
    rw [h.skeleton.size_eq]
    exact c.home_lt i b' hb'
  mem_listed b' i := by
    rw [h.listed_eq, h.home?_eq]
    exact c.mem_listed b' i
  bound b' x i hx := by
    rw [h.op?_eq]
    by_cases hb' : b' = b
    · rw [hb'] at hx
      exact hbound x i hx
    · rw [h.binding_eq b' x hb'] at hx
      exact c.bound b' x i hx
  offers b' k i hi := by
    rw [h.offered_eq] at hi
    rw [h.op?_eq]
    exact c.offers b' k i hi
  phi_vars i l r hphi := c.phi_vars i l r (by rw [← h.op?_eq]; exact hphi)
  aimed i cond t hi := by
    rw [h.op?_eq] at hi
    have := c.aimed i cond t hi
    cases t with
    | instr j =>
      rw [TargetExists, h.op?_eq]
      exact this
    | startOf b' =>
      rw [TargetExists, h.skeleton.size_eq]
      exact this
  one_branch i j hi hj hij := by
    rw [h.isBranch_eq] at hi hj
    rw [h.home?_eq, h.home?_eq] at hij
    exact c.one_branch i j hi hj hij

/-! ## Branches -/

/-- Marking a block as waited for is seen nowhere else. -/
theorem sameShape_await (g : Graph) (b : BlockId) :
    SameShape g (g.modifyBlock b fun blk => { blk with awaited := true }) where
  skeleton := sameSkeleton_modifyBlock g b fun _ => rfl
  nextId_eq := rfl
  instr?_similar i ins' h := ⟨ins', by rw [← instr?_modifyBlock]; exact h, rfl, rfl, .refl _⟩
  listed_eq c := by
    rw [listed_modifyBlock]
    split <;> rfl
  binding_eq c x := by
    rw [binding_modifyBlock]
    split <;> rfl
  offered_eq c := by
    rw [offered_modifyBlock]
    split <;> rfl

/-- A block that exists can be aimed at. -/
theorem exists_targetOf {g : Graph} (c : Contents g) {b : BlockId} (hb : b < g.blocks.size) :
    ∃ t g', g.targetOf b = .ok (t, g') ∧ SameShape g g' ∧ g.TargetExists t ∧
      g.Names t b ∧
      (∀ i, g'.standIn? i = g.standIn? i) ∧ (∀ i, g'.op? i = g.op? i) := by
  obtain ⟨blk, hblk⟩ := exists_block hb
  have hblk' : g.block b = .ok blk := block_eq_ok_iff.2 hblk
  cases hfirst : blk.first? with
  | some i =>
    have hmem : i ∈ g.listed b := by
      rw [listed, hblk]
      exact List.mem_of_mem_head? hfirst
    have hhome := (c.mem_listed b i).1 hmem
    refine ⟨.instr i, g, ?_, .refl g, ?_, hhome, fun _ => rfl, fun _ => rfl⟩
    · simp only [targetOf, hblk', hfirst, bind, Except.bind, pure, Except.pure]
    · rw [home?] at hhome
      obtain ⟨ins, hins, -⟩ := Option.map_eq_some_iff.1 hhome
      rw [TargetExists, op?, hins]
      rfl
  | none =>
    refine ⟨.startOf b, _, ?_, sameShape_await g b, hb, rfl,
      fun i => standIn?_modifyBlock _ _ _ i, fun i => op?_modifyBlock _ _ _ i⟩
    simp only [targetOf, hblk', hfirst, bind, Except.bind, pure, Except.pure]

theorem op?_aim (g : Graph) (i j : InstrId) (t : Target) :
    (g.modifyInstr i (·.mapOp (·.aim t))).op? j =
      if i = j then (g.op? j).map (·.aim t) else g.op? j :=
  op?_modifyInstr_mapOp g i j _

theorem isBranch_modifyInstr_aim (g : Graph) (i j : InstrId) (t : Target) :
    (g.modifyInstr i (·.mapOp (·.aim t))).isBranch j = g.isBranch j := by
  rw [isBranch_eq, isBranch_eq, op?_aim]
  split
  · rw [Option.any_map]
    exact congrArg (Option.any · (g.op? j)) (funext fun op => Operation.isBranch_aim t op)
  · rfl

theorem Contents.aim {g : Graph} (c : Contents g) (i : InstrId) {t : Target}
    (ht : g.TargetExists t) : Contents (g.modifyInstr i (·.mapOp (·.aim t))) := by
  have hskel := sameSkeleton_modifyInstr g i (·.mapOp (·.aim t))
  have hsome : ∀ j, ((g.modifyInstr i (·.mapOp (·.aim t))).op? j).isSome = (g.op? j).isSome := by
    intro j
    rw [op?_aim]
    split
    · rw [Option.isSome_map]
    · rfl
  have hexists : ∀ t', g.TargetExists t' →
      (g.modifyInstr i (·.mapOp (·.aim t))).TargetExists t' := by
    intro t' ht'
    cases t' with
    | instr j =>
      rw [TargetExists, hsome]
      exact ht'
    | startOf b =>
      rw [TargetExists, hskel.size_eq]
      exact ht'
  -- an operation that is no branch is not touched
  have hplain : ∀ j op, op.isBranch = false →
      ((g.modifyInstr i (·.mapOp (·.aim t))).op? j = some op ↔ g.op? j = some op) := by
    intro j op hop
    rw [op?_aim]
    split
    · cases hj : g.op? j with
      | none => simp
      | some o =>
        rw [Option.map_some, Option.some.injEq, Option.some.injEq]
        cases o with
        | branch cond t' =>
          refine iff_of_false ?_ ?_
          · rintro rfl
            cases hop
          · rintro rfl
            cases hop
        | _ => rfl
    · rfl
  refine {
    id_eq := fun j ins hins => ?_
    home_lt := fun j b hb => ?_
    mem_listed := fun b j => by
      rw [listed_modifyInstr, home?_modifyInstr_mapOp]
      exact c.mem_listed b j
    bound := fun b x j hx => by
      rw [binding_modifyInstr] at hx
      rw [hsome]
      exact c.bound b x j hx
    offers := fun b k j hj => ?_
    phi_vars := fun j l r hphi => c.phi_vars j l r ((hplain j _ rfl).1 hphi)
    aimed := fun j cond t' hj => ?_
    one_branch := fun j k hj hk hjk => ?_ }
  · rw [instr?_modifyInstr] at hins
    split at hins
    · obtain ⟨ins₀, hins₀, rfl⟩ := Option.map_eq_some_iff.1 hins
      exact c.id_eq j ins₀ hins₀
    · exact c.id_eq j ins hins
  · rw [home?_modifyInstr_mapOp] at hb
    rw [hskel.size_eq]
    exact c.home_lt j b hb
  · rw [offered_modifyInstr] at hj
    obtain ⟨op, hop, hk⟩ := c.offers b k j hj
    have hbr : op.isBranch = false := by cases op <;> first | rfl | cases hk
    exact ⟨op, (hplain j op hbr).2 hop, hk⟩
  · rw [op?_aim] at hj
    split at hj
    · obtain ⟨op, hop, heq⟩ := Option.map_eq_some_iff.1 hj
      cases op with
      | branch cond' t'' =>
        cases heq
        exact hexists t ht
      | _ => cases heq
    · exact hexists t' (c.aimed j cond t' hj)
  · rw [isBranch_modifyInstr_aim] at hj hk
    rw [home?_modifyInstr_mapOp, home?_modifyInstr_mapOp] at hjk
    exact c.one_branch j k hj hk hjk

end Graph
end StructuredSSA
