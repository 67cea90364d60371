import Mathlib.Data.List.Perm.Subperm
import StructuredSSA.Body.Settle
import StructuredSSA.Proofs.Body.Share
import StructuredSSA.Proofs.Graph.Contents

/-!
# What settling does to a graph

Every use of a retired instruction becomes a use of its root, retired instructions leave their
blocks, and branches are pointed at the instructions where control arrives.  Where the passes do not
stop, they do this on any graph.

## What is here

* `Graph.HasRoot.root?_eq`, `Graph.root?_eq_some_iff` — the search for a root ends, and finds it.
* `Graph.instr?_withRoots` and its like — the first pass.
* `Graph.Settles` — what both passes do.
* `Graph.settles_of_withLandings`, `Body.settles_of_settle` — they do.
* `Body.settle_ne_standInCycle` — settling does not stop where every chain of stand-ins ends.
-/

set_option autoImplicit false

namespace StructuredSSA

theorem Operation.mapValues_eq_branch_iff {f : InstrId → InstrId} {op : Operation} {c : Cond}
    {t : Option Target} : op.mapValues f = .branch c t ↔ op = .branch c t := by
  cases op <;> simp [mapValues, mapOperands]

namespace Graph

/-! ## Roots -/

/-- The live instruction in the stead of `i` is `n` stand-ins away. -/
inductive Depth (g : Graph) : Nat → InstrId → Prop where
  | live {i : InstrId} (h : g.standIn? i = none) : Depth g 0 i
  | step {n : Nat} {i e : InstrId} (h : g.standIn? i = some e) (rest : Depth g n e) :
      Depth g (n + 1) i

theorem Depth.unique {g : Graph} {n m : Nat} {i : InstrId} (h : g.Depth n i) (h' : g.Depth m i) :
    n = m := by
  induction h generalizing m with
  | live h =>
    cases h' with
    | live => rfl
    | step h' =>
      rw [h] at h'
      cases h'
  | step h _ ih =>
    cases h' with
    | live h' =>
      rw [h] at h'
      cases h'
    | step h' rest' =>
      rw [h, Option.some.injEq] at h'
      subst h'
      rw [ih rest']

/-- The instructions on the way to the root are all different. -/
theorem Depth.exists_chain {g : Graph} {n : Nat} {i : InstrId} (h : g.Depth n i) :
    ∃ is : List InstrId, is.length = n ∧ is.Nodup ∧
      ∀ j ∈ is, (g.standIn? j).isSome = true ∧ ∃ m, m ≤ n ∧ g.Depth m j := by
  induction h with
  | live => exact ⟨[], rfl, .nil, fun j hj => by cases hj⟩
  | @step n i e h rest ih =>
    obtain ⟨is, hlen, hnodup, his⟩ := ih
    have hdepth : g.Depth (n + 1) i := .step h rest
    refine ⟨i :: is, by rw [List.length_cons, hlen], List.nodup_cons.2 ⟨fun hi => ?_, hnodup⟩,
      fun j hj => ?_⟩
    · obtain ⟨-, m, hm, hmi⟩ := his i hi
      have := hdepth.unique hmi
      omega
    · rcases List.mem_cons.1 hj with rfl | hj
      · exact ⟨by rw [h]; rfl, n + 1, Nat.le_refl _, hdepth⟩
      · obtain ⟨hsome, m, hm, hmj⟩ := his j hj
        exact ⟨hsome, m, Nat.le_succ_of_le hm, hmj⟩

theorem Depth.le_size {g : Graph} {n : Nat} {i : InstrId} (h : g.Depth n i) :
    n ≤ g.instrs.size := by
  obtain ⟨is, hlen, hnodup, his⟩ := h.exists_chain
  have hsub : is ⊆ List.range' 1 g.instrs.size := by
    intro j hj
    obtain ⟨hsome, -⟩ := his j hj
    rw [standIn?, Option.isSome_bind] at hsome
    cases hins : g.instr? j with
    | none =>
      rw [hins] at hsome
      cases hsome
    | some ins =>
      obtain ⟨hpos, hlt⟩ := lt_nextId_of_instr? hins
      rw [List.mem_range'_1]
      dsimp only [InstrId, nextId] at *
      omega
  have := (List.Nodup.subperm hnodup hsub).length_le
  rw [List.length_range'] at this
  omega

theorem HasRoot.exists_depth {g : Graph} {i r : InstrId} (h : g.HasRoot i r) :
    ∃ n, g.Depth n i ∧ ∀ fuel, n ≤ fuel → g.rootWithin fuel i = some r := by
  induction h with
  | @live i h =>
    refine ⟨0, .live h, fun fuel _ => ?_⟩
    rw [standIn?] at h
    unfold rootWithin
    rw [h]
  | @step i e r h _ ih =>
    obtain ⟨n, hn, hroot⟩ := ih
    refine ⟨n + 1, .step h hn, fun fuel hfuel => ?_⟩
    rw [standIn?] at h
    cases fuel with
    | zero => exact absurd hfuel (Nat.not_succ_le_zero n)
    | succ fuel =>
      unfold rootWithin
      rw [h]
      exact hroot fuel (Nat.le_of_succ_le_succ hfuel)

/-- **The search for a root ends**, and finds it. -/
theorem HasRoot.root?_eq {g : Graph} {i r : InstrId} (h : g.HasRoot i r) : g.root? i = some r := by
  obtain ⟨n, hn, hroot⟩ := h.exists_depth
  exact hroot _ hn.le_size

theorem HasRoot.liveOf_eq {g : Graph} {i r : InstrId} (h : g.HasRoot i r) : g.liveOf i = r := by
  rw [liveOf, h.root?_eq]
  rfl

/-- Where nothing is retired, every instruction stands for itself. -/
theorem liveOf_eq_id {g : Graph} (hlive : ∀ i, g.standIn? i = none) : g.liveOf = id :=
  funext fun i => (HasRoot.live (hlive i)).liveOf_eq

theorem hasRoot_of_rootWithin {g : Graph} {fuel : Nat} {i r : InstrId}
    (h : g.rootWithin fuel i = some r) : g.HasRoot i r := by
  induction fuel generalizing i with
  | zero =>
    unfold rootWithin at h
    split at h
    · rename_i hnone
      cases h
      exact .live hnone
    · cases h
  | succ fuel ih =>
    unfold rootWithin at h
    split at h
    · rename_i hnone
      cases h
      exact .live hnone
    · rename_i e he
      exact .step he (ih h)

theorem root?_eq_some_iff {g : Graph} {i r : InstrId} : g.root? i = some r ↔ g.HasRoot i r :=
  ⟨hasRoot_of_rootWithin, HasRoot.root?_eq⟩

/-! ## Live instructions in place of retired ones -/

section WithRoots

variable (g : Graph)

theorem instr?_withRoots (i : InstrId) :
    g.withRoots.instr? i = (g.instr? i).map (·.mapOp (·.mapValues g.liveOf)) := by
  rw [withRoots, instr?_mapBlocks, instr?_mapInstrs]

theorem block?_withRoots (b : BlockId) : g.withRoots.block? b = (g.block? b).map fun blk =>
    { blk with
      symbols := blk.symbols.mapValues (·.map g.liveOf)
      instrs := blk.instrs.filter fun i => !g.isRetired i } := by
  rw [withRoots, block?_mapBlocks, block?_mapInstrs]

theorem sameSkeleton_withRoots : SameSkeleton g g.withRoots := by
  intro b
  rw [skeleton?, block?_withRoots, Option.map_map, skeleton?]
  rfl

theorem listed_withRoots (b : BlockId) :
    g.withRoots.listed b = (g.listed b).filter fun i => !g.isRetired i := by
  rw [listed, block?_withRoots, listed]
  cases g.block? b <;> rfl

theorem binding_withRoots (b : BlockId) (x : Var) :
    g.withRoots.binding b x = (g.binding b x).map (·.map g.liveOf) := by
  rw [binding, block?_withRoots, binding]
  cases g.block? b with
  | none => rfl
  | some blk => exact Table.get?_mapValues _ _ _

theorem nextId_withRoots : g.withRoots.nextId = g.nextId := by
  simp [nextId, withRoots, mapBlocks, mapInstrs]

end WithRoots

/-- An instruction is retired if something stands in for it. -/
theorem isRetired_eq (g : Graph) (i : InstrId) : g.isRetired i = (g.standIn? i).isSome := by
  rw [isRetired, standIn?]
  cases g.instr? i <;> rfl

/-! ## Branches that land -/

/-- Settling one instruction. -/
structure SettlesInstr (live : InstrId → InstrId) (ins ins' : Instr) : Prop where
  id_eq : ins'.id = ins.id
  block_eq : ins'.block = ins.block
  standIn_eq : ins'.standIn = ins.standIn
  op_eq : ins.op.isBranch = false → ins'.op = ins.op.mapValues live
  branch : ∀ c t, ins.op = .branch c t → ∃ j, ins'.op = .branch c (some (.instr j))

/-- `g'` is `g` with its loose ends tied up. -/
structure Settles (g g' : Graph) : Prop where
  skeleton : SameSkeleton g g'
  nextId_eq : g'.nextId = g.nextId
  instr : ∀ i ins, g.instr? i = some ins →
    ∃ ins', g'.instr? i = some ins' ∧ SettlesInstr g.liveOf ins ins'
  listed_eq : ∀ b, g'.listed b = (g.listed b).filter fun i => !g.isRetired i
  binding_eq : ∀ b x, g'.binding b x = (g.binding b x).map (·.map g.liveOf)
  awaited_eq : ∀ b blk, g'.block? b = some blk → blk.awaited = false
  /-- A branch into a block is pointed at the landing of the block. -/
  landing : ∀ i c t b, g.op? i = some (.branch c (some t)) → g.Names t b →
    ∃ j, g'.landing b = .ok j ∧ g'.op? i = some (.branch c (some (.instr j)))

theorem SettlesInstr.isBranch_eq {live : InstrId → InstrId} {ins ins' : Instr}
    (h : SettlesInstr live ins ins') : ins'.op.isBranch = ins.op.isBranch := by
  cases hop : ins.op with
  | branch c t =>
    obtain ⟨j, hj⟩ := h.branch c t hop
    rw [hj]
    rfl
  | _ =>
    rw [h.op_eq (by rw [hop]; rfl), hop]
    rfl

theorem SettlesInstr.isPhi_eq {live : InstrId → InstrId} {ins ins' : Instr}
    (h : SettlesInstr live ins ins') : ins'.op.isPhi = ins.op.isPhi := by
  cases hop : ins.op with
  | branch c t =>
    obtain ⟨j, hj⟩ := h.branch c t hop
    rw [hj]
    rfl
  | binary k l r =>
    rw [h.op_eq (by rw [hop]; rfl), hop]
    cases k <;> rfl
  | _ =>
    rw [h.op_eq (by rw [hop]; rfl), hop]
    rfl

namespace Settles

variable {g g' : Graph}

theorem exists_instr (h : g.Settles g') {i : InstrId} {ins' : Instr}
    (hi : g'.instr? i = some ins') :
    ∃ ins, g.instr? i = some ins ∧ SettlesInstr g.liveOf ins ins' := by
  have hsome : (g.instr? i).isSome = true := by
    rw [instr?_isSome_iff, ← h.nextId_eq, ← instr?_isSome_iff, hi]
    rfl
  obtain ⟨ins, hins⟩ := Option.isSome_iff_exists.1 hsome
  obtain ⟨ins₁, hins₁, hsettles⟩ := h.instr i ins hins
  obtain rfl : ins' = ins₁ := Option.some.inj (hi.symm.trans hins₁)
  exact ⟨ins, hins, hsettles⟩

theorem home?_eq (h : Settles g g') (i : InstrId) : g'.home? i = g.home? i := by
  rw [home?, home?]
  cases hins : g.instr? i with
  | some ins =>
    obtain ⟨ins', hins', hsettles⟩ := h.instr i ins hins
    rw [hins', Option.map_some, Option.map_some, hsettles.block_eq]
  | none =>
    cases hins' : g'.instr? i with
    | none => rfl
    | some ins' =>
      obtain ⟨ins, hins'', -⟩ := h.exists_instr hins'
      rw [hins] at hins''
      cases hins''

theorem standIn?_eq (h : Settles g g') (i : InstrId) : g'.standIn? i = g.standIn? i := by
  rw [standIn?, standIn?]
  cases hins : g.instr? i with
  | none =>
    have : g'.instr? i = none := by
      rw [← Option.not_isSome_iff_eq_none, instr?_isSome_iff, h.nextId_eq,
        ← instr?_isSome_iff, hins]
      simp
    rw [this]
  | some ins =>
    obtain ⟨ins', hins', hsettles⟩ := h.instr i ins hins
    rw [hins']
    exact hsettles.standIn_eq

/-- The kind of an instruction stays. -/
theorem any_eq (h : g.Settles g') {p : Operation → Bool}
    (hp : ∀ {ins ins'}, SettlesInstr g.liveOf ins ins' → p ins'.op = p ins.op) (i : InstrId) :
    (g'.op? i).any p = (g.op? i).any p := by
  cases hins : g.instr? i with
  | some ins =>
    obtain ⟨ins', hins', hsettles⟩ := h.instr i ins hins
    rw [op?, op?, hins, hins']
    exact hp hsettles
  | none =>
    cases hins' : g'.instr? i with
    | none => rw [op?, op?, hins, hins']
    | some ins' =>
      obtain ⟨ins, hins₁, -⟩ := h.exists_instr hins'
      rw [hins] at hins₁
      cases hins₁

theorem isPhi_eq (h : g.Settles g') (i : InstrId) : g'.isPhi i = g.isPhi i := by
  rw [Graph.isPhi_eq, Graph.isPhi_eq]
  exact h.any_eq (fun h => h.isPhi_eq) i

theorem isBranch_eq (h : g.Settles g') (i : InstrId) : g'.isBranch i = g.isBranch i := by
  rw [Graph.isBranch_eq, Graph.isBranch_eq]
  exact h.any_eq (fun h => h.isBranch_eq) i

end Settles

/-- A landing depends on what the blocks list and where they fall through to, and on nothing
else. -/
theorem landingWithin_mapBlocks {g g' : Graph} {f : Block → Block}
    (hblock : ∀ b, g'.block? b = (g.block? b).map f)
    (hf : ∀ blk, (f blk).instrs = blk.instrs ∧ (f blk).fallTo = blk.fallTo) (fuel : Nat)
    (blk : Block) : g'.landingWithin fuel (f blk) = g.landingWithin fuel blk := by
  induction fuel generalizing blk with
  | zero => rfl
  | succ fuel ih =>
    obtain ⟨hinstrs, hfall⟩ := hf blk
    rw [landingWithin, landingWithin, Block.first?, hinstrs, hfall, Block.first?]
    cases hd : blk.fallTo with
    | none => rfl
    | some d =>
      rw [Option.bind_some, Option.bind_some, hblock]
      cases g.block? d with
      | none => rfl
      | some next =>
        rw [Option.map_some]
        simp only [ih]

theorem landing_mapBlocks {g g' : Graph} {f : Block → Block}
    (hsize : g'.blocks.size = g.blocks.size) (hblock : ∀ b, g'.block? b = (g.block? b).map f)
    (hf : ∀ blk, (f blk).instrs = blk.instrs ∧ (f blk).fallTo = blk.fallTo)
    {b : BlockId} {j : InstrId} (h : g.landing b = .ok j) : g'.landing b = .ok j := by
  cases hblk : g.block b with
  | error e =>
    simp only [landing, hblk, bind, Except.bind] at h
    cases h
  | ok blk =>
    have hblk' : g'.block b = .ok (f blk) := by
      rw [block_eq_ok_iff, hblock, block_eq_ok_iff.1 hblk]
      rfl
    rw [← h]
    simp only [landing, hblk, hblk', bind, Except.bind, landing?, hsize,
      landingWithin_mapBlocks hblock hf]

/-! ## Passes over all instructions -/

/-- A pass over a list stops where it stops at an element. -/
theorem exists_of_mapM_error {α β : Type} {f : α → Except Fault β} {xs : List α} {e : Fault}
    (h : xs.mapM f = .error e) : ∃ x ∈ xs, f x = .error e := by
  induction xs with
  | nil => cases h
  | cons x xs ih =>
    rw [List.mapM_cons] at h
    cases hx : f x with
    | error e' =>
      rw [hx] at h
      cases h
      exact ⟨x, by simp, hx⟩
    | ok y =>
      rw [hx] at h
      cases hxs : xs.mapM f with
      | error e' =>
        rw [hxs] at h
        cases h
        obtain ⟨x', hx', he⟩ := ih hxs
        exact ⟨x', List.mem_cons_of_mem _ hx', he⟩
      | ok ys =>
        rw [hxs] at h
        cases h

/-- A pass that stops nowhere gives a result for each element. -/
theorem forall₂_of_mapM {α β : Type} {f : α → Except Fault β} {xs : List α} {ys : List β}
    (h : xs.mapM f = .ok ys) : List.Forall₂ (fun x y => f x = .ok y) xs ys := by
  induction xs generalizing ys with
  | nil =>
    cases h
    exact .nil
  | cons x xs ih =>
    rw [List.mapM_cons] at h
    obtain ⟨y, hy, h⟩ := bind_eq_ok_iff.1 h
    obtain ⟨ys', hys, h⟩ := bind_eq_ok_iff.1 h
    cases h
    exact .cons hy (ih hys)

theorem forM_eq_ok {α : Type} {f : α → Except Fault Unit} {xs : List α}
    (h : ∀ x ∈ xs, f x = .ok ()) : xs.forM f = .ok () := by
  induction xs with
  | nil => rfl
  | cons x xs ih =>
    change (f x >>= fun _ => xs.forM f) = .ok ()
    rw [h x (by simp)]
    exact ih fun x' hx' => h x' (List.mem_cons_of_mem _ hx')

/-- Where every chain of stand-ins ends, no instruction stops the first pass. -/
theorem forM_requireRoot {g : Graph} (h : ∀ i, ∃ r, g.HasRoot i r) :
    g.instrs.toList.forM g.requireRoot = .ok () := by
  refine forM_eq_ok fun ins _ => ?_
  obtain ⟨r, hr⟩ := h ins.id
  rw [requireRoot, hr.root?_eq]
  rfl

/-! ## The second pass -/

/-- A branch target still names the same block. -/
theorem Names.targetBlock_eq {g : Graph} {t : Target} {b b' : BlockId} (h : g.Names t b)
    (hb' : g.withRoots.targetBlock t = .ok b') : b' = b := by
  cases t with
  | startOf c =>
    cases hb'
    exact h
  | instr j =>
    obtain ⟨ins, hins, hret⟩ := bind_eq_ok_iff.1 hb'
    cases hret
    rw [instr_eq_ok_iff, instr?_withRoots] at hins
    obtain ⟨ins₀, hins₀, rfl⟩ := Option.map_eq_some_iff.1 hins
    rw [Names, home?, hins₀] at h
    exact Option.some.inj h

/-- What becomes of an instruction. -/
theorem settles_of_aimed {g : Graph} {ins ins' : Instr}
    (h : g.withRoots.aimed (ins.mapOp (·.mapValues g.liveOf)) = .ok ins') :
    SettlesInstr g.liveOf ins ins' ∧
      ∀ cond t b, ins.op = .branch cond (some t) → g.Names t b →
        ∃ j, g.withRoots.landing b = .ok j ∧ ins'.op = .branch cond (some (.instr j)) := by
  rw [aimed] at h
  split at h
  · rename_i cond target hmapped
    have hbranch : ins.op = .branch cond target := Operation.mapValues_eq_branch_iff.1 hmapped
    obtain ⟨t, ht, h⟩ := bind_eq_ok_iff.1 h
    obtain ⟨b, hb, h⟩ := bind_eq_ok_iff.1 h
    obtain ⟨j, hj, h⟩ := bind_eq_ok_iff.1 h
    cases h
    rw [expect_eq_ok_iff] at ht
    subst ht
    refine ⟨⟨rfl, rfl, rfl, fun hnot => ?_, fun cond' t' hop => ?_⟩,
      fun cond' t' b' hop hnames => ?_⟩
    · rw [hbranch] at hnot
      cases hnot
    · rw [hbranch] at hop
      cases hop
      exact ⟨j, rfl⟩
    · rw [hbranch] at hop
      cases hop
      exact ⟨j, hnames.targetBlock_eq hb ▸ hj, rfl⟩
  · rename_i hnot
    cases h
    have hother : ∀ cond t, ins.op ≠ .branch cond t := fun cond t hop =>
      hnot cond t (Operation.mapValues_eq_branch_iff.2 hop)
    exact ⟨⟨rfl, rfl, rfl, fun _ => rfl, fun cond t hop => absurd hop (hother cond t)⟩,
      fun cond t b hop => absurd hop (hother cond (some t))⟩

/-- A target names the same block before the first pass. -/
theorem names_of_targetBlock {g : Graph} {t : Target} {b : BlockId}
    (h : g.withRoots.targetBlock t = .ok b) : g.Names t b := by
  cases t with
  | startOf c =>
    cases h
    rfl
  | instr j =>
    obtain ⟨ins, hins, hret⟩ := bind_eq_ok_iff.1 h
    cases hret
    rw [instr_eq_ok_iff, instr?_withRoots] at hins
    obtain ⟨ins₀, hins₀, rfl⟩ := Option.map_eq_some_iff.1 hins
    rw [Names, home?, hins₀]
    rfl

/-- A branch that has been aimed had a target before. -/
theorem names_of_aimed {g : Graph} {ins ins' : Instr} {c : Cond} {target : Option Target}
    (h : g.withRoots.aimed (ins.mapOp (·.mapValues g.liveOf)) = .ok ins')
    (hop : ins.op = .branch c target) : ∃ t b, target = some t ∧ g.Names t b := by
  have hmapped : (ins.mapOp (·.mapValues g.liveOf)).op = .branch c target :=
    Operation.mapValues_eq_branch_iff.2 hop
  simp only [aimed, hmapped] at h
  obtain ⟨t, ht, h⟩ := bind_eq_ok_iff.1 h
  obtain ⟨b, hb, -⟩ := bind_eq_ok_iff.1 h
  exact ⟨t, b, expect_eq_ok_iff.1 ht, names_of_targetBlock hb⟩

/-- The second pass leaves blocks alone, but for what waits for them. -/
theorem block?_of_withLandings {g g' : Graph} (h : g.withRoots.withLandings = .ok g')
    (b : BlockId) :
    g'.block? b = (g.withRoots.block? b).map fun blk => { blk with awaited := false } := by
  obtain ⟨ys, -, h⟩ := bind_eq_ok_iff.1 h
  cases h
  rw [block?_mapBlocks]
  rfl

/-- What the second pass makes of an instruction. -/
theorem aimed_of_withLandings {g g' : Graph} (h : g.withRoots.withLandings = .ok g') {i : InstrId}
    {ins : Instr} (hins : g.instr? i = some ins) :
    ∃ ins', g.withRoots.aimed (ins.mapOp (·.mapValues g.liveOf)) = .ok ins' ∧
      g'.instr? i = some ins' := by
  obtain ⟨ys, hys, h⟩ := bind_eq_ok_iff.1 h
  cases h
  have hall := forall₂_of_mapM hys
  cases i with
  | zero => cases hins
  | succ k =>
    have hk : g.withRoots.instrs.toList[k]? = some (ins.mapOp (·.mapValues g.liveOf)) := by
      have := instr?_withRoots g (k + 1)
      rw [hins] at this
      rw [Array.getElem?_toList]
      exact this
    obtain ⟨hlt, hget⟩ := List.getElem?_eq_some_iff.1 hk
    have hlt' : k < ys.length := hall.length_eq ▸ hlt
    have hrel := hall.get hlt hlt'
    rw [List.get_eq_getElem, List.get_eq_getElem, hget] at hrel
    refine ⟨ys[k], hrel, ?_⟩
    rw [instr?_mapBlocks]
    change ys.toArray[k]? = some ys[k]
    rw [List.getElem?_toArray, List.getElem?_eq_getElem hlt']

/-- The second pass keeps the numbers of instructions and blocks. -/
theorem sizes_of_withLandings {g g' : Graph} (h : g.withRoots.withLandings = .ok g') :
    g'.nextId = g.withRoots.nextId ∧ g'.blocks.size = g.withRoots.blocks.size := by
  obtain ⟨ys, hys, h⟩ := bind_eq_ok_iff.1 h
  cases h
  refine ⟨?_, Array.size_map⟩
  change ys.toArray.size + 1 = g.withRoots.instrs.size + 1
  rw [List.size_toArray, ← (forall₂_of_mapM hys).length_eq, Array.length_toList]

/-- Nothing else is offered after both passes. -/
theorem offered_of_withLandings {g g' : Graph} (h : g.withRoots.withLandings = .ok g')
    (b : BlockId) : g'.offered b = g.offered b := by
  rw [offered, block?_of_withLandings h, block?_withRoots, offered]
  cases g.block? b <;> rfl

/-- **What settling does**, wherever it does not stop. -/
theorem settles_of_withLandings {g g' : Graph} (h : g.withRoots.withLandings = .ok g') :
    g.Settles g' := by
  have hblock := block?_of_withLandings h
  obtain ⟨hid, hsize⟩ := sizes_of_withLandings h
  refine {
    skeleton := (sameSkeleton_withRoots g).trans fun b => ?_
    nextId_eq := hid.trans (nextId_withRoots g)
    instr := fun i ins hins => ?_
    listed_eq := fun b => ?_
    binding_eq := fun b x => ?_
    awaited_eq := fun b blk hblk => ?_
    landing := fun i cond t b hop hnames => ?_ }
  · rw [skeleton?, hblock, Option.map_map, skeleton?]
    rfl
  · obtain ⟨ins', haimed, hins'⟩ := aimed_of_withLandings h hins
    exact ⟨ins', hins', (settles_of_aimed haimed).1⟩
  · rw [← listed_withRoots, listed, hblock, Option.map_map, listed]
    rfl
  · rw [← binding_withRoots, binding, hblock, Option.bind_map, binding]
    rfl
  · rw [hblock] at hblk
    obtain ⟨blk₀, -, rfl⟩ := Option.map_eq_some_iff.1 hblk
    rfl
  · obtain ⟨ins, hins, hop'⟩ := Option.map_eq_some_iff.1 hop
    obtain ⟨ins', haimed, hins'⟩ := aimed_of_withLandings h hins
    obtain ⟨j, hj, hbranch⟩ := (settles_of_aimed haimed).2 cond t b hop' hnames
    refine ⟨j, landing_mapBlocks hsize hblock (fun _ => ⟨rfl, rfl⟩) hj, ?_⟩
    rw [op?, hins', Option.map_some, hbranch]

/-- The second pass follows no stand-ins. -/
theorem aimed_ne_standInCycle (g : Graph) (ins : Instr) (i : InstrId) :
    g.aimed ins ≠ .error (.standInCycle i) := by
  intro h
  rw [aimed] at h
  split at h
  · rcases bind_eq_error_iff.1 h with h | ⟨t, -, h⟩
    · cases (expect_eq_error_iff.1 h).2
    · rcases bind_eq_error_iff.1 h with h | ⟨b, -, h⟩
      · cases t with
        | startOf b => cases h
        | instr j =>
          rcases bind_eq_error_iff.1 h with h | ⟨ins', -, h⟩
          · cases (expect_eq_error_iff.1 h).2
          · cases h
      · rcases bind_eq_error_iff.1 h with h | ⟨j, -, h⟩
        · rcases bind_eq_error_iff.1 h with h | ⟨blk, -, h⟩
          · cases (expect_eq_error_iff.1 h).2
          · cases (expect_eq_error_iff.1 h).2
        · cases h
  · cases h

end Graph

namespace Body

variable {u u' : Body}

theorem withLandings_of_settle (h : u.settle = .ok u') : ∃ g,
    u.graph.withRoots.withLandings = .ok g ∧ u' = { u with graph := g, isSettled := true } := by
  obtain ⟨-, -, h⟩ := bind_eq_ok_iff.1 h
  obtain ⟨-, -, h⟩ := bind_eq_ok_iff.1 h
  obtain ⟨g, hg, h⟩ := bind_eq_ok_iff.1 h
  exact ⟨g, hg, (Except.ok.inj h).symm⟩

/-- **What settling a body does**, wherever it does not stop. -/
theorem settles_of_settle (h : u.settle = .ok u') :
    ∃ g, u.graph.Settles g ∧ u' = { u with graph := g, isSettled := true } := by
  obtain ⟨g, hg, rfl⟩ := withLandings_of_settle h
  exact ⟨g, Graph.settles_of_withLandings hg, rfl⟩

/-- Where every chain of stand-ins ends, settling does not stop because one does not. -/
theorem settle_ne_standInCycle (h : ∀ i, ∃ r, u.graph.HasRoot i r) (i : InstrId) :
    u.settle ≠ .error (.standInCycle i) := by
  intro hsettle
  rcases bind_eq_error_iff.1 hsettle with hopen | ⟨-, -, hsettle⟩
  · cases (require_eq_error_iff.1 hopen).2
  · rcases bind_eq_error_iff.1 hsettle with hcycle | ⟨-, -, hsettle⟩
    · rw [Graph.forM_requireRoot h] at hcycle
      cases hcycle
    · rcases bind_eq_error_iff.1 hsettle with hland | ⟨g, -, hsettle⟩
      · rcases bind_eq_error_iff.1 hland with hland | ⟨ys, -, hland⟩
        · obtain ⟨ins, -, haimed⟩ := Graph.exists_of_mapM_error hland
          exact Graph.aimed_ne_standInCycle _ ins i haimed
        · cases hland
      · cases hsettle

end Body
end StructuredSSA
