import StructuredSSA.Proofs.Graph.Contents

/-!
# The phis of a block

Which phis a block holds, and of which variables.  Most changes to a graph leave this alone; placing
a phi adds one to one block, behind the phis that are there.

## What is here

* `Graph.PhiOf`, `Graph.HasPhi` — the phis of a variable that a block lists.
* `Graph.HoldsPhis` — a block with phis of exactly the given variables.
* `Graph.plain` — the other instructions that a block lists.
* `Graph.PhisLead` — the phis of a block come before its other instructions.
* `Graph.SamePhis` — two graphs with the same phis in the same blocks.
* `Graph.Places.phiOf_iff` — what placing a phi does.
-/

set_option autoImplicit false

namespace StructuredSSA

namespace Operation

/-- A phi, both sides of which are read through `x`. -/
def IsPhiOf (op : Operation) (x : Var) : Prop :=
  ∃ l r, op = .binary .phi l r ∧ l.var = some x ∧ r.var = some x

variable {op op' : Operation} {x y : Var}

theorem IsPhiOf.isPhi (h : op.IsPhiOf x) : op.isPhi = true := by
  obtain ⟨l, r, rfl, -⟩ := h
  rfl

theorem IsPhiOf.isBranch (h : op.IsPhiOf x) : op.isBranch = false := by
  obtain ⟨l, r, rfl, -⟩ := h
  rfl

theorem isPhiOf_phi {first second : Option InstrId} : (phi x first second).IsPhiOf y ↔ y = x := by
  constructor
  · rintro ⟨l, r, h, hl, -⟩
    cases h
    exact (Option.some.inj hl).symm
  · rintro rfl
    exact ⟨_, _, rfl, rfl, rfl⟩

theorem IsPhiOf.of_similar (h : Similar op op') (hop : op.IsPhiOf x) : op'.IsPhiOf x := by
  obtain ⟨l, r, rfl, hl, hr⟩ := hop
  have hphi := h.isPhi_eq
  have hvars := h.vars_eq
  cases op' with
  | binary k l' r' =>
    cases k with
    | phi =>
      simp only [operands, List.map_cons, List.map_nil, List.cons.injEq, and_true] at hvars
      exact ⟨l', r', rfl, hvars.1.trans hl, hvars.2.trans hr⟩
    | _ => cases hphi
  | _ => cases hphi

end Operation

namespace Graph

/-- The block `b` lists the phi `i`, both sides of which are read through `x`. -/
def PhiOf (g : Graph) (b : BlockId) (x : Var) (i : InstrId) : Prop :=
  i ∈ g.listed b ∧ ∃ op, g.op? i = some op ∧ op.IsPhiOf x

/-- The block `b` lists a phi of `x`. -/
def HasPhi (g : Graph) (b : BlockId) (x : Var) : Prop := ∃ i, g.PhiOf b x i

/-- The instructions of `b` that are no phis, in order. -/
def plain (g : Graph) (b : BlockId) : List InstrId := (g.listed b).filter fun i => !g.isPhi i

/-- What `b` lists before a phi are phis. -/
def PhisLead (g : Graph) (b : BlockId) : Prop :=
  (g.listed b).Pairwise fun i j => g.isPhi j = true → g.isPhi i = true

/-- The block `b` holds one phi of each of the variables `xs`, and no other phi. -/
structure HoldsPhis (g : Graph) (b : BlockId) (xs : List Var) : Prop where
  one : ∀ x ∈ xs, ∃ i, g.PhiOf b x i ∧ ∀ j, g.PhiOf b x j → j = i
  only : ∀ i ∈ g.listed b, g.isPhi i = true → ∃ x ∈ xs, g.PhiOf b x i

/-- The same phis in the same blocks. -/
def SamePhis (g g' : Graph) : Prop := ∀ b x i, g'.PhiOf b x i ↔ g.PhiOf b x i

variable {g g' g'' : Graph} {b c : BlockId} {x y : Var} {i j : InstrId}

theorem PhiOf.isPhi (h : g.PhiOf b x i) : g.isPhi i = true := by
  obtain ⟨-, op, hop, hx⟩ := h
  rw [isPhi_eq, hop]
  exact hx.isPhi

theorem PhiOf.var_unique (h : g.PhiOf b x i) (h' : g.PhiOf c y i) : x = y := by
  obtain ⟨-, op, hop, l, r, rfl, hl, -⟩ := h
  obtain ⟨-, op', hop', l', r', rfl, hl', -⟩ := h'
  rw [hop] at hop'
  cases hop'
  exact Option.some.inj (hl.symm.trans hl')

/-- Every phi that a block lists is the phi of a variable. -/
theorem Contents.exists_phiOf (hc : Contents g) (hi : i ∈ g.listed b) (hphi : g.isPhi i = true) :
    ∃ x, g.PhiOf b x i := by
  rw [isPhi_eq, Option.any_eq_true] at hphi
  obtain ⟨op, hop, hop'⟩ := hphi
  cases op with
  | binary k l r =>
    cases k with
    | phi =>
      obtain ⟨x, hl, hr⟩ := hc.phi_vars i l r hop
      exact ⟨x, hi, _, hop, l, r, rfl, hl, hr⟩
    | _ => cases hop'
  | _ => cases hop'

theorem not_hasPhi_of_listed_nil (h : g.listed b = []) : ¬ g.HasPhi b x := by
  rintro ⟨i, hi, -⟩
  rw [h] at hi
  cases hi

theorem listed_eq_nil_of_size_le (h : g.blocks.size ≤ b) : g.listed b = [] := by
  rw [listed, block?_eq_none_iff.2 h]
  rfl

/-! ## Changes that leave phis alone -/

namespace SamePhis

theorem refl (g : Graph) : SamePhis g g := fun _ _ _ => Iff.rfl

theorem trans (h : SamePhis g g') (h' : SamePhis g' g'') : SamePhis g g'' := fun b x i =>
  (h' b x i).trans (h b x i)

theorem hasPhi_iff (h : SamePhis g g') : g'.HasPhi b x ↔ g.HasPhi b x :=
  exists_congr fun i => h b x i

end SamePhis

theorem SameStock.samePhis (h : SameStock g g') : SamePhis g g' := fun b x i => by
  rw [PhiOf, PhiOf, h.listed_eq, op?, h.instr?_eq, op?]

theorem Rebinds.samePhis (h : Rebinds g b g') : SamePhis g g' := fun c x i => by
  rw [PhiOf, PhiOf, h.listed_eq, h.op?_eq]

theorem SameShape.samePhis (h : SameShape g g') : SamePhis g g' := by
  intro b x i
  rw [PhiOf, PhiOf, h.listed_eq]
  refine and_congr_right fun _ => ⟨?_, ?_⟩
  · rintro ⟨op', hop', hx⟩
    obtain ⟨op, hop, hsim⟩ := h.op?_similar hop'
    exact ⟨op, hop, hx.of_similar hsim.symm⟩
  · rintro ⟨op, hop, hx⟩
    have hsome := h.op?_isSome_eq i
    rw [hop, Option.isSome_some] at hsome
    obtain ⟨op', hop'⟩ := Option.isSome_iff_exists.1 hsome
    obtain ⟨op₀, hop₀, hsim⟩ := h.op?_similar hop'
    rw [hop] at hop₀
    cases hop₀
    exact ⟨op', hop', hx.of_similar hsim⟩

/-! ## A new phi -/

/-- Placing a phi adds it to its block. -/
theorem Places.phiOf_iff (hc : Contents g) {first second : Option InstrId}
    (h : Places g b (.phi x first second) g') :
    g'.PhiOf c y i ↔ g.PhiOf c y i ∨ c = b ∧ y = x ∧ i = g.nextId := by
  have hlt : ∀ {d j}, j ∈ g.listed d → j ≠ g.nextId := fun hj =>
    Nat.ne_of_lt (lt_nextId_of_home? ((hc.mem_listed _ _).1 hj))
  rw [PhiOf, PhiOf, h.mem_listed]
  constructor
  · rintro ⟨hmem | ⟨rfl, rfl⟩, o, ho, hy⟩
    · rcases (h.op?_eq hy.isBranch).1 ho with ⟨heq, -⟩ | ⟨-, ho⟩
      · exact absurd heq (hlt hmem)
      · exact .inl ⟨hmem, o, ho, hy⟩
    · rw [h.op?_new] at ho
      cases ho
      exact .inr ⟨rfl, Operation.isPhiOf_phi.1 hy, rfl⟩
  · rintro (⟨hmem, o, ho, hy⟩ | ⟨rfl, rfl, rfl⟩)
    · exact ⟨.inl hmem, o, (h.op?_eq hy.isBranch).2 (.inr ⟨hlt hmem, ho⟩), hy⟩
    · exact ⟨.inr ⟨rfl, rfl⟩, _, h.op?_new, Operation.isPhiOf_phi.2 rfl⟩

/-! ## Other instructions -/

theorem plain_congr (hl : g'.listed b = g.listed b)
    (hphi : ∀ i ∈ g.listed b, g'.isPhi i = g.isPhi i) : g'.plain b = g.plain b := by
  rw [plain, plain, hl]
  exact List.filter_congr fun _ hi => by rw [hphi _ hi]

theorem Places.isPhi_listed (hc : Contents g) {op : Operation} (h : Places g b op g') :
    ∀ i ∈ g.listed c, g'.isPhi i = g.isPhi i := fun _ hi =>
  h.isPhi_old (Nat.ne_of_lt (lt_nextId_of_home? ((hc.mem_listed _ _).1 hi)))

/-- Placing a phi does not move the other instructions. -/
theorem Places.plain_eq (hc : Contents g) {op : Operation} (h : Places g b op g')
    (hop : op.isPhi = true) (c : BlockId) : g'.plain c = g.plain c := by
  by_cases hcb : c = b
  · subst hcb
    have hnew : g'.isPhi g.nextId = true := by
      rw [isPhi_eq, h.op?_new]
      exact hop
    have hlisted := h.listed_eq c
    rw [if_pos rfl, listedWith] at hlisted
    have hfilter : (g'.listed c).filter (fun i => !g'.isPhi i) =
        (g.listed c).filter (fun i => !g'.isPhi i) := by
      rw [hlisted]
      split
      · rw [List.filter_append, List.filter_cons_of_neg (by simp [hnew]), ← List.filter_append,
          List.takeWhile_append_dropWhile]
      · rw [List.filter_append, List.filter_cons_of_neg (by simp [hnew]), List.filter_nil,
          List.append_nil]
    rw [plain, hfilter]
    exact List.filter_congr fun _ hi => by rw [h.isPhi_listed hc _ hi]
  · exact plain_congr (by rw [h.listed_eq, if_neg hcb]) (h.isPhi_listed hc)

/-! ## The order of instructions -/

theorem PhisLead.congr (hl : g'.listed b = g.listed b)
    (hphi : ∀ i ∈ g.listed b, g'.isPhi i = g.isPhi i) (h : g.PhisLead b) : g'.PhisLead b := by
  rw [PhisLead, hl]
  refine List.Pairwise.imp_of_mem (fun {i j} hi hj hij => ?_) h
  rw [hphi i hi, hphi j hj]
  exact hij

/-- A phi is listed before every other instruction. -/
theorem PhisLead.pair_sublist (h : g.PhisLead b) (hi : i ∈ g.listed b) {j : InstrId}
    (hj : j ∈ g.listed b) (hphi : g.isPhi i = true) (hplain : g.isPhi j = false) :
    [i, j].Sublist (g.listed b) := by
  obtain ⟨before, after, hlisted⟩ := List.append_of_mem hj
  rw [PhisLead, hlisted, List.pairwise_append] at h
  rw [hlisted] at hi ⊢
  rcases List.mem_append.1 hi with hi | hi
  · exact (List.singleton_sublist.2 hi).append (List.singleton_sublist.2 List.mem_cons_self)
  · rcases List.mem_cons.1 hi with rfl | hi
    · rw [hphi] at hplain
      cases hplain
    · have := (List.pairwise_cons.1 h.2.1).1 i hi hphi
      rw [hplain] at this
      cases this

/-- An instruction that is no phi goes to the end. -/
theorem PhisLead.append (hl : g'.listed b = g.listed b ++ [i])
    (hphi : ∀ j ∈ g.listed b, g'.isPhi j = g.isPhi j)
    (hi : g'.isPhi i = true → ∀ j ∈ g.listed b, g.isPhi j = true) (h : g.PhisLead b) :
    g'.PhisLead b := by
  rw [PhisLead, hl, List.pairwise_append]
  refine ⟨?_, List.pairwise_singleton _ _, fun j hj k hk hk' => ?_⟩
  · refine List.Pairwise.imp_of_mem (fun {j k} hj hk hjk => ?_) h
    rw [hphi j hj, hphi k hk]
    exact hjk
  · rw [List.mem_singleton.1 hk] at hk'
    rw [hphi j hj]
    exact hi hk' j hj

/-- **A new phi** goes behind the phis that are there: in a loop header at once, and elsewhere if
there is nothing else. -/
theorem PhisLead.place (hc : Contents g) {first second : Option InstrId}
    (h : Places g b (.phi x first second) g')
    (hb : g.hasRole b .loopHead = true ∨ ∀ i ∈ g.listed b, g.isPhi i = true)
    (hlead : g.PhisLead b) : g'.PhisLead b := by
  have hold : ∀ j ∈ g.listed b, g'.isPhi j = g.isPhi j := fun j hj =>
    h.isPhi_old (Nat.ne_of_lt (lt_nextId_of_home? ((hc.mem_listed _ _).1 hj)))
  have hnew : g'.isPhi g.nextId = true := by
    rw [isPhi_eq, h.op?_new]
    rfl
  have htake : ∀ j ∈ (g.listed b).takeWhile g.isPhi, g'.isPhi j = true := fun j hj => by
    rw [hold j ((List.takeWhile_sublist g.isPhi).subset hj)]
    exact List.all_eq_true.1 List.all_takeWhile j hj
  have hlisted := h.listed_eq b
  rw [if_pos rfl, listedWith, show (Operation.phi x first second).isPhi = true from rfl,
    Bool.true_and] at hlisted
  split at hlisted
  · rename_i hrole
    rw [PhisLead, hlisted, List.pairwise_append]
    have hdrop : ((g.listed b).dropWhile g.isPhi).Sublist (g.listed b) := List.dropWhile_sublist _
    refine ⟨?_, List.pairwise_cons.2 ⟨fun _ _ _ => hnew, ?_⟩, fun j hj _ _ _ => htake j hj⟩
    · exact List.Pairwise.imp_of_mem (fun {j k} hj _ _ _ => htake j hj)
        (hlead.sublist (List.takeWhile_sublist g.isPhi))
    · refine List.Pairwise.imp_of_mem (fun {j k} hj hk hjk => ?_) (hlead.sublist hdrop)
      rw [hold j (hdrop.subset hj), hold k (hdrop.subset hk)]
      exact hjk
  · rename_i hrole
    exact hlead.append hlisted hold fun _ => hb.resolve_left hrole

end Graph
end StructuredSSA
