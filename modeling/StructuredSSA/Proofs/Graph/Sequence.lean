import Mathlib.Data.List.Nodup
import StructuredSSA.Proofs.Graph.Develop

/-!
# The sequences of blocks

Instructions are numbered in the order in which they are added, and each is listed by the block it
lives in.  A block lists them in the order of their numbers, except that the phis of a loop header
come ahead of everything else.  Adding a phi there has to find its place among what is listed: it
looks for the end of the leading phis, and that is right because no phi is listed behind.

## What is here

* `Graph.PhisFirst`, `Graph.InOrder` — the order in which a block lists instructions.
* `Graph.Sequenced` — which instructions it lists.
* `Graph.Sequenced.nodup` — nothing is listed twice.
* `Graph.Sequenced.develops` — a graph stays so as it develops.
-/

set_option autoImplicit false

namespace StructuredSSA
namespace Graph

/-- First phis and then other instructions, both in the order in which they were added. -/
structure PhisFirst (g : Graph) (phis rest : List InstrId) : Prop where
  isPhi : ∀ i ∈ phis, g.isPhi i = true
  not_isPhi : ∀ i ∈ rest, g.isPhi i = false
  phis_lt : phis.Pairwise (· < ·)
  rest_lt : rest.Pairwise (· < ·)

/-- The order in which `b` lists instructions. -/
structure InOrder (g : Graph) (b : BlockId) : Prop where
  header : g.hasRole b .loopHead = true →
    ∃ phis rest, g.listed b = phis ++ rest ∧ g.PhisFirst phis rest
  plain : g.hasRole b .loopHead = false → (g.listed b).Pairwise (· < ·)

variable {g g' : Graph} {b : BlockId} {phis rest : List InstrId} {n : InstrId}

/-! ## Adding to a list -/

theorem pairwise_concat {l : List InstrId} (h : l.Pairwise (· < ·)) (hlt : ∀ i ∈ l, i < n) :
    (l ++ [n]).Pairwise (· < ·) := by
  refine List.pairwise_append.2 ⟨h, List.pairwise_singleton _ _, fun i hi j hj => ?_⟩
  rw [List.mem_singleton.1 hj]
  exact hlt i hi

namespace PhisFirst

theorem congr (h : g.PhisFirst phis rest) (hphi : ∀ i ∈ phis ++ rest, g'.isPhi i = g.isPhi i) :
    g'.PhisFirst phis rest where
  isPhi i hi := (hphi i (List.mem_append_left _ hi)).trans (h.isPhi i hi)
  not_isPhi i hi := (hphi i (List.mem_append_right _ hi)).trans (h.not_isPhi i hi)
  phis_lt := h.phis_lt
  rest_lt := h.rest_lt

theorem addPhi (h : g.PhisFirst phis rest) (hn : g.isPhi n = true) (hlt : ∀ i ∈ phis, i < n) :
    g.PhisFirst (phis ++ [n]) rest := by
  refine ⟨fun i hi => ?_, h.not_isPhi, pairwise_concat h.phis_lt hlt, h.rest_lt⟩
  rcases List.mem_append.1 hi with hi | hi
  · exact h.isPhi i hi
  · rwa [List.mem_singleton.1 hi]

theorem addOther (h : g.PhisFirst phis rest) (hn : g.isPhi n = false) (hlt : ∀ i ∈ rest, i < n) :
    g.PhisFirst phis (rest ++ [n]) := by
  refine ⟨h.isPhi, fun i hi => ?_, h.phis_lt, pairwise_concat h.rest_lt hlt⟩
  rcases List.mem_append.1 hi with hi | hi
  · exact h.not_isPhi i hi
  · rwa [List.mem_singleton.1 hi]

theorem filter (h : g.PhisFirst phis rest) (p : InstrId → Bool) :
    g.PhisFirst (phis.filter p) (rest.filter p) where
  isPhi i hi := h.isPhi i (List.mem_of_mem_filter hi)
  not_isPhi i hi := h.not_isPhi i (List.mem_of_mem_filter hi)
  phis_lt := h.phis_lt.filter p
  rest_lt := h.rest_lt.filter p

/-- The leading phis are all of them, so what is put behind them stands ahead of the rest. -/
theorem takeWhile_eq (h : g.PhisFirst phis rest) : (phis ++ rest).takeWhile g.isPhi = phis := by
  rw [List.takeWhile_append_of_pos h.isPhi]
  cases rest with
  | nil => simp
  | cons i rest => rw [List.takeWhile_cons_of_neg (by simp [h.not_isPhi i]), List.append_nil]

theorem dropWhile_eq (h : g.PhisFirst phis rest) : (phis ++ rest).dropWhile g.isPhi = rest := by
  rw [List.dropWhile_append_of_pos h.isPhi]
  cases rest with
  | nil => rfl
  | cons i rest => rw [List.dropWhile_cons_of_neg (by simp [h.not_isPhi i])]

theorem nodup (h : g.PhisFirst phis rest) : (phis ++ rest).Nodup := by
  refine List.nodup_append.2 ⟨h.phis_lt.imp Nat.ne_of_lt, h.rest_lt.imp Nat.ne_of_lt, ?_⟩
  rintro i hi j hj rfl
  have := h.isPhi i hi
  rw [h.not_isPhi i hj] at this
  cases this

end PhisFirst

/-! ## The order of a block -/

namespace InOrder

theorem of_empty (h : g.listed b = []) : g.InOrder b where
  header _ := ⟨[], [], h, by simp, by simp, .nil, .nil⟩
  plain _ := by
    rw [h]
    exact .nil

theorem congr (o : g.InOrder b) (hrole : g'.hasRole b .loopHead = g.hasRole b .loopHead)
    (hlisted : g'.listed b = g.listed b) (hphi : ∀ i ∈ g.listed b, g'.isPhi i = g.isPhi i) :
    g'.InOrder b where
  header h := by
    obtain ⟨phis, rest, hsplit, hfirst⟩ := o.header (hrole ▸ h)
    exact ⟨phis, rest, hlisted.trans hsplit, hfirst.congr (hsplit ▸ hphi)⟩
  plain h := hlisted ▸ o.plain (hrole ▸ h)

theorem nodup (o : g.InOrder b) : (g.listed b).Nodup := by
  cases hrole : g.hasRole b .loopHead with
  | true =>
    obtain ⟨phis, rest, hsplit, hfirst⟩ := o.header hrole
    rw [hsplit]
    exact hfirst.nodup
  | false => exact (o.plain hrole).imp Nat.ne_of_lt

theorem filter (o : g.InOrder b) (hrole : g'.hasRole b .loopHead = g.hasRole b .loopHead)
    {p : InstrId → Bool} (hlisted : g'.listed b = (g.listed b).filter p)
    (hphi : ∀ i, g'.isPhi i = g.isPhi i) : g'.InOrder b where
  header h := by
    obtain ⟨phis, rest, hsplit, hfirst⟩ := o.header (hrole ▸ h)
    refine ⟨phis.filter p, rest.filter p, ?_, (hfirst.filter p).congr fun i _ => hphi i⟩
    rw [hlisted, hsplit, List.filter_append]
  plain h := by
    rw [hlisted]
    exact (o.plain (hrole ▸ h)).filter p

theorem place {op : Operation} (h : Places g b op g') (o : g.InOrder b)
    (hlt : ∀ i ∈ g.listed b, i < g.nextId) : g'.InOrder b := by
  have hold : ∀ i ∈ g.listed b, g'.isPhi i = g.isPhi i := fun i hi =>
    h.isPhi_old (Nat.ne_of_lt (hlt i hi))
  have hnew : g'.isPhi g.nextId = op.isPhi := by
    rw [isPhi_eq, h.op?_new]
    rfl
  have hlisted : g'.listed b = g.listedWith b g.nextId op := by rw [h.listed_eq, if_pos rfl]
  rw [listedWith] at hlisted
  refine ⟨fun hrole => ?_, fun hrole => ?_⟩
  · rw [h.skeleton.hasRole_eq] at hrole
    obtain ⟨phis, rest, hsplit, hfirst⟩ := o.header hrole
    rw [hsplit] at hold hlt hlisted
    rw [hrole, Bool.and_true, hfirst.takeWhile_eq, hfirst.dropWhile_eq] at hlisted
    have hfirst' := hfirst.congr hold
    cases hphi : op.isPhi with
    | true =>
      rw [hphi, if_pos rfl] at hlisted
      refine ⟨phis ++ [g.nextId], rest, by simp [hlisted], ?_⟩
      exact hfirst'.addPhi (hnew.trans hphi) fun i hi => hlt i (List.mem_append_left _ hi)
    | false =>
      rw [hphi, if_neg (by simp)] at hlisted
      refine ⟨phis, rest ++ [g.nextId], by simp [hlisted], ?_⟩
      exact hfirst'.addOther (hnew.trans hphi) fun i hi => hlt i (List.mem_append_right _ hi)
  · rw [h.skeleton.hasRole_eq] at hrole
    rw [hrole, Bool.and_false, if_neg (by simp)] at hlisted
    rw [hlisted]
    exact pairwise_concat (o.plain hrole) hlt

end InOrder

/-! ## What blocks list -/

/-- **Blocks and instructions are in step**: every block lists, in order, the instructions that live
in it, but for those that are `gone`. -/
structure Sequenced (gone : InstrId → Prop) (g : Graph) : Prop where
  id_eq : ∀ i ins, g.instr? i = some ins → ins.id = i
  mem_listed : ∀ b i, i ∈ g.listed b ↔ g.home? i = some b ∧ ¬ gone i
  lt_of_gone : ∀ i, gone i → i < g.nextId
  inOrder : ∀ b, g.InOrder b

namespace Sequenced

variable {gone gone' : InstrId → Prop}

theorem congr (s : g.Sequenced gone) (h : ∀ i, gone' i ↔ gone i) : g.Sequenced gone' where
  id_eq := s.id_eq
  mem_listed b i := by rw [s.mem_listed, h]
  lt_of_gone i hi := s.lt_of_gone i ((h i).1 hi)
  inOrder := s.inOrder

theorem lt_of_listed (s : g.Sequenced gone) {i : InstrId} (hi : i ∈ g.listed b) : i < g.nextId :=
  lt_nextId_of_home? ((s.mem_listed b i).1 hi).1

theorem wires (s : g.Sequenced gone) (h : Wires g g') : g'.Sequenced gone := by
  have hinstr := h.sameStock.instr?_eq
  refine ⟨fun i ins hins => s.id_eq i ins (by rw [← hinstr, hins]), fun b i => ?_, fun i hi => ?_,
    fun b => ?_⟩
  · rw [h.sameStock.listed_eq, s.mem_listed, home?, home?, hinstr]
  · rw [nextId, h.sameStock.instrs_eq]
    exact s.lt_of_gone i hi
  · rcases h.loopHead_cases b with hrole | hempty
    · refine (s.inOrder b).congr hrole (h.sameStock.listed_eq b) fun i _ => ?_
      rw [isPhi, isPhi, hinstr]
    · exact .of_empty ((h.sameStock.listed_eq b).trans hempty)

theorem reworks (s : g.Sequenced gone) (h : Reworks g g') : g'.Sequenced gone := by
  refine ⟨fun i ins' hins' => ?_, fun b i => ?_, fun i hi => ?_, fun b => ?_⟩
  · obtain ⟨ins, hins, hkeeps⟩ := h.keeps.exists_instr h.nextId_eq hins'
    exact hkeeps.id_eq.trans (s.id_eq i ins hins)
  · rw [h.listed_eq, s.mem_listed, h.keeps.home?_eq h.nextId_eq]
  · rw [h.nextId_eq]
    exact s.lt_of_gone i hi
  · exact (s.inOrder b).congr (h.skeleton.hasRole_eq b _) (h.listed_eq b) fun i _ => h.isPhi_eq i

theorem places (s : g.Sequenced gone) {op : Operation} (h : Places g b op g') :
    g'.Sequenced gone := by
  refine ⟨fun i ins' hins' => ?_, fun c i => ?_, fun i hi => ?_, fun c => ?_⟩
  · by_cases hi : i = g.nextId
    · rw [hi, h.instr?_new] at hins'
      cases hins'
      exact hi.symm
    · rcases h.instr?_old i hi with heq | ⟨ins, ins₁, hins, hins₁, c, hop, rfl⟩
      · exact s.id_eq i ins' (heq ▸ hins')
      · obtain rfl := Option.some.inj (hins'.symm.trans hins₁)
        exact s.id_eq i ins hins
  · rw [h.mem_listed, s.mem_listed, h.home?_eq]
    by_cases hi : i = g.nextId
    · have hhome : g.home? g.nextId = none := by
        rw [home?, Places.instr?_nextId]
        rfl
      have hgone : ¬ gone g.nextId := fun hgone => Nat.lt_irrefl _ (s.lt_of_gone _ hgone)
      subst hi
      simp [hhome, hgone, eq_comm]
    · simp [hi]
  · rw [h.nextId_eq]
    exact Nat.lt_succ_of_lt (s.lt_of_gone i hi)
  · by_cases hc : c = b
    · rw [hc]
      exact (s.inOrder b).place h fun i hi => s.lt_of_listed hi
    · refine (s.inOrder c).congr (h.skeleton.hasRole_eq c _) ?_ fun i hi =>
        h.isPhi_old (Nat.ne_of_lt (s.lt_of_listed hi))
      rw [h.listed_eq, if_neg hc]

theorem alters (s : g.Sequenced gone) (h : Alters g g') : g'.Sequenced gone := by
  cases h with
  | wire h => exact s.wires h
  | rework h => exact s.reworks h
  | place h => exact s.places h

theorem develops (s : g.Sequenced gone) (h : Develops g g') : g'.Sequenced gone :=
  h.invariant (fun _ _ halters s => s.alters halters) s

end Sequenced

end Graph
end StructuredSSA
