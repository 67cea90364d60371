import StructuredSSA.Proofs.Body.Steered
import StructuredSSA.Proofs.Exec.Moves
import StructuredSSA.Proofs.Graph.Sequence
import StructuredSSA.Proofs.Source.Defined

/-!
# Values that are up to date

An instruction that is not computed again must still have the right value: the one that its operands
would give it now.  In a loop this is not a matter of course, since the operands may have been
computed again in the meantime.

It holds because definitions dominate uses.  Say that control has passed an instruction if it cannot
have come to where it is without executing it.  An instruction that control has passed does not read
what is executed next: it would have to come behind it, and control would have come there without
passing it.  So executing something changes no operand of what control has passed, and the values of
all of this are up to date at all times.

## What is here

* `Machine.Does` — what an instruction does, one case for each operation.
* `Graph.Proper` — what is asked of a graph.
* `Graph.Passed` — control has passed an instruction.
* `Graph.UpToDate` — the invariant, and `Graph.Proper.moves`, `Graph.Proper.goes` that it is one.
* `Graph.Proper.passed_of_reads`, `Graph.Proper.passed_of_selects` — control has passed what is read
  next.
-/

set_option autoImplicit false

namespace StructuredSSA

/-! ## Machines -/

namespace Machine

variable {input : Nat → Int64} {m m' : Machine} {ins : Instr} {flow : Flow}

/-- The value that the operands give an arithmetic instruction. -/
def outcome (m : Machine) (op : ArithOp) (l r : Operand) : Option Int64 := do
  let a ← m.read l
  let b ← m.read r
  return op.eval a b

/-- **What an instruction does** when it is executed. -/
inductive Does (input : Nat → Int64) (m : Machine) (ins : Instr) : Machine → Flow → Prop where
  | const {v : Int64} (hop : ins.op = .const v) : Does input m ins (m.set ins.id v) .onward
  | neg {o : Operand} {a : Int64} (hop : ins.op = .unary .neg o) (ha : m.read o = some a) :
      Does input m ins (m.set ins.id (-a)) .onward
  | write {o : Operand} {a : Int64} (hop : ins.op = .unary .write o) (ha : m.read o = some a) :
      Does input m ins { m with written := a :: m.written } .onward
  | arith {op : ArithOp} {l r : Operand} {a b : Int64} (hop : ins.op = .binary (.arith op) l r)
      (ha : m.read l = some a) (hb : m.read r = some b) :
      Does input m ins (m.set ins.id (op.eval a b)) .onward
  | cmp {l r : Operand} {a b : Int64} (hop : ins.op = .binary .cmp l r) (ha : m.read l = some a)
      (hb : m.read r = some b) : Does input m ins { m with compared := some (a, b) } .onward
  | jump {t : Option Target} (hop : ins.op = .branch .always t) : Does input m ins m .branch
  | test {rel : Relation} {t : Option Target} {a b : Int64} {flow : Flow}
      (hop : ins.op = .branch (.whenever rel) t) (hcompared : m.compared = some (a, b))
      (hflow : flow = if rel.holds a b then .branch else .onward) : Does input m ins m flow
  | move {o : Operand} {r : Nat} {a : Int64} (hop : ins.op = .move o r) (ha : m.read o = some a) :
      Does input m ins (m.set ins.id a) .onward
  | read (hop : ins.op = .read) :
      Does input m ins { m.set ins.id (input m.taken) with taken := m.taken + 1 } .onward
  | newline (hop : ins.op = .newline) : Does input m ins m .onward
  | halt (hop : ins.op = .halt) : Does input m ins m .stop

theorem Does.step_eq (h : m.Does input ins m' flow) : m.step input ins = some (m', flow) := by
  cases h with
  | const hop | jump hop | read hop | newline hop | halt hop => simp only [step, hop]
  | neg hop ha | write hop ha | move hop ha => simp [step, hop, ha]
  | arith hop ha hb | cmp hop ha hb => simp [step, hop, ha, hb]
  | test hop hcompared hflow => simp [step, hop, hcompared, hflow]

/-- An instruction that is executed does what its operation says. -/
theorem does_of_step (h : m.step input ins = some (m', flow)) : m.Does input ins m' flow := by
  cases hop : ins.op with
  | const =>
    simp only [step, hop, Option.some.injEq, Prod.mk.injEq] at h
    obtain ⟨rfl, rfl⟩ := h
    exact .const hop
  | unary op =>
    cases op <;> simp only [step, hop, Option.bind_eq_bind, Option.bind_eq_some_iff,
      Option.pure_def, Option.some.injEq, Prod.mk.injEq, reduceCtorEq] at h
    case neg =>
      obtain ⟨a, ha, rfl, rfl⟩ := h
      exact .neg hop ha
    case write =>
      obtain ⟨a, ha, rfl, rfl⟩ := h
      exact .write hop ha
  | binary op =>
    cases op <;> simp only [step, hop, Option.bind_eq_bind, Option.bind_eq_some_iff,
      Option.pure_def, Option.some.injEq, Prod.mk.injEq, reduceCtorEq] at h
    case arith =>
      obtain ⟨a, ha, b, hb, rfl, rfl⟩ := h
      exact .arith hop ha hb
    case cmp =>
      obtain ⟨a, ha, b, hb, rfl, rfl⟩ := h
      exact .cmp hop ha hb
  | branch c =>
    cases c <;> simp only [step, hop, Option.bind_eq_bind, Option.bind_eq_some_iff,
      Option.pure_def, Option.some.injEq, Prod.mk.injEq] at h
    case always =>
      obtain ⟨rfl, rfl⟩ := h
      exact .jump hop
    case whenever =>
      obtain ⟨r, hr, rfl, rfl⟩ := h
      exact .test hop hr rfl
  | move =>
    simp only [step, hop, Option.bind_eq_bind, Option.bind_eq_some_iff, Option.pure_def,
      Option.some.injEq, Prod.mk.injEq] at h
    obtain ⟨a, ha, rfl, rfl⟩ := h
    exact .move hop ha
  | read =>
    simp only [step, hop, Option.some.injEq, Prod.mk.injEq] at h
    obtain ⟨rfl, rfl⟩ := h
    exact .read hop
  | newline =>
    simp only [step, hop, Option.some.injEq, Prod.mk.injEq] at h
    obtain ⟨rfl, rfl⟩ := h
    exact .newline hop
  | halt =>
    simp only [step, hop, Option.some.injEq, Prod.mk.injEq] at h
    obtain ⟨rfl, rfl⟩ := h
    exact .halt hop
  | call | argument => simp only [step, hop, reduceCtorEq] at h

/-- An instruction gives a value to itself only. -/
theorem values_of_step (h : m.step input ins = some (m', flow)) {i : InstrId} (hi : i ≠ ins.id) :
    m'.values i = m.values i := by
  cases does_of_step h with
  | const | neg | arith | move | read => exact if_neg hi
  | write | cmp | jump | test | newline | halt => rfl

/-- An arithmetic instruction gets the value that its operands give it. -/
theorem values_of_step_arith (h : m.step input ins = some (m', flow)) {op : ArithOp}
    {l r : Operand} (hop : ins.op = .binary (.arith op) l r) :
    m'.values ins.id = m.outcome op l r := by
  cases does_of_step h <;> simp_all [outcome, set]

/-- Only branches are taken, and they change nothing. -/
theorem eq_of_step_branch (h : m.step input ins = some (m', .branch)) :
    m' = m ∧ ∃ c t, ins.op = .branch c t := by
  cases does_of_step h with
  | jump hop | test hop => exact ⟨rfl, _, _, hop⟩

/-- Phis give values to themselves only. -/
theorem values_of_selectPhis {first : Bool} {is : List Instr} (h : m.selectPhis first is = some m')
    {i : InstrId} (hi : ∀ ins ∈ is, i ≠ ins.id) : m'.values i = m.values i := by
  induction is generalizing m' with
  | nil =>
    cases h
    rfl
  | cons ins is ih =>
    obtain ⟨hne, hrest⟩ := List.forall_mem_cons.1 hi
    obtain ⟨later, hlater, h⟩ := Option.bind_eq_some_iff.1 h
    split at h
    · obtain ⟨a, -, h⟩ := Option.bind_eq_some_iff.1 h
      cases h
      exact (if_neg hne).trans (ih hlater hrest)
    · cases h

end Machine

namespace Graph

/-! ## What control has passed -/

/-- What is asked of a graph: that it is in order, and definitions dominate uses. -/
structure Proper (g : Graph) : Prop where
  contents : g.Contents
  linked : g.Linked
  connected : g.Connected
  inOrder : ∀ b, g.InOrder b
  last : ∀ b i c t, g.BranchAt b i c t → ∃ is, g.listed b = is ++ [i] ∧ i ∉ is
  defs : g.DefsDominate

/-- Control cannot have come to the point without executing the instruction. -/
def Passed (g : Graph) : Point → InstrId → Prop
  | .inside b rest, i => ∃ a, g.home? i = some a ∧ g.Dominates Body.head a b ∧ i ∉ rest
  | .entering b e, i => ∃ a p, g.home? i = some a ∧ g.next e p = some b ∧
    g.Dominates Body.head a p

/-- **The values of what control has passed are up to date.** -/
structure UpToDate (g : Graph) (q : Point × Machine) : Prop where
  inside : ∀ b rest, q.1 = .inside b rest → rest <:+ g.plain b
  entering : ∀ b e, q.1 = .entering b e → b = Body.head ∨ ∃ p, g.next e p = some b
  values : ∀ i op l r, g.op? i = some (.binary (.arith op) l r) → g.Passed q.1 i →
    q.2.values i = q.2.outcome op l r

variable {g : Graph} {b : BlockId} {e : Edge} {i j d : InstrId} {rest : List InstrId}

theorem mem_plain : i ∈ g.plain b ↔ i ∈ g.listed b ∧ g.isPhi i = false := by
  rw [plain, List.mem_filter, Bool.not_eq_true']

/-- The instructions of a block other than phis are in order. -/
theorem InOrder.pairwise_plain (o : g.InOrder b) : (g.plain b).Pairwise (· < ·) := by
  cases hrole : g.hasRole b .loopHead with
  | false => exact (o.plain hrole).filter _
  | true =>
    obtain ⟨phis, rest, hsplit, hfirst⟩ := o.header hrole
    have hphis : phis.filter (fun i => !g.isPhi i) = [] :=
      List.filter_eq_nil_iff.2 fun i hi => by simp [hfirst.isPhi i hi]
    rw [Graph.plain, hsplit, List.filter_append, hphis, List.nil_append]
    exact hfirst.rest_lt.filter _

/-- Where no operand gets another value, the operands give the same value. -/
theorem outcome_eq {m m' : Machine} {op : ArithOp} {l r : Operand}
    (hop : g.op? i = some (.binary (.arith op) l r))
    (hvalues : ∀ d, g.Reads i d → m'.values d = m.values d) :
    m'.outcome op l r = m.outcome op l r := by
  have hread : ∀ o ∈ [l, r], m'.read o = m.read o := by
    intro o ho
    rw [Machine.read, Machine.read]
    cases hv : o.value with
    | none => rfl
    | some d => exact hvalues d ⟨_, o, hop, rfl, ho, hv⟩
  rw [Machine.outcome, Machine.outcome, hread l (by simp), hread r (by simp)]

namespace Proper

variable (h : g.Proper)
include h

/-- What is read in a dominating block is read within one block. -/
theorem reads_within {a : BlockId} (hreads : g.Reads i d) (ha : g.home? i = some a)
    (hb : g.home? d = some b) (hdom : g.Dominates Body.head a b) :
    a = b ∧ [d, i].Sublist (g.listed b) := by
  rcases h.defs.plain a i d ((h.contents.mem_listed a i).2 ha) hreads with
    hsub | ⟨c, hne, hc, hdom'⟩
  · have hd : d ∈ g.listed a := hsub.subset List.mem_cons_self
    obtain rfl : a = b := Option.some.inj (((h.contents.mem_listed a d).1 hd).symm.trans hb)
    exact ⟨rfl, hsub⟩
  · obtain rfl : c = b := Option.some.inj (((h.contents.mem_listed c d).1 hc).symm.trans hb)
    exact absurd (hdom'.antisymm hdom (h.connected a (h.contents.home_lt i a ha))) hne

/-- Nothing that is still to come in a block is listed before something that is not. -/
theorem not_sublist (hd : d ∉ rest) (hj : j ∈ rest) (hrest : rest <:+ g.plain b)
    (hphi : g.isPhi d = false) : ¬ [j, d].Sublist (g.listed b) := by
  intro hsub
  obtain ⟨hj', -⟩ := mem_plain.1 (hrest.subset hj)
  have hplain : [j, d].Sublist (g.plain b) := by
    have := hsub.filter fun i => !g.isPhi i
    rwa [List.filter_cons_of_pos (by simpa using (mem_plain.1 (hrest.subset hj)).2),
      List.filter_cons_of_pos (by simpa using hphi), List.filter_nil] at this
  obtain ⟨done, hdone⟩ := hrest
  have hordered := (h.inOrder b).pairwise_plain
  have hlt : j < d := List.pairwise_pair.1 (hordered.sublist hplain)
  have hmem : d ∈ done ++ rest := hdone ▸ hplain.subset (by simp)
  rw [← hdone, List.pairwise_append] at hordered
  exact Nat.lt_asymm hlt (hordered.2.2 d ((List.mem_append.1 hmem).resolve_right hd) j hj)

/-- **What control has passed does not read what is executed next.** -/
theorem not_reads_of_passed (hrest : j :: rest <:+ g.plain b)
    (hpassed : g.Passed (.inside b rest) i) : ¬ g.Reads i j := by
  intro hreads
  obtain ⟨a, ha, hdom, hi⟩ := hpassed
  have hj := mem_plain.1 (hrest.subset List.mem_cons_self)
  obtain ⟨rfl, hsub⟩ := h.reads_within hreads ha ((h.contents.mem_listed b j).1 hj.1) hdom
  have hphi : g.isPhi i = false := by
    obtain ⟨op, o, hop, hphi, -⟩ := hreads
    rw [isPhi_eq, hop, Option.any_some, hphi]
  by_cases heq : i = j
  · subst heq
    exact absurd (hsub.nodup (h.inOrder a).nodup) (by simp)
  · exact h.not_sublist (by simp [heq, hi]) List.mem_cons_self hrest hphi hsub

/-- Control has passed what the next instruction reads. -/
theorem passed_of_reads (hrest : i :: rest <:+ g.plain b) (hreads : g.Reads i d) :
    g.Passed (.inside b (i :: rest)) d := by
  have hi := mem_plain.1 (hrest.subset List.mem_cons_self)
  have hhome : ∀ j ∈ i :: rest, g.home? j = some b := fun j hj =>
    (h.contents.mem_listed b j).1 (mem_plain.1 (hrest.subset hj)).1
  rcases h.defs.plain b i d hi.1 hreads with hsub | ⟨a, hne, ha, hdom⟩
  · refine ⟨b, (h.contents.mem_listed b d).1 (hsub.subset List.mem_cons_self), .refl _ _ _,
      fun hd => ?_⟩
    rcases List.mem_cons.1 hd with rfl | hd
    · exact absurd (hsub.nodup (h.inOrder b).nodup) (by simp)
    · obtain ⟨done, hdone⟩ := hrest
      have hordered := (h.inOrder b).pairwise_plain
      rw [← hdone] at hordered
      have hnot : i ∉ rest := fun hmem => Nat.lt_irrefl _
        ((List.pairwise_cons.1 (List.pairwise_append.1 hordered).2.1).1 i hmem)
      exact h.not_sublist hnot hd (.trans (List.suffix_cons i rest) ⟨done, hdone⟩) hi.2 hsub
  · have ha' := (h.contents.mem_listed a d).1 ha
    exact ⟨a, ha', hdom, fun hd => hne (Option.some.inj (ha'.symm.trans (hhome d hd)))⟩

/-- Control has passed what the phis behind an edge select. -/
theorem passed_of_selects {blk : Block} (hblk : g.block? b = some blk) {side : Side}
    (hside : arrivesFirst blk e = true ↔ side = .first) (hi : i ∈ g.listed b)
    (hphi : g.isPhi i = true) (hselects : g.Selects i side d) : g.Passed (.entering b e) d := by
  obtain ⟨q, hq, hknown⟩ := h.defs.phi b i side hi hphi
  obtain ⟨a, ha, hdom⟩ := hknown d hselects
  obtain ⟨e', hside', hprev⟩ := (entry_eq_some_iff hblk side).1 hq
  obtain rfl : e' = e := by
    have heq : arrivesFirst blk e' = arrivesFirst blk e := by
      rw [Bool.eq_iff_iff, hside', hside]
    rw [arrivesFirst, arrivesFirst] at heq
    cases e <;> cases e' <;> first | rfl | (split at heq <;> [skip; split at heq] <;> cases heq)
  exact ⟨a, q, (h.contents.mem_listed a d).1 ha, (h.linked e' q b).2 hprev, hdom⟩

/-! ## Moves -/

variable {input : Nat → Int64} {q q' : Point × Machine}

/-- The phis of a block are executed. -/
theorem enter {m m' : Machine} {blk : Block} (hq : g.UpToDate (.entering b e, m))
    (hblk : g.block? b = some blk) {first : Bool}
    (hphis : m.selectPhis first ((blk.instrs.filterMap g.instr?).filter (·.op.isPhi)) = some m') :
    g.UpToDate (.inside b (g.plain b), m') where
  inside b' rest heq := by
    cases heq
    exact List.suffix_refl _
  entering b' e' heq := nomatch heq
  values i op l r hop hpassed := by
    have hkept : ∀ j, (g.home? j = some b → g.isPhi j = false) → m'.values j = m.values j := by
      refine fun j hj => Machine.values_of_selectPhis hphis fun ins hins heq => ?_
      obtain ⟨hins, hphi⟩ := List.mem_filter.1 hins
      obtain ⟨k, hk, hins⟩ := List.mem_filterMap.1 hins
      have hid := h.contents.id_eq k ins hins
      have hlisted : k ∈ g.listed b := by simpa [listed, hblk] using hk
      have := hj (heq ▸ hid ▸ (h.contents.mem_listed b k).1 hlisted)
      rw [heq, hid, isPhi_eq, op?, hins, Option.map_some, Option.any_some, hphi] at this
      cases this
    obtain ⟨a, ha, hdom, hi⟩ := hpassed
    have harith : g.isPhi i = false := by rw [isPhi_eq, hop]; rfl
    have hne : a ≠ b := by
      rintro rfl
      exact hi (mem_plain.2 ⟨(h.contents.mem_listed a i).2 ha, harith⟩)
    rcases hq.entering b e rfl with rfl | ⟨p, hp⟩
    · exact absurd (List.mem_singleton.1 (hdom _ .here)) hne
    · refine (hkept i fun _ => harith).trans ?_
      rw [hq.values i op l r hop ⟨a, p, ha, hp, hdom.of_succ hne (succ_iff.2 ⟨e, hp⟩)⟩]
      refine (outcome_eq hop fun d hd => hkept d fun hd' => ?_).symm
      exact absurd (h.reads_within hd ha hd' hdom).1 hne

/-- An instruction is executed. -/
theorem exec {m m' : Machine} {ins : Instr} {flow : Flow}
    (hq : g.UpToDate (.inside b (j :: rest), m)) (hins : g.instr? j = some ins)
    (hstep : m.step input ins = some (m', flow)) : g.UpToDate (.inside b rest, m') where
  inside b' rest' heq := by
    cases heq
    exact .trans (List.suffix_cons j rest) (hq.inside b _ rfl)
  entering b' e' heq := nomatch heq
  values i op l r hop hpassed := by
    have hid := h.contents.id_eq j ins hins
    have hnot := h.not_reads_of_passed (hq.inside b _ rfl) hpassed
    have hkept : m'.outcome op l r = m.outcome op l r := outcome_eq hop fun d hd =>
      Machine.values_of_step hstep fun heq => hnot (hid ▸ heq ▸ hd)
    rw [hkept]
    by_cases heq : i = j
    · subst heq
      have hop' : ins.op = .binary (.arith op) l r := by
        rw [op?, hins] at hop
        exact Option.some.inj hop
      rw [← Machine.values_of_step_arith hstep hop', hid]
    · obtain ⟨a, ha, hdom, hi⟩ := hpassed
      exact (Machine.values_of_step hstep (hid ▸ heq)).trans
        (hq.values i op l r hop ⟨a, ha, hdom, by simp [heq, hi]⟩)

/-- Control leaves a block. -/
theorem leave {m : Machine} (hq : g.UpToDate (.inside b rest, m))
    (hrest : ∀ i ∈ rest, ∀ op, g.op? i = some op → op.arith? = none)
    (hnext : g.next e b = some d) : g.UpToDate (.entering d e, m) where
  inside b' rest' heq := nomatch heq
  entering b' e' heq := by
    cases heq
    exact .inr ⟨b, hnext⟩
  values i op l r hop hpassed := by
    obtain ⟨a, p, ha, hp, hdom⟩ := hpassed
    obtain rfl : p = b :=
      Option.some.inj (((h.linked e p d).1 hp).symm.trans ((h.linked e b d).1 hnext))
    refine hq.values i op l r hop ⟨a, ha, hdom, fun hi => ?_⟩
    have := hrest i hi _ hop
    cases this

/-- **Values stay up to date** when control moves on. -/
theorem moves (hq : g.UpToDate q) (hmoves : g.Moves input q q') : g.UpToDate q' := by
  cases hmoves with
  | enter hblk hphis => exact h.enter hq hblk hphis
  | exec hins hstep => exact h.exec hq hins hstep
  | fall hnext => exact h.leave hq (fun i hi => absurd hi List.not_mem_nil) hnext
  | @branch b c i rest ins m m' hins hstep hnext =>
    obtain ⟨rfl, cond, target, hop⟩ := Machine.eq_of_step_branch hstep
    refine h.leave hq (fun j hj op hj' => ?_) hnext
    have hi : g.op? i = some (.branch cond target) := by rw [op?, hins, Option.map_some, hop]
    have hplain := mem_plain.1 ((hq.inside b _ rfl).subset List.mem_cons_self)
    obtain ⟨is, his, hnot⟩ := h.last b i cond target ⟨(h.contents.mem_listed b i).1 hplain.1, hi⟩
    -- the branch is the last instruction of its block
    have hrest : rest = [] := by
      refine List.eq_nil_iff_forall_not_mem.2 fun k hk => ?_
      obtain ⟨done, hdone⟩ := hq.inside b _ rfl
      have hordered := (h.inOrder b).pairwise_plain
      have hik : i < k := by
        rw [← hdone, List.pairwise_append] at hordered
        exact (List.pairwise_cons.1 hordered.2.1).1 k hk
      have hmem : k ∈ g.plain b := hdone ▸ List.mem_append_right _ (List.mem_cons_of_mem i hk)
      rw [Graph.plain, his, List.filter_append, List.filter_singleton, hplain.2] at hordered hmem
      rcases List.mem_append.1 hmem with hmem | hmem
      · exact Nat.lt_asymm hik ((List.pairwise_append.1 hordered).2.2 k hmem i (by simp))
      · exact Nat.ne_of_gt hik (by simpa using hmem)
    rw [hrest, List.mem_singleton] at hj
    subst hj
    rw [hi] at hj'
    cases hj'
    rfl

theorem goes (hq : g.UpToDate q) (hgoes : g.Goes input q q') : g.UpToDate q' := by
  induction hgoes with
  | refl => exact hq
  | tail _ hmoves ih => exact h.moves ih hmoves

end Proper

/-- At the beginning nothing has a value. -/
theorem UpToDate.start (g : Graph) : g.UpToDate (.entering Body.head .fall, {}) where
  inside b rest heq := nomatch heq
  entering b e heq := by
    cases heq
    exact .inl rfl
  values i op l r _ _ := by
    have hread : ∀ o, ({} : Machine).read o = none := fun o => by
      rw [Machine.read]
      cases o.value <;> rfl
    rw [Machine.outcome, hread l]
    rfl

end Graph
end StructuredSSA
