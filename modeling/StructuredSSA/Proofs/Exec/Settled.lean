import StructuredSSA.Proofs.Body.Retired
import StructuredSSA.Proofs.Exec.UpToDate

/-!
# Executing a settled graph

Settling leaves retired instructions out, and what read them reads their roots instead.  The settled
graph is executed in step with the graph that was settled: a retired instruction takes no step, and
all others do what they did.

The root of an instruction computes the same from the same operands.  So both have the same value
when both are up to date; and when an instruction is read, it is, and so is its root, provided that
the root covers it (`Graph.RootsCover`).  Without this, control may come to the reader without
having passed the root.

## What is here

* `Graph.RootsCover` — sharing respects dominance.
* `Graph.Covered` — what is asked of a graph so that it may be settled.
* `Graph.Covered.values_liveOf` — a root has the value of what it stands for.
* `Machine.Mirrors` — a machine that has the values of the live instructions.
* `Graph.Settles.mirrors`, `Graph.Settles.follows` — the settled graph follows an execution, step by
  step.
-/

set_option autoImplicit false

namespace StructuredSSA

/-! ## Roots -/

namespace Graph

/-- Every retired instruction is covered by its root. -/
def RootsCover (g : Graph) : Prop :=
  ∀ d r, g.isRetired d = true → g.root? d = some r → g.Covers r d

/-- **Roots may be read in the place of retired instructions.** -/
structure Covered (g : Graph) : Prop extends g.Proper where
  matched : g.Matched
  rooted : ∀ i, ∃ r, g.HasRoot i r
  cover : g.RootsCover

variable {g g' : Graph} {b : BlockId} {e : Edge} {i d r : InstrId}
  {rest : List InstrId} {q q' : Point × Machine}

theorem Settles.covers_iff (hs : g.Settles g') : g'.Covers r d ↔ g.Covers r d := by
  simp only [Covers, hs.home?_eq, hs.skeleton.dominates_iff]

/-- **Settling makes no difference** to whether roots cover what they stand for. -/
theorem Settles.rootsCover_iff (hs : g.Settles g') : g'.RootsCover ↔ g.RootsCover := by
  have hroot : ∀ d r, g'.root? d = some r ↔ g.root? d = some r := fun d r => by
    rw [root?_eq_some_iff, root?_eq_some_iff]
    exact ⟨fun h => h.congr fun j => (hs.standIn?_eq j).symm, fun h => h.congr hs.standIn?_eq⟩
  simp only [RootsCover, Graph.isRetired_eq, hs.standIn?_eq, hroot, hs.covers_iff]

/-- Where nothing is retired there is nothing to cover. -/
theorem RootsCover.of_live (hlive : ∀ i, g.standIn? i = none) : g.RootsCover := by
  intro d r hd
  rw [Graph.isRetired_eq, hlive d] at hd
  cases hd

namespace Proper

variable (h : g.Proper)
include h

/-- What covers an instruction that control has passed has been passed, too. -/
theorem passed_of_covers (hcovers : g.Covers r d) (hd : g.isPhi d = false) (hq : g.UpToDate q)
    (hpassed : g.Passed q.1 d) : g.Passed q.1 r := by
  obtain ⟨a, c, ha, hc, hac⟩ := hcovers
  have hdom : g.Dominates Body.head a c := by
    rcases hac with ⟨rfl, -⟩ | ⟨-, hdom⟩
    · exact .refl _ _ _
    · exact hdom
  obtain ⟨p, m⟩ := q
  cases p with
  | entering b e =>
    obtain ⟨c', p, hc', hp, hdom'⟩ := hpassed
    obtain rfl : c = c' := Option.some.inj (hc.symm.trans hc')
    exact ⟨a, p, ha, hp, hdom.trans hdom'⟩
  | inside b rest =>
    obtain ⟨c', hc', hdom', hnot⟩ := hpassed
    obtain rfl : c = c' := Option.some.inj (hc.symm.trans hc')
    refine ⟨a, ha, hdom.trans hdom', fun hmem => ?_⟩
    have hsuffix := hq.inside b rest rfl
    have hmem' := hsuffix.subset hmem
    obtain rfl : a = b :=
      Option.some.inj (ha.symm.trans ((h.contents.mem_listed b r).1 (mem_plain.1 hmem').1))
    rcases hac with ⟨rfl, hlt⟩ | ⟨hne, -⟩
    · -- both are in the block, and what is still to come has larger numbers
      obtain ⟨done, hdone⟩ := hsuffix
      have hordered := (h.inOrder a).pairwise_plain
      have hd' : d ∈ g.plain a := mem_plain.2 ⟨(h.contents.mem_listed a d).2 hc, hd⟩
      rw [← hdone, List.pairwise_append] at hordered
      rw [← hdone, List.mem_append] at hd'
      exact Nat.lt_asymm hlt (hordered.2.2 d (hd'.resolve_right hnot) r hmem)
    · exact hne (hdom.antisymm hdom' (h.connected c (h.contents.home_lt d c hc)))

end Proper

/-- **A root has the value of what it stands for**, when control has passed that. -/
theorem Covered.values_liveOf (h : g.Covered) (hq : g.UpToDate q) (hpassed : g.Passed q.1 d) :
    q.2.values (g.liveOf d) = q.2.values d := by
  obtain ⟨r, hr⟩ := h.rooted d
  rw [hr.liveOf_eq]
  by_cases hlive : g.standIn? d = none
  · cases hr with
    | live => rfl
    | step hstand =>
      rw [hlive] at hstand
      cases hstand
  · obtain ⟨od, ol, hod, hol, harith, hsame⟩ := hr.sameValue h.matched hlive
    obtain ⟨k, l, s, l', s', rfl, rfl, hl, hs⟩ := Operation.sameValue_iff.1 hsame
    cases k with
    | arith op =>
      have hphi : g.isPhi d = false := by rw [isPhi_eq, hod]; rfl
      have hretired : g.isRetired d = true := by
        rw [Graph.isRetired_eq, Option.isSome_iff_ne_none]
        exact hlive
      have hpassed' := h.passed_of_covers (h.cover d r hretired hr.root?_eq) hphi hq hpassed
      rw [hq.values r op l' s' hol hpassed', hq.values d op l s hod hpassed, Machine.outcome,
        Machine.outcome, Machine.read, Machine.read, Machine.read, Machine.read, hl, hs]
    | _ => cases harith

end Graph

/-! ## Machines -/

/-- The machine `m'` is what `m` is but for the values of retired instructions. -/
structure Machine.Mirrors (g : Graph) (m m' : Machine) : Prop where
  compared_eq : m'.compared = m.compared
  taken_eq : m'.taken = m.taken
  written_eq : m'.written = m.written
  values_eq : ∀ i, g.standIn? i = none → m'.values i = m.values i

namespace Machine.Mirrors

variable {g g' : Graph} {input : Nat → Int64} {m m' n : Machine} {i : InstrId} {ins ins' : Instr}
  {flow : Flow}

theorem refl (g : Graph) (m : Machine) : m.Mirrors g m := ⟨rfl, rfl, rfl, fun _ _ => rfl⟩

theorem set (h : m.Mirrors g m') (i : InstrId) (v : Int64) :
    (m.set i v).Mirrors g (m'.set i v) where
  compared_eq := h.compared_eq
  taken_eq := h.taken_eq
  written_eq := h.written_eq
  values_eq j hj := by
    change (if j = i then _ else _) = if j = i then _ else _
    rw [h.values_eq j hj]

/-- A retired instruction is executed. -/
theorem setRetired (h : m.Mirrors g m') (hi : g.standIn? i ≠ none) (v : Int64) :
    (m.set i v).Mirrors g m' where
  compared_eq := h.compared_eq
  taken_eq := h.taken_eq
  written_eq := h.written_eq
  values_eq j hj := by
    rw [h.values_eq j hj]
    refine (if_neg ?_).symm
    rintro rfl
    exact hi hj

/-- **An instruction does what it did** when its operands have the values that they had. -/
theorem step (h : m.Mirrors g m') (hs : Graph.SettlesInstr g.liveOf ins ins')
    (hreads : ∀ o ∈ ins.op.operands, m'.read (o.mapValue g.liveOf) = m.read o)
    (hstep : m.step input ins = some (n, flow)) :
    ∃ n', m'.step input ins' = some (n', flow) ∧ n.Mirrors g n' := by
  have hid := hs.id_eq
  have hop' : ∀ {op}, ins.op = op → op.isBranch = false →
      ins'.op = op.mapOperands (·.mapValue g.liveOf) := by
    rintro op rfl hbranch
    exact hs.op_eq hbranch
  have hread : ∀ {op o a}, ins.op = op → o ∈ op.operands → m.read o = some a →
      m'.read (o.mapValue g.liveOf) = some a := by
    rintro op o a rfl ho ha
    rw [hreads o ho, ha]
  have hset : ∀ i v, i = ins.id → (m.set ins.id v).Mirrors g (m'.set i v) := by
    rintro i v rfl
    exact h.set ins.id v
  cases does_of_step hstep with
  | const hop => exact ⟨_, (Does.const (hop' hop rfl)).step_eq, hset _ _ hid⟩
  | neg hop ha =>
    have ha' := hread hop (by simp [Operation.operands]) ha
    exact ⟨_, (Does.neg (hop' hop rfl) ha').step_eq, hset _ _ hid⟩
  | @write o a hop ha =>
    have ha' := hread hop (by simp [Operation.operands]) ha
    refine ⟨_, (Does.write (hop' hop rfl) ha').step_eq, h.compared_eq, h.taken_eq, ?_, h.values_eq⟩
    exact congrArg (a :: ·) h.written_eq
  | arith hop ha hb =>
    have ha' := hread hop (by simp [Operation.operands]) ha
    have hb' := hread hop (by simp [Operation.operands]) hb
    exact ⟨_, (Does.arith (hop' hop rfl) ha' hb').step_eq, hset _ _ hid⟩
  | cmp hop ha hb =>
    have ha' := hread hop (by simp [Operation.operands]) ha
    have hb' := hread hop (by simp [Operation.operands]) hb
    exact ⟨_, (Does.cmp (hop' hop rfl) ha' hb').step_eq, rfl, h.taken_eq, h.written_eq,
      h.values_eq⟩
  | jump hop =>
    obtain ⟨j, hj⟩ := hs.branch _ _ hop
    exact ⟨_, (Does.jump hj).step_eq, h⟩
  | test hop hcompared hflow =>
    obtain ⟨j, hj⟩ := hs.branch _ _ hop
    exact ⟨_, (Does.test hj (h.compared_eq.trans hcompared) hflow).step_eq, h⟩
  | move hop ha =>
    have ha' := hread hop (by simp [Operation.operands]) ha
    exact ⟨_, (Does.move (hop' hop rfl) ha').step_eq, hset _ _ hid⟩
  | read hop =>
    have hset' := hset _ (input m'.taken) hid
    rw [h.taken_eq] at hset'
    refine ⟨_, (Does.read (hop' hop rfl)).step_eq, h.compared_eq, ?_, h.written_eq, ?_⟩
    · exact congrArg (· + 1) h.taken_eq
    · exact h.taken_eq ▸ hset'.values_eq
  | newline hop => exact ⟨_, (Does.newline (hop' hop rfl)).step_eq, h⟩
  | halt hop => exact ⟨_, (Does.halt (hop' hop rfl)).step_eq, h⟩

/-- **The phis of a block do what they did.** -/
theorem selectPhis (h : m.Mirrors g m') (hc : g.Contents) (hs : g.Settles g') {first : Bool}
    {side : Side} (hside : first = true ↔ side = .first) {is : List InstrId}
    (hphis : ∀ i ∈ is, g.isPhi i = true)
    (hreads : ∀ i ∈ is, ∀ d, g.Selects i side d → m'.values (g.liveOf d) = m.values d)
    (hselect : m.selectPhis first (is.filterMap g.instr?) = some n) :
    ∃ n', m'.selectPhis first (is.filterMap g'.instr?) = some n' ∧ n.Mirrors g n' := by
  induction is generalizing n with
  | nil =>
    cases hselect
    exact ⟨m', rfl, h⟩
  | cons i is ih =>
    obtain ⟨hphi, hphis⟩ := List.forall_mem_cons.1 hphis
    obtain ⟨hread, hreads⟩ := List.forall_mem_cons.1 hreads
    obtain ⟨x, l, r, hop⟩ := hc.exists_phi hphi
    obtain ⟨ins, hins, hinsop⟩ := Option.map_eq_some_iff.1 hop
    obtain ⟨ins', hins', hsettles⟩ := hs.instr i ins hins
    have hop' : ins'.op = .phi x (l.map g.liveOf) (r.map g.liveOf) := by
      rw [hsettles.op_eq (by rw [hinsop]; rfl), hinsop]
      rfl
    rw [List.filterMap_cons_some hins, Machine.selectPhis] at hselect
    obtain ⟨later, hlater, hselect⟩ := Option.bind_eq_some_iff.1 hselect
    obtain ⟨later', hlater', hmirrors⟩ := ih hphis hreads hlater
    have hselected : m'.read (if first = true then .through x (l.map g.liveOf) else
        .through x (r.map g.liveOf)) =
        m.read (if first = true then .through x l else .through x r) := by
      have hone : ∀ v : Option InstrId, (∀ d, v = some d → m'.values (g.liveOf d) = m.values d) →
          m'.read (.through x (v.map g.liveOf)) = m.read (.through x v) := by
        intro v hv
        cases v with
        | none => rfl
        | some d => exact hv d rfl
      have hoperand := fun d hd => hread d ⟨_, Graph.phiOperand?_phi hop side, hd⟩
      cases first with
      | true =>
        obtain rfl : side = .first := hside.1 rfl
        exact hone l hoperand
      | false =>
        cases side with
        | first => exact absurd (hside.2 rfl) Bool.false_ne_true
        | second => exact hone r hoperand
    simp only [hinsop, Operation.phi] at hselect
    obtain ⟨v, hv, hselect⟩ := Option.bind_eq_some_iff.1 hselect
    cases hselect
    refine ⟨later'.set i v, ?_, hc.id_eq i ins hins ▸ hmirrors.set ins.id v⟩
    rw [List.filterMap_cons_some hins', Machine.selectPhis, hlater']
    simp only [hop', Operation.phi, hselected, hv, hsettles.id_eq, hc.id_eq i ins hins,
      Option.bind_eq_bind, Option.bind_some, Option.pure_def]

end Machine.Mirrors

/-! ## Executions -/

namespace Graph

/-- The point in the settled graph: retired instructions are not to come. -/
def settledPoint (g : Graph) : Point → Point
  | .inside b rest => .inside b (rest.filter fun i => !g.isRetired i)
  | .entering b e => .entering b e

/-- What is read in the place of an instruction that control has passed has its value. -/
theorem Covered.values_mirrored {g : Graph} (h : g.Covered) {q : Point × Machine}
    (hq : g.UpToDate q) {m' : Machine} (hm : q.2.Mirrors g m') {d : InstrId}
    (hd : g.Passed q.1 d) : m'.values (g.liveOf d) = q.2.values d := by
  obtain ⟨r, hr⟩ := h.rooted d
  rw [hm.values_eq _ (hr.liveOf_eq ▸ hr.standIn?_root), h.values_liveOf hq hd]

/-- Only arithmetic is retired. -/
theorem Matched.exists_arith {g : Graph} (h : g.Matched) {i : InstrId}
    (hi : g.isRetired i = true) : ∃ op l r, g.op? i = some (.binary (.arith op) l r) := by
  rw [Graph.isRetired_eq] at hi
  obtain ⟨e, he⟩ := Option.isSome_iff_exists.1 hi
  obtain ⟨op, -, hop, -, harith, -⟩ := h i e he
  cases op with
  | binary k l r =>
    cases k with
    | arith op => exact ⟨op, l, r, hop⟩
    | _ => cases harith
  | _ => cases harith

namespace Settles

variable {g g' : Graph} {input : Nat → Int64} {b : BlockId} {e : Edge} {i : InstrId}
  {rest : List InstrId} {ins : Instr} {flow : Flow} {m n m' : Machine} (hs : g.Settles g')
  (h : g.Covered)

include hs in
theorem plain_eq (b : BlockId) : g'.plain b = (g.plain b).filter fun i => !g.isRetired i := by
  simp only [plain, hs.listed_eq, hs.isPhi_eq, List.filter_filter, Bool.and_comm]

include hs h

/-- The next instruction does what it did. -/
theorem exists_step (hq : g.UpToDate (.inside b (i :: rest), m)) (hm : m.Mirrors g m')
    (hins : g.instr? i = some ins) (hstep : m.step input ins = some (n, flow)) : ∃ ins' n',
    g'.instr? i = some ins' ∧ m'.step input ins' = some (n', flow) ∧ n.Mirrors g n' := by
  obtain ⟨ins', hins', hsettles⟩ := hs.instr i ins hins
  have hop : g.op? i = some ins.op := by rw [op?, hins, Option.map_some]
  have hreads : ∀ o ∈ ins.op.operands, m'.read (o.mapValue g.liveOf) = m.read o := by
    intro o ho
    rw [Machine.read, Machine.read, Operand.mapValue]
    cases hv : o.value with
    | none => rfl
    | some d =>
      have hphi : g.isPhi i = false :=
        (mem_plain.1 ((hq.inside b _ rfl).subset List.mem_cons_self)).2
      rw [Graph.isPhi_eq, hop, Option.any_some] at hphi
      exact h.values_mirrored hq hm
        (h.passed_of_reads (hq.inside b _ rfl) ⟨_, o, hop, hphi, ho, hv⟩)
  obtain ⟨n', hn', hmirrors⟩ := hm.step hsettles hreads hstep
  exact ⟨ins', n', hins', hn', hmirrors⟩

/-- The phis of the next block do what they did. -/
theorem mirrors_enter (hq : g.UpToDate (.entering b e, m)) (hm : m.Mirrors g m') {blk : Block}
    (hblk : g.block? b = some blk) (hphis : m.selectPhis (arrivesFirst blk e)
      ((blk.instrs.filterMap g.instr?).filter (·.op.isPhi)) = some n) :
    ∃ n', g'.Moves input (.entering b e, m') (.inside b (g'.plain b), n') ∧ n.Mirrors g n' := by
  have hskel := hs.skeleton b
  rw [skeleton?, skeleton?, hblk] at hskel
  obtain ⟨blk', hblk', heq⟩ := Option.map_eq_some_iff.1 hskel
  have hfirst : arrivesFirst blk'.skeleton e = arrivesFirst blk.skeleton e := by rw [heq]
  change arrivesFirst blk' e = arrivesFirst blk e at hfirst
  have hlisted : g.listed b = blk.instrs := by simp [listed, hblk]
  have hlisted' : blk'.instrs = blk.instrs.filter fun i => !g.isRetired i := by
    have := hs.listed_eq b
    rwa [listed, listed, hblk, hblk'] at this
  rw [filterMap_instr?_filter g blk.instrs fun op => op.isPhi] at hphis
  have hside : arrivesFirst blk e = true ↔
      (if arrivesFirst blk e then Side.first else .second) = .first := by
    cases arrivesFirst blk e <;> simp
  have hmem : ∀ i ∈ blk.instrs.filter (fun i => (g.op? i).any Operation.isPhi),
      i ∈ g.listed b ∧ g.isPhi i = true := fun i hi => by
    rw [hlisted, Graph.isPhi_eq]
    exact List.mem_filter.1 hi
  have hsame : blk'.instrs.filter (fun i => (g'.op? i).any Operation.isPhi) =
      blk.instrs.filter fun i => (g.op? i).any Operation.isPhi := by
    simp only [hs.any_eq fun hi => hi.isPhi_eq, hlisted', List.filter_filter]
    refine List.filter_congr fun i _ => Bool.and_eq_left_iff_imp.2 fun hphi => ?_
    rw [Bool.not_eq_true']
    exact h.matched.isRetired_of_phi (Graph.isPhi_eq g i ▸ hphi)
  obtain ⟨n', hn', hmirrors⟩ := hm.selectPhis h.contents hs hside (fun i hi => (hmem i hi).2)
    (fun i hi d hd => h.values_mirrored hq hm
      (h.passed_of_selects hblk hside (hmem i hi).1 (hmem i hi).2 hd)) hphis
  refine ⟨n', .enter hblk' ?_, hmirrors⟩
  rw [hfirst, filterMap_instr?_filter g' blk'.instrs fun op => op.isPhi, hsame]
  exact hn'

/-- **The settled graph follows a step** of the graph that was settled. -/
theorem mirrors {q q' : Point × Machine} (hq : g.UpToDate q) (hm : q.2.Mirrors g m')
    (hmoves : g.Moves input q q') :
    ∃ n', g'.Goes input (g.settledPoint q.1, m') (g.settledPoint q'.1, n') ∧
      q'.2.Mirrors g n' := by
  cases hmoves with
  | @enter b e blk m n hblk hphis =>
    obtain ⟨n', hmoves, hmirrors⟩ := hs.mirrors_enter h hq hm hblk hphis
    refine ⟨n', .single ?_, hmirrors⟩
    rw [settledPoint, settledPoint, ← hs.plain_eq]
    exact hmoves
  | @exec b i rest ins m n hins hstep =>
    cases hi : g.isRetired i with
    | false =>
      obtain ⟨ins', n', hins', hn', hmirrors⟩ :=
        hs.exists_step h hq hm hins hstep
      refine ⟨n', .single ?_, hmirrors⟩
      simp only [settledPoint, List.filter_cons, hi, Bool.not_false, if_true]
      exact .exec hins' hn'
    | true =>
      -- nothing is executed
      obtain ⟨op, l, r, hop⟩ := h.matched.exists_arith hi
      rw [op?, hins, Option.map_some, Option.some.injEq] at hop
      simp only [Machine.step, hop, Option.bind_eq_bind, Option.bind_eq_some_iff, Option.pure_def,
        Option.some.injEq, Prod.mk.injEq] at hstep
      obtain ⟨a, -, a', -, rfl, -⟩ := hstep
      refine ⟨m', ?_, hm.setRetired ?_ _⟩
      · simp only [settledPoint, List.filter_cons, hi, Bool.not_true, Bool.false_eq_true, if_false]
        exact .refl
      · rw [h.contents.id_eq i ins hins, ← Option.isSome_iff_ne_none, ← Graph.isRetired_eq]
        exact hi
  | fall hnext =>
    exact ⟨m', .single (.fall ((hs.skeleton.next_eq _ _).trans hnext)), hm⟩
  | @branch b c i rest ins m n hins hstep hnext =>
    obtain ⟨ins', n', hins', hn', hmirrors⟩ :=
      hs.exists_step h hq hm hins hstep
    obtain ⟨-, cond, target, hop⟩ := Machine.eq_of_step_branch hstep
    have hop' : g.op? i = some (.branch cond target) := by rw [op?, hins, Option.map_some, hop]
    have hi := h.matched.isRetired_eq_false hop' rfl
    refine ⟨n', .single ?_, hmirrors⟩
    simp only [settledPoint, List.filter_cons, hi, Bool.not_false, if_true]
    exact .branch hins' hn' ((hs.skeleton.next_eq _ _).trans hnext)

/-- **The settled graph follows an execution** of the graph that was settled. -/
theorem follows {p q : Point × Machine} (hp : g.UpToDate p) (hm : p.2.Mirrors g m')
    (hgoes : g.Goes input p q) : ∃ n', g'.Goes input (g.settledPoint p.1, m')
      (g.settledPoint q.1, n') ∧ q.2.Mirrors g n' := by
  induction hgoes with
  | refl => exact ⟨m', .refl, hm⟩
  | tail hgoes hmoves ih =>
    obtain ⟨n₁, hgoes₁, hm₁⟩ := ih
    obtain ⟨n₂, hgoes₂, hm₂⟩ := hs.mirrors h (h.goes hp hgoes) hm₁ hmoves
    exact ⟨n₂, hgoes₁.trans hgoes₂, hm₂⟩

end Settles
end Graph
end StructuredSSA
