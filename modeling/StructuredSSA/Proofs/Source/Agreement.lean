import Mathlib.Algebra.Ring.Int.Defs
import StructuredSSA.Proofs.Body.Defined
import StructuredSSA.Proofs.Body.Drift
import StructuredSSA.Proofs.Source.Sharing

/-!
# When phis agree with their predecessors

The phis of a construct agree with the blocks that lead to them when it is closed.  The only thing
that can go wrong after that is a new phi of a loop around it: it takes the place of what the
variable meant before the loop in every operand of the loop that reads it, also where the variable
has been assigned the same value again in the loop.  As long as each side that gets another operand
is right with it, all sides are right whenever no construct is open; and where one is not, it stays
wrong.

## What is here

* `Graph.PhisAgree.settles` — tying up loose ends keeps the phis right if nothing is shared.
* `Stmt.Rests` — the programs in whose construction no construct is open.
* `Stmt.phis_agree_iff` — the exact condition.
* `Stmt.phis_agree_fails` — a program that breaks it.
-/

set_option autoImplicit false

namespace StructuredSSA

/-! ## Graphs with the same phis -/

namespace Graph

variable {g g' : Graph} {w : Site}

/-- Other instructions and other contents do not matter. -/
theorem PhisAgree.congr (h : g.PhisAgree) (l : Layout g w) (hskel : g.SameSkeleton g')
    (hphi : ∀ i b, g'.isPhi i = true → g'.home? i = some b → g.isPhi i = true ∧ g.home? i = some b)
    (hoperand : ∀ i side o, g.phiOperand? i side = some o → g'.phiOperand? i side = some o)
    (hbinding : ∀ b x, g'.binding b x = g.binding b x) : g'.PhisAgree := by
  intro i b side hi hb hchecked
  obtain ⟨hi₀, hb₀⟩ := hphi i b hi hb
  obtain ⟨b', q, x, v, hb', hq, hv, hres⟩ := h i b side hi₀ hb₀ (hskel.checked_iff.1 hchecked)
  obtain rfl : b = b' := Option.some.inj (hb₀.symm.trans hb')
  have hlt := l.entry_lt hq
  refine ⟨b, q, x, v, hb, by rw [hskel.entry_eq, hq], hoperand i side _ hv, ?_⟩
  rw [(l.of_sameSkeleton hskel).resolves_iff ((hskel.lt_size_iff q).2 hlt)]
  rw [l.resolves_iff hlt] at hres
  exact hres.congr (S := fun _ => True) (fun _ _ _ _ => trivial) (fun c _ => hbinding c x)
    (fun c _ => hskel.parent_eq c) trivial

theorem PhisAgree.calm (h : g.PhisAgree) (l : Layout g w) (hcalm : g.Calm g') : g'.PhisAgree := by
  refine h.congr l hcalm.skeleton (fun i b hi hb => ?_) (fun i side o ho => ?_) hcalm.binding_eq
  · rw [hcalm.isPhi_eq] at hi
    obtain ⟨ins, hins, -⟩ := Option.any_eq_true _ _ |>.1 hi
    rw [hcalm.home?_old i (lt_nextId_of_instr? hins).2] at hb
    exact ⟨hi, hb⟩
  · rw [phiOperand?_congr fun o ho => hcalm.op?_phi ho, ho]

/-- **Tying up loose ends** keeps the phis right if nothing is shared. -/
theorem PhisAgree.settles (h : g.PhisAgree) (l : Layout g w) (hsettles : g.Settles g')
    (hlive : ∀ i, g.standIn? i = none) : g'.PhisAgree := by
  have hid := liveOf_eq_id hlive
  refine h.congr l hsettles.skeleton (fun i b hi hb => ?_) (fun i side o ho => ?_) fun b x => ?_
  · rw [hsettles.isPhi_eq] at hi
    obtain ⟨ins', hins', rfl⟩ := Option.map_eq_some_iff.1 hb
    obtain ⟨ins, hins, hs⟩ := hsettles.exists_instr hins'
    exact ⟨hi, by rw [home?, hins, hs.block_eq]; rfl⟩
  · obtain ⟨op, hop, hside⟩ := Option.bind_eq_some_iff.1 ho
    obtain ⟨ins, hins, rfl⟩ := Option.map_eq_some_iff.1 hop
    obtain ⟨ins', hins', hs⟩ := hsettles.instr i ins hins
    rw [phiOperand?, op?, hins', Option.map_some, Option.bind_some,
      hs.op_eq (Operation.isBranch_of_isPhi (Operation.isPhi_of_side? hside)), hid]
    cases hins_op : ins.op with
    | binary k a c =>
      rw [hins_op] at hside
      cases k <;> cases side <;> cases hside <;>
        simp [Operation.mapValues, Operation.mapOperands, Operation.side?, Operand.mapValue]
    | _ =>
      rw [hins_op] at hside
      cases hside
  · rw [hsettles.binding_eq, hid]
    simp

end Graph

/-! ## Sides that are right -/

/-- What is known of a state that the construction of a program comes to. -/
structure Surveyed (u : Body) (w : Site) : Prop where
  built : Built w u
  numbered : Numbered u.graph w
  levelled : Levelled u.graph w
  located : Located u.graph w
  founded : Founded u.graph w

namespace Surveyed

variable {w w' : Site} {u u' : Body} {b : BlockId} {x : Var} {i : InstrId} {side : Side}

theorem run {options : Options} {cs : List Body.Command}
    (h : Run .start (Body.start options) cs w u) : Surveyed u w := by
  obtain ⟨n, hl⟩ := Levelled.run h (.start options) (.start options) (.start options)
  exact ⟨h.built (.start options), n, hl, .run h, (Defined.run h).founded⟩

/-- A side of a phi comes from a block and selects a value. -/
theorem exists_side (k : Surveyed u w) (hphi : u.graph.PhiOf b x i) (side : Side) :
    ∃ q v, PhiSide.Selects ⟨b, x, i, side, q⟩ u.graph v := by
  have hhome := (k.built.contents.mem_listed b i).1 hphi.1
  obtain ⟨q, hq, hknows⟩ := k.founded.phis b i side hhome hphi.isPhi
  obtain ⟨y, l, r, hop⟩ := k.built.contents.exists_phi hphi.isPhi
  have hy : u.graph.PhiOf b y i := ⟨hphi.1, _, hop, Operation.isPhiOf_phi.2 rfl⟩
  obtain rfl := hphi.var_unique hy
  refine ⟨q, _, hphi, hq, Graph.phiOperand?_phi hop side, fun d hd => ?_⟩
  obtain ⟨a, ha, -⟩ := hknows d ⟨_, Graph.phiOperand?_phi hop side, hd⟩
  exact Graph.lt_nextId_of_home? ha

/-- A phi whose construct is closed after a step was housed before, or its construct has just been
closed. -/
theorem before_sealed (k : Surveyed u w) (h : Shift w u w' u') (hphi : u.graph.PhiOf b x i)
    (hs : Sealed u'.graph w' b) :
    (Housed u.graph w b i ∨ ∃ f fs, w.frames = f :: fs ∧ f.phiBlock = b) ∧
      ∀ p : PhiSide, p.block = b → p.phi = i → p.Drifts u.graph u'.graph := by
  rcases k.located b x i hphi with ⟨f, hf, rfl⟩ | hh
  · rcases h.open_cases hf with ⟨f', hf', heq⟩ |
      ⟨fs, u₀, hframes, rfl, hgraph, hleft, htested, hcarries⟩
    · exact absurd heq (hs.closed.closed f' hf')
    · refine ⟨.inr ⟨f, fs, hframes, rfl⟩, fun p hp hi => ?_⟩
      refine k.levelled.drifts_close k.built k.numbered hframes hgraph hleft htested hcarries ?_
      rw [hp, hi]
      exact .of_pop k.built.layout k.numbered hframes ((k.built.contents.mem_listed _ _).1 hphi.1)
  · exact ⟨.inl hh, fun p hp hi =>
      k.levelled.drifts_shift k.built k.numbered (by rw [hp, hi]; exact hh) h⟩

end Surveyed

/-- The sides of the phis of closed constructs are right. -/
def Agreed (g : Graph) (w : Site) : Prop :=
  ∀ b x i side, g.PhiOf b x i → Sealed g w b → g.Checked b side → g.Brings i side

/-- A side that has been made wrong: whatever comes, it stays wrong. -/
structure Astray (g : Graph) (w : Site) (b : BlockId) (x : Var) (i : InstrId) (side : Side) :
    Prop where
  phiOf : g.PhiOf b x i
  housed : Housed g w b i
  checked : g.Checked b side
  wrong : ¬ g.Brings i side

section Steps

variable {w w' : Site} {u u' : Body} {b : BlockId} {x : Var} {i : InstrId} {side : Side}

/-- **A step keeps all sides right** if it keeps those right that it gives another operand. -/
theorem Agreed.shift (h : Agreed u.graph w) (k : Surveyed u w) (k' : Surveyed u' w')
    (hstep : Shift w u w' u')
    (hchanged : ∀ i b side, u.graph.home? i = some b → u.graph.Checked b side →
      u.graph.Brings i side → u'.graph.phiOperand? i side ≠ u.graph.phiOperand? i side →
      u'.graph.Brings i side) : Agreed u'.graph w' := by
  intro b x i side hphi' hsealed hchecked'
  have hphi : u.graph.PhiOf b x i := (hstep.phiOf_cases k.built hphi').resolve_left
    fun ⟨f, hf, heq⟩ => hsealed.closed.closed f hf heq
  have hhome := (k.built.contents.mem_listed b i).1 hphi.1
  obtain ⟨hbefore, hdrifts⟩ := k.before_sealed hstep hphi hsealed
  -- the side was right before the step
  have hright : u.graph.Checked b side ∧ u.graph.Brings i side := by
    rcases hbefore with hh | ⟨f, fs, hframes, rfl⟩
    · have hchecked := ((hstep.undisturbed k.built).checked_iff b hh.isSealed side).1 hchecked'
      exact ⟨hchecked, h b x i side hphi hh.isSealed hchecked⟩
    · have hf : f ∈ w.frames := by simp [hframes]
      obtain ⟨fs', u₀, -, -, hgraph, hleft, -, hcarries⟩ := (hstep.open_cases hf).resolve_left
        fun ⟨f', hf', heq⟩ => hsealed.closed.closed f' hf' heq
      have hskel : u.graph.SameSkeleton u'.graph := hgraph ▸ hleft.skeleton_carries hcarries
      have hchecked := hskel.checked_iff.1 hchecked'
      exact ⟨hchecked, k.levelled.brings_own k.built.layout
        (k.built.closable.phi_bound f hf) hframes
        hphi.isPhi hhome hchecked⟩
  by_cases hsame : u'.graph.phiOperand? i side = u.graph.phiOperand? i side
  · obtain ⟨q, v, hv⟩ := k.exists_side hphi side
    obtain ⟨v', hv', hdrift⟩ := hdrifts _ rfl rfl v hv
    rw [hv'.brings_iff k'.built.layout k'.built.contents]
    refine hdrift.right ((hv.brings_iff k.built.layout k.built.contents).1 hright.2) ?_
    rw [hv.operand, hv'.operand] at hsame
    simpa [Operand.through] using hsame
  · exact hchanged i b side hhome hright.1 hright.2 hsame

/-- **A side that is wrong stays wrong.** -/
theorem Astray.shift (h : Astray u.graph w b x i side) (k : Surveyed u w) (k' : Surveyed u' w')
    (hstep : Shift w u w' u') : Astray u'.graph w' b x i side where
  phiOf := hstep.phiOf_mono k.built h.phiOf
  housed := h.housed.shift k.built hstep
  checked := hstep.checked_mono k.built h.checked
  wrong hright := by
    obtain ⟨q, v, hv⟩ := k.exists_side h.phiOf side
    obtain ⟨v', hv', hdrift⟩ := k.levelled.drifts_shift (p := ⟨b, x, i, side, q⟩) k.built k.numbered
      h.housed hstep v hv
    rw [hv'.brings_iff k'.built.layout k'.built.contents] at hright
    exact h.wrong ((hv.brings_iff k.built.layout k.built.contents).2 (hdrift.wrong hright))

/-- Only a side of a closed construct is made wrong by another operand. -/
theorem Astray.of_changed (k : Surveyed u w) (k' : Surveyed u' w') (hstep : Shift w u w' u')
    (hhome : u.graph.home? i = some b) (hchecked : u.graph.Checked b side)
    (hright : u.graph.Brings i side)
    (hchanged : u'.graph.phiOperand? i side ≠ u.graph.phiOperand? i side)
    (hwrong : ¬ u'.graph.Brings i side) : ∃ x, Astray u'.graph w' b x i side := by
  have hc := k.built.contents
  obtain ⟨_, _, _, _, _, _, hoperand, _⟩ := id hright
  obtain ⟨x, hphi⟩ := hc.exists_phiOf ((hc.mem_listed b i).2 hhome)
    (Graph.isPhi_of_phiOperand? hoperand)
  have hphi' := hstep.phiOf_mono k.built hphi
  have hchecked' := hstep.checked_mono k.built hchecked
  have hhome' := (k'.built.contents.mem_listed b i).1 hphi'.1
  refine ⟨x, hphi', ?_, hchecked', hwrong⟩
  refine (k'.located b x i hphi').resolve_left ?_
  rintro ⟨f, hf, rfl⟩
  obtain ⟨f₀, fs, hframes⟩ := List.exists_cons_of_ne_nil (List.ne_nil_of_mem hf)
  rw [hframes] at hf
  rcases List.mem_cons.1 hf with rfl | hf
  · exact hwrong (k'.levelled.brings_own k'.built.layout
      (k'.built.closable.phi_bound f (by simp [hframes])) hframes hphi'.isPhi hhome' hchecked')
  · -- the constructs around the innermost one do not take part
    obtain ⟨hmem, hview⟩ := Levelled.sameView_shift k.built k.numbered hstep (f := f)
      (by rw [hframes]; exact hf)
    have hown := (k.built.phiOf_iff_ownPhi hmem).1 hphi
    obtain ⟨y, l, r, hop⟩ := hc.exists_phi hphi.isPhi
    refine hchanged ?_
    rw [Graph.phiOperand?, Graph.phiOperand?, hop, hview.op?_eq x i _ hown rfl hop]

end Steps

/-! ## Programs at rest -/

/-- How many more constructs are open after a command. -/
def Body.Command.opening : Body.Command → Int
  | .openIf | .openLoop => 1
  | .closeIf _ | .closeLoop _ => -1
  | _ => 0

/-- The constructs that are open are those that have been opened and not closed. -/
theorem Run.length_frames {w w' : Site} {u u' : Body} {cs : List Body.Command}
    (h : Run w u cs w' u') :
    (w'.frames.length : Int) = w.frames.length + (cs.map Body.Command.opening).sum := by
  induction h with
  | nil => simp
  | @cons w w₁ w' u u₁ u' c cs step _ ih =>
    have hone : (w₁.frames.length : Int) = w.frames.length + c.opening := by
      cases step.change with
      | openIf | openLoop => simp [Site.openIf, Site.openLoop, Site.push, Body.Command.opening]
      | openElse hframes => simp [Site.openElse, hframes, Body.Command.opening]
      | closeIf hframes | closeLoop hframes =>
        simp only [Site.pop, hframes, Body.Command.opening, List.length_cons]
        omega
      | _ => simp [Body.Command.opening]
    rw [ih, hone, List.map_cons, List.sum_cons]
    omega

namespace Stmt

/-- The construction of `s` comes to the program `p` when no construct is open, or at the end. -/
inductive Rests (options : Options) (s : Stmt) : Program → Prop where
  | during {t : Script} {cs : List Body.Command} {p : Program} (build : s.build options = .ok t)
      (issued : cs <+: t.issued) (closed : (cs.map Body.Command.opening).sum = 0)
      (exec : (Program.start options).execAll (cs.map .body) = .ok p) : Rests options s p
  | finished {xs : List Var} {p : Program} (compile : s.compile options = .ok (xs, p)) :
      Rests options s p

/-- Where no construct is open, the sides of all phis are those of closed constructs. -/
theorem phisAgree_of_agreed {w : Site} {u : Body} (h : Agreed u.graph w) (k : Surveyed u w)
    (hframes : w.frames = []) : u.graph.PhisAgree := by
  intro i b side hi hb hchecked
  have hc := k.built.contents
  obtain ⟨x, hphi⟩ := hc.exists_phiOf ((hc.mem_listed b i).2 hb) hi
  refine h b x i side hphi ?_ hchecked
  refine ((k.located b x i hphi).resolve_left ?_).isSealed
  rintro ⟨f, hf, -⟩
  rw [hframes] at hf
  cases hf

/-- **Phis agree with their predecessors exactly as long as each new operand does.**  Without
sharing, each side of a phi of a join, and the second side of a phi of a loop header, selects what
the variable means in the block that the side comes from, whenever no construct is open and at the
end, if and only if every command that gives another operand to a side that is right gives it one
with which it is right. -/
theorem phis_agree_iff (options : Options) (s : Stmt) :
    (∀ p, s.Rests { options with share := false } p → p.main.graph.PhisAgree) ↔
    ∀ p p', s.Takes { options with share := false } p p' → ∀ i b side,
      p.main.graph.home? i = some b → p.main.graph.Checked b side → p.main.graph.Brings i side →
      p'.main.graph.phiOperand? i side ≠ p.main.graph.phiOperand? i side →
      p'.main.graph.Brings i side := by
  obtain ⟨w, t, g₁, g, h⟩ := s.exists_compiles { options with share := false }
  constructor
  · intro hagree p p' htakes i b side hhome hchecked hright hchanged
    by_contra hwrong
    obtain ⟨w₁, u₁, w₂, u₂, cs, c, rest, hcs, hrun, hstep, hafter, rfl, rfl⟩ := h.takes_along htakes
    have k := Surveyed.run hrun
    have hrun₂ := hrun.trans (.single hstep)
    obtain ⟨x, hastray⟩ := Astray.of_changed k (Surveyed.run hrun₂) (hstep.shift k.built)
      hhome hchecked hright hchanged hwrong
    have hend : Astray t.body.graph w b x i side := by
      refine hafter.preserves_along (P := fun w u => Astray u.graph w b x i side)
        (hrun₂.built (.start _)) hastray ?_
      intro cs₁ c cs₂ w₃ u₃ w₄ u₄ _ hrun₃ hb hp hstep₃
      have hrun₃ := hrun₂.trans hrun₃
      exact hp.shift (Surveyed.run hrun₃) (Surveyed.run (hrun₃.trans (.single hstep₃)))
        (hstep₃.shift hb)
    have hclosed : (t.issued.map Body.Command.opening).sum = 0 := by
      have hlength := h.run.length_frames
      rw [h.frames_eq] at hlength
      simpa [Site.start] using hlength.symm
    refine hend.wrong (hagree _ (.during h.build_eq (List.prefix_refl _) hclosed h.execAll_eq)
      i b side hend.phiOf.isPhi ?_ hend.checked)
    exact (h.ready.built.contents.mem_listed b i).1 hend.phiOf.1
  · intro htakes p hrests
    have hagreed : ∀ {w' u cs}, cs <+: t.issued →
        Run .start (Body.start { options with share := false }) cs w' u → Agreed u.graph w' := by
      intro w' u cs hcs hrun
      refine hrun.preserves_along (P := fun w u => Agreed u.graph w) (.start _) ?_ ?_
      · rintro b x i side ⟨-, op, hop, -⟩
        rw [Graph.op?, Body.instr?_start] at hop
        cases hop
      · intro cs₁ c cs₂ w₁ u₁ w₂ u₂ heq hrun₁ hb hp hstep
        refine hp.shift (Surveyed.run hrun₁) (Surveyed.run (hrun₁.trans (.single hstep)))
          (hstep.shift hb) (htakes _ _ ((h.takes_iff _ _).2
            ⟨w₁, u₁, w₂, u₂, cs₁, c, .trans ⟨cs₂, by rw [heq]; simp⟩ hcs, hrun₁, hstep, rfl, rfl⟩))
    cases hrests with
    | @during t' cs _ build issued closed exec =>
      rw [h.build_eq, Except.ok.injEq] at build
      subst build
      obtain ⟨w', u, -, hrun, -, -⟩ := h.run.upTo issued
      rw [Compiles.execAll_run hrun, Except.ok.injEq] at exec
      subst exec
      refine phisAgree_of_agreed (hagreed issued hrun) (Surveyed.run hrun) ?_
      have hlength := hrun.length_frames
      rw [closed] at hlength
      simpa [Site.start] using hlength
    | finished compile =>
      rw [h.compile_eq, Except.ok.injEq, Prod.mk.injEq] at compile
      obtain ⟨-, rfl⟩ := compile
      -- neither the end of the program nor settling changes a phi
      have hrest := phisAgree_of_agreed (hagreed (List.prefix_refl _) h.run) (Surveyed.run h.run)
        h.frames_eq
      have hcalm : t.body.graph.Calm g₁ :=
        .of_receives (.of_places h.ended rfl) rfl (.inr h.ready.clear)
      refine (hrest.calm h.ready.built.layout hcalm).settles h.complete.built.layout
        h.settles fun i => ?_
      rw [h.ended.standIn?_eq]
      exact (Unshared.run rfl h.run).live i

/-- A loop in which a variable may be assigned the value again that it had before the loop, and is
then changed. -/
def assignAgain : Stmt :=
  .seq (.assign 0 .read) (.seq (.assign 1 (.lit 1))
    (.loop ⟨.var 1, .le, .lit 2⟩
      (.seq (.ifThen ⟨.var 0, .eq, .lit 0⟩ (.assign 1 (.lit 1)))
        (.assign 1 (.arith .add (.var 1) (.lit 1))))))

/-- When the program is finished, both sides of the join select the phi of the loop header, but on
the then side the variable means the constant. -/
theorem assignAgain_compile : (assignAgain.compile { share := false }).toOption.any (fun r =>
    r.2.main.graph.isPhi 9 && r.2.main.graph.home? 9 == some 5 &&
    r.2.main.graph.hasRole 5 .join && r.2.main.graph.entry .first 5 == some 6 &&
    r.2.main.graph.phiOperand? 9 .first == some (.through 1 (some 10)) &&
    (r.2.main.graph.resolve 6 1).toOption == some (some 2)) = true := by
  decide +kernel

/-- **The first side of the join is wrong.** -/
theorem phis_agree_fails :
    ∃ p, assignAgain.Rests { share := false } p ∧ ¬ p.main.graph.PhisAgree := by
  obtain ⟨xs, p, hcompile, hp⟩ := exists_compile_eq assignAgain_compile
  simp only [Bool.and_eq_true, beq_iff_eq] at hp
  obtain ⟨⟨⟨⟨⟨hphi, hhome⟩, hjoin⟩, hentry⟩, hoperand⟩, hmeant⟩ := hp
  refine ⟨p, .finished hcompile, fun hagree => ?_⟩
  obtain ⟨b, q, x, v, hb, hq, hv, hres⟩ := hagree 9 5 .first hphi hhome (.inl hjoin)
  rw [hhome, Option.some.injEq] at hb
  subst hb
  rw [hentry, Option.some.injEq] at hq
  subst hq
  rw [hoperand, Option.some.injEq] at hv
  simp only [Operand.through, Operand.mk.injEq, Option.some.injEq] at hv
  obtain ⟨rfl, rfl⟩ := hv
  rw [hres] at hmeant
  exact absurd hmeant (by decide)

end Stmt
end StructuredSSA
