import StructuredSSA.Proofs.Source.Reach

/-!
# The phis of a structured program

Once a construct is closed, its join or header holds one phi of each variable that is assigned in
it, and no other phi; that stays so to the end of the program.  Phis are nowhere else, and they come
first.

## What is here

* `Graph.Settles.samePhis` — tying up loose ends leaves phis alone.
* `Step.exists_variableOf` — the variable of a carried phi is found.
* `Stmt.phis_exact` — where a structured program has phis.
-/

set_option autoImplicit false

namespace StructuredSSA

/-! ## The end of a program -/

theorem Operation.isPhiOf_mapValues {op : Operation} {x : Var} (f : InstrId → InstrId) :
    (op.mapValues f).IsPhiOf x ↔ op.IsPhiOf x := by
  constructor
  · rintro ⟨l, r, h, hl, hr⟩
    cases op with
    | binary k l' r' =>
      simp only [mapValues, mapOperands, binary.injEq] at h
      obtain ⟨rfl, rfl, rfl⟩ := h
      exact ⟨l', r', rfl, hl, hr⟩
    | _ => cases h
  · rintro ⟨l, r, rfl, hl, hr⟩
    exact ⟨l.mapValue f, r.mapValue f, rfl, hl, hr⟩

namespace Graph

variable {g g' : Graph}

theorem SettlesInstr.isPhiOf_iff {live : InstrId → InstrId} {ins ins' : Instr} {x : Var}
    (h : SettlesInstr live ins ins') : ins'.op.IsPhiOf x ↔ ins.op.IsPhiOf x := by
  cases hbr : ins.op.isBranch with
  | false => rw [h.op_eq hbr, Operation.isPhiOf_mapValues]
  | true =>
    refine iff_of_false (fun hx => ?_) fun hx => by rw [hx.isBranch] at hbr; cases hbr
    cases hop : ins.op with
    | branch c t =>
      obtain ⟨j, hj⟩ := h.branch c t hop
      rw [hj] at hx
      cases hx.isPhi
    | _ =>
      rw [hop] at hbr
      cases hbr

namespace Settles

/-- Tying up loose ends leaves phis alone, as long as none of them is retired. -/
theorem samePhis (h : g.Settles g') (hlive : ∀ i, g.isPhi i = true → g.isRetired i = false) :
    g.SamePhis g' := by
  intro b x i
  rw [PhiOf, PhiOf, h.listed_eq, List.mem_filter]
  constructor
  · rintro ⟨⟨hi, -⟩, op', hop', hx⟩
    obtain ⟨ins', hins', rfl⟩ := Option.map_eq_some_iff.1 hop'
    obtain ⟨ins, hins, hsettles⟩ := h.exists_instr hins'
    exact ⟨hi, ins.op, by rw [op?, hins]; rfl, hsettles.isPhiOf_iff.1 hx⟩
  · rintro ⟨hi, op, hop, hx⟩
    have hphi : g.isPhi i = true := by
      rw [Graph.isPhi_eq, hop]
      exact hx.isPhi
    obtain ⟨ins, hins, rfl⟩ := Option.map_eq_some_iff.1 hop
    obtain ⟨ins', hins', hsettles⟩ := h.instr i ins hins
    exact ⟨⟨hi, by rw [hlive i hphi]; rfl⟩, ins'.op, by rw [op?, hins']; rfl,
      hsettles.isPhiOf_iff.2 hx⟩

end Settles
end Graph

/-! ## Phis that are carried outward -/

namespace Step

variable {w w' : Site} {u u' u₀ : Body} {c : Body.Command} {d exit origin : BlockId}

/-- **The variable of a carried phi is found**: when its turn comes, the phis before it have been
merged, and its block binds just the variable that both its sides are read through. -/
theorem exists_variableOf (b : Built w u) (h : Step w u c w' u')
    (hout : u.CarriesOut c d exit origin u₀) {last blk : Block}
    (hlast : u₀.graph.block exit = .ok last) (hregion : u₀.graph.region last ≠ .outermost)
    (hblk : u₀.graph.block d = .ok blk) {is rest : List InstrId} {i : InstrId}
    (hphis : u₀.graph.phis blk = is ++ i :: rest) :
    ∃ u₁ blk₁ x, is.foldlM (Body.carryPhi d (u₀.graph.region last)) u₀ = .ok u₁ ∧
      u₁.graph.block d = .ok blk₁ ∧ blk₁.variableOf? i = some x ∧ u₁.graph.PhiOf d x i := by
  obtain ⟨f, fs, hframes, rfl, rfl, -, hgraph, hleft, htested⟩ := h.carriesOut b hout
  rw [hleft.layout.region_tail (Graph.block_eq_ok_iff.1 hlast)] at hregion ⊢
  have hpop : w.pop.frames = fs := by rw [Site.pop, hframes]
  have hbound : u₀.graph.PhiBound f.phiBlock := by
    rw [hgraph]
    exact b.closable.phi_bound f (by simp [hframes])
  have hblk' := Graph.block_eq_ok_iff.1 hblk
  have hown : ∀ j ∈ is ++ i :: rest,
      u₀.graph.isPhi j = true ∧ u₀.graph.home? j = some f.phiBlock := by
    intro j hj
    rw [← hphis, Graph.phis, List.mem_filter] at hj
    refine ⟨hj.2, (hleft.contents.mem_listed _ _).1 ?_⟩
    rw [Graph.listed, hblk']
    exact hj.1
  cases hfs : w.pop.frames with
  | nil =>
    rw [Site.region, hfs] at hregion
    exact absurd rfl hregion
  | cons f₁ fs₁ =>
    have hne : f₁.phiBlock ≠ f.phiBlock :=
      b.layout.phiBlock_ne hframes (by rw [← hpop, hfs]; exact List.mem_cons_self)
    obtain ⟨u₁, hfold, heach, hb₁⟩ := hleft.carryEach hfs
      (fun f' hf' => by rw [hgraph]; exact htested f' (hpop ▸ hf')) (Graph.lt_size_of_block? hblk')
      hne hbound is fun j hj => hown j (List.mem_append_left _ hj)
    have hgrows := (hleft.of_carriesEach hfs heach).1
    have hbound₁ := hgrows.phiBound (Ne.symm hne) hbound
    obtain ⟨hi, hhome⟩ := hown i (by simp)
    have hlt := Graph.lt_nextId_of_home? hhome
    obtain ⟨blk₁, hblk₁, hblk₁'⟩ := Graph.exists_block_ok
      ((hgrows.skeleton.lt_size_iff f.phiBlock).2 (Graph.lt_size_of_block? hblk'))
    obtain ⟨x, hx, hownPhi⟩ := Built.exists_variableOf hblk₁' hbound₁
      (by rw [hgrows.isPhi_old hlt, hi]) (by rw [hgrows.home?_old i hlt, hhome])
    exact ⟨u₁, blk₁, x, hfold, hblk₁, hx, (hbound₁.phiOf_iff hb₁.contents).2 hownPhi⟩

end Step

/-! ## Structured programs -/

namespace Graph

variable {g g' : Graph} {w : Site} {b : BlockId}

/-- Phis are in joins and in loop headers, before all other instructions; both sides of a phi are
read through one variable, and a block has at most one phi of a variable. -/
structure PhisPlaced (g : Graph) : Prop where
  var : ∀ b, ∀ i ∈ g.listed b, g.isPhi i = true → ∃ x, g.PhiOf b x i
  unique : ∀ b x i j, g.PhiOf b x i → g.PhiOf b x j → i = j
  role : ∀ b x i, g.PhiOf b x i → g.hasRole b .join = true ∨ g.hasRole b .loopHead = true
  leading : ∀ b, g.PhisLead b

namespace PhisPlaced

theorem of_phiLayout (p : PhiLayout g w) (hc : g.Contents) : PhisPlaced g :=
  ⟨fun _ _ hi hphi => hc.exists_phiOf hi hphi, p.unique, p.role, p.leading⟩

/-- A block with phis of the variables `xs` has one of each. -/
theorem holdsPhis (p : PhisPlaced g) {xs : List Var} (h : ∀ x, g.HasPhi b x ↔ x ∈ xs) :
    g.HoldsPhis b xs where
  one x hx := by
    obtain ⟨i, hi⟩ := (h x).2 hx
    exact ⟨i, hi, fun j hj => p.unique b x j i hj hi⟩
  only i hi hphi := by
    obtain ⟨x, hx⟩ := p.var b i hi hphi
    exact ⟨x, (h x).1 ⟨i, hx⟩, hx⟩

theorem settles (p : PhisPlaced g) (h : g.Settles g')
    (hlive : ∀ i, g.isPhi i = true → g.isRetired i = false) : PhisPlaced g' where
  var b i hi hphi := by
    rw [h.listed_eq, List.mem_filter] at hi
    rw [h.isPhi_eq] at hphi
    obtain ⟨x, hx⟩ := p.var b i hi.1 hphi
    exact ⟨x, (h.samePhis hlive b x i).2 hx⟩
  unique b x i j hi hj :=
    p.unique b x i j ((h.samePhis hlive b x i).1 hi) ((h.samePhis hlive b x j).1 hj)
  role b x i hi := by
    simp only [h.skeleton.hasRole_eq]
    exact p.role b x i ((h.samePhis hlive b x i).1 hi)
  leading b := by
    rw [PhisLead, h.listed_eq]
    simp only [h.isPhi_eq]
    exact (p.leading b).sublist List.filter_sublist

end PhisPlaced
end Graph

/-- At the end of a construct its phis are of the variables that were assigned inside, and no more
will be added. -/
theorem Script.Encloses.closed {w w' : Site} {t t' : Script} {b : BlockId} {xs : List Var}
    (h : t.Encloses w b xs w' t') (hb : Built w t.body) :
    Sealed t'.body.graph w' b ∧ ∀ x, t'.body.graph.HasPhi b x ↔ x ∈ xs := by
  obtain ⟨wq, tq, f, c, u, ⟨cs, -, hrun⟩, hframes, rfl, -, hphis, hc, hstep, rfl, ht'⟩ := h.closing
  obtain ⟨hsealed, hsame⟩ := Sealed.close (hrun.built hb) hstep hframes hc
  rw [ht']
  exact ⟨hsealed, fun x => (exists_congr (hsame x)).trans (hphis x)⟩

namespace Stmt

namespace Compiles

variable {options : Options} {s : Stmt} {w w' : Site} {t : Script} {g₁ g : Graph} {u : Body}
  {cs : List Body.Command}

theorem phiLayout (hrun : Run .start (Body.start options) cs w' u) :
    Numbered u.graph w' ∧ PhiLayout u.graph w' :=
  PhiLayout.run hrun (.start options) (.start options) (.start options)

theorem phisPlaced (hrun : Run .start (Body.start options) cs w' u) : u.graph.PhisPlaced :=
  .of_phiLayout (phiLayout hrun).2 (hrun.built (.start options)).contents

/-- The phis of a finished program are those of its last state. -/
theorem samePhis_settled (h : s.Compiles options w t g₁ g) : t.body.graph.SamePhis g :=
  ((Graph.Receives.of_places h.ended rfl).samePhis rfl).trans
    (h.settles.samePhis fun _ => h.complete.built.matched.isRetired_of_phi)

theorem phisPlaced_settled (h : s.Compiles options w t g₁ g) : g.PhisPlaced := by
  obtain ⟨n, p⟩ := phiLayout h.run
  have hended : PhiLayout g₁ w := p.receive h.ready.built.layout n (.of_places h.ended rfl) rfl
    (.inr (.inl (.inl rfl))) (.inr h.ready.clear)
  exact (Graph.PhisPlaced.of_phiLayout hended h.complete.built.contents).settles h.settles
    fun _ => h.complete.built.matched.isRetired_of_phi

end Compiles

/-- **Phi placement is exact.**  From the end of every if and of every loop on, to the finished
program, its join or its header holds one phi of each variable that is assigned inside, and no other
phi.  At all times phis are in joins and headers only and come first, and both sides of a phi are
read through one variable.  When a construct is closed inside another one, that variable is found
for each of its phis. -/
theorem phis_exact (options : Options) (s : Stmt) : ∃ t, s.build options = .ok t ∧
    (∀ r t₁ u, Reaches .outermost { body := .start options } s r t₁ u → u.IsConstruct →
      ∃ b t₂, u.Spans t₁ b t₂ ∧ t₂.issued <+: t.issued ∧
        ∀ p, s.VisitsFrom options t₂ p → p.main.graph.HoldsPhis b u.assigned) ∧
    (∀ p, s.Visits options p → p.main.graph.PhisPlaced) ∧
    ∀ p c, s.Issues options p c → ∀ b exit origin u₀, p.main.CarriesOut c b exit origin u₀ →
      ∀ last blk is i rest, u₀.graph.block exit = .ok last → u₀.graph.region last ≠ .outermost →
      u₀.graph.block b = .ok blk → u₀.graph.phis blk = is ++ i :: rest →
      ∃ u₁ blk₁ x, is.foldlM (Body.carryPhi b (u₀.graph.region last)) u₀ = .ok u₁ ∧
        u₁.graph.block b = .ok blk₁ ∧ blk₁.variableOf? i = some x ∧ u₁.graph.PhiOf b x i := by
  obtain ⟨w, t, g₁, g, h⟩ := s.exists_compiles options
  refine ⟨t, h.build_eq, fun r t₁ u hreach hu => ?_, fun p hp => ?_, ?_⟩
  · obtain ⟨b, w₁, w₂, t₂, hspans, hrun₁, r₁, hencloses, w', hadv⟩ := h.exists_construct hreach hu
    obtain ⟨cs, hcs, hrun⟩ := hencloses.stays.advances
    have hrun₂ : Run .start (Body.start options) t₂.issued w₂ t₂.body := by
      rw [hcs]
      exact hrun₁.trans hrun
    have hb₂ := hrun₂.built (.start options)
    obtain ⟨hsealed, hhas⟩ := hencloses.closed r₁.built
    have hlater : ∀ {cs₃ w₃ u₃}, Run w₂ t₂.body cs₃ w₃ u₃ →
        ∀ x, u₃.graph.HasPhi b x ↔ x ∈ u.assigned := fun hrun₃ x =>
      (exists_congr ((hsealed.run hb₂ hrun₃).2 x)).trans (hhas x)
    refine ⟨b, t₂, hspans, ?_, fun p hp => ?_⟩
    · obtain ⟨rest, hrest, -⟩ := hadv
      exact ⟨rest, hrest.symm⟩
    · rcases h.visitsFrom_cases hrun₂ hadv hp with ⟨w₃, u₃, cs₃, hrun₃, rfl⟩ | rfl
      · exact (Compiles.phisPlaced (hrun₂.trans hrun₃)).holdsPhis (hlater hrun₃)
      · obtain ⟨rest, -, hrest⟩ := hadv
        refine h.phisPlaced_settled.holdsPhis fun x => ?_
        rw [h.samePhis_settled.hasPhi_iff]
        exact hlater hrest x
  · rcases (h.visits_iff p).1 hp with ⟨w', u, cs, -, hrun, rfl⟩ | rfl
    · exact Compiles.phisPlaced hrun
    · exact h.phisPlaced_settled
  · intro p c hissues b exit origin u₀ hout last blk is i rest hlast hregion hblk hphis
    obtain ⟨w₁, u₁, w₂, u₂, cs, -, hrun, hstep, rfl⟩ := h.exists_step hissues
    exact hstep.exists_variableOf (hrun.built (.start options)) hout hlast hregion hblk hphis

end Stmt
end StructuredSSA
