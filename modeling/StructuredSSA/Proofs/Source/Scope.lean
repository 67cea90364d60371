import StructuredSSA.Proofs.Body.Levels
import StructuredSSA.Proofs.Source.Phis

/-!
# Variables behind constructs

Behind an if or a loop, a variable that is assigned inside means the phi that the construct has of
it, and every other variable means what it meant before.

## What is here

* `Step.meaning_target` — what the variables mean when a construct is closed.
* `Step.resolve_inheritScope` — the end of an outermost construct takes over bindings, and no
  look-up notices.
* `Stmt.scope_exits` — variables behind the constructs of a structured program.
-/

set_option autoImplicit false

namespace StructuredSSA

namespace Step

variable {w w' : Site} {u u' : Body} {c : Body.Command} {f : Frame} {fs : List Frame}

/-- **What the variables mean behind a construct that is closed**: the phi of the construct, or what
they meant before it. -/
theorem meaning_target (b : Built w u) (n : Numbered u.graph w) (hl : Levelled u.graph w)
    (h : Step w u c w' u') (hframes : w.frames = f :: fs)
    (hc : c = .closeIf f.test ∨ c = .closeLoop f.test) (x : Var) :
    (∀ i, u.graph.PhiOf f.phiBlock x i → u'.graph.meaning f.target x = some i) ∧
    (¬ u.graph.HasPhi f.phiBlock x → u'.graph.meaning f.target x = f.before x) := by
  obtain ⟨f', fs', u₀, hframes', -, rfl, hgraph, hleft, htested, hcarries⟩ := h.close_cases b hc
  rw [hframes] at hframes'
  obtain ⟨rfl, rfl⟩ := List.cons.inj hframes'
  have hown := fun i => b.phiOf_iff_ownPhi (x := x) (i := i) (f := f) (by simp [hframes])
  obtain ⟨hphi, hkept⟩ := hl.meaning_target b.layout hframes x
  rw [hl.meaning_close b n hframes hgraph hleft htested hcarries x]
  exact ⟨fun i hi => hphi i ((hown i).1 hi), fun hnone => hkept fun i hi =>
    hnone ⟨i, (hown i).2 hi⟩⟩

/-- **The end of an outermost construct** takes over the bindings in force, and no look-up
notices. -/
theorem resolve_inheritScope (b : Built w u) (hl : Levelled u.graph w) (h : Step w u c w' u')
    {d exit origin : BlockId} {u₀ : Body} (hout : u.CarriesOut c d exit origin u₀) {last : Block}
    (hlast : u₀.graph.block exit = .ok last) (hregion : u₀.graph.region last = .outermost) :
    u₀.carryPhis d exit origin = .ok { u₀ with graph := u₀.graph.inheritScope exit origin } ∧
    ∀ e x, e < u₀.graph.blocks.size →
      (u₀.graph.inheritScope exit origin).resolve e x = u₀.graph.resolve e x := by
  obtain ⟨f, fs, hframes, rfl, rfl, rfl, hgraph, hleft, -⟩ := h.carriesOut b hout
  have htail : w.pop.tail = f.target := by rw [Site.pop, hframes]
  have l : Layout u₀.graph w.pop := hleft.layout
  have hskel := (Graph.rebinds_inheritScope u₀.graph w.pop.tail f.test).skeleton
  refine ⟨?_, fun e x he => ?_⟩
  · simp only [Body.carryPhis, hlast, hregion, bind, Except.bind, pure, Except.pure]
  · have he' := (hskel.lt_size_iff e).2 he
    rw [l.resolve_eq he, (l.of_sameSkeleton hskel).resolves_iff he']
    refine l.resolves_inheritScope l.tail_lt (fun v hnone hv => ?_) (l.resolves_meaning he x)
    rw [htail] at hnone ⊢
    rw [hgraph] at hnone hv ⊢
    exact hl.resolves_target b.layout hframes hnone hv

end Step

/-- What the variables mean at the end of a construct. -/
theorem Script.Encloses.meaning {w w' : Site} {t t' : Script} {b : BlockId} {xs : List Var}
    (h : t.Encloses w b xs w' t') (hb : Built w t.body) (n : Numbered t.body.graph w)
    (hl : Levelled t.body.graph w) (x : Var) :
    (x ∈ xs → ∃ i, t'.body.graph.meaning t'.body.current x = some i ∧
      t'.body.graph.PhiOf b x i) ∧
    (x ∉ xs → t'.body.graph.meaning t'.body.current x = t.body.graph.meaning w.tail x) := by
  obtain ⟨wq, tq, f, c, u, ⟨cs, -, hrun⟩, hframes, rfl, hbefore, hphis, hc, hstep, rfl, ht'⟩ :=
    h.closing
  have hbq := hrun.built hb
  obtain ⟨nq, hlq⟩ := Levelled.run hrun hb n hl
  obtain ⟨hphi, hkept⟩ := hstep.meaning_target hbq nq hlq hframes hc x
  rw [ht']
  refine ⟨fun hx => ?_, fun hx => ?_⟩
  · obtain ⟨i, hi⟩ := (hphis x).2 hx
    exact ⟨i, hphi i hi, ((Sealed.close hbq hstep hframes hc).2 x i).2 hi⟩
  · rw [← hbefore]
    exact hkept fun hx' => hx ((hphis x).1 hx')

namespace Stmt

/-- **The scope law.**  Right after an if or a loop of a structured program has been closed, a
variable that is assigned inside means the phi of it that the construct holds in its join or header,
and every other variable means what it meant just before the construct was opened.  The end of an
outermost construct takes over the bindings in force, which changes no look-up anywhere. -/
theorem scope_exits (options : Options) (s : Stmt) :
    (∀ r t u, Reaches .outermost { body := .start options } s r t u → u.IsConstruct →
      ∃ b t', u.Spans t b t' ∧ ∀ x,
        (x ∈ u.assigned →
          ∃ i, t'.body.valueOf x = .ok (some i) ∧ t'.body.graph.PhiOf b x i) ∧
        (x ∉ u.assigned → ∃ v, t.body.valueOf x = .ok v ∧ t'.body.valueOf x = .ok v)) ∧
    ∀ p c, s.Issues options p c → ∀ b exit origin u₀, p.main.CarriesOut c b exit origin u₀ →
      ∀ last, u₀.graph.block exit = .ok last → u₀.graph.region last = .outermost →
      u₀.carryPhis b exit origin = .ok { u₀ with graph := u₀.graph.inheritScope exit origin } ∧
      ∀ d x, d < u₀.graph.blocks.size →
        (u₀.graph.inheritScope exit origin).resolve d x = u₀.graph.resolve d x := by
  obtain ⟨w, t, g₁, g, h⟩ := s.exists_compiles options
  have hlevelled : ∀ {cs w u}, Run .start (Body.start options) cs w u →
      Numbered u.graph w ∧ Levelled u.graph w := fun hrun =>
    Levelled.run hrun (.start options) (.start options) (.start options)
  refine ⟨fun r t₁ u hreach hu => ?_, ?_⟩
  · obtain ⟨b, w₁, w₂, t₂, hspans, hrun, r₁, hencloses, -⟩ := h.exists_construct hreach hu
    obtain ⟨n, hl⟩ := hlevelled hrun
    refine ⟨b, t₂, hspans, fun x => ?_⟩
    have hend : t₂.body.valueOf x = .ok (t₂.body.graph.meaning t₂.body.current x) :=
      hencloses.stays.ready.built.layout.resolve_eq hencloses.stays.ready.built.current_lt x
    have hstart : t₁.body.valueOf x = .ok (t₁.body.graph.meaning w₁.tail x) := by
      rw [← r₁.current_eq]
      exact r₁.built.layout.resolve_eq r₁.built.current_lt x
    obtain ⟨hphi, hkept⟩ := hencloses.meaning r₁.built n hl x
    refine ⟨fun hx => ?_, fun hx => ⟨_, hstart, ?_⟩⟩
    · obtain ⟨i, hi, hown⟩ := hphi hx
      exact ⟨i, by rw [hend, hi], hown⟩
    · rw [hend, hkept hx]
  · intro p c hissues b exit origin u₀ hout last hlast hregion
    obtain ⟨w₁, u₁, w₂, u₂, cs, -, hrun, hstep, rfl⟩ := h.exists_step hissues
    exact hstep.resolve_inheritScope (hrun.built (.start options)) (hlevelled hrun).2 hout hlast
      hregion

end Stmt
end StructuredSSA
