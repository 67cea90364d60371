import StructuredSSA.Proofs.Source.Visits
import StructuredSSA.Source.Position

/-!
# The constructs of a structured program

Lowering comes to every statement of a program, those inside of constructs included.  Construction
is ready there, and what is built afterwards continues what the statement has led to.

## What is here

* `Stmt.exists_spans` — every construct has an end.
* `Stmt.Reaches.ready` — construction is ready for a statement that lowering comes to.
* `Stmt.Compiles.exists_construct` — a construct of a program, and the run it is a part of.
-/

set_option autoImplicit false

namespace StructuredSSA
namespace Stmt

/-- An if or a loop. -/
def IsConstruct : Stmt → Prop
  | .ifThen _ _ | .ifElse _ _ _ | .loop _ _ => True
  | _ => False

variable {w : Site} {t : Script}

/-- **Every construct is opened, built and closed.** -/
theorem exists_spans (u : Stmt) (hu : u.IsConstruct) (r : Ready w t.body) :
    ∃ b w' t', u.Spans t b t' ∧ t.Encloses w b u.assigned w' t' := by
  cases u with
  | ifThen c s => exact exists_ifThen s.exists_lower r c
  | ifElse c s s' => exact exists_ifElse s.exists_lower s'.exists_lower r c
  | loop c s => exact exists_loop s.exists_lower r c
  | _ => exact hu.elim

/-- What lowering comes to: construction is ready for `u`, and once `u` is lowered the rest of `s`
follows. -/
theorem Reaches.ready {r r' : Region} {t₁ : Script} {s u : Stmt} (h : Reaches r t s r' t₁ u)
    (hready : Ready w t.body) : ∃ w₁, t.Advances w w₁ t₁ ∧ Ready w₁ t₁.body ∧
      ∀ {w₂ t₂}, u.lower t₁ = .ok t₂ → t₁.Stays w₁ u.assigned w₂ t₂ →
        ∃ w' t', t₂.Advances w₂ w' t' ∧ s.lower t = .ok t' ∧ t.Stays w s.assigned w' t' := by
  induction h generalizing w with
  | @here r t s => exact ⟨w, .refl w t, hready, fun hu hstays => ⟨_, _, .refl _ _, hu, hstays⟩⟩
  | @first r r' t t' s₁ s₂ u inner ih =>
    obtain ⟨w₁, hadv, r₁, hrest⟩ := ih hready
    refine ⟨w₁, hadv, r₁, fun hu hstays => ?_⟩
    obtain ⟨w₃, t₃, hadv₃, hs₁, hstays₁⟩ := hrest hu hstays
    obtain ⟨w₄, t₄, hs₂, hstays₂⟩ := s₂.exists_lower hstays₁.ready
    refine ⟨w₄, t₄, hadv₃.trans hstays₂.advances, ?_, hstays₁.trans hstays₂⟩
    simp only [lower, hs₁, hs₂, bind, Except.bind]
  | @second r r' t t₀ t' s₁ s₂ u before inner ih =>
    obtain ⟨w₀, t₀', hs₁, hstays₁⟩ := s₁.exists_lower hready
    obtain rfl : t₀ = t₀' := by rw [before] at hs₁; exact Except.ok.inj hs₁
    obtain ⟨w₁, hadv, r₁, hrest⟩ := ih hstays₁.ready
    refine ⟨w₁, hstays₁.advances.trans hadv, r₁, fun hu hstays => ?_⟩
    obtain ⟨w₃, t₃, hadv₃, hs₂, hstays₂⟩ := hrest hu hstays
    refine ⟨w₃, t₃, hadv₃, ?_, hstays₁.trans hstays₂⟩
    simp only [lower, hs₁, hs₂, bind, Except.bind]
  | @thenOnly r r' t t₀ t' c s u parent join enter inner ih =>
    obtain ⟨f, w₀, t₀', henter, hpart, hopens⟩ := Script.exists_opensIf hready c
    rw [henter, Except.ok.injEq, Prod.mk.injEq, Prod.mk.injEq] at enter
    obtain ⟨rfl, rfl, rfl⟩ := enter
    obtain ⟨w₁, hadv, r₁, hrest⟩ := ih hopens.ready
    refine ⟨w₁, hopens.advances.trans hadv, r₁, fun hu hstays => ?_⟩
    obtain ⟨w₃, t₃, hadv₃, hs, hstays'⟩ := hrest hu hstays
    obtain ⟨t₄, hleave, hadv₄, hencloses⟩ := (hopens.stays hstays').exists_leaveIf hpart
    refine ⟨w₃.pop, t₄, hadv₃.trans hadv₄, ?_, hencloses.stays⟩
    simp only [lower, henter, hs, hleave, bind, Except.bind]
  | @thenSide r r' t t₀ t' c s₁ s₂ u parent join enter inner ih =>
    obtain ⟨f, w₀, t₀', henter, hpart, hopens⟩ := Script.exists_opensIf hready c
    rw [henter, Except.ok.injEq, Prod.mk.injEq, Prod.mk.injEq] at enter
    obtain ⟨rfl, rfl, rfl⟩ := enter
    obtain ⟨w₁, hadv, r₁, hrest⟩ := ih hopens.ready
    refine ⟨w₁, hopens.advances.trans hadv, r₁, fun hu hstays => ?_⟩
    obtain ⟨w₃, t₃, hadv₃, hs₁, hstays₁⟩ := hrest hu hstays
    obtain ⟨tt, w₄, t₄, hturn, hadv₄, hopens₄⟩ := (hopens.stays hstays₁).exists_enterElse hpart
    obtain ⟨w₅, t₅, hs₂, hstays₂⟩ := s₂.exists_lower hopens₄.ready
    obtain ⟨t₆, t₇, hjump, hleave, hadv₇, hencloses⟩ := (hopens₄.stays hstays₂).exists_leaveElse rfl
    refine ⟨w₅.pop, t₇, ((hadv₃.trans hadv₄).trans hstays₂.advances).trans hadv₇, ?_,
      hencloses.stays⟩
    simp only [lower, henter, hs₁, hturn, hs₂, hjump, hleave, bind, Except.bind]
  | @elseSide r r' t t₀ t₂ t₃ t' c s₁ s₂ u parent join enter before turn inner ih =>
    obtain ⟨f, w₀, t₀', henter, hpart, hopens⟩ := Script.exists_opensIf hready c
    rw [henter, Except.ok.injEq, Prod.mk.injEq, Prod.mk.injEq] at enter
    obtain ⟨rfl, rfl, rfl⟩ := enter
    obtain ⟨w₂, t₂', hs₁, hstays₁⟩ := s₁.exists_lower hopens.ready
    obtain rfl : t₂ = t₂' := by rw [before] at hs₁; exact Except.ok.inj hs₁
    obtain ⟨tt, w₃, t₃', hturn, hadv₃, hopens₃⟩ := (hopens.stays hstays₁).exists_enterElse hpart
    obtain rfl : t₃ = t₃' := by rw [turn] at hturn; exact Except.ok.inj hturn
    obtain ⟨w₁, hadv, r₁, hrest⟩ := ih hopens₃.ready
    refine ⟨w₁, hopens₃.advances.trans hadv, r₁, fun hu hstays => ?_⟩
    obtain ⟨w₅, t₅, hadv₅, hs₂, hstays₂⟩ := hrest hu hstays
    obtain ⟨t₆, t₇, hjump, hleave, hadv₇, hencloses⟩ := (hopens₃.stays hstays₂).exists_leaveElse rfl
    refine ⟨w₅.pop, t₇, hadv₅.trans hadv₇, ?_, hencloses.stays⟩
    simp only [lower, henter, hs₁, hturn, hs₂, hjump, hleave, bind, Except.bind]
  | @loopBody r r' t t₀ t' c s u head enter inner ih =>
    obtain ⟨f, w₀, t₀', henter, hpart, hopens⟩ := Script.exists_opensLoop hready c
    rw [henter, Except.ok.injEq, Prod.mk.injEq] at enter
    obtain ⟨rfl, rfl⟩ := enter
    obtain ⟨w₁, hadv, r₁, hrest⟩ := ih hopens.ready
    refine ⟨w₁, hopens.advances.trans hadv, r₁, fun hu hstays => ?_⟩
    obtain ⟨w₃, t₃, hadv₃, hs, hstays'⟩ := hrest hu hstays
    obtain ⟨t₄, hleave, hadv₄, hencloses⟩ := (hopens.stays hstays').exists_leaveLoop hpart
    refine ⟨w₃.pop, t₄, hadv₃.trans hadv₄, ?_, hencloses.stays⟩
    simp only [lower, henter, hs, hleave, bind, Except.bind]

namespace Compiles

variable {options : Options} {s u : Stmt} {t₀ t₁ : Script} {g₁ g : Graph}

/-- **A construct of a program**: the run that leads to it, the construct itself, and the run from
its end to the end of the program. -/
theorem exists_construct (h : s.Compiles options w t g₁ g) {r : Region}
    (hreach : Reaches .outermost { body := .start options } s r t₁ u) (hu : u.IsConstruct) :
    ∃ b w₁ w₂ t₂, u.Spans t₁ b t₂ ∧ Run .start (Body.start options) t₁.issued w₁ t₁.body ∧
      Ready w₁ t₁.body ∧ t₁.Encloses w₁ b u.assigned w₂ t₂ ∧ ∃ w', t₂.Advances w₂ w' t := by
  obtain ⟨w₁, ⟨cs, hcs, hrun⟩, r₁, hrest⟩ := hreach.ready (Ready.start options)
  obtain rfl : t₁.issued = cs := hcs
  obtain ⟨b, w₂, t₂, hspans, hencloses⟩ := u.exists_spans hu r₁
  obtain ⟨w', t', hadv, hlower, -⟩ := hrest hspans.lower_eq hencloses.stays
  obtain rfl : t = t' := Except.ok.inj (h.build_eq.symm.trans hlower)
  exact ⟨b, w₁, w₂, t₂, hspans, hrun, r₁, hencloses, w', hadv⟩

/-- The programs that come after a script. -/
theorem visitsFrom_cases (h : s.Compiles options w t g₁ g) {w₀ w' : Site}
    (hrun : Run .start (Body.start options) t₀.issued w₀ t₀.body) (hadv : t₀.Advances w₀ w' t)
    {p : Program} (hp : s.VisitsFrom options t₀ p) :
    (∃ w₁ u cs, Run w₀ t₀.body cs w₁ u ∧ p = { main := u, options }) ∨
      p = settled options t.body g := by
  obtain ⟨rest, hissued, hrest⟩ := hadv
  cases hp with
  | @during t' cs _ build since issued exec =>
    rw [h.build_eq, Except.ok.injEq] at build
    subst build
    obtain ⟨cs', rfl⟩ := since
    rw [hissued, List.prefix_append_right_inj] at issued
    obtain ⟨w₁, u, -, hrun₁, -, -⟩ := hrest.upTo issued
    rw [execAll_run (hrun.trans hrun₁), Except.ok.injEq] at exec
    exact .inl ⟨w₁, u, cs', hrun₁, exec.symm⟩
  | finished compile =>
    rw [h.compile_eq, Except.ok.injEq, Prod.mk.injEq] at compile
    exact .inr compile.2.symm

end Compiles
end Stmt
end StructuredSSA
