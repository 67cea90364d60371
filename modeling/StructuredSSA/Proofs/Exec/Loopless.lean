import StructuredSSA.Proofs.Exec.InTime
import StructuredSSA.Proofs.Exec.Settled
import StructuredSSA.Proofs.Source.Sharing

/-!
# Programs without loops

A retired instruction gets another stand-in only when an operand of its stand-in changes, and
operands change only when a loop gets a phi.  So in a program without loops the first stand-in of an
instruction stays, and this covers it: sharing respects dominance, whatever the program shares.

That no loop is open at any time is read off the commands: only one of them opens a loop, and
lowering a program without loops does not issue it.

## What is here

* `Stmt.loopFree` — programs without loops.
* `Step.standIn?_kept` — where no loop is open, a step changes no stand-in.
* `Run.standIns_cover` — where no loop is ever opened, instructions are covered by their stand-ins.
* `Stmt.Compiles.rootsCover_of_loopFree` — in a program without loops, sharing respects dominance.
-/

set_option autoImplicit false

namespace StructuredSSA

/-- There is no loop in the program. -/
def Stmt.loopFree : Stmt → Bool
  | .skip | .assign _ _ | .write _ => true
  | .seq s t | .ifElse _ s t => s.loopFree && t.loopFree
  | .ifThen _ s => s.loopFree
  | .loop _ _ => false

/-- Where there is no loop, none renews a variable too late. -/
theorem Stmt.inTime_of_loopFree {s : Stmt} (h : s.loopFree = true) : s.inTime = true := by
  induction s with
  | skip | assign | write => rfl
  | seq s t ihs iht | ifElse _ s t ihs iht =>
    obtain ⟨hs, ht⟩ := Bool.and_eq_true_iff.1 h
    exact Bool.and_eq_true_iff.2 ⟨ihs hs, iht ht⟩
  | ifThen _ s ih => exact ih h
  | loop => cases h

/-! ## Commands -/

namespace Script

/-- No loop is opened from `t` to `t'`. -/
def OpensNoLoop (t t' : Script) : Prop := Body.Command.openLoop ∈ t'.issued → .openLoop ∈ t.issued

variable {t t' t'' : Script} {i : InstrId} {b join : BlockId}

theorem OpensNoLoop.refl (t : Script) : t.OpensNoLoop t := id

theorem OpensNoLoop.trans (h : t.OpensNoLoop t') (h' : t'.OpensNoLoop t'') : t.OpensNoLoop t'' :=
  fun hmem => h (h' hmem)

theorem opensNoLoop_extend {c : Body.Command} (hc : c ≠ .openLoop) (u : Body) :
    t.OpensNoLoop (t.extend c u) := fun hmem =>
  (List.mem_append.1 hmem).resolve_right fun hlast => hc (List.mem_singleton.1 hlast).symm

theorem opensNoLoop_moveTo (t : Script) (b : BlockId) : t.OpensNoLoop (t.moveTo b) :=
  opensNoLoop_extend Body.Command.noConfusion _

theorem opensNoLoop_constant {v : Int64} (h : t.constant v = .ok (i, t')) : t.OpensNoLoop t' := by
  obtain ⟨r, -, h⟩ := bind_eq_ok_iff.1 h
  cases h
  exact opensNoLoop_extend Body.Command.noConfusion _

theorem opensNoLoop_emit {op : Operation} (h : t.emit op = .ok (i, t')) : t.OpensNoLoop t' := by
  obtain ⟨r, -, h⟩ := bind_eq_ok_iff.1 h
  cases h
  exact opensNoLoop_extend Body.Command.noConfusion _

theorem opensNoLoop_assign {x : Var} {v : Option InstrId} (h : t.assign x v = .ok t') :
    t.OpensNoLoop t' := by
  obtain ⟨r, -, h⟩ := bind_eq_ok_iff.1 h
  cases h
  exact opensNoLoop_extend Body.Command.noConfusion _

end Script

theorem Expr.opensNoLoop_lower {e : Expr} {t t' : Script} {o : Operand}
    (h : e.lower t = .ok (o, t')) : t.OpensNoLoop t' := by
  induction e generalizing t t' o with
  | var x =>
    obtain ⟨r, -, h⟩ := bind_eq_ok_iff.1 h
    cases h
    exact .refl t
  | lit v =>
    obtain ⟨r, hconst, h⟩ := bind_eq_ok_iff.1 h
    cases h
    exact Script.opensNoLoop_constant hconst
  | read =>
    obtain ⟨r, hemit, h⟩ := bind_eq_ok_iff.1 h
    cases h
    exact Script.opensNoLoop_emit hemit
  | arith op l r ihl ihr =>
    obtain ⟨r₁, hl, h⟩ := bind_eq_ok_iff.1 h
    obtain ⟨r₂, hr, h⟩ := bind_eq_ok_iff.1 h
    obtain ⟨r₃, hemit, h⟩ := bind_eq_ok_iff.1 h
    cases h
    exact ((ihl hl).trans (ihr hr)).trans (Script.opensNoLoop_emit hemit)

theorem Test.opensNoLoop_lower {c : Test} {t t' : Script} (h : c.lower t = .ok t') :
    t.OpensNoLoop t' := by
  obtain ⟨r₁, hl, h⟩ := bind_eq_ok_iff.1 h
  obtain ⟨r₂, hr, h⟩ := bind_eq_ok_iff.1 h
  obtain ⟨r₃, hcmp, h⟩ := bind_eq_ok_iff.1 h
  obtain ⟨r₄, hbranch, h⟩ := bind_eq_ok_iff.1 h
  cases h
  exact ((Expr.opensNoLoop_lower hl).trans (Expr.opensNoLoop_lower hr)).trans
    ((Script.opensNoLoop_emit hcmp).trans (Script.opensNoLoop_emit hbranch))

namespace Script

variable {t t' : Script} {b join : BlockId}

theorem opensNoLoop_enterIf {c : Test} (h : t.enterIf c = .ok (b, join, t')) :
    t.OpensNoLoop t' := by
  obtain ⟨r₁, hopen, h⟩ := bind_eq_ok_iff.1 h
  obtain ⟨join', -, h⟩ := bind_eq_ok_iff.1 h
  obtain ⟨t₂, htest, h⟩ := bind_eq_ok_iff.1 h
  obtain ⟨side, -, h⟩ := bind_eq_ok_iff.1 h
  cases h
  obtain ⟨r, -, hopen⟩ := bind_eq_ok_iff.1 hopen
  cases hopen
  exact ((opensNoLoop_extend Body.Command.noConfusion _).trans
    (Test.opensNoLoop_lower htest)).trans (opensNoLoop_moveTo _ _)

theorem opensNoLoop_enterElse (h : t.enterElse b = .ok t') : t.OpensNoLoop t' := by
  obtain ⟨r₁, hopen, h⟩ := bind_eq_ok_iff.1 h
  cases h
  obtain ⟨r, -, hopen⟩ := bind_eq_ok_iff.1 hopen
  cases hopen
  exact (opensNoLoop_extend Body.Command.noConfusion _).trans (opensNoLoop_moveTo _ _)

theorem opensNoLoop_leaveElse (h : t.leaveElse join = .ok t') : t.OpensNoLoop t' := by
  obtain ⟨tail, -, h⟩ := bind_eq_ok_iff.1 h
  obtain ⟨r, -, h⟩ := bind_eq_ok_iff.1 h
  cases h
  exact opensNoLoop_extend Body.Command.noConfusion _

theorem opensNoLoop_leaveIf (h : t.leaveIf b = .ok t') : t.OpensNoLoop t' := by
  obtain ⟨t₁, haim, h⟩ := bind_eq_ok_iff.1 h
  obtain ⟨r₂, hjoin, h⟩ := bind_eq_ok_iff.1 h
  obtain ⟨r₃, -, h⟩ := bind_eq_ok_iff.1 h
  cases h
  obtain ⟨r, -, haim⟩ := bind_eq_ok_iff.1 haim
  cases haim
  obtain ⟨r, -, hjoin⟩ := bind_eq_ok_iff.1 hjoin
  cases hjoin
  exact ((opensNoLoop_extend Body.Command.noConfusion _).trans
    (opensNoLoop_extend Body.Command.noConfusion _)).trans
    ((opensNoLoop_moveTo _ _).trans (opensNoLoop_extend Body.Command.noConfusion _))

end Script

/-- **A program without loops** opens no loop. -/
theorem Stmt.opensNoLoop_lower {s : Stmt} (hfree : s.loopFree = true) {t t' : Script}
    (h : s.lower t = .ok t') : t.OpensNoLoop t' := by
  induction s generalizing t t' with
  | skip =>
    cases h
    exact .refl t
  | seq s₁ s₂ ih₁ ih₂ =>
    obtain ⟨hfree₁, hfree₂⟩ := Bool.and_eq_true_iff.1 hfree
    obtain ⟨t₁, h₁, h₂⟩ := bind_eq_ok_iff.1 h
    exact (ih₁ hfree₁ h₁).trans (ih₂ hfree₂ h₂)
  | assign x e =>
    obtain ⟨r, hlower, hassign⟩ := bind_eq_ok_iff.1 h
    exact (Expr.opensNoLoop_lower hlower).trans (Script.opensNoLoop_assign hassign)
  | write e =>
    obtain ⟨r, hlower, h⟩ := bind_eq_ok_iff.1 h
    obtain ⟨r', hemit, h⟩ := bind_eq_ok_iff.1 h
    cases h
    exact (Expr.opensNoLoop_lower hlower).trans (Script.opensNoLoop_emit hemit)
  | ifThen c s ih =>
    obtain ⟨r, henter, h⟩ := bind_eq_ok_iff.1 h
    obtain ⟨t₁, hs, hleave⟩ := bind_eq_ok_iff.1 h
    exact ((Script.opensNoLoop_enterIf henter).trans (ih hfree hs)).trans
      (Script.opensNoLoop_leaveIf hleave)
  | ifElse c s₁ s₂ ih₁ ih₂ =>
    obtain ⟨hfree₁, hfree₂⟩ := Bool.and_eq_true_iff.1 hfree
    obtain ⟨r, henter, h⟩ := bind_eq_ok_iff.1 h
    obtain ⟨t₁, h₁, h⟩ := bind_eq_ok_iff.1 h
    obtain ⟨t₂, hturn, h⟩ := bind_eq_ok_iff.1 h
    obtain ⟨t₃, h₂, h⟩ := bind_eq_ok_iff.1 h
    obtain ⟨t₄, hjump, hleave⟩ := bind_eq_ok_iff.1 h
    have hthen := (Script.opensNoLoop_enterIf henter).trans (ih₁ hfree₁ h₁)
    have helse := (Script.opensNoLoop_enterElse hturn).trans (ih₂ hfree₂ h₂)
    exact (hthen.trans helse).trans
      ((Script.opensNoLoop_leaveElse hjump).trans (Script.opensNoLoop_leaveIf hleave))
  | loop => cases hfree

/-! ## Stand-ins -/

variable {w w' : Site} {u u' : Body} {c : Body.Command}

/-- Where no loop is open, the innermost construct is none, and none is open behind it. -/
theorem Site.innermost_of_loops {f : Frame} {fs : List Frame} (hloops : w.loops = [])
    (hframes : w.frames = f :: fs) : f.part ≠ .loopBody ∧ w.pop.loops = [] := by
  have hframes' := Site.frames_eq_cons_pop hframes
  have hpart : f.part ≠ .loopBody := fun hpart => by
    rw [Site.loops_cons hframes' hpart] at hloops
    cases hloops
  exact ⟨hpart, by rw [← Site.loops_cons_of_ne hframes' hpart, hloops]⟩

/-- Without loops, phis are merged and nothing is read anew. -/
theorem Body.Merges.standIn?_eq {x : Var} {v : Option InstrId} (h : u.Merges w x v u')
    (hloops : w.loops = []) (d : InstrId) : u'.graph.standIn? d = u.graph.standIn? d := by
  cases h with
  | outermost => rfl
  | replaced => exact Graph.standIn?_modifyInstr_mapOp _ _ _ _
  | @joined f _ _ g _ _ _ _ hplace =>
    exact ((Graph.rebinds_bindIn g f.phiBlock x _).standIn?_eq d).trans (hplace.standIn?_eq d)
  | looped hframes hpart => exact absurd hpart (Site.innermost_of_loops hloops hframes).1

theorem Body.CarriesEach.standIn?_eq {b : BlockId} {is : List InstrId}
    (h : Body.CarriesEach w b is u u') (hloops : w.loops = []) (d : InstrId) :
    u'.graph.standIn? d = u.graph.standIn? d := by
  induction h with
  | nil => rfl
  | cons _ hmerge _ ih => exact ih.trans (hmerge.standIn?_eq hloops d)

theorem Body.Carries.standIn?_eq {b origin : BlockId} (h : u.Carries w b origin u')
    (hloops : w.loops = []) (d : InstrId) : u'.graph.standIn? d = u.graph.standIn? d := by
  cases h with
  | outermost => exact (Graph.rebinds_inheritScope u.graph w.tail origin).standIn?_eq d
  | inner _ each => exact each.standIn?_eq hloops d

/-- **Where no loop is open, a step changes no stand-in.** -/
theorem Step.standIn?_kept (h : Step w u c w' u') (hloops : w.loops = []) (hc : c ≠ .openLoop)
    {d e : InstrId} (hd : u.graph.standIn? d = some e) : u'.graph.standIn? d = some e := by
  cases h.change with
  | found | moveTo | joinAhead => exact hd
  | constant hplace => exact (hplace.standIn?_eq d).trans hd
  | emit _ _ _ _ _ hemits =>
    cases hemits with
    | reused => exact hd
    | placed hplace => exact (hplace.standIn?_eq d).trans hd
    | @retired e' _ _ g _ hplace =>
      change (g.modifyInstr u.graph.nextId (·.setStandIn (some e'))).standIn? d = some e
      rw [Graph.standIn?_modifyInstr_setStandIn, if_neg, hplace.standIn?_eq, hd]
      rintro rfl
      rw [Graph.standIn?, Graph.Places.instr?_nextId] at hd
      cases hd
  | test _ _ _ hplace => exact (hplace.standIn?_eq d).trans hd
  | @assign _ x v _ _ _ hmerges =>
    have hre := Graph.rebinds_bindIn u.graph w.tail x v
    exact ((hmerges.standIn?_eq hloops d).trans (hre.standIn?_eq d)).trans hd
  | openIf _ _ hopens | openElse _ _ _ _ hopens =>
    exact (congrArg (·.bind Instr.standIn) (hopens.stock.instr?_eq d)).trans hd
  | openLoop => exact absurd rfl hc
  | aimBranch _ _ haims => exact (haims.standIn?_eq d).trans hd
  | emitJump _ _ _ _ _ _ _ hstand hplace =>
    exact ((hplace.standIn?_eq d).trans (hstand d)).trans hd
  | closeIf hframes _ _ _ _ hcarries =>
    exact (hcarries.standIn?_eq (Site.innermost_of_loops hloops hframes).2 d).trans hd
  | closeLoop hframes hpart => exact absurd hpart (Site.innermost_of_loops hloops hframes).1

/-- No loop is open after a step that opens none. -/
theorem Step.loops_eq_nil (h : Step w u c w' u') (hloops : w.loops = []) (hc : c ≠ .openLoop) :
    w'.loops = [] := by
  cases h.change with
  | found | constant | emit | test | assign | moveTo | joinAhead | aimBranch | emitJump =>
    exact hloops
  | openIf => rw [Site.openIf, Site.loops_push_of_ne _ _ Part.noConfusion, hloops]
  | openElse hframes hpart => rw [Site.loops_openElse hframes (by simp [hpart]), hloops]
  | openLoop => exact absurd rfl hc
  | closeIf hframes => exact (Site.innermost_of_loops hloops hframes).2
  | closeLoop hframes hpart => exact absurd hpart (Site.innermost_of_loops hloops hframes).1

/-- **Where no loop is ever opened**, every instruction is covered by its stand-in. -/
theorem Run.standIns_cover {options : Options} {cs : List Body.Command}
    (h : Run .start (Body.start options) cs w u) (hfree : .openLoop ∉ cs) {d e : InstrId}
    (hd : u.graph.standIn? d = some e) : u.graph.Covers e d := by
  have hinvariant : w.loops = [] ∧ ∀ d e, u.graph.standIn? d = some e → u.graph.Covers e d := by
    refine h.preserves_along (P := fun w u => w.loops = [] ∧
      ∀ d e, u.graph.standIn? d = some e → u.graph.Covers e d) (.start options)
      ⟨rfl, fun d e hd => ?_⟩ ?_
    · rw [Graph.standIn?, Body.instr?_start] at hd
      cases hd
    · intro cs₁ c cs₂ w₁ u₁ w₂ u₂ heq hrun hb hp hstep
      obtain ⟨hloops, hcovers⟩ := hp
      have hc : c ≠ .openLoop := by
        rintro rfl
        exact hfree (heq ▸ List.mem_append_right _ List.mem_cons_self)
      have hadv := hstep.advances hb
      refine ⟨hstep.loops_eq_nil hloops hc, fun d e' hd' => ?_⟩
      cases hd : u₁.graph.standIn? d with
      | some e =>
        have hkept := hstep.standIn?_kept hloops hc hd
        obtain rfl : e' = e := Option.some.inj (hd'.symm.trans hkept)
        exact hadv.growth.covers hb.contents (hcovers d e' hd)
      | none =>
        rcases hadv.standIn?_cases (Shared.run hrun).offering d e' hd' with h | ⟨-, h⟩ | ⟨h, -⟩
        · rw [hd] at h
          cases h
        · exact h
        · exact absurd hd h
  exact hinvariant.2 d e hd

/-- **In a program without loops, sharing respects dominance.** -/
theorem Stmt.Compiles.rootsCover_of_loopFree {options : Options} {s : Stmt} {t : Script}
    {g₁ g : Graph} (h : s.Compiles options w t g₁ g) (hfree : s.loopFree = true) :
    g.RootsCover := by
  have hissued : .openLoop ∉ t.issued := fun hmem =>
    absurd (Stmt.opensNoLoop_lower hfree h.build_eq hmem) List.not_mem_nil
  have hext := Graph.Extends.of_places h.ended
  have hconnected := hext.connected (Shared.run h.run).connected
  rw [h.settles.rootsCover_iff]
  intro d r hd hr
  refine (Graph.root?_eq_some_iff.1 hr).covers h.complete.built.contents hconnected
    (fun i e hi => ?_) fun hnone => ?_
  · rw [h.ended.standIn?_eq] at hi
    exact hext.covers h.ready.built.contents (h.run.standIns_cover hissued hi)
  · rw [Graph.isRetired_eq, hnone] at hd
    cases hd

end StructuredSSA
