import StructuredSSA.Proofs.Body.Sequence
import StructuredSSA.Proofs.Exec.Tracks
import StructuredSSA.Proofs.Exec.UpToDate

/-!
# The course of a construction

A construction from the empty body to the end of the program.  Each state that it passes leads to
the finished body, and here all the invariants of the construction come together in one record
(`Leads`), so that the execution of statements needs no others.  Of the finished graph itself it is
known that definitions dominate uses and that its blocks are in order (`Graph.Proper`).

## What is here

* `Script.Reached` — states of a construction.
* `Course` — a whole construction.
* `Course.Passes`, `Course.Passes.leads` — the states that it passes.
* `Stmt.Compiles.course` — compiling a program is such a construction.
-/

set_option autoImplicit false

namespace StructuredSSA

variable {options : Options} {w w' wE : Site} {t t' tE : Script} {u u' U : Body}
  {cs : List Body.Command}

/-- Everything is in order in every state of a construction. -/
theorem Orderly.run (h : Run .start (Body.start options) cs w u) : Orderly w u where
  built := h.built (.start options)
  numbered := (PhiLayout.run h (.start options) (.start options) (.start options)).1
  levelled := (Levelled.run h (.start options) (.start options) (.start options)).2
  phis := (PhiLayout.run h (.start options) (.start options) (.start options)).2
  precedes := .run h (.start options) .start

/-- A construction goes on step by step. -/
theorem Run.proceeds {cs' : List Body.Command} (h : Run .start (Body.start options) cs' w u)
    (hrun : Run w u cs w' u') : Proceeds w u w' u' := by
  induction hrun generalizing cs' with
  | nil => exact .refl
  | cons step _ ih =>
    have hwired := Body.wired_execAll h.execAll_eq (Body.wired_start options)
    have horderly := Orderly.run h
    exact (Proceeds.refl.step horderly (step.keeps hwired) (step.shift horderly.built)).trans
      (ih (h.trans (.single step)))

namespace Script

/-- The script is a construction from the empty body that has come to `w`. -/
def Reached (options : Options) (w : Site) (t : Script) : Prop :=
  Run .start (Body.start options) t.issued w t.body

theorem Reached.advance (h : t.Reached options w) (hadv : t.Advances w w' t') :
    t'.Reached options w' := by
  obtain ⟨cs, hcs, hrun⟩ := hadv
  rw [Reached, hcs]
  exact h.trans hrun

theorem Reached.proceeds (h : t.Reached options w) (hadv : t.Advances w w' t') :
    Proceeds w t.body w' t'.body := by
  obtain ⟨cs, -, hrun⟩ := hadv
  exact Run.proceeds h hrun

end Script

/-- **A whole construction**, which comes to `wE` with the script `tE`, and to the body `U` when the
end of the program has been added. -/
structure Course (options : Options) (wE : Site) (tE : Script) (U : Body) : Prop where
  proper : U.graph.Proper
  growth : tE.body.graph.Extends U.graph
  shift : Shift wE tE.body wE U
  keeps : tE.body.graph.Keeps U.graph
  keepsBranches : tE.body.graph.KeepsBranches U.graph
  built : Built wE U

/-- The construction passes `w` and `t`. -/
structure Script.Passes (options : Options) (w : Site) (t : Script) (wE : Site) (tE : Script) :
    Prop where
  reached : t.Reached options w
  onward : t.Advances w wE tE

namespace Script.Passes

theorem back (h : t'.Passes options w' wE tE) (hreached : t.Reached options w)
    (hadv : t.Advances w w' t') : t.Passes options w wE tE :=
  ⟨hreached, hadv.trans h.onward⟩

end Script.Passes

/-- **Each state that a construction passes leads to the finished body.** -/
theorem Course.leads (c : Course options wE tE U) (h : t.Passes options w wE tE) :
    Leads w t.body wE U := by
  have hreached := h.reached.advance h.onward
  have hend : Orderly wE tE.body := Orderly.run hreached
  have hproceeds := h.reached.proceeds h.onward
  exact
    { orderly := Orderly.run h.reached
      proceeds := .step hproceeds hend c.keeps c.shift
      finished :=
        { built := c.built
          numbered := hend.numbered.shift hend.built c.shift
          levelled := hend.levelled.shift hend.built hend.numbered c.shift
          phis := hend.phis.shift hend.built hend.numbered c.shift
          precedes := hend.precedes }
      steered := (Steered.run hreached (.start options) (.start options) (.start options)).keep
        c.keepsBranches }

/-- What dominates a block where construction stands still does in the end. -/
theorem Course.growth_of_passes (c : Course options wE tE U) (h : t.Passes options w wE tE) :
    t.body.graph.Extends U.graph := by
  obtain ⟨cs, -, hrun⟩ := h.onward
  obtain ⟨hgrowth, hsize⟩ := hrun.growth (h.reached.built (.start options))
  exact hgrowth.trans c.growth hsize

namespace Stmt.Compiles

variable {s : Stmt} {g₁ g : Graph}

theorem shift (h : s.Compiles options wE tE g₁ g) :
    Shift wE tE.body wE { tE.body with graph := g₁ } :=
  .receive (.of_places h.ended rfl) rfl (.inr (.inl (.inl rfl))) (.inr h.ready.clear) (.inl rfl)
    fun o ho => by cases ho

theorem keepsBranches (h : s.Compiles options wE tE g₁ g) :
    tE.body.graph.KeepsBranches g₁ :=
  .of_places h.ended rfl (.inl h.ready.clear)

/-- The graph of a finished program is in order. -/
theorem proper (h : s.Compiles options wE tE g₁ g) : g₁.Proper where
  contents := h.complete.built.contents
  linked := h.complete.built.layout.linked
  connected := (Graph.Extends.of_places h.ended).connected (Shared.run h.run).connected
  inOrder := by
    have hreachable : Body.Reachable options tE.body := ⟨tE.issued, h.run.execAll_eq⟩
    have hsequenced := (Body.sequenced_iff_of_open h.ready.built.isOpen).1 hreachable.sequenced
    exact (hsequenced.develops (.single (.place h.ended))).inOrder
  last := ((Steered.run h.run (.start options) (.start options) (.start options)).keep
    h.keepsBranches).last
  defs := by
    have hend := Orderly.run h.run
    have hshared := Shared.run h.run
    have hdefined := (Defined.run h.run).shift hend.built hend.numbered hend.levelled hend.phis
      hshared.connected hshared.offering (.of_places h.ended) h.shift
    exact hdefined.founded.defsDominate h.complete.built.contents

/-- The construction of a program. -/
theorem course (h : s.Compiles options wE tE g₁ g) :
    Course options wE tE { tE.body with graph := g₁ } where
  proper := h.proper
  growth := .of_places h.ended
  shift := h.shift
  keeps := h.ended.keeps
  keepsBranches := h.keepsBranches
  built := h.complete.built

end Stmt.Compiles
end StructuredSSA
