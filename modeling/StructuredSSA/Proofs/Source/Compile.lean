import StructuredSSA.Proofs.Body.Settle
import StructuredSSA.Proofs.Source.Lower

/-!
# Compiling structured programs

A structured program is built by a run that starts at the empty body and ends with every construct
closed, so it can be finished: no operation on the way stops with a fault.

## What is here

* `Stmt.exists_build` — the run of a program.
* `Program.execAll_body` — commands on the main body of a program.
* `Stmt.Compiles` — what there is to know of a compilation that has succeeded.
* `Stmt.compile_total` — every structured program compiles.
-/

set_option autoImplicit false

namespace StructuredSSA

/-- Construction is ready for the first statement. -/
theorem Ready.start (options : Options) : Ready .start (Body.start options) where
  built := .start options
  current_eq := rfl
  clear := fun ⟨i, _, hi⟩ => by
    rw [Graph.home?, Body.instr?_start] at hi
    cases hi

/-- **The construction of a program is a run** from the empty body, at whose end every construct has
been closed. -/
theorem Stmt.exists_build (options : Options) (s : Stmt) : ∃ w t, s.build options = .ok t ∧
    Run .start (Body.start options) t.issued w t.body ∧ Ready w t.body ∧ w.frames = [] := by
  obtain ⟨w, t, hlower, hstays⟩ :=
    s.exists_lower (t := { body := .start options }) (Ready.start options)
  obtain ⟨cs, hcs, hrun⟩ := hstays.advances
  obtain rfl : t.issued = cs := by
    rw [hcs]
    exact List.nil_append cs
  exact ⟨w, t, hlower, hrun, hstays.ready, hstays.frames_eq⟩

/-- Commands on bodies work on the main body, as long as no function is opened. -/
theorem Program.execAll_body {p : Program} (hp : p.opened = none) {cs : List Body.Command}
    {u : Body} (h : p.main.execAll cs = .ok u) :
    p.execAll (cs.map .body) = .ok { p with main := u } := by
  induction cs generalizing p with
  | nil =>
    cases h
    rfl
  | cons c cs ih =>
    rw [Body.execAll, List.foldlM_cons] at h
    cases hexec : p.main.exec c with
    | error e =>
      rw [hexec] at h
      cases h
    | ok r =>
      rw [hexec] at h
      have hstep : p.exec (.body c) = .ok (.body r.1, { p with main := r.2 }) := by
        simp only [exec, body, setBody, hp, hexec, Except.map]
      rw [List.map_cons, execAll, List.foldlM_cons, hstep]
      exact ih (p := { p with main := r.2 }) hp h

/-- `s` has been built by the script `t` with construction ending at `w`; `g₁` is the graph with the
end of the program in place, and `g` the settled graph. -/
structure Stmt.Compiles (options : Options) (s : Stmt) (w : Site) (t : Script) (g₁ g : Graph) :
    Prop where
  build_eq : s.build options = .ok t
  run : Run .start (Body.start options) t.issued w t.body
  ready : Ready w t.body
  frames_eq : w.frames = []
  ended : t.body.graph.Places w.tail .halt g₁
  complete : Complete w { t.body with graph := g₁ }
  settles : g₁.Settles g
  settleWith_eq : t.body.settleWith .halt = .ok { t.body with graph := g, isSettled := true }

namespace Stmt

/-- The program that a settled main body makes up. -/
def settled (options : Options) (u : Body) (g : Graph) : Program where
  main := { u with graph := g, isSettled := true }
  options := options

namespace Compiles

variable {options : Options} {s : Stmt} {w : Site} {t : Script} {g₁ g : Graph}

/-- Every command that was issued can be carried out on the program. -/
theorem execAll_eq (h : s.Compiles options w t g₁ g) :
    (Program.start options).execAll (t.issued.map .body) = .ok { main := t.body, options } :=
  Program.execAll_body (p := .start options) rfl h.run.execAll_eq

theorem finish_eq (h : s.Compiles options w t g₁ g) :
    ({ main := t.body, options } : Program).finish =
      .ok ((settled options t.body g).unassigned, settled options t.body g) := by
  simp only [Program.finish, Program.inFunction, Option.isSome_none, Bool.not_false, require,
    if_true, h.settleWith_eq, bind, Except.bind, pure, Except.pure]
  rfl

theorem compile_eq (h : s.Compiles options w t g₁ g) : s.compile options =
    .ok ((settled options t.body g).unassigned, settled options t.body g) := by
  simp only [compile, h.build_eq, h.execAll_eq, bind, Except.bind]
  exact h.finish_eq

end Compiles

/-- A program that has been built can be finished. -/
theorem Compiles.of_run {options : Options} {s : Stmt} {w : Site} {t : Script}
    (hbuild : s.build options = .ok t) (hrun : Run .start (Body.start options) t.issued w t.body)
    (hready : Ready w t.body) (hframes : w.frames = []) : ∃ g₁ g, s.Compiles options w t g₁ g := by
  obtain ⟨g₁, g, hended, hsettles, hcomplete, hsettle⟩ :=
    hready.built.settleWith hframes hready.current_eq .halt rfl rfl
  exact ⟨g₁, g, hbuild, hrun, hready, hframes, hended, hcomplete, hsettles, hsettle⟩

theorem exists_compiles (options : Options) (s : Stmt) :
    ∃ w t g₁ g, s.Compiles options w t g₁ g := by
  obtain ⟨w, t, hbuild, hrun, hready, hframes⟩ := s.exists_build options
  exact ⟨w, t, Compiles.of_run hbuild hrun hready hframes⟩

/-- **No structured program stops its construction.**  Whatever the program and the settings, the
commands of the program can be issued; each of them is carried out in turn on the program that has
been built so far, and so is the end. -/
theorem compile_total (options : Options) (s : Stmt) : ∃ t p r,
    s.build options = .ok t ∧
    (∀ cs, cs <+: t.issued → ∃ q, (Program.start options).execAll (cs.map .body) = .ok q) ∧
    (Program.start options).execAll (t.issued.map .body) = .ok p ∧
    p.finish = .ok r ∧ s.compile options = .ok r := by
  obtain ⟨w, t, g₁, g, h⟩ := s.exists_compiles options
  refine ⟨t, _, _, h.build_eq, fun cs hcs => ?_, h.execAll_eq, h.finish_eq, h.compile_eq⟩
  obtain ⟨w', u, -, hrun, -, -⟩ := h.run.upTo hcs
  exact ⟨_, Program.execAll_body (p := .start options) rfl hrun.execAll_eq⟩

/-- What a compilation is seen to have by running it. -/
theorem exists_compile_eq {options : Options} {s : Stmt} {p : List Var × Program → Bool}
    (h : (s.compile options).toOption.any p = true) :
    ∃ xs q, s.compile options = .ok (xs, q) ∧ p (xs, q) = true := by
  obtain ⟨r, hr, hp⟩ := exists_ok_of_any h
  exact ⟨r.1, r.2, hr, hp⟩

end Stmt
end StructuredSSA
