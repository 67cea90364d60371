import StructuredSSA.Proofs.Source.Compile

/-!
# The states of a construction

What is true of a program at all times is a statement about the programs that its construction comes
to, after each command and at the end.

## What is here

* `Stmt.Visits` — the programs that the construction of a structured program comes to.
* `Stmt.VisitsFrom` — those of them that come after a script.
* `Stmt.Issues` — the commands, and `Stmt.Takes` — two programs with one command in between.
* `Stmt.Compiles.visits_iff`, `Stmt.Compiles.takes_iff` — in terms of the run.
-/

set_option autoImplicit false

namespace StructuredSSA
namespace Stmt

/-- The construction of `s` comes to the program `p`. -/
inductive Visits (options : Options) (s : Stmt) : Program → Prop where
  /-- Some of the commands have been carried out. -/
  | during {t : Script} {cs : List Body.Command} {p : Program} (build : s.build options = .ok t)
      (issued : cs <+: t.issued) (exec : (Program.start options).execAll (cs.map .body) = .ok p) :
      Visits options s p
  /-- The program is finished. -/
  | finished {xs : List Var} {p : Program} (compile : s.compile options = .ok (xs, p)) :
      Visits options s p

/-- The construction of `s` comes to the program `p` when the script `t₀` has been carried out, or
later. -/
inductive VisitsFrom (options : Options) (s : Stmt) (t₀ : Script) : Program → Prop where
  | during {t : Script} {cs : List Body.Command} {p : Program} (build : s.build options = .ok t)
      (since : t₀.issued <+: cs) (issued : cs <+: t.issued)
      (exec : (Program.start options).execAll (cs.map .body) = .ok p) : VisitsFrom options s t₀ p
  | finished {xs : List Var} {p : Program} (compile : s.compile options = .ok (xs, p)) :
      VisitsFrom options s t₀ p

/-- The construction of `s` issues the command `c` when it has come to the program `p`. -/
inductive Issues (options : Options) (s : Stmt) (p : Program) (c : Body.Command) : Prop where
  | command {t : Script} {cs : List Body.Command} (build : s.build options = .ok t)
      (issued : cs ++ [c] <+: t.issued)
      (before : (Program.start options).execAll (cs.map .body) = .ok p)

/-- One command takes the construction of `s` from `p` to `p'`. -/
inductive Takes (options : Options) (s : Stmt) : Program → Program → Prop where
  | command {t : Script} {cs : List Body.Command} {c : Body.Command} {p p' : Program}
      {o : Program.Outcome} (build : s.build options = .ok t) (issued : cs ++ [c] <+: t.issued)
      (before : (Program.start options).execAll (cs.map .body) = .ok p)
      (exec : p.exec (.body c) = .ok (o, p')) : Takes options s p p'

namespace Compiles

variable {options : Options} {s : Stmt} {w : Site} {t : Script} {g₁ g : Graph}

/-- A program with the main body `u` and no functions. -/
theorem execAll_run {cs : List Body.Command} {w' : Site} {u : Body}
    (hrun : Run .start (Body.start options) cs w' u) :
    (Program.start options).execAll (cs.map .body) = .ok { main := u, options } :=
  Program.execAll_body (p := .start options) rfl hrun.execAll_eq

/-- The programs that a construction comes to. -/
theorem visits_iff (h : s.Compiles options w t g₁ g) (p : Program) : s.Visits options p ↔
    (∃ w' u cs, cs <+: t.issued ∧ Run .start (Body.start options) cs w' u ∧
      p = { main := u, options }) ∨ p = settled options t.body g := by
  constructor
  · intro hp
    cases hp with
    | @during t' cs _ build issued exec =>
      rw [h.build_eq, Except.ok.injEq] at build
      subst build
      obtain ⟨w', u, -, hrun, -, -⟩ := h.run.upTo issued
      rw [execAll_run hrun, Except.ok.injEq] at exec
      exact .inl ⟨w', u, cs, issued, hrun, exec.symm⟩
    | finished compile =>
      rw [h.compile_eq, Except.ok.injEq, Prod.mk.injEq] at compile
      exact .inr compile.2.symm
  · rintro (⟨w', u, cs, hcs, hrun, rfl⟩ | rfl)
    · exact .during h.build_eq hcs (execAll_run hrun)
    · exact .finished h.compile_eq

/-- The commands that a construction issues, and what follows them. -/
theorem exists_step_along (h : s.Compiles options w t g₁ g) {p : Program} {c : Body.Command}
    (hissues : s.Issues options p c) : ∃ w₁ u₁ w₂ u₂ cs rest, cs ++ [c] <+: t.issued ∧
      Run .start (Body.start options) cs w₁ u₁ ∧ Step w₁ u₁ c w₂ u₂ ∧ Run w₂ u₂ rest w t.body ∧
      p = { main := u₁, options } := by
  obtain ⟨build, issued, before⟩ := hissues
  rename_i t' cs
  rw [h.build_eq, Except.ok.injEq] at build
  subst build
  obtain ⟨w₂, u₂, rest, hrun, hafter, -⟩ := h.run.upTo issued
  obtain ⟨w₁, u₁, cs₁, hrun₁, hrest, heq⟩ := hrun.upTo (List.prefix_append cs [c])
  obtain rfl := List.append_cancel_left heq
  rw [execAll_run hrun₁, Except.ok.injEq] at before
  cases hrest with
  | cons step nothing =>
    cases nothing
    exact ⟨w₁, u₁, w₂, u₂, cs, rest, issued, hrun₁, step, hafter, before.symm⟩

/-- The commands that a construction issues. -/
theorem exists_step (h : s.Compiles options w t g₁ g) {p : Program} {c : Body.Command}
    (hissues : s.Issues options p c) : ∃ w₁ u₁ w₂ u₂ cs, cs ++ [c] <+: t.issued ∧
      Run .start (Body.start options) cs w₁ u₁ ∧ Step w₁ u₁ c w₂ u₂ ∧
      p = { main := u₁, options } := by
  obtain ⟨w₁, u₁, w₂, u₂, cs, rest, hcs, hrun, hstep, -, hp⟩ := h.exists_step_along hissues
  exact ⟨w₁, u₁, w₂, u₂, cs, hcs, hrun, hstep, hp⟩

/-- The commands that a construction takes, and what follows them. -/
theorem takes_along (h : s.Compiles options w t g₁ g) {p p' : Program}
    (htakes : s.Takes options p p') : ∃ w₁ u₁ w₂ u₂ cs c rest, cs ++ [c] <+: t.issued ∧
      Run .start (Body.start options) cs w₁ u₁ ∧ Step w₁ u₁ c w₂ u₂ ∧ Run w₂ u₂ rest w t.body ∧
      p = { main := u₁, options } ∧ p' = { main := u₂, options } := by
  obtain ⟨build, issued, before, exec⟩ := htakes
  rename_i t' cs c o
  obtain ⟨w₁, u₁, w₂, u₂, cs', rest, issued', hrun, step, hafter, rfl⟩ :=
    h.exists_step_along (.command build issued before)
  have hexec : (Program.exec { main := u₁, options } (.body c)).map Prod.snd =
      .ok { main := u₂, options } := by
    have := step.exec_eq
    simp only [Program.exec, Program.body, Program.setBody]
    cases hu : u₁.exec c with
    | error e =>
      rw [hu] at this
      cases this
    | ok r =>
      rw [hu] at this
      cases this
      rfl
  rw [exec] at hexec
  cases hexec
  exact ⟨w₁, u₁, w₂, u₂, cs', c, rest, issued', hrun, step, hafter, rfl, rfl⟩

/-- The commands that a construction takes. -/
theorem takes_iff (h : s.Compiles options w t g₁ g) (p p' : Program) : s.Takes options p p' ↔
    ∃ w₁ u₁ w₂ u₂ cs c, cs ++ [c] <+: t.issued ∧ Run .start (Body.start options) cs w₁ u₁ ∧
      Step w₁ u₁ c w₂ u₂ ∧ p = { main := u₁, options } ∧ p' = { main := u₂, options } := by
  constructor
  · intro htakes
    obtain ⟨w₁, u₁, w₂, u₂, cs, c, rest, hcs, hrun, step, -, hp, hp'⟩ := h.takes_along htakes
    exact ⟨w₁, u₁, w₂, u₂, cs, c, hcs, hrun, step, hp, hp'⟩
  · rintro ⟨w₁, u₁, w₂, u₂, cs, c, hcs, hrun, step, rfl, rfl⟩
    have hexec := step.exec_eq
    cases hu : u₁.exec c with
    | error e =>
      rw [hu] at hexec
      cases hexec
    | ok r =>
      rw [hu] at hexec
      cases hexec
      refine .command (o := .body r.1) h.build_eq hcs (execAll_run hrun) ?_
      simp only [Program.exec, Program.body, Program.setBody, hu, Except.map]

end Compiles
end Stmt
end StructuredSSA
