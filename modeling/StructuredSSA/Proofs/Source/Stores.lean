import Mathlib.Data.List.TakeWhile
import StructuredSSA.Source.Eval

/-!
# Variables that have values

Execution never takes a value away from a variable.  So in a program that assigns every variable
before its first construct, all variables that a construct assigns have values when control comes to
it.

## What is here

* `Store.Defines` — variables have values.
* `Stmt.AssignsWithin` — constructs assign no other variables than those that have values already.
* `Stmt.defines_run` — execution keeps values, and gives them.
* `Stmt.AssignsFirst.assignsWithin` — programs that assign every variable first.
-/

set_option autoImplicit false

namespace StructuredSSA

/-- The variables `xs` have values. -/
def Store.Defines (st : Store) (xs : List Var) : Prop := ∀ x ∈ xs, (st.values x).isSome = true

theorem Store.Defines.of_values_eq {st st' : Store} {xs : List Var} (h : st.Defines xs)
    (heq : st'.values = st.values) : st'.Defines xs := by
  rw [Defines, heq]
  exact h

/-- An assignment gives its variable a value, and takes none away. -/
theorem Store.Defines.set {st : Store} {xs : List Var} (h : st.Defines xs) (x : Var) (v : Int64) :
    (st.set x v).Defines (xs ++ [x]) := by
  intro y hy
  change (if y = x then some v else st.values y).isSome = true
  split
  · rfl
  · rename_i hne
    exact h y ((List.mem_append.1 hy).resolve_right fun hmem => hne (List.mem_singleton.1 hmem))

variable {input : Nat → Int64} {st st' : Store}

theorem Expr.values_eq_of_eval {e : Expr} {a : Int64} (h : e.eval input st = some (a, st')) :
    st'.values = st.values := by
  induction e generalizing st st' a with
  | var x =>
    obtain ⟨v, -, heq⟩ := Option.map_eq_some_iff.1 h
    cases heq
    rfl
  | lit | read =>
    cases h
    rfl
  | arith op l r ihl ihr =>
    simp only [eval, Option.bind_eq_bind, Option.bind_eq_some_iff, Prod.exists] at h
    obtain ⟨a₁, st₁, hl, a₂, st₂, hr, heq⟩ := h
    cases heq
    exact (ihr hr).trans (ihl hl)

theorem Test.values_eq_of_eval {c : Test} {b : Bool} (h : c.eval input st = some (b, st')) :
    st'.values = st.values := by
  simp only [eval, Option.bind_eq_bind, Option.bind_eq_some_iff, Prod.exists] at h
  obtain ⟨a₁, st₁, hl, a₂, st₂, hr, heq⟩ := h
  cases heq
  exact (Expr.values_eq_of_eval hr).trans (Expr.values_eq_of_eval hl)

namespace Stmt

variable {s : Stmt} {xs : List Var} {fuel : Nat}

/-- Every construct in the statement assigns only variables among `xs`, and those that have been
assigned before it. -/
def AssignsWithin : List Var → Stmt → Prop
  | xs, .seq s t => AssignsWithin xs s ∧ AssignsWithin (xs ++ s.assigned) t
  | xs, .ifThen _ s => s.assigned ⊆ xs
  | xs, .ifElse _ s t => s.assigned ++ t.assigned ⊆ xs
  | xs, .loop _ s => s.assigned ⊆ xs
  | _, _ => True

theorem AssignsWithin.of_subset (h : s.assigned ⊆ xs) : s.AssignsWithin xs := by
  induction s generalizing xs with
  | skip | assign | write => trivial
  | seq s t ihs iht =>
    rw [assigned, List.append_subset] at h
    exact ⟨ihs h.1, iht (List.subset_append_of_subset_left _ h.2)⟩
  | ifThen | ifElse | loop => exact h

/-- Execution takes no values away. -/
theorem defines_run (h : s.run input fuel st = some st') (hst : st.Defines xs) :
    st'.Defines xs := by
  induction fuel generalizing s st st' with
  | zero => cases h
  | succ fuel ih =>
    cases s with
    | skip =>
      cases h
      exact hst
    | seq s t =>
      obtain ⟨st₁, hs, ht⟩ := Option.bind_eq_some_iff.1 h
      exact ih ht (ih hs hst)
    | assign x e =>
      obtain ⟨⟨v, st₁⟩, he, heq⟩ := Option.bind_eq_some_iff.1 h
      cases heq
      exact fun y hy => (hst.of_values_eq (Expr.values_eq_of_eval he)).set x v y
        (List.mem_append_left _ hy)
    | write e =>
      obtain ⟨⟨v, st₁⟩, he, heq⟩ := Option.bind_eq_some_iff.1 h
      cases heq
      have hvalues := Expr.values_eq_of_eval he
      exact hst.of_values_eq hvalues
    | ifThen c s =>
      obtain ⟨⟨b, st₁⟩, hc, hrest⟩ := Option.bind_eq_some_iff.1 h
      have hst₁ := hst.of_values_eq (Test.values_eq_of_eval hc)
      cases b with
      | false =>
        cases hrest
        exact hst₁
      | true => exact ih hrest hst₁
    | ifElse c s t =>
      obtain ⟨⟨b, st₁⟩, hc, hrest⟩ := Option.bind_eq_some_iff.1 h
      have hst₁ := hst.of_values_eq (Test.values_eq_of_eval hc)
      cases b with
      | false => exact ih hrest hst₁
      | true => exact ih hrest hst₁
    | loop c s =>
      obtain ⟨⟨b, st₁⟩, hc, hrest⟩ := Option.bind_eq_some_iff.1 h
      have hst₁ := hst.of_values_eq (Test.values_eq_of_eval hc)
      cases b with
      | false =>
        cases hrest
        exact hst₁
      | true =>
        obtain ⟨st₂, hs, hloop⟩ := Option.bind_eq_some_iff.1 hrest
        exact ih hloop (ih hs hst₁)

/-- **Every variable that is assigned has a value afterwards.** -/
theorem AssignsWithin.defines_run (hs : s.AssignsWithin xs) (h : s.run input fuel st = some st')
    (hst : st.Defines xs) : st'.Defines (xs ++ s.assigned) := by
  induction s generalizing fuel xs st st' with
  | skip =>
    rw [assigned, List.append_nil]
    exact Stmt.defines_run h hst
  | write e =>
    rw [assigned, List.append_nil]
    exact Stmt.defines_run h hst
  | assign x e =>
    cases fuel with
    | zero => cases h
    | succ fuel =>
      obtain ⟨⟨v, st₁⟩, he, heq⟩ := Option.bind_eq_some_iff.1 h
      cases heq
      exact (hst.of_values_eq (Expr.values_eq_of_eval he)).set x v
  | seq s t ihs iht =>
    cases fuel with
    | zero => cases h
    | succ fuel =>
      obtain ⟨st₁, hrun, hrun'⟩ := Option.bind_eq_some_iff.1 h
      rw [assigned, ← List.append_assoc]
      exact iht hs.2 hrun' (ihs hs.1 hrun hst)
  | ifThen c s =>
    exact fun x hx => Stmt.defines_run h hst x ((List.mem_append.1 hx).elim id fun hx => hs hx)
  | ifElse c s t =>
    exact fun x hx => Stmt.defines_run h hst x ((List.mem_append.1 hx).elim id fun hx => hs hx)
  | loop c s =>
    exact fun x hx => Stmt.defines_run h hst x ((List.mem_append.1 hx).elim id fun hx => hs hx)

/-! ## Programs that assign every variable first -/

theorem mem_assigned_iff {x : Var} : x ∈ s.assigned ↔ ∃ t ∈ s.toList, x ∈ t.assigned := by
  induction s with
  | skip => simp [assigned, toList]
  | seq s t ihs iht =>
    rw [assigned, toList, List.mem_append, ihs, iht]
    simp [or_and_right, exists_or]
  | assign | write | ifThen | ifElse | loop => simp [toList]

theorem assigned_subset_vars : s.assigned ⊆ s.vars := by
  induction s with
  | skip => exact List.Subset.refl _
  | seq s t ihs iht =>
    exact List.append_subset.2 ⟨List.subset_append_of_subset_left _ ihs,
      List.subset_append_of_subset_right _ iht⟩
  | assign x e => simp [assigned, vars]
  | write e => exact List.nil_subset _
  | ifThen c s ih => exact List.subset_append_of_subset_right _ ih
  | ifElse c s t ihs iht =>
    exact List.append_subset.2 ⟨List.subset_append_of_subset_left _
      (List.subset_append_of_subset_right _ ihs), List.subset_append_of_subset_right _ iht⟩
  | loop c s ih => exact List.subset_append_of_subset_right _ ih

theorem AssignsWithin.of_takeWhile
    (h : ∀ x ∈ s.assigned, x ∈ xs ∨ ∃ t ∈ s.toList.takeWhile isSimple, x ∈ t.assigned) :
    s.AssignsWithin xs := by
  induction s generalizing xs with
  | skip | assign | write => trivial
  | seq s t ihs iht =>
    rw [toList, List.takeWhile_append] at h
    refine ⟨ihs fun x hx => ?_, iht fun x hx => ?_⟩
    · refine (h x (List.mem_append_left _ hx)).imp_right ?_
      split
      · rename_i hall
        rw [(List.takeWhile_prefix _).eq_of_length hall]
        exact fun _ => mem_assigned_iff.1 hx
      · exact id
    · rcases h x (List.mem_append_right _ hx) with hx | ⟨t', ht', hx⟩
      · exact .inl (List.mem_append_left _ hx)
      · split at ht'
        · rcases List.mem_append.1 ht' with ht' | ht'
          · exact .inl (List.mem_append_right _ (mem_assigned_iff.2 ⟨t', ht', hx⟩))
          · exact .inr ⟨t', ht', hx⟩
        · have ht' := (List.takeWhile_prefix _).subset ht'
          exact .inl (List.mem_append_right _ (mem_assigned_iff.2 ⟨t', ht', hx⟩))
  | ifThen c s =>
    intro x hx
    simpa [toList, isSimple] using h x hx
  | ifElse c s t =>
    intro x hx
    simpa [toList, isSimple] using h x hx
  | loop c s =>
    intro x hx
    simpa [toList, isSimple] using h x hx

/-- **A program that assigns every variable first** has constructs only where all their variables
have values. -/
theorem AssignsFirst.assignsWithin (h : s.AssignsFirst) : s.AssignsWithin [] :=
  .of_takeWhile fun x hx => .inr (h x (assigned_subset_vars hx))

end Stmt
end StructuredSSA
