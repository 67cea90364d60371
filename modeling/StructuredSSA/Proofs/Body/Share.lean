import StructuredSSA.Proofs.Graph.Place
import StructuredSSA.Proofs.Graph.Shape

/-!
# Sharing

A retired instruction has a stand-in, which may be retired itself; at the end of the chain is a live
instruction, its root.  The body under construction keeps a second book, from each stand-in to the
instructions it stands in for.

## What is here

* `Graph.HasRoot` — the live instruction at the end of a chain of stand-ins.
* `Body.Books` — the two books agree and no chain runs in a cycle.
* `Graph.Matched` — retired instructions compute what their stand-ins compute.
* `Body.promoted`, `Body.revived` — what the revival of an instruction leads to, and
  `Body.Books.revive_eq` that it never stops.
* `Graph.Revived` — what `Body.revive` does to stand-ins, and `Graph.Regroups` what is left of this
  after several steps.
* `Body.Shares` — both together, and the changes that keep them: `Body.Shares.retireNew`,
  `Body.Shares.changeRevived`.
-/

set_option autoImplicit false

namespace StructuredSSA

namespace Graph

/-- `r` is the live instruction at the end of the chain of stand-ins from `i`. -/
inductive HasRoot (g : Graph) : InstrId → InstrId → Prop where
  | live {i : InstrId} (h : g.standIn? i = none) : HasRoot g i i
  | step {i e r : InstrId} (h : g.standIn? i = some e) (rest : HasRoot g e r) : HasRoot g i r

theorem HasRoot.standIn?_root {g : Graph} {i r : InstrId} (h : g.HasRoot i r) :
    g.standIn? r = none := by
  induction h with
  | live h => exact h
  | step _ _ ih => exact ih

theorem HasRoot.congr {g g' : Graph} (h : ∀ j, g'.standIn? j = g.standIn? j) {i r : InstrId}
    (hr : g.HasRoot i r) : g'.HasRoot i r := by
  induction hr with
  | live hlive => exact .live (by rw [h, hlive])
  | step hstand _ ih => exact .step (by rw [h, hstand]) ih

/-- An instruction is not its own stand-in, nor the stand-in of its stand-in, and so on. -/
theorem HasRoot.ne_standIn {g : Graph} {i r : InstrId} (h : g.HasRoot i r) :
    g.standIn? i ≠ some i := by
  induction h with
  | live h => simp [h]
  | @step i e r h rest ih =>
    intro hi
    rw [h, Option.some.injEq] at hi
    subst hi
    exact ih h

/-- Retired instructions are arithmetic and compute the same as their stand-ins. -/
def Matched (g : Graph) : Prop :=
  ∀ d e, g.standIn? d = some e → ∃ od oe, g.op? d = some od ∧ g.op? e = some oe ∧
    od.arith?.isSome = true ∧ od.sameValue oe = true

/-- `g'` is `g` after every sharing with `i` has been undone.  An instruction that `i` stood in for
is live now, or one of the others stands in for it. -/
structure Revived (g : Graph) (i : InstrId) (g' : Graph) : Prop where
  shape : SameShape g g'
  op?_eq : ∀ j, g'.op? j = g.op? j
  live : g'.standIn? i = none
  alone : ∀ j, g'.standIn? j ≠ some i
  standIn?_cases : ∀ j, g'.standIn? j = g.standIn? j ∨ g'.standIn? j = none ∨
    ∃ p, g.standIn? j = some i ∧ g.standIn? p = some i ∧ g'.standIn? j = some p ∧
      g'.standIn? p = none

/-- From `g` to `g'` instructions keep their stand-ins, or lose them, or get others that are
live. -/
def Regroups (g g' : Graph) : Prop :=
  ∀ j, g'.standIn? j = g.standIn? j ∨ g'.standIn? j = none ∨
    g.standIn? j ≠ none ∧ ∃ p, g'.standIn? j = some p ∧ g'.standIn? p = none

theorem Regroups.of_eq {g g' : Graph} (h : ∀ j, g'.standIn? j = g.standIn? j) : Regroups g g' :=
  fun j => .inl (h j)

theorem Regroups.live_of_live {g g' : Graph} {j : InstrId} (h : Regroups g g')
    (hj : g.standIn? j = none) : g'.standIn? j = none := by
  rcases h j with h' | h' | ⟨h', -⟩
  · rw [h', hj]
  · exact h'
  · exact absurd hj h'

theorem Regroups.trans {g g' g'' : Graph} (h : Regroups g g') (h' : Regroups g' g'') :
    Regroups g g'' := by
  intro j
  rcases h' j with hj' | hj' | ⟨hne, p, hp, hlive⟩
  · rw [hj']
    rcases h j with hj | hj | ⟨hne, p, hp, hlive⟩
    · exact .inl hj
    · exact .inr (.inl hj)
    · exact .inr (.inr ⟨hne, p, hp, h'.live_of_live hlive⟩)
  · exact .inr (.inl hj')
  · exact .inr (.inr ⟨fun hnone => hne (h.live_of_live hnone), p, hp, hlive⟩)

theorem Revived.regroups {g g' : Graph} {i : InstrId} (h : Revived g i g') : Regroups g g' := by
  intro j
  rcases h.standIn?_cases j with h' | h' | ⟨p, hj, -, hp, hlive⟩
  · exact .inl h'
  · exact .inr (.inl h')
  · exact .inr (.inr ⟨by rw [hj]; simp, p, hp, hlive⟩)

end Graph

namespace Operation

theorem isBranch_of_arith {op : Operation} (h : op.arith?.isSome = true) :
    op.isBranch = false := by
  cases op <;> first | rfl | cases h

theorem isPhi_of_arith {op : Operation} (h : op.arith?.isSome = true) : op.isPhi = false := by
  cases op with
  | binary k l r => cases k <;> first | rfl | cases h
  | _ => rfl

theorem isPhi_of_isBranch {op : Operation} (h : op.isBranch = true) : op.isPhi = false := by
  cases op <;> first | rfl | cases h

theorem isBranch_of_isPhi {op : Operation} (h : op.isPhi = true) : op.isBranch = false := by
  cases op <;> first | rfl | cases h

theorem sameValue_iff {o o' : Operation} : o.sameValue o' = true ↔ ∃ k l r l' r',
    o = .binary k l r ∧ o' = .binary k l' r' ∧ l.value = l'.value ∧ r.value = r'.value := by
  cases o with
  | binary k l r =>
    cases o' with
    | binary k' l' r' =>
      simp only [sameValue, Bool.and_eq_true, decide_eq_true_eq, binary.injEq]
      constructor
      · rintro ⟨⟨rfl, hl⟩, hr⟩
        exact ⟨k, l, r, l', r', ⟨rfl, rfl, rfl⟩, ⟨rfl, rfl, rfl⟩, hl, hr⟩
      · rintro ⟨_, _, _, _, _, ⟨rfl, rfl, rfl⟩, ⟨rfl, rfl, rfl⟩, hl, hr⟩
        exact ⟨⟨rfl, hl⟩, hr⟩
    | _ => simp [sameValue]
  | _ => simp [sameValue]

theorem sameValue_self {op : Operation} (h : op.arith?.isSome = true) : op.sameValue op = true := by
  cases op with
  | binary k l r => simp [sameValue]
  | _ => cases h

/-- Two operations that compute the same as a third compute the same. -/
theorem sameValue_join {o o' o'' : Operation} (h : o.sameValue o'' = true)
    (h' : o'.sameValue o'' = true) : o.sameValue o' = true := by
  obtain ⟨k, l, r, l'', r'', rfl, rfl, hl, hr⟩ := sameValue_iff.1 h
  obtain ⟨k', l', r', _, _, rfl, heq, hl', hr'⟩ := sameValue_iff.1 h'
  cases heq
  exact sameValue_iff.2 ⟨k, l, r, l', r', rfl, rfl, hl.trans hl'.symm, hr.trans hr'.symm⟩

end Operation

namespace Graph

/-- Retired instructions stay matched while no arithmetic changes. -/
theorem Matched.of_op {g g' : Graph} (hm : g.Matched)
    (hop : ∀ j op, op.arith?.isSome = true → g.op? j = some op → g'.op? j = some op)
    (hstand : ∀ j, g'.standIn? j = g.standIn? j) : g'.Matched := by
  intro d e hde
  rw [hstand] at hde
  obtain ⟨od, oe, hod, hoe, harith, hsame⟩ := hm d e hde
  obtain ⟨k, l, r, l', r', rfl, rfl, -, -⟩ := Operation.sameValue_iff.1 hsame
  have harith' : (Operation.binary k l' r').arith?.isSome = true := harith
  exact ⟨_, _, hop d _ harith hod, hop e _ harith' hoe, harith, hsame⟩

theorem Matched.place {g g' : Graph} {b : BlockId} {op : Operation} (hm : g.Matched)
    (h : Places g b op g') : g'.Matched := by
  refine hm.of_op (fun j o ho hj => (h.op?_eq (Operation.isBranch_of_arith ho)).2
    (.inr ⟨?_, hj⟩)) h.standIn?_eq
  rintro rfl
  rw [op?, Places.instr?_nextId] at hj
  cases hj

end Graph

namespace Body

/-- The instructions that `e` stands in for, as the second book has them. -/
def dependentsOf (u : Body) (e : InstrId) : List InstrId := (u.dependents.get? e).getD []

/-- **The two books on stand-ins agree**, and every chain of stand-ins ends. -/
structure Books (u : Body) : Prop where
  mem_iff : ∀ d e, d ∈ u.dependentsOf e ↔ u.graph.standIn? d = some e
  nodup : ∀ e, (u.dependentsOf e).Nodup
  nonempty : ∀ e, u.dependents.get? e ≠ some []
  rooted : ∀ i, ∃ r, u.graph.HasRoot i r

/-- An instruction that stands in for nothing has no list of dependents. -/
theorem Books.get?_eq_none {u : Body} (b : Books u) {i : InstrId}
    (h : ∀ j, u.graph.standIn? j ≠ some i) : u.dependents.get? i = none := by
  cases hds : u.dependents.get? i with
  | none => rfl
  | some ds =>
    cases ds with
    | nil => exact absurd hds (b.nonempty i)
    | cons d ds =>
      refine absurd ((b.mem_iff d i).1 ?_) (h d)
      rw [dependentsOf, hds]
      exact List.mem_cons_self

/-! ## Retiring -/

theorem Books.retire {u : Body} (b : Books u) {i e : InstrId}
    (hi : (u.graph.instr? i).isSome = true) (hlive : u.graph.standIn? i = none)
    (hunused : ∀ j, u.graph.standIn? j ≠ some i) (hne : e ≠ i) : Books (u.retire i e) := by
  obtain ⟨ins, hins⟩ := Option.isSome_iff_exists.1 hi
  have hstand : ∀ j, (u.retire i e).graph.standIn? j =
      if i = j then some e else u.graph.standIn? j := by
    intro j
    rw [Body.retire, Graph.standIn?_modifyInstr_setStandIn]
    split
    · rename_i h
      rw [← h, hins]
      rfl
    · rfl
  have hdep : ∀ e', (u.retire i e).dependentsOf e' =
      if e = e' then u.dependentsOf e ++ [i] else u.dependentsOf e' := by
    intro e'
    rw [dependentsOf, Body.retire, Table.get?_insert]
    split <;> rfl
  have hnotin : i ∉ u.dependentsOf e := fun h => by
    rw [b.mem_iff, hlive] at h
    cases h
  refine {
    mem_iff := fun d e' => ?_
    nodup := fun e' => ?_
    nonempty := fun e' => ?_
    rooted := fun j => ?_ }
  · rw [hdep, hstand]
    by_cases he : e = e'
    · subst he
      rw [if_pos rfl, List.mem_append, List.mem_singleton, b.mem_iff]
      by_cases hd : i = d
      · simp [hd]
      · simp [hd, Ne.symm hd]
    · rw [if_neg he, b.mem_iff]
      by_cases hd : i = d
      · subst hd
        simp [he, hlive]
      · simp [hd]
  · rw [hdep]
    split
    · exact List.nodup_append.2 ⟨b.nodup e, by simp, fun a ha c hc => by
        rw [List.mem_singleton] at hc
        rintro rfl
        exact hnotin (hc ▸ ha)⟩
    · exact b.nodup e'
  · rw [Body.retire, Table.get?_insert]
    split
    · simp
    · exact b.nonempty e'
  · -- no chain comes to `i` unless it starts there
    have hother : ∀ j r, u.graph.HasRoot j r → j ≠ i → (u.retire i e).graph.HasRoot j r := by
      intro j r h
      induction h with
      | @live j h =>
        intro hj
        exact .live (by rw [hstand, if_neg (Ne.symm hj), h])
      | @step j k r h rest ih =>
        intro hj
        refine .step (by rw [hstand, if_neg (Ne.symm hj), h]) (ih ?_)
        rintro rfl
        exact hunused j h
    by_cases hj : j = i
    · subst hj
      obtain ⟨r, hr⟩ := b.rooted e
      exact ⟨r, .step (by rw [hstand, if_pos rfl]) (hother e r hr hne)⟩
    · obtain ⟨r, hr⟩ := b.rooted j
      exact ⟨r, hother j r hr hj⟩

/-! ## Releasing dependents -/

theorem standIn?_foldl_setStandIn (g : Graph) (p : InstrId) (ds : List InstrId) (j : InstrId) :
    (ds.foldl (fun g d => g.modifyInstr d (·.setStandIn (some p))) g).standIn? j =
      if j ∈ ds then (g.instr? j).bind (fun _ => some p) else g.standIn? j := by
  induction ds generalizing g with
  | nil => simp
  | cons d ds ih =>
    rw [List.foldl_cons, ih, Graph.standIn?_modifyInstr_setStandIn, Graph.instr?_modifyInstr]
    by_cases hd : d = j
    · subst hd
      cases g.instr? d <;> simp
    · simp [hd, Ne.symm hd]

theorem sameShape_foldl_setStandIn (g : Graph) (p : InstrId) (ds : List InstrId) :
    g.SameShape (ds.foldl (fun g d => g.modifyInstr d (·.setStandIn (some p))) g) := by
  induction ds generalizing g with
  | nil => exact .refl g
  | cons d ds ih => exact (Graph.sameShape_setStandIn g d _).trans (ih _)

theorem op?_foldl_setStandIn (g : Graph) (p : InstrId) (ds : List InstrId) (j : InstrId) :
    (ds.foldl (fun g d => g.modifyInstr d (·.setStandIn (some p))) g).op? j = g.op? j := by
  induction ds generalizing g with
  | nil => rfl
  | cons d ds ih => rw [List.foldl_cons, ih, Graph.op?_modifyInstr_setStandIn]

theorem isSome_of_standIn? {g : Graph} {j e : InstrId} (h : g.standIn? j = some e) :
    (g.instr? j).isSome = true := by
  obtain ⟨ins, hins, -⟩ := Option.bind_eq_some_iff.1 h
  rw [hins]
  rfl

/-- What releasing the dependents of `i` leads to, where it does not stop. -/
def promoted (u : Body) (i : InstrId) : Body :=
  match u.dependentsOf i with
  | [] => u
  | p :: rest => u.promote i p rest

section Promote

variable {u u' : Body} {i p : InstrId} {rest : List InstrId}

theorem promoted_of_nil (h : u.dependentsOf i = []) : u.promoted i = u := by
  rw [promoted, h]

theorem promoted_eq (h : u.dependentsOf i = p :: rest) : u.promoted i = u.promote i p rest := by
  rw [promoted, h]

/-- Releasing dependents stops at an empty list of them, and nowhere else. -/
theorem promoteDependents_eq_ok_iff :
    u.promoteDependents i = .ok u' ↔ u.dependents.get? i ≠ some [] ∧ u' = u.promoted i := by
  rw [promoteDependents, promoted, dependentsOf]
  cases u.dependents.get? i with
  | none => simp [eq_comm]
  | some ds => cases ds <;> simp [eq_comm]

/-- The stand-ins after the first dependent has been promoted. -/
theorem Books.standIn?_promote (b : Books u) (h : u.dependentsOf i = p :: rest) (j : InstrId) :
    (u.promoted i).graph.standIn? j =
      if j = p then none else if u.graph.standIn? j = some i then some p
      else u.graph.standIn? j := by
  have hmem : ∀ d, d = p ∨ d ∈ rest ↔ u.graph.standIn? d = some i := fun d => by
    rw [← b.mem_iff, h, List.mem_cons]
  have hnodup := b.nodup i
  rw [h] at hnodup
  have hp : p ∉ rest := (List.nodup_cons.1 hnodup).1
  rw [promoted_eq h, promote]
  simp only [standIn?_foldl_setStandIn, Graph.standIn?_modifyInstr_setStandIn,
    Graph.instr?_modifyInstr]
  by_cases hjp : j = p
  · subst hjp
    rw [if_neg hp, if_pos rfl, if_pos rfl]
    cases u.graph.instr? j <;> rfl
  · rw [if_neg hjp, if_neg (Ne.symm hjp), if_neg (Ne.symm hjp)]
    by_cases hj : j ∈ rest
    · have hstand := (hmem j).1 (.inr hj)
      obtain ⟨ins, hins⟩ := Option.isSome_iff_exists.1 (isSome_of_standIn? hstand)
      rw [if_pos hj, if_pos hstand, hins]
      rfl
    · rw [if_neg hj, if_neg]
      intro hstand
      rcases (hmem j).2 hstand with h' | h'
      · exact hjp h'
      · exact hj h'

theorem Books.ne_of_dependents (b : Books u) (h : u.dependentsOf i = p :: rest) : p ≠ i := by
  rintro rfl
  obtain ⟨r, hr⟩ := b.rooted p
  exact hr.ne_standIn ((b.mem_iff p p).1 (by rw [h]; simp))

theorem Books.dependentsOf_promote (b : Books u) (h : u.dependentsOf i = p :: rest) (e : InstrId) :
    (u.promoted i).dependentsOf e =
      if e = i then [] else if e = p then u.dependentsOf p ++ rest else u.dependentsOf e := by
  have hpi := b.ne_of_dependents h
  rw [promoted_eq h, promote, dependentsOf]
  dsimp only
  by_cases hrest : rest = []
  · simp only [hrest, List.isEmpty_nil, if_true, Table.get?_erase, List.append_nil]
    by_cases hi : e = i
    · simp [hi]
    · by_cases hp : e = p
      · simp [hp, Ne.symm hpi, hpi, dependentsOf]
      · simp [hi, hp, Ne.symm hi, dependentsOf]
  · have hempty : rest.isEmpty = false := by simpa using hrest
    simp only [hempty, Bool.false_eq_true, if_false, Table.get?_insert, Table.get?_erase,
      Ne.symm hpi]
    by_cases hi : e = i
    · simp [hi, hpi]
    · by_cases hp : e = p
      · simp [hp, hpi, dependentsOf]
      · simp [hi, hp, Ne.symm hi, Ne.symm hp, dependentsOf]

theorem Books.promoted (b : Books u) (i : InstrId) : Books (u.promoted i) := by
  cases h : u.dependentsOf i with
  | nil =>
    rw [promoted_of_nil h]
    exact b
  | cons p rest =>
    have hpi := b.ne_of_dependents h
    have hstand := b.standIn?_promote h
    have hdep := b.dependentsOf_promote h
    have hmem : ∀ d, d = p ∨ d ∈ rest ↔ u.graph.standIn? d = some i := fun d => by
      rw [← b.mem_iff, h, List.mem_cons]
    have hnodup := b.nodup i
    rw [h] at hnodup
    obtain ⟨hp, hrest⟩ := List.nodup_cons.1 hnodup
    refine {
      mem_iff := fun d e => ?_
      nodup := fun e => ?_
      nonempty := fun e => ?_
      rooted := fun j => ?_ }
    · rw [hdep, hstand]
      have hd := hmem d
      by_cases hei : e = i
      · subst hei
        rw [if_pos rfl]
        refine iff_of_false (by simp) ?_
        split
        · simp
        · split
          · simpa using hpi
          · assumption
      · rw [if_neg hei]
        by_cases hep : e = p
        · subst hep
          rw [if_pos rfl, List.mem_append, b.mem_iff]
          by_cases hde : d = e
          · subst hde
            have := (hmem d).1 (.inl rfl)
            simp only [this, if_true, reduceCtorEq, iff_false, not_or, Option.some.injEq]
            exact ⟨fun h => hei h.symm, hp⟩
          · rw [if_neg hde]
            by_cases hdi : u.graph.standIn? d = some i
            · simp only [hdi, if_true, iff_true]
              exact .inr ((hd.2 hdi).resolve_left hde)
            · rw [if_neg hdi]
              refine ⟨fun h => h.resolve_right fun h' => hdi (hd.1 (.inr h')), .inl⟩
        · rw [if_neg hep, b.mem_iff]
          by_cases hdp : d = p
          · subst hdp
            have := (hmem d).1 (.inl rfl)
            simp [this, Ne.symm hei]
          · rw [if_neg hdp]
            by_cases hdi : u.graph.standIn? d = some i
            · simp [hdi, Ne.symm hei, Ne.symm hep]
            · rw [if_neg hdi]
    · rw [hdep]
      split
      · simp
      · split
        · refine List.nodup_append.2 ⟨b.nodup p, hrest, fun a ha c hc => ?_⟩
          rintro rfl
          have h₁ := (b.mem_iff a p).1 ha
          rw [(hmem a).1 (.inr hc), Option.some.injEq] at h₁
          exact hpi h₁.symm
        · exact b.nodup e
    · rw [promoted_eq h, promote]
      dsimp only
      split
      · rw [Table.get?_erase]
        split
        · simp
        · exact b.nonempty e
      · rename_i hne
        rw [Table.get?_insert]
        split
        · simpa using fun _ => hne
        · rw [Table.get?_erase]
          split
          · simp
          · exact b.nonempty e
    · have hlive : (u.promoted i).graph.standIn? p = none := by
        rw [hstand, if_pos rfl]
      obtain ⟨r, hr⟩ := b.rooted j
      induction hr with
      | @live j hj => exact ⟨j, .live (by rw [hstand, hj]; simp)⟩
      | @step j e r hj _ ih =>
        by_cases hjp : j = p
        · exact ⟨j, .live (by rw [hstand, if_pos hjp])⟩
        · by_cases hji : u.graph.standIn? j = some i
          · exact ⟨p, .step (by rw [hstand, if_neg hjp, if_pos hji]) (.live hlive)⟩
          · obtain ⟨r', hr'⟩ := ih
            exact ⟨r', .step (by rw [hstand, if_neg hjp, if_neg hji, hj]) hr'⟩

end Promote

section Restore

variable {u : Body} {i e : InstrId}

theorem restore_of_live (h : u.graph.standIn? i = none) : u.restore i = u := by
  rw [restore]
  split
  · rename_i e he
    rw [Graph.standIn?] at h
    rw [h] at he
    cases he
  · rfl

theorem restore_eq (h : u.graph.standIn? i = some e) : u.restore i =
    { u with
      graph := u.graph.modifyInstr i (·.setStandIn none)
      dependents := u.dependents.update e
        (if ((u.dependentsOf e).filter (· != i)).isEmpty then none
          else some ((u.dependentsOf e).filter (· != i))) } := by
  rw [Graph.standIn?] at h
  rw [restore, h]
  rfl

theorem standIn?_restore (u : Body) (i j : InstrId) :
    (u.restore i).graph.standIn? j = if j = i then none else u.graph.standIn? j := by
  cases h : u.graph.standIn? i with
  | none =>
    rw [restore_of_live h]
    split
    · rename_i hj
      rw [hj, h]
    · rfl
  | some e =>
    rw [restore_eq h, Graph.standIn?_modifyInstr_setStandIn]
    by_cases hj : j = i
    · subst hj
      rw [if_pos rfl, if_pos rfl]
      cases u.graph.instr? j <;> rfl
    · rw [if_neg hj, if_neg (Ne.symm hj)]

theorem dependentsOf_restore (h : u.graph.standIn? i = some e) (e' : InstrId) :
    (u.restore i).dependentsOf e' =
      if e' = e then (u.dependentsOf e).filter (· != i) else u.dependentsOf e' := by
  rw [restore_eq h, dependentsOf, Table.get?_update]
  by_cases he : e' = e
  · rw [if_pos he, if_pos he.symm]
    split
    · rename_i hempty
      rw [List.isEmpty_iff.1 hempty]
      rfl
    · rfl
  · rw [if_neg he, if_neg (Ne.symm he)]
    rfl

theorem Books.restore (b : Books u) (i : InstrId) : Books (u.restore i) := by
  cases h : u.graph.standIn? i with
  | none =>
    rw [restore_of_live h]
    exact b
  | some e =>
    have hdep := dependentsOf_restore h
    refine {
      mem_iff := fun d e' => ?_
      nodup := fun e' => ?_
      nonempty := fun e' => ?_
      rooted := fun j => ?_ }
    · rw [hdep, standIn?_restore]
      by_cases he : e' = e
      · subst he
        rw [if_pos rfl, List.mem_filter, b.mem_iff]
        by_cases hd : d = i
        · simp [hd]
        · simp [hd]
      · rw [if_neg he, b.mem_iff]
        by_cases hd : d = i
        · subst hd
          rw [h]
          simp [Ne.symm he]
        · rw [if_neg hd]
    · rw [hdep]
      split
      · exact (b.nodup e).filter _
      · exact b.nodup e'
    · rw [restore_eq h, Table.get?_update]
      split
      · split
        · simp
        · rename_i hne
          simpa using hne
      · exact b.nonempty e'
    · obtain ⟨r, hr⟩ := b.rooted j
      induction hr with
      | @live j hj =>
        refine ⟨j, .live ?_⟩
        rw [standIn?_restore, hj]
        simp
      | @step j e' r hj _ ih =>
        by_cases hji : j = i
        · exact ⟨j, .live (by rw [standIn?_restore, if_pos hji])⟩
        · obtain ⟨r', hr'⟩ := ih
          exact ⟨r', .step (by rw [standIn?_restore, if_neg hji, hj]) hr'⟩

theorem sameShape_restore (u : Body) (i : InstrId) :
    u.graph.SameShape (u.restore i).graph := by
  rw [restore]
  split
  · exact Graph.sameShape_setStandIn _ _ _
  · exact .refl _

theorem op?_restore (u : Body) (i j : InstrId) : (u.restore i).graph.op? j = u.graph.op? j := by
  rw [restore]
  split
  · exact Graph.op?_modifyInstr_setStandIn _ _ _ _
  · rfl

end Restore

theorem sameShape_promoted (u : Body) (i : InstrId) :
    u.graph.SameShape (u.promoted i).graph := by
  cases h : u.dependentsOf i with
  | nil =>
    rw [promoted_of_nil h]
    exact .refl _
  | cons p rest =>
    rw [promoted_eq h, promote]
    exact (Graph.sameShape_setStandIn _ _ _).trans (sameShape_foldl_setStandIn _ _ _)

theorem op?_promoted (u : Body) (i j : InstrId) :
    (u.promoted i).graph.op? j = u.graph.op? j := by
  cases h : u.dependentsOf i with
  | nil => rw [promoted_of_nil h]
  | cons p rest =>
    rw [promoted_eq h, promote]
    dsimp only
    rw [op?_foldl_setStandIn, Graph.op?_modifyInstr_setStandIn]

/-! ## Reviving -/

/-- What reviving `i` leads to, where it does not stop. -/
def revived (u : Body) (i : InstrId) : Body := (u.promoted i).restore i

theorem revive_eq_ok_iff {u u' : Body} {i : InstrId} :
    u.revive i = .ok u' ↔ u.dependents.get? i ≠ some [] ∧ u' = u.revived i := by
  rw [revive, bind_eq_ok_iff]
  constructor
  · rintro ⟨v, hv, h⟩
    cases h
    obtain ⟨hlist, rfl⟩ := promoteDependents_eq_ok_iff.1 hv
    exact ⟨hlist, rfl⟩
  · rintro ⟨hlist, rfl⟩
    exact ⟨_, promoteDependents_eq_ok_iff.2 ⟨hlist, rfl⟩, rfl⟩

/-- **Reviving never stops** where the books agree. -/
theorem Books.revive_eq {u : Body} (b : Books u) (i : InstrId) : u.revive i = .ok (u.revived i) :=
  revive_eq_ok_iff.2 ⟨b.nonempty i, rfl⟩

theorem sameShape_revived (u : Body) (i : InstrId) : u.graph.SameShape (u.revived i).graph :=
  (sameShape_promoted u i).trans (sameShape_restore _ i)

theorem op?_revived (u : Body) (i j : InstrId) : (u.revived i).graph.op? j = u.graph.op? j := by
  rw [revived, op?_restore, op?_promoted]

@[simp] theorem current_revived (u : Body) (i : InstrId) : (u.revived i).current = u.current := by
  rw [revived, restore, promoted]
  split <;> split <;> rfl

@[simp] theorem isSettled_revived (u : Body) (i : InstrId) :
    (u.revived i).isSettled = u.isSettled := by
  rw [revived, restore, promoted]
  split <;> split <;> rfl

@[simp] theorem incomplete_revived (u : Body) (i : InstrId) :
    (u.revived i).incomplete = u.incomplete := by
  rw [revived, restore, promoted]
  split <;> split <;> rfl

theorem Books.revived {u : Body} (b : Books u) (i : InstrId) : Books (u.revived i) :=
  (b.promoted i).restore i

/-- **What reviving an instruction does to stand-ins.** -/
theorem Books.revives {u : Body} (b : Books u) (i : InstrId) :
    u.graph.Revived i (u.revived i).graph := by
  have hstand : ∀ j, (u.revived i).graph.standIn? j =
      if j = i then none else (u.promoted i).graph.standIn? j :=
    standIn?_restore (u.promoted i) i
  refine {
    shape := sameShape_revived u i
    op?_eq := op?_revived u i
    live := by rw [hstand, if_pos rfl]
    alone := fun j => ?_
    standIn?_cases := fun j => ?_ }
  · rw [hstand]
    split
    · simp
    · cases h : u.dependentsOf i with
      | nil =>
        rw [promoted_of_nil h]
        intro hj
        rw [← b.mem_iff, h] at hj
        cases hj
      | cons p rest =>
        rw [b.standIn?_promote h]
        split
        · simp
        · split
          · simpa using b.ne_of_dependents h
          · assumption
  · rw [hstand]
    by_cases hj : j = i
    · exact .inr (.inl (if_pos hj))
    · rw [if_neg hj]
      cases h : u.dependentsOf i with
      | nil =>
        rw [promoted_of_nil h]
        exact .inl rfl
      | cons p rest =>
        have hpi := b.ne_of_dependents h
        rw [b.standIn?_promote h]
        by_cases hjp : j = p
        · exact .inr (.inl (if_pos hjp))
        · rw [if_neg hjp]
          by_cases hji : u.graph.standIn? j = some i
          · refine .inr (.inr ⟨p, hji, (b.mem_iff p i).1 (by rw [h]; simp), if_pos hji, ?_⟩)
            rw [hstand, if_neg hpi, b.standIn?_promote h, if_pos rfl]
          · exact .inl (if_neg hji)

/-- The books do not depend on what instructions do. -/
theorem Books.of_standIn {u u' : Body} (b : Books u) (hdep : u'.dependents = u.dependents)
    (hstand : ∀ j, u'.graph.standIn? j = u.graph.standIn? j) : Books u' := by
  have hof : ∀ e, u'.dependentsOf e = u.dependentsOf e := fun e => by
    rw [dependentsOf, hdep, dependentsOf]
  refine {
    mem_iff := fun d e => by rw [hof, hstand]; exact b.mem_iff d e
    nodup := fun e => by rw [hof]; exact b.nodup e
    nonempty := fun e => by rw [hdep]; exact b.nonempty e
    rooted := fun i => ?_ }
  obtain ⟨r, hr⟩ := b.rooted i
  exact ⟨r, hr.congr hstand⟩

/-- The books stay in order while an instruction is given another operation. -/
theorem Books.mapOp {u : Body} (b : Books u) (i : InstrId) (f : Operation → Operation) :
    Books { u with graph := u.graph.modifyInstr i (·.mapOp f) } :=
  b.of_standIn rfl fun _ => Graph.standIn?_modifyInstr_mapOp _ _ _ _

/-- Changing what `i` does and then undoing every sharing with it leaves matched instructions
matched. -/
theorem matched_revived {u v : Body} {i : InstrId} (hm : u.graph.Matched) (b : Books v)
    (hstand : ∀ j, v.graph.standIn? j = u.graph.standIn? j)
    (hop : ∀ j, j ≠ i → v.graph.op? j = u.graph.op? j) : (v.revived i).graph.Matched := by
  have hrev := b.revives i
  intro d e hde
  have hdi : d ≠ i := by
    rintro rfl
    rw [hrev.live] at hde
    cases hde
  have hei : e ≠ i := by
    rintro rfl
    exact hrev.alone d hde
  rw [hrev.op?_eq, hrev.op?_eq, hop d hdi, hop e hei]
  rcases hrev.standIn?_cases d with h | h | ⟨p, h₁, h₂, h₃, -⟩
  · rw [h, hstand] at hde
    exact hm d e hde
  · rw [h] at hde
    cases hde
  · -- `d` and its new stand-in computed the same as `i` did
    rw [h₃, Option.some.injEq] at hde
    subst hde
    rw [hstand] at h₁ h₂
    obtain ⟨od, oi, hod, hoi, harith, hsame⟩ := hm d i h₁
    obtain ⟨op, oi', hop', hoi', -, hsame'⟩ := hm p i h₂
    rw [hoi, Option.some.injEq] at hoi'
    subst hoi'
    exact ⟨od, op, hod, hop', harith, Operation.sameValue_join hsame hsame'⟩

/-! ## Books and operations together -/

/-- **Sharing is in order**: the books agree, and retired instructions compute what their stand-ins
compute. -/
structure Shares (u : Body) : Prop where
  books : u.Books
  matched : u.graph.Matched

namespace Shares

variable {u u' : Body}

/-- Sharing stays in order while no arithmetic and no stand-in changes. -/
theorem of_op (s : u.Shares) (hdep : u'.dependents = u.dependents)
    (hstand : ∀ j, u'.graph.standIn? j = u.graph.standIn? j)
    (hop : ∀ j op, op.arith?.isSome = true → u.graph.op? j = some op → u'.graph.op? j = some op) :
    u'.Shares :=
  ⟨s.books.of_standIn hdep hstand, s.matched.of_op hop hstand⟩

/-- An instruction is retired as soon as it has been placed, in favour of one that computes the
same. -/
theorem retireNew (s : u.Shares) {b : BlockId} {op oe : Operation} {e : InstrId} {g : Graph}
    (h : u.graph.Places b op g) (harith : op.arith?.isSome = true) (hop : u.graph.op? e = some oe)
    (hsame : oe.sameValue op = true) :
    (({ u with graph := g } : Body).retire u.graph.nextId e).Shares := by
  have hnew : u.graph.op? u.graph.nextId = none := by
    rw [Graph.op?, Graph.Places.instr?_nextId]
    rfl
  have hne : e ≠ u.graph.nextId := by
    rintro rfl
    rw [hnew] at hop
    cases hop
  have hlive : g.standIn? u.graph.nextId = none := by
    rw [h.standIn?_eq, Graph.standIn?, Graph.Places.instr?_nextId]
    rfl
  have hunused : ∀ j, g.standIn? j ≠ some u.graph.nextId := by
    intro j hj
    rw [h.standIn?_eq] at hj
    obtain ⟨-, oj, -, hoj, -⟩ := s.matched j _ hj
    rw [hnew] at hoj
    cases hoj
  have hbooks : Books { u with graph := g } := s.books.of_standIn rfl h.standIn?_eq
  refine ⟨hbooks.retire (by rw [h.instr?_new]; rfl) hlive hunused hne, ?_⟩
  intro d e' hde
  change (g.modifyInstr u.graph.nextId (·.setStandIn (some e))).standIn? d = some e' at hde
  change ∃ od oe, (g.modifyInstr u.graph.nextId (·.setStandIn (some e))).op? d = some od ∧
    (g.modifyInstr u.graph.nextId (·.setStandIn (some e))).op? e' = some oe ∧ _
  rw [Graph.op?_modifyInstr_setStandIn, Graph.op?_modifyInstr_setStandIn]
  rw [Graph.standIn?_modifyInstr_setStandIn] at hde
  split at hde
  · rename_i heq
    subst heq
    rw [h.instr?_new] at hde
    cases hde
    obtain ⟨k, l, r, l', r', rfl, rfl, hl, hr⟩ := Operation.sameValue_iff.1 hsame
    exact ⟨_, _, h.op?_new, (h.op?_eq rfl).2 (.inr ⟨hne, hop⟩), harith,
      Operation.sameValue_iff.2 ⟨k, l', r', l, r, rfl, rfl, hl.symm, hr.symm⟩⟩
  · exact s.matched.place h d e' hde

/-- The operation of `i` changes, and every sharing with it is undone. -/
theorem changeRevived (s : u.Shares) (i : InstrId) (f : Operation → Operation) :
    (({ u with graph := u.graph.modifyInstr i (·.mapOp f) } : Body).revived i).Shares := by
  have hstand : ∀ j, (u.graph.modifyInstr i (·.mapOp f)).standIn? j = u.graph.standIn? j := fun j =>
    Graph.standIn?_modifyInstr_mapOp _ _ _ _
  have hbooks := s.books.mapOp i f
  refine ⟨hbooks.revived i, matched_revived s.matched hbooks hstand fun j hj => ?_⟩
  rw [Graph.op?_modifyInstr_mapOp, if_neg (Ne.symm hj)]

end Shares

end Body
end StructuredSSA
