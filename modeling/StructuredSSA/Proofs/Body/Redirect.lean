import StructuredSSA.Proofs.Body.Share

/-!
# Redirecting reads

A new loop phi takes over the reads of its variable that are in the loop already.  They are visited
one by one, in the order in which they were added, and after each the sharing that relied on its old
operands is undone.  This moves stand-ins between instructions that come later and instructions that
have been visited, so what the whole pass does has to be told apart from its order.

## What is here

* `Body.SameSetting` — construction stands where it stood.
* `Graph.Redirected` — reads have been redirected, and `Body.Shares.redirected_foldl` redirecting
  them one by one does it.
* `Body.withRead` — what redirecting one read leads to, and `Body.Shares.redirectRead_eq` that it
  never stops.
* `Graph.Apart` — nothing is shared with an instruction, and `Body.Shares.apart_foldl` this is so of
  every instruction that has been redirected.
* `Body.redirectFrom` — the pass of a new phi.
-/

set_option autoImplicit false

namespace StructuredSSA

namespace Operation

theorem redirect_eq_self {x : Var} {old : Option InstrId} {new : InstrId} {op : Operation}
    (h : op.reads x old = false) : op.redirect x old new = op := by
  have hmem : ∀ o ∈ op.operands, o.redirect x old new = o := by
    intro o ho
    rw [Operand.redirect, if_neg]
    rintro rfl
    have : op.reads x old = true := List.contains_iff_mem.2 ho
    rw [h] at this
    cases this
  cases op <;> simp_all [redirect, mapOperands, operands]

end Operation

/-- `g'` is `g` with the reads of `before` through `x` redirected to `phi` in the instructions
`is`. -/
structure Graph.Redirected (g : Graph) (x : Var) (before : Option InstrId) (phi : InstrId)
    (is : List InstrId) (g' : Graph) : Prop where
  shape : g.SameShape g'
  op?_eq : ∀ j, g'.op? j = if j ∈ is then (g.op? j).map (·.redirect x before phi) else g.op? j
  regroups : g.Regroups g'

/-- Redirected reads, by the number of the instruction. -/
theorem Graph.Redirected.op?_iff {g g' : Graph} {x : Var} {before : Option InstrId}
    {phi start : InstrId} (h : g.Redirected x before phi (List.range' start (phi - start)) g')
    {j : InstrId} {o : Operation} : g'.op? j = some o ↔ ∃ o', g.op? j = some o' ∧
      o = if start ≤ j ∧ j < phi then o'.redirect x before phi else o' := by
  have hrange : j ∈ List.range' start (phi - start) ↔ start ≤ j ∧ j < phi := by
    rw [List.mem_range'_1]
    dsimp only [InstrId] at *
    omega
  rw [h.op?_eq]
  by_cases hj : start ≤ j ∧ j < phi
  · rw [if_pos (hrange.2 hj), Option.map_eq_some_iff]
    simp only [if_pos hj, eq_comm]
  · rw [if_neg (mt hrange.1 hj)]
    simp [if_neg hj, eq_comm]

namespace Graph

variable {g g' : Graph} {i j : InstrId}

/-- Nothing stands in for `i`, and `i` stands in for nothing. -/
structure Apart (g : Graph) (i : InstrId) : Prop where
  live : g.standIn? i = none
  alone : ∀ j, g.standIn? j ≠ some i

theorem Revived.apart (h : g.Revived i g') : g'.Apart i := ⟨h.live, h.alone⟩

theorem Apart.congr (a : g.Apart i) (h : ∀ j, g'.standIn? j = g.standIn? j) : g'.Apart i :=
  ⟨(h i).trans a.live, fun j => by rw [h]; exact a.alone j⟩

/-- Where something else is revived, only its dependents are shared anew, and among themselves. -/
theorem Apart.revived (a : g.Apart i) (h : g.Revived j g') : g'.Apart i where
  live := h.regroups.live_of_live a.live
  alone k hk := by
    rcases h.standIn?_cases k with h' | h' | ⟨p, -, hp, h', -⟩
    · exact a.alone k (h'.symm.trans hk)
    · rw [h'] at hk
      cases hk
    · obtain rfl := Option.some.inj (h'.symm.trans hk)
      rw [a.live] at hp
      cases hp

end Graph

namespace Body

variable {u u' : Body}

/-! ## Where construction stands -/

/-- Construction stands where it stood. -/
structure SameSetting (u u' : Body) : Prop where
  current_eq : u'.current = u.current
  loopStarts_eq : u'.loopStarts = u.loopStarts
  options_eq : u'.options = u.options

/-- What redirecting the reads of instruction `i` leads to, where it does not stop. -/
def withRead (x : Var) (before : Option InstrId) (phi : InstrId) (u : Body) (i : InstrId) : Body :=
  if (u.graph.instr? i).any (·.op.reads x before) then
    (({ u with graph := u.graph.modifyInstr i (·.mapOp (·.redirect x before phi)) } : Body).revived
      i).noteCompletion i
  else
    u

namespace SameSetting

theorem refl (u : Body) : SameSetting u u := ⟨rfl, rfl, rfl⟩

theorem trans {u u' u'' : Body} (h : SameSetting u u') (h' : SameSetting u' u'') :
    SameSetting u u'' :=
  ⟨h'.current_eq.trans h.current_eq, h'.loopStarts_eq.trans h.loopStarts_eq,
    h'.options_eq.trans h.options_eq⟩

theorem revived (u : Body) (i : InstrId) : SameSetting u (u.revived i) := by
  rw [Body.revived, restore, promoted]
  split <;> split <;> exact ⟨rfl, rfl, rfl⟩

theorem withRead (x : Var) (before : Option InstrId) (phi : InstrId) (u : Body) (i : InstrId) :
    SameSetting u (u.withRead x before phi i) := by
  rw [Body.withRead]
  split
  · let v : Body := { u with graph := u.graph.modifyInstr i (·.mapOp (·.redirect x before phi)) }
    have hv : SameSetting u v := ⟨rfl, rfl, rfl⟩
    refine (hv.trans (revived v i)).trans ?_
    rw [noteCompletion]
    split
    · exact ⟨rfl, rfl, rfl⟩
    · exact .refl _
  · exact .refl u

end SameSetting

/-! ## One read -/

theorem eq_of_redirectRead {x : Var} {before : Option InstrId} {phi i : InstrId}
    (h : u.redirectRead x before phi i = .ok u') : u' = u.withRead x before phi i := by
  rw [redirectRead] at h
  rw [withRead]
  split at h
  · rename_i hreads
    obtain ⟨v, hv, h⟩ := bind_eq_ok_iff.1 h
    obtain ⟨-, rfl⟩ := revive_eq_ok_iff.1 hv
    cases h
    rw [if_pos hreads]
  · rename_i hreads
    cases h
    rw [if_neg hreads]

theorem graph_noteCompletion (u : Body) (i : InstrId) : (u.noteCompletion i).graph = u.graph := by
  rw [noteCompletion]
  split <;> rfl

theorem isSettled_withRead (u : Body) (x : Var) (before : Option InstrId) (phi i : InstrId) :
    (u.withRead x before phi i).isSettled = u.isSettled := by
  rw [withRead, noteCompletion]
  split
  · split <;> rw [isSettled_revived]
  · rfl

theorem isSettled_redirectRead {x : Var} {before : Option InstrId} {phi i : InstrId}
    (h : u.redirectRead x before phi i = .ok u') : u'.isSettled = u.isSettled := by
  rw [eq_of_redirectRead h, isSettled_withRead]

theorem withRead_eq_self {x : Var} {before : Option InstrId} {i : InstrId}
    (h : (u.graph.op? i).any (·.reads x before) = false) (phi : InstrId) :
    u.withRead x before phi i = u := by
  rw [Graph.op?, Option.any_map] at h
  rw [withRead, if_neg (by simpa using h)]

namespace Shares

/-- **Redirecting reads never stops** where sharing is in order. -/
theorem redirectRead_eq (s : u.Shares) (x : Var) (before : Option InstrId) (phi i : InstrId) :
    u.redirectRead x before phi i = .ok (u.withRead x before phi i) := by
  rw [redirectRead, Body.withRead]
  split
  · exact bind_eq_ok_iff.2 ⟨_, (s.books.mapOp i _).revive_eq i, rfl⟩
  · rfl

theorem withRead (s : u.Shares) (x : Var) (before : Option InstrId) (phi i : InstrId) :
    (u.withRead x before phi i).Shares := by
  rw [Body.withRead]
  split
  · have hrevived := s.changeRevived i (·.redirect x before phi)
    rw [noteCompletion]
    split
    · exact hrevived.of_op rfl (fun _ => rfl) fun _ _ _ hj => hj
    · exact hrevived
  · exact s

/-- An instruction that reads the variable gets new operands, and every sharing with it is
undone. -/
theorem revived_withRead (s : u.Shares) {x : Var} {before : Option InstrId} {i : InstrId}
    (h : (u.graph.op? i).any (·.reads x before) = true) (phi : InstrId) :
    (u.graph.modifyInstr i (·.mapOp (·.redirect x before phi))).Revived i
      (u.withRead x before phi i).graph := by
  rw [Graph.op?, Option.any_map] at h
  rw [Body.withRead, if_pos h, graph_noteCompletion]
  exact (s.books.mapOp i _).revives i

/-- What redirecting the reads of instruction `i` does to the graph. -/
theorem redirected_withRead (s : u.Shares) (x : Var) (before : Option InstrId)
    (phi i : InstrId) :
    u.graph.Redirected x before phi [i] (u.withRead x before phi i).graph := by
  cases hreads : (u.graph.op? i).any (·.reads x before) with
  | true =>
    have hrev := s.revived_withRead hreads phi
    refine ⟨(Graph.sameShape_mapOp u.graph i
      (Operation.similar_redirect x before phi)).trans hrev.shape, fun j => ?_,
      (Graph.Regroups.of_eq fun j => Graph.standIn?_modifyInstr_mapOp _ _ _ _).trans hrev.regroups⟩
    rw [hrev.op?_eq, Graph.op?_modifyInstr_mapOp]
    simp [eq_comm]
  | false =>
    rw [withRead_eq_self hreads]
    refine ⟨.refl _, fun j => ?_, .of_eq fun _ => rfl⟩
    split
    · rename_i hj
      obtain rfl := List.mem_singleton.1 hj
      cases hop : u.graph.op? j with
      | none => rfl
      | some op =>
        rw [hop, Option.any_some] at hreads
        rw [Option.map_some, Operation.redirect_eq_self hreads]
    · rfl

theorem foldlM_redirectRead_eq (s : u.Shares) (x : Var) (before : Option InstrId) (phi : InstrId)
    (is : List InstrId) :
    is.foldlM (Body.redirectRead x before phi) u =
      .ok (is.foldl (Body.withRead x before phi) u) := by
  induction is generalizing u with
  | nil => rfl
  | cons i is ih =>
    rw [List.foldlM_cons, s.redirectRead_eq x before phi i]
    exact ih (s.withRead x before phi i)

/-- Redirecting reads one by one redirects them all. -/
theorem redirected_foldl (s : u.Shares) (x : Var) (before : Option InstrId) (phi : InstrId)
    {is : List InstrId} (hnodup : is.Nodup) :
    u.graph.Redirected x before phi is (is.foldl (Body.withRead x before phi) u).graph ∧
      (is.foldl (Body.withRead x before phi) u).Shares := by
  induction is generalizing u with
  | nil => exact ⟨⟨.refl _, fun j => by simp, .of_eq fun _ => rfl⟩, s⟩
  | cons i is ih =>
    obtain ⟨hi, his⟩ := List.nodup_cons.1 hnodup
    have hone := s.redirected_withRead x before phi i
    obtain ⟨hrest, s'⟩ := ih (s.withRead x before phi i) his
    refine ⟨⟨hone.shape.trans hrest.shape, fun j => ?_, hone.regroups.trans hrest.regroups⟩, s'⟩
    rw [List.foldl_cons, hrest.op?_eq, hone.op?_eq]
    by_cases hj : j = i
    · subst hj
      simp [hi]
    · simp [hj]

theorem apart_withRead (s : u.Shares) {j : InstrId} (a : u.graph.Apart j) (x : Var)
    (before : Option InstrId) (phi i : InstrId) :
    (u.withRead x before phi i).graph.Apart j := by
  cases hreads : (u.graph.op? i).any (·.reads x before) with
  | true =>
    exact (a.congr fun j => Graph.standIn?_modifyInstr_mapOp _ _ _ _).revived
      (s.revived_withRead hreads phi)
  | false => rwa [withRead_eq_self hreads]

theorem apart_of_apart (s : u.Shares) {j : InstrId} (a : u.graph.Apart j) (x : Var)
    (before : Option InstrId) (phi : InstrId) (is : List InstrId) :
    (is.foldl (Body.withRead x before phi) u).graph.Apart j := by
  induction is generalizing u with
  | nil => exact a
  | cons i is ih =>
    exact ih (s.withRead x before phi i) (s.apart_withRead a x before phi i)

/-- **Nothing is shared with an instruction that has been redirected**, whatever has been redirected
before and after it. -/
theorem apart_foldl (s : u.Shares) {x : Var} {before : Option InstrId} (phi : InstrId)
    {is : List InstrId} (hnodup : is.Nodup) {i : InstrId} (hi : i ∈ is)
    (hreads : (u.graph.op? i).any (·.reads x before) = true) :
    (is.foldl (Body.withRead x before phi) u).graph.Apart i := by
  induction is generalizing u with
  | nil => cases hi
  | cons j is ih =>
    have s' := s.withRead x before phi j
    by_cases hij : i = j
    · subst hij
      exact s'.apart_of_apart (s.revived_withRead hreads phi).apart x before phi is
    · -- the visit to `j` leaves the operands of `i` as they were
      refine ih s' (List.nodup_cons.1 hnodup).2 ((List.mem_cons.1 hi).resolve_left hij) ?_
      rwa [(s.redirected_withRead x before phi j).op?_eq,
        if_neg fun hmem => hij (List.mem_singleton.1 hmem)]

end Shares

/-! ## The pass of a new phi -/

/-- Redirects the reads of `before` through `x` from `start` on, up to the phi itself. -/
def redirectFrom (x : Var) (before : Option InstrId) (phi start : InstrId) (u : Body) : Body :=
  (List.range' start (phi - start)).foldl (withRead x before phi) u

theorem Shares.redirected_redirectFrom (s : u.Shares) (x : Var) (before : Option InstrId)
    (phi start : InstrId) :
    u.graph.Redirected x before phi (List.range' start (phi - start))
      (redirectFrom x before phi start u).graph :=
  (s.redirected_foldl x before phi List.nodup_range').1

theorem SameSetting.redirectFrom (x : Var) (before : Option InstrId)
    (phi start : InstrId) (u : Body) : SameSetting u (redirectFrom x before phi start u) := by
  rw [Body.redirectFrom]
  generalize List.range' start (phi - start) = is
  induction is generalizing u with
  | nil => exact .refl u
  | cons i is ih => exact (withRead x before phi u i).trans (ih _)

end Body
end StructuredSSA
