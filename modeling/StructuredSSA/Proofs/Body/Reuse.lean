import StructuredSSA.Proofs.Body.Share

/-!
# What the search for a result to share finds

`Body.shareable?` looks among the instructions that the current block is offered.  Whatever it finds
exists and computes the operation that it was asked for.

## What is here

* `Graph.mem_of_firstWhose` — the search through one list.
* `Body.identical_of_shareable?`, `Body.equivalent_of_shareable?` — the two kinds of answer.
* `Body.emit_cases` — the three ways in which an operation is added.
-/

set_option autoImplicit false

namespace StructuredSSA

namespace Graph

variable {g : Graph} {a : Available} {op : Operation} {i : InstrId}

theorem mem_of_firstWhose {p : Operation → Bool} {is : List InstrId}
    (h : g.firstWhose p is = .ok (some i)) : i ∈ is ∧ ∃ o, g.op? i = some o ∧ p o = true := by
  induction is with
  | nil => cases h
  | cons j is ih =>
    obtain ⟨ins, hins, h⟩ := bind_eq_ok_iff.1 h
    split at h
    · rename_i hp
      cases h
      exact ⟨by simp, ins.op, by rw [op?, instr_eq_ok_iff.1 hins]; rfl, hp⟩
    · obtain ⟨hmem, ho⟩ := ih h
      exact ⟨List.mem_cons_of_mem _ hmem, ho⟩

/-- A search passes over what does not satisfy `p`. -/
theorem exists_split_of_firstWhose {p : Operation → Bool} {is : List InstrId}
    (h : g.firstWhose p is = .ok (some i)) : ∃ newer older, is = newer ++ i :: older ∧
      ∀ j ∈ newer, ∃ o, g.op? j = some o ∧ p o = false := by
  induction is with
  | nil => cases h
  | cons j is ih =>
    obtain ⟨ins, hins, h⟩ := bind_eq_ok_iff.1 h
    split at h
    · cases h
      exact ⟨[], is, rfl, by simp⟩
    · rename_i hp
      obtain ⟨newer, older, rfl, hnewer⟩ := ih h
      refine ⟨j :: newer, older, rfl, fun j' hj' => ?_⟩
      rcases List.mem_cons.1 hj' with rfl | hj'
      · exact ⟨ins.op, by rw [op?, instr_eq_ok_iff.1 hins]; rfl, by simpa using hp⟩
      · exact hnewer j' hj'

theorem firstWhose_of_split {p : Operation → Bool} {newer older : List InstrId} {o : Operation}
    (hnewer : ∀ j ∈ newer, ∃ o, g.op? j = some o ∧ p o = false) (hi : g.op? i = some o)
    (hp : p o = true) : g.firstWhose p (newer ++ i :: older) = .ok (some i) := by
  have hinstr : ∀ {j o'}, g.op? j = some o' → ∃ ins, g.instr j = .ok ins ∧ ins.op = o' := by
    intro j o' h
    obtain ⟨ins, hins, hop⟩ := Option.map_eq_some_iff.1 h
    exact ⟨ins, instr_eq_ok_iff.2 hins, hop⟩
  induction newer with
  | nil =>
    obtain ⟨ins, hins, rfl⟩ := hinstr hi
    simp only [List.nil_append, firstWhose, hins, hp, bind, Except.bind, if_true, pure, Except.pure]
  | cons j newer ih =>
    obtain ⟨o', hj, hpj⟩ := hnewer j (by simp)
    obtain ⟨ins, hins, rfl⟩ := hinstr hj
    simp only [List.cons_append, firstWhose, hins, hpj, bind, Except.bind, Bool.false_eq_true,
      if_false]
    exact ih fun j' hj' => hnewer j' (List.mem_cons_of_mem _ hj')

/-- A search among instructions that exist succeeds. -/
theorem exists_firstWhose (p : Operation → Bool) {is : List InstrId}
    (h : ∀ i ∈ is, (g.op? i).isSome = true) : ∃ r, g.firstWhose p is = .ok r := by
  induction is with
  | nil => exact ⟨none, rfl⟩
  | cons i is ih =>
    have hi := h i (by simp)
    rw [op?, Option.isSome_map] at hi
    obtain ⟨ins, hins⟩ := Option.isSome_iff_exists.1 hi
    have hins' : g.instr i = .ok ins := instr_eq_ok_iff.2 hins
    obtain ⟨r, hr⟩ := ih fun j hj => h j (List.mem_cons_of_mem _ hj)
    simp only [firstWhose, hins', hr, bind, Except.bind, pure, Except.pure]
    split <;> exact ⟨_, rfl⟩

/-- A search for operations among instructions that exist succeeds. -/
theorem exists_match (h : ∀ k, ∀ i ∈ a.candidates k, (g.op? i).isSome = true) (op : Operation) :
    ∃ m, g.match? a op = .ok m := by
  rw [match?]
  split
  · exact ⟨none, rfl⟩
  · rename_i k _
    obtain ⟨r, hr⟩ := exists_firstWhose (fun o => decide (o = op)) (h k)
    obtain ⟨r', hr'⟩ := exists_firstWhose (fun o => o.sameValue op) (h k)
    simp only [hr, hr', bind, Except.bind, pure, Except.pure]
    split <;> exact ⟨_, rfl⟩

theorem identical_of_match? (h : g.match? a op = .ok (some (.identical i))) :
    ∃ k, i ∈ a.candidates k ∧ g.op? i = some op ∧ op.arith? = some k := by
  rw [match?] at h
  split at h
  · cases h
  · rename_i k hk
    obtain ⟨r, hr, h⟩ := bind_eq_ok_iff.1 h
    split at h
    · cases h
      obtain ⟨hmem, o, ho, heq⟩ := mem_of_firstWhose hr
      exact ⟨k, hmem, by rw [ho, of_decide_eq_true heq], hk⟩
    · obtain ⟨r', -, h⟩ := bind_eq_ok_iff.1 h
      cases r' <;> cases h

/-- What is offered ahead of an identical instruction differs. -/
theorem exists_split_of_match? (h : g.match? a op = .ok (some (.identical i))) :
    ∃ k newer older, op.arith? = some k ∧ a.candidates k = newer ++ i :: older ∧
      ∀ j ∈ newer, ∃ o, g.op? j = some o ∧ o ≠ op := by
  rw [match?] at h
  split at h
  · cases h
  · rename_i k hk
    obtain ⟨r, hr, h⟩ := bind_eq_ok_iff.1 h
    split at h
    · cases h
      obtain ⟨newer, older, hsplit, hnewer⟩ := exists_split_of_firstWhose hr
      refine ⟨k, newer, older, hk, hsplit, fun j hj => ?_⟩
      obtain ⟨o, ho, hne⟩ := hnewer j hj
      exact ⟨o, ho, of_decide_eq_false hne⟩
    · obtain ⟨r', -, h⟩ := bind_eq_ok_iff.1 h
      cases r' <;> cases h

theorem equivalent_of_match? (h : g.match? a op = .ok (some (.equivalent i))) :
    ∃ k oe, i ∈ a.candidates k ∧ g.op? i = some oe ∧ op.arith? = some k ∧
      oe.sameValue op = true := by
  rw [match?] at h
  split at h
  · cases h
  · rename_i k hk
    obtain ⟨r, hr, h⟩ := bind_eq_ok_iff.1 h
    split at h
    · cases h
    · obtain ⟨r', hr', h⟩ := bind_eq_ok_iff.1 h
      cases r' with
      | none => cases h
      | some j =>
        cases h
        obtain ⟨hmem, o, ho, hsame⟩ := mem_of_firstWhose hr'
        exact ⟨k, o, hmem, ho, hk, hsame⟩

end Graph

namespace Body

variable {u u' : Body} {op : Operation} {i e : InstrId}

/-- An answer comes from what the current block is offered. -/
theorem match?_of_shareable? {m : Match} (h : u.shareable? op = .ok (some m)) :
    u.options.share = true ∧ u.graph.match? (u.graph.offered u.current) op = .ok (some m) := by
  rw [shareable?] at h
  split at h
  · rename_i hshare
    obtain ⟨blk, hblk, h⟩ := bind_eq_ok_iff.1 h
    refine ⟨hshare, ?_⟩
    rw [Graph.offered, Graph.block_eq_ok_iff.1 hblk]
    exact h
  · cases h

theorem identical_of_shareable? (h : u.shareable? op = .ok (some (.identical e))) :
    ∃ k, e ∈ (u.graph.offered u.current).candidates k ∧ u.graph.op? e = some op ∧
      op.arith? = some k :=
  Graph.identical_of_match? (match?_of_shareable? h).2

theorem equivalent_of_shareable? (h : u.shareable? op = .ok (some (.equivalent e))) :
    ∃ k oe, e ∈ (u.graph.offered u.current).candidates k ∧ u.graph.op? e = some oe ∧
      op.arith? = some k ∧ oe.sameValue op = true :=
  Graph.equivalent_of_match? (match?_of_shareable? h).2

/-- A search among what exists does not stop. -/
theorem exists_shareable (hcurrent : u.current < u.graph.blocks.size)
    (hoffers : ∀ k, ∀ j ∈ (u.graph.offered u.current).candidates k, (u.graph.op? j).isSome = true)
    (op : Operation) : ∃ m, u.shareable? op = .ok m := by
  rw [shareable?]
  split
  · obtain ⟨blk, hblk⟩ := Graph.exists_block hcurrent
    rw [Graph.offered, hblk] at hoffers
    obtain ⟨m, hm⟩ := Graph.exists_match (a := blk.available) hoffers op
    exact ⟨m, by simp only [Graph.block_eq_ok_iff.2 hblk, bind, Except.bind, hm]⟩
  · exact ⟨none, rfl⟩

/-- **The three ways in which an operation is added**: it is there already, it is retired in favour
of an instruction that computes the same, or it is placed. -/
theorem emit_cases (h : u.emit op = .ok (i, u')) : u' = u ∨
    (∃ e oe, op.arith?.isSome = true ∧ u.graph.op? e = some oe ∧ oe.sameValue op = true ∧
      u.placeRetired op e = .ok (i, u')) ∨
    u.place u.current op = .ok (i, u') := by
  obtain ⟨-, -, h⟩ := bind_eq_ok_iff.1 h
  obtain ⟨m, hm, h⟩ := bind_eq_ok_iff.1 h
  split at h
  · obtain ⟨k, -, hop, hk⟩ := identical_of_shareable? hm
    have harith : op.arith?.isSome = true := by rw [hk]; rfl
    split at h
    · exact .inr (.inl ⟨_, op, harith, hop, Operation.sameValue_self harith, h⟩)
    · cases h
      exact .inl rfl
  · obtain ⟨k, oe, -, hop, hk, hsame⟩ := equivalent_of_shareable? hm
    exact .inr (.inl ⟨_, oe, by rw [hk]; rfl, hop, hsame, h⟩)
  · exact .inr (.inr h)

end Body
end StructuredSSA
