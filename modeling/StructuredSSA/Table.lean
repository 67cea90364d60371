/-!
# Finite tables

A `Table α` maps finitely many natural numbers to values.  It is the list of its entries in
ascending order of their keys, so two tables with the same entries are equal, and walking a table
visits the keys in order.  Blocks bind variables in one, and a body under construction keeps its
books in two more.

## What is here

* `Table.get?`, `Table.insert`, `Table.erase`, `Table.update`, `Table.mapValues`,
  `Table.addMissing` — the operations.
* `Table.get?_insert`, `Table.get?_erase`, `Table.get?_update`, `Table.get?_mapValues`,
  `Table.get?_addMissing` — what each of them does to a look-up.
-/

set_option autoImplicit false

namespace StructuredSSA

/-- A finite map from natural numbers, as its entries in ascending order of their keys. -/
structure Table (α : Type) where
  /-- The entries, one for each key that is bound. -/
  entries : List (Nat × α)
  /-- The keys stand in strictly ascending order. -/
  ascending : entries.Pairwise (fun a b => a.1 < b.1)
deriving DecidableEq

namespace Table

variable {α β : Type}

/-! ## Entry lists -/

/-- The value that an entry list holds at `k`. -/
def find (k : Nat) : List (Nat × α) → Option α
  | [] => none
  | (k', v) :: rest => if k' = k then some v else find k rest

/-- Puts `v` at `k` into an ascending entry list, in place of what stood there. -/
def insertEntry (k : Nat) (v : α) : List (Nat × α) → List (Nat × α)
  | [] => [(k, v)]
  | (k', v') :: rest =>
    if k < k' then (k, v) :: (k', v') :: rest
    else if k = k' then (k, v) :: rest
    else (k', v') :: insertEntry k v rest

theorem mem_insertEntry {k : Nat} {v : α} {e : Nat × α} {l : List (Nat × α)}
    (h : e ∈ insertEntry k v l) : e = (k, v) ∨ e ∈ l := by
  induction l with
  | nil => simpa [insertEntry] using h
  | cons hd tl ih =>
    obtain ⟨k', v'⟩ := hd
    rw [insertEntry] at h
    split at h
    · simpa using h
    · split at h
      · rcases List.mem_cons.1 h with h | h
        · exact .inl h
        · exact .inr (List.mem_cons_of_mem _ h)
      · rcases List.mem_cons.1 h with h | h
        · exact .inr (by simp [h])
        · exact (ih h).imp id (List.mem_cons_of_mem _)

theorem pairwise_insertEntry (k : Nat) (v : α) {l : List (Nat × α)}
    (h : l.Pairwise (fun a b => a.1 < b.1)) :
    (insertEntry k v l).Pairwise (fun a b => a.1 < b.1) := by
  induction l with
  | nil => simp [insertEntry]
  | cons hd tl ih =>
    obtain ⟨k', v'⟩ := hd
    have ⟨hhd, htl⟩ := List.pairwise_cons.1 h
    rw [insertEntry]
    split
    · rename_i hlt
      refine List.pairwise_cons.2 ⟨fun e he => ?_, h⟩
      rcases List.mem_cons.1 he with rfl | he
      · exact hlt
      · exact Nat.lt_trans hlt (hhd e he)
    · split
      · rename_i heq
        subst heq
        exact List.pairwise_cons.2 ⟨hhd, htl⟩
      · refine List.pairwise_cons.2 ⟨fun e he => ?_, ih htl⟩
        rcases mem_insertEntry he with rfl | he
        · show k' < k
          omega
        · exact hhd e he

theorem find_insertEntry (k j : Nat) (v : α) (l : List (Nat × α)) :
    find j (insertEntry k v l) = if k = j then some v else find j l := by
  induction l with
  | nil => simp [insertEntry, find]
  | cons hd tl ih =>
    obtain ⟨k', v'⟩ := hd
    grind [insertEntry, find]

theorem find_filter_ne (k j : Nat) (l : List (Nat × α)) :
    find j (l.filter (fun e => e.1 != k)) = if k = j then none else find j l := by
  induction l with
  | nil => simp [find]
  | cons hd tl ih => grind [find]

theorem find_map (f : α → β) (k : Nat) (l : List (Nat × α)) :
    find k (l.map (fun e => (e.1, f e.2))) = (find k l).map f := by
  induction l with
  | nil => rfl
  | cons hd tl ih => grind [find]

theorem find_eq_some_iff {k : Nat} {v : α} {l : List (Nat × α)}
    (h : l.Pairwise (fun a b => a.1 < b.1)) : find k l = some v ↔ (k, v) ∈ l := by
  induction l with
  | nil => simp [find]
  | cons hd tl ih =>
    obtain ⟨k', v'⟩ := hd
    have ⟨hhd, htl⟩ := List.pairwise_cons.1 h
    rw [find]
    split
    · rename_i heq
      subst heq
      constructor
      · intro hv
        simp only [Option.some.injEq] at hv
        simp [hv]
      · intro hm
        rcases List.mem_cons.1 hm with hm | hm
        · simp only [Prod.mk.injEq, true_and] at hm
          simp [hm]
        · exact absurd (hhd _ hm) (Nat.lt_irrefl _)
    · rename_i hne
      rw [ih htl, List.mem_cons]
      constructor
      · exact .inr
      · rintro (hm | hm)
        · exact absurd (congrArg Prod.fst hm).symm hne
        · exact hm

/-! ## Operations -/

/-- The table that binds nothing. -/
def empty : Table α := ⟨[], List.Pairwise.nil⟩

instance : EmptyCollection (Table α) := ⟨empty⟩

/-- The value bound to `k`. -/
def get? (t : Table α) (k : Nat) : Option α := find k t.entries

/-- Binds `k` to `v`, whatever it was bound to. -/
def insert (t : Table α) (k : Nat) (v : α) : Table α :=
  ⟨insertEntry k v t.entries, pairwise_insertEntry k v t.ascending⟩

/-- Unbinds `k`. -/
def erase (t : Table α) (k : Nat) : Table α :=
  ⟨t.entries.filter (fun e => e.1 != k), t.ascending.filter _⟩

/-- Binds `k` to `v?`, or unbinds it when there is no value. -/
def update (t : Table α) (k : Nat) : Option α → Table α
  | some v => t.insert k v
  | none => t.erase k

/-- Applies `f` to every value. -/
def mapValues (f : α → β) (t : Table α) : Table β :=
  ⟨t.entries.map (fun e => (e.1, f e.2)), List.pairwise_map.2 t.ascending⟩

/-- Takes over the bindings of `other` for the keys that `t` does not bind. -/
def addMissing (t other : Table α) : Table α :=
  other.entries.foldl (fun t e => if (t.get? e.1).isSome then t else t.insert e.1 e.2) t

/-- The keys that are bound, in ascending order. -/
def keys (t : Table α) : List Nat := t.entries.map Prod.fst

/-- The values, in the order of their keys. -/
def values (t : Table α) : List α := t.entries.map Prod.snd

/-- The table that binds exactly the members of `ks`. -/
def ofKeys (ks : List Nat) : Table Unit := ks.foldl (fun t k => t.insert k ()) ∅

/-! ## Look-ups -/

@[simp] theorem get?_empty (k : Nat) : (∅ : Table α).get? k = none := rfl

theorem get?_insert (t : Table α) (k j : Nat) (v : α) :
    (t.insert k v).get? j = if k = j then some v else t.get? j :=
  find_insertEntry k j v t.entries

theorem get?_erase (t : Table α) (k j : Nat) :
    (t.erase k).get? j = if k = j then none else t.get? j :=
  find_filter_ne k j t.entries

theorem get?_update (t : Table α) (k j : Nat) (v? : Option α) :
    (t.update k v?).get? j = if k = j then v? else t.get? j := by
  cases v? with
  | none => exact get?_erase t k j
  | some v => exact get?_insert t k j v

@[simp] theorem get?_mapValues (f : α → β) (t : Table α) (k : Nat) :
    (t.mapValues f).get? k = (t.get? k).map f :=
  find_map f k t.entries

theorem get?_eq_some_iff {t : Table α} {k : Nat} {v : α} :
    t.get? k = some v ↔ (k, v) ∈ t.entries :=
  find_eq_some_iff t.ascending

theorem get?_foldl_addMissing (l : List (Nat × α)) (t : Table α) (k : Nat) :
    (l.foldl (fun t e => if (t.get? e.1).isSome then t else t.insert e.1 e.2) t).get? k =
      (t.get? k).or (find k l) := by
  induction l generalizing t with
  | nil => simp [find]
  | cons hd tl ih =>
    obtain ⟨k', v'⟩ := hd
    rw [List.foldl_cons, ih, find]
    by_cases hk : k' = k
    · subst hk
      cases h : t.get? k' with
      | none => simp [get?_insert]
      | some v => simp [h]
    · split <;> simp [get?_insert, hk]

/-- A key keeps its own binding and takes the other table's only where it has none. -/
theorem get?_addMissing (t other : Table α) (k : Nat) :
    (t.addMissing other).get? k = (t.get? k).or (other.get? k) :=
  get?_foldl_addMissing other.entries t k

theorem mem_keys {t : Table α} {k : Nat} : k ∈ t.keys ↔ (t.get? k).isSome := by
  simp only [keys, List.mem_map, Option.isSome_iff_exists, get?_eq_some_iff]
  constructor
  · rintro ⟨⟨k', v⟩, h, rfl⟩
    exact ⟨v, h⟩
  · rintro ⟨v, h⟩
    exact ⟨(k, v), h, rfl⟩

theorem mem_values {t : Table α} {v : α} : v ∈ t.values ↔ ∃ k, t.get? k = some v := by
  simp only [values, List.mem_map, get?_eq_some_iff]
  constructor
  · rintro ⟨⟨k, v'⟩, h, rfl⟩
    exact ⟨k, h⟩
  · rintro ⟨k, h⟩
    exact ⟨(k, v), h, rfl⟩

theorem get?_foldl_insert_unit (ks : List Nat) (t : Table Unit) (k : Nat) :
    ((ks.foldl (fun t k => t.insert k ()) t).get? k).isSome ↔ k ∈ ks ∨ (t.get? k).isSome := by
  induction ks generalizing t with
  | nil => simp
  | cons a ks ih =>
    rw [List.foldl_cons, ih, get?_insert]
    by_cases h : a = k
    · simp [h]
    · simp [h, Ne.symm h]

/-- The keys of `ofKeys ks` are the members of `ks`, each once and in ascending order. -/
theorem mem_keys_ofKeys {ks : List Nat} {k : Nat} : k ∈ (ofKeys ks).keys ↔ k ∈ ks := by
  rw [mem_keys, ofKeys, get?_foldl_insert_unit]
  simp

end Table

end StructuredSSA
