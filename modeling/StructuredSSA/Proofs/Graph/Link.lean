import StructuredSSA.Proofs.Graph.View

/-!
# Edges are recorded at both ends

`Graph.Linked` says of a graph that its edges out of blocks and its edges into blocks are the same
edges.  `Graph.link` keeps this, and in a graph of this kind it has a simple effect: one edge is
added, and of the edges of its kind those are taken away that start or end where it does.
-/

set_option autoImplicit false

namespace StructuredSSA
namespace Graph

/-- Every edge is recorded at both of its ends. -/
def Linked (g : Graph) : Prop := ∀ e a b, g.next e a = some b ↔ g.prev e b = some a

theorem lt_size_of_next {g : Graph} {e : Edge} {a b : BlockId} (h : g.next e a = some b) :
    a < g.blocks.size := by
  obtain ⟨blk, hblk, -⟩ := Option.bind_eq_some_iff.1 h
  exact lt_size_of_block? hblk

theorem lt_size_of_prev {g : Graph} {e : Edge} {a b : BlockId} (h : g.prev e b = some a) :
    b < g.blocks.size := by
  obtain ⟨blk, hblk, -⟩ := Option.bind_eq_some_iff.1 h
  exact lt_size_of_block? hblk

theorem Linked.target_lt {g : Graph} (hg : g.Linked) {e : Edge} {a b : BlockId}
    (h : g.next e a = some b) : b < g.blocks.size :=
  lt_size_of_prev ((hg e a b).1 h)

/-- No two edges of one kind lead to the same block. -/
theorem Linked.source_unique {g : Graph} (hg : g.Linked) {e : Edge} {a a' b : BlockId}
    (h : g.next e a = some b) (h' : g.next e a' = some b) : a = a' := by
  have hp := (hg e a b).1 h
  rw [(hg e a' b).1 h'] at hp
  exact (Option.some.inj hp).symm

theorem Linked.of_sameSkeleton {g g' : Graph} (h : SameSkeleton g g') (hg : g.Linked) :
    g'.Linked := by
  intro e a b
  rw [h.next_eq, h.prev_eq]
  exact hg e a b

/-! ## Setting one end of an edge -/

theorem next_modifyBlock_setNext (g : Graph) (b c : BlockId) (e e' : Edge) (d : Option BlockId) :
    (g.modifyBlock b (·.setNext e d)).next e' c =
      if b = c ∧ e = e' then (g.block? c).bind (fun _ => d) else g.next e' c := by
  rw [next_modifyBlock]
  by_cases hb : b = c
  · simp only [hb, if_true, true_and, Block.next_setNext]
    split <;> rfl
  · simp [hb]

theorem prev_modifyBlock_setPrev (g : Graph) (b c : BlockId) (e e' : Edge) (d : Option BlockId) :
    (g.modifyBlock b (·.setPrev e d)).prev e' c =
      if b = c ∧ e = e' then (g.block? c).bind (fun _ => d) else g.prev e' c := by
  rw [prev_modifyBlock]
  by_cases hb : b = c
  · simp only [hb, if_true, true_and, Block.prev_setPrev]
    split <;> rfl
  · simp [hb]

@[simp] theorem prev_modifyBlock_setNext (g : Graph) (b c : BlockId) (e e' : Edge)
    (d : Option BlockId) : (g.modifyBlock b (·.setNext e d)).prev e' c = g.prev e' c := by
  rw [prev_modifyBlock]
  simp only [Block.prev_setNext]
  split <;> rfl

@[simp] theorem next_modifyBlock_setPrev (g : Graph) (b c : BlockId) (e e' : Edge)
    (d : Option BlockId) : (g.modifyBlock b (·.setPrev e d)).next e' c = g.next e' c := by
  rw [next_modifyBlock]
  simp only [Block.next_setPrev]
  split <;> rfl

/-! ## Taking an edge away -/

theorem next_unlinkNext (g : Graph) (e e' : Edge) (src a : BlockId) :
    (g.unlinkNext e src).next e' a = if src = a ∧ e = e' then none else g.next e' a := by
  rw [unlinkNext]
  split
  · rename_i h
    split
    · rename_i hc
      rw [← hc.1, ← hc.2]
      exact h
    · rfl
  · rw [next_modifyBlock_setPrev, next_modifyBlock_setNext]
    simp

theorem prev_unlinkNext (g : Graph) (e e' : Edge) (src b : BlockId) :
    (g.unlinkNext e src).prev e' b =
      if g.next e src = some b ∧ e = e' then none else g.prev e' b := by
  rw [unlinkNext]
  split
  · rename_i h
    rw [if_neg]
    rintro ⟨hn, -⟩
    rw [next, h] at hn
    cases hn
  · rename_i dst h
    rw [prev_modifyBlock_setPrev, prev_modifyBlock_setNext, next, h]
    simp

theorem next_unlinkPrev (g : Graph) (e e' : Edge) (dst a : BlockId) :
    (g.unlinkPrev e dst).next e' a =
      if g.prev e dst = some a ∧ e = e' then none else g.next e' a := by
  rw [unlinkPrev]
  split
  · rename_i h
    rw [if_neg]
    rintro ⟨hn, -⟩
    rw [prev, h] at hn
    cases hn
  · rename_i src h
    rw [next_modifyBlock_setNext, next_modifyBlock_setPrev, prev, h]
    simp

theorem prev_unlinkPrev (g : Graph) (e e' : Edge) (dst b : BlockId) :
    (g.unlinkPrev e dst).prev e' b = if dst = b ∧ e = e' then none else g.prev e' b := by
  rw [unlinkPrev]
  split
  · rename_i h
    split
    · rename_i hc
      rw [← hc.1, ← hc.2]
      exact h
    · rfl
  · rw [prev_modifyBlock_setNext, prev_modifyBlock_setPrev]
    simp

theorem sameContents_unlinkNext (g : Graph) (e : Edge) (src : BlockId) :
    SameContents g (g.unlinkNext e src) := by
  rw [unlinkNext]
  split
  · exact .refl g
  · exact (sameContents_modifyBlock _ _ fun _ => by cases e <;> rfl).trans
      (sameContents_modifyBlock _ _ fun _ => by cases e <;> rfl)

theorem sameContents_unlinkPrev (g : Graph) (e : Edge) (dst : BlockId) :
    SameContents g (g.unlinkPrev e dst) := by
  rw [unlinkPrev]
  split
  · exact .refl g
  · exact (sameContents_modifyBlock _ _ fun _ => by cases e <;> rfl).trans
      (sameContents_modifyBlock _ _ fun _ => by cases e <;> rfl)

theorem Linked.unlinkNext {g : Graph} (hg : g.Linked) (e : Edge) (src : BlockId) :
    (g.unlinkNext e src).Linked := by
  intro e' a b
  rw [next_unlinkNext, prev_unlinkNext]
  by_cases he : e = e'
  · subst he
    by_cases ha : src = a
    · subst ha
      simp only [and_self, if_true, and_true]
      split
      · simp
      · rename_i hne
        rw [← hg e src b]
        simp [hne]
    · simp only [ha, if_false, and_true]
      split
      · rename_i hb
        refine iff_of_false (fun h => ha (hg.source_unique hb h)) (by simp)
      · exact hg e a b
  · simp only [he, and_false, if_false]
    exact hg e' a b

/-! ## Adding an edge -/

theorem sameContents_link (g : Graph) (e : Edge) (src dst : BlockId) :
    SameContents g (g.link e src dst) := by
  rw [link]
  exact (((sameContents_unlinkNext g e src).trans (sameContents_unlinkPrev _ e dst)).trans
    (sameContents_modifyBlock _ _ fun _ => by cases e <;> rfl)).trans
      (sameContents_modifyBlock _ _ fun _ => by cases e <;> rfl)

/-- **The edges out of blocks after linking.** -/
theorem next_link {g : Graph} (hg : g.Linked) {src dst : BlockId} (hs : src < g.blocks.size)
    (e e' : Edge) (a : BlockId) :
    (g.link e src dst).next e' a =
      if e = e' then
        if a = src then some dst else if g.next e a = some dst then none else g.next e a
      else g.next e' a := by
  have hsame := (sameContents_unlinkNext g e src).trans (sameContents_unlinkPrev _ e dst)
  obtain ⟨blk, hblk⟩ := exists_block ((hsame.lt_size_iff src).2 hs)
  rw [link, next_modifyBlock_setPrev, next_modifyBlock_setNext, next_unlinkPrev, next_unlinkNext,
    prev_unlinkNext]
  by_cases he : e = e'
  · subst he
    by_cases ha : src = a
    · subst ha
      simp [hblk]
    · -- an edge into `dst` from elsewhere is what `unlinkPrev` takes away
      have hiff : (g.next e src = some dst → False) ∧ g.prev e dst = some a ↔
          g.next e a = some dst := by
        rw [hg e a dst]
        refine ⟨fun h => h.2, fun h => ⟨fun h' => ha ?_, h⟩⟩
        exact hg.source_unique h' ((hg e a dst).2 h)
      simp only [ha, Ne.symm ha, if_false, if_true, and_true]
      by_cases hn : g.next e a = some dst
      · have h := hiff.2 hn
        rw [if_neg h.1, if_pos h.2, if_pos hn]
      · rw [if_neg hn, if_neg]
        split
        · simp
        · rename_i hne
          exact fun h => hn (hiff.1 ⟨hne, h⟩)
  · simp [he]

/-- **The edges into blocks after linking.** -/
theorem prev_link {g : Graph} (hg : g.Linked) {src dst : BlockId} (hd : dst < g.blocks.size)
    (e e' : Edge) (b : BlockId) :
    (g.link e src dst).prev e' b =
      if e = e' then
        if b = dst then some src else if g.prev e b = some src then none else g.prev e b
      else g.prev e' b := by
  have hsame := (sameContents_unlinkNext g e src).trans (sameContents_unlinkPrev _ e dst)
  obtain ⟨blk, hblk⟩ := exists_block
    (((hsame.trans (sameContents_modifyBlock _ src (f := (·.setNext e (some dst)))
      fun _ => by cases e <;> rfl)).lt_size_iff dst).2 hd)
  rw [link, prev_modifyBlock_setPrev, prev_modifyBlock_setNext, prev_unlinkPrev, prev_unlinkNext]
  by_cases he : e = e'
  · subst he
    by_cases hb : dst = b
    · subst hb
      simp [hblk]
    · simp only [hb, Ne.symm hb, if_false, if_true, and_true, hg e src b]
  · simp [he]

/-- An edge into a block that no edge of its kind led to takes nothing away but the old edge out of
its source. -/
theorem next_link_fresh {g : Graph} (hg : g.Linked) {src dst : BlockId} (hs : src < g.blocks.size)
    {e : Edge} (hfresh : ∀ a, a ≠ src → g.next e a ≠ some dst) (e' : Edge) (a : BlockId) :
    (g.link e src dst).next e' a = if e = e' ∧ a = src then some dst else g.next e' a := by
  rw [next_link hg hs]
  by_cases he : e = e'
  · subst he
    by_cases ha : a = src
    · simp [ha]
    · simp [ha, hfresh a ha]
  · simp [he]

theorem Linked.link {g : Graph} (hg : g.Linked) {src dst : BlockId} (hs : src < g.blocks.size)
    (hd : dst < g.blocks.size) (e : Edge) : (g.link e src dst).Linked := by
  intro e' a b
  rw [next_link hg hs, prev_link hg hd]
  by_cases he : e = e'
  · subst he
    simp only [if_true]
    by_cases ha : a = src
    · subst ha
      by_cases hb : b = dst
      · simp [hb]
      · simp only [if_true, hb, if_false, Option.some.injEq, Ne.symm hb]
        split
        · simp
        · rename_i hne
          exact iff_of_false id hne
    · simp only [ha, if_false]
      by_cases hb : b = dst
      · subst hb
        simp only [if_true, Option.some.injEq, Ne.symm ha, iff_false]
        split
        · simp
        · assumption
      · simp only [hb, if_false]
        split
        · rename_i hn
          have hp := (hg e a dst).1 hn
          refine iff_of_false (by simp) ?_
          split
          · simp
          · rw [← hg e a b, hn, Option.some.injEq]
            exact Ne.symm hb
        · split
          · rename_i hp
            refine iff_of_false (fun h => ?_) (by simp)
            rw [(hg e a b).1 h, Option.some.injEq] at hp
            exact ha hp
          · exact hg e a b
  · simp only [he, if_false]
    exact hg e' a b

end Graph
end StructuredSSA
