import Mathlib.Logic.Relation
import StructuredSSA.Proofs.Graph.Open

/-!
# Rewiring a graph

A construct can be opened at any block: at one that is linked to itself, at one that leads nowhere,
or at the very block that the construct is about to add.  The records of `Graph.OpensIf` and its
like do not hold there.  Here the three openings are taken apart into single changes, so that
whatever each change keeps, every opening keeps.

## What is here

* `Graph.Wires`, `Graph.Rewires` — one change to the blocks of a graph, and changes in a row.
* `Graph.Wired` — edges are recorded at both ends, and links and origins name blocks that exist.
* `Graph.Wires.wired`, `Graph.Wires.sameStock`, `Graph.Wires.loopHead_cases` — what one change
  keeps.
* `Graph.openIf_rewires`, `Graph.openElse_rewires`, `Graph.openLoop_rewires` — openings are made of
  such changes.
-/

set_option autoImplicit false

namespace StructuredSSA
namespace Graph

/-- **One change** to the blocks of a graph and their links.  Only a block that lists nothing
becomes the header of a loop. -/
inductive Wires (g : Graph) : Graph → Prop where
  | addBlock (r : Role) (dom : BlockId) : Wires g (g.withBlock r (g.offered dom))
  | link (e : Edge) (src dst : BlockId) (hs : src < g.blocks.size) (hd : dst < g.blocks.size) :
      Wires g (g.link e src dst)
  | unlinkNext (e : Edge) (src : BlockId) : Wires g (g.unlinkNext e src)
  | setOrigin (b origin : BlockId) (hb : b < g.blocks.size) (ho : origin < g.blocks.size) :
      Wires g (g.setOrigin b origin)
  | addRole (b : BlockId) (r : Role) (hb : b < g.blocks.size)
      (hempty : r = .loopHead → g.listed b = []) : Wires g (g.modifyBlock b (·.addRole r))

/-- Changes in a row. -/
def Rewires : Graph → Graph → Prop := Relation.ReflTransGen Wires

/-- **Edges are recorded at both of their ends**, and origins name blocks that exist. -/
structure Wired (g : Graph) : Prop where
  linked : g.Linked
  origin_lt : ∀ b o, g.originOf b = some o → o < g.blocks.size

theorem lt_size_of_originOf {g : Graph} {b o : BlockId} (h : g.originOf b = some o) :
    b < g.blocks.size := by
  obtain ⟨blk, hblk, -⟩ := Option.bind_eq_some_iff.1 h
  exact lt_size_of_block? hblk

theorem Wired.of_sameSkeleton {g g' : Graph} (h : SameSkeleton g g') (w : g.Wired) : g'.Wired where
  linked := w.linked.of_sameSkeleton h
  origin_lt b o ho := by
    rw [h.originOf_eq] at ho
    rw [h.size_eq]
    exact w.origin_lt b o ho

variable {g g₁ g' : Graph} {b head parent : BlockId}

@[simp] theorem size_link (g : Graph) (e : Edge) (src dst : BlockId) :
    (g.link e src dst).blocks.size = g.blocks.size :=
  (sameContents_link g e src dst).size_eq

@[simp] theorem size_unlinkNext (g : Graph) (e : Edge) (src : BlockId) :
    (g.unlinkNext e src).blocks.size = g.blocks.size :=
  (sameContents_unlinkNext g e src).size_eq

@[simp] theorem size_continueTo (g : Graph) (b : BlockId) (loop fall : Option BlockId) :
    (g.continueTo b loop fall).blocks.size = g.blocks.size :=
  (sameContents_continueTo g b loop fall).size_eq

/-! ## One change -/

namespace Wires

theorem sameStock (h : Wires g g') : SameStock g g' := by
  cases h with
  | addBlock r dom => exact sameStock_withBlock g r _
  | link e src dst hs hd => exact (sameContents_link g e src dst).sameStock
  | unlinkNext e src => exact (sameContents_unlinkNext g e src).sameStock
  | setOrigin b origin hb ho => exact sameStock_setOrigin g b origin
  | addRole b r hb hempty => exact sameStock_addRole g b r

theorem size_le (h : Wires g g') : g.blocks.size ≤ g'.blocks.size := by
  cases h with
  | addBlock r dom =>
    rw [size_withBlock]
    exact Nat.le_succ _
  | _ => simp

theorem wired (h : Wires g g') (w : g.Wired) : g'.Wired := by
  cases h with
  | addBlock r dom =>
    refine ⟨w.linked.withBlock r _, fun b o ho => ?_⟩
    rw [originOf_withBlock] at ho
    rw [size_withBlock]
    exact Nat.lt_succ_of_lt (w.origin_lt b o ho)
  | link e src dst hs hd =>
    refine ⟨w.linked.link hs hd e, fun b o ho => ?_⟩
    rw [(sameContents_link g e src dst).originOf_eq] at ho
    rw [size_link]
    exact w.origin_lt b o ho
  | unlinkNext e src =>
    refine ⟨w.linked.unlinkNext e src, fun b o ho => ?_⟩
    rw [(sameContents_unlinkNext g e src).originOf_eq] at ho
    rw [size_unlinkNext]
    exact w.origin_lt b o ho
  | setOrigin c origin hb hlt =>
    refine ⟨w.linked.setOrigin c origin, fun b o ho => ?_⟩
    rw [originOf_setOrigin hb] at ho
    rw [size_setOrigin]
    split at ho
    · cases ho
      exact hlt
    · exact w.origin_lt b o ho
  | addRole c r hb hempty =>
    refine ⟨w.linked.addRole c r, fun b o ho => ?_⟩
    rw [originOf_addRole] at ho
    rw [size_modifyBlock]
    exact w.origin_lt b o ho

/-- A loop header stays one, and a new one lists nothing yet. -/
theorem loopHead_cases (h : Wires g g') (b : BlockId) :
    g'.hasRole b .loopHead = g.hasRole b .loopHead ∨ g.listed b = [] := by
  cases h with
  | addBlock r dom =>
    rw [hasRole_withBlock]
    split
    · rename_i hb
      rw [hb, listed, block?_nextBlock]
      exact .inr rfl
    · exact .inl rfl
  | link e src dst hs hd => exact .inl ((sameContents_link g e src dst).hasRole_eq b .loopHead)
  | unlinkNext e src => exact .inl ((sameContents_unlinkNext g e src).hasRole_eq b .loopHead)
  | setOrigin c origin hb ho => exact .inl (hasRole_setOrigin g c origin b .loopHead)
  | addRole c r hc hempty =>
    rw [hasRole_addRole hc]
    by_cases hnew : b = c ∧ Role.loopHead = r
    · obtain ⟨rfl, rfl⟩ := hnew
      exact .inr (hempty rfl)
    · exact .inl (by simp [hnew])

end Wires

/-! ## Changes in a row -/

namespace Rewires

theorem wired (h : Rewires g g') (w : g.Wired) : g'.Wired := by
  induction h with
  | refl => exact w
  | tail _ hlast ih => exact hlast.wired ih

theorem size_le (h : Rewires g g') : g.blocks.size ≤ g'.blocks.size := by
  induction h with
  | refl => exact Nat.le_refl _
  | tail _ hlast ih => exact Nat.le_trans ih hlast.size_le

theorem continueTo (h : Rewires g g₁) (hb : b < g₁.blocks.size) {loop fall : Option BlockId}
    (hloop : ∀ c, loop = some c → c < g₁.blocks.size)
    (hfall : ∀ c, fall = some c → c < g₁.blocks.size) : Rewires g (g₁.continueTo b loop fall) := by
  cases loop with
  | some c => exact h.tail (.link .branch b c hb (hloop c rfl))
  | none =>
    cases fall with
    | some c => exact h.tail (.link .fall b c hb (hfall c rfl))
    | none => exact h

end Rewires

/-! ## Openings -/

/-- A block can be added under any block that exists by then, and so under itself. -/
theorem of_addBlockUnder {dom : BlockId} {r : Role} (h : g.addBlockUnder dom r = .ok (b, g')) :
    b = g.blocks.size ∧ g'.blocks.size = g.blocks.size + 1 ∧ dom < g'.blocks.size ∧
      Wires g g' := by
  have hdom : dom ≤ g.blocks.size := by
    obtain ⟨above, habove, -⟩ := bind_eq_ok_iff.1 h
    have hlt := lt_size_of_block? (block_eq_ok_iff.1 habove)
    simp only [addBlock, Array.size_push] at hlt
    exact Nat.le_of_lt_succ hlt
  rw [addBlockUnder_eq hdom] at h
  cases h
  rw [size_withBlock]
  exact ⟨rfl, rfl, Nat.lt_succ_of_le hdom, .addBlock r dom⟩

theorem lt_size_of_backEdge? {blk : Block} {c : BlockId} (h : g.backEdge? blk = some c) :
    c < g.blocks.size := by
  have hrole := (Option.filter_eq_some_iff.1 h).2
  rw [hasRole, Option.any_eq_true] at hrole
  obtain ⟨head, hhead, -⟩ := hrole
  exact lt_size_of_block? hhead

/-- The join takes over the exits of the block, whatever they are. -/
theorem openIf_rewires (h : g.openIf parent = .ok g') (w : g.Wired) : Rewires g g' := by
  rw [openIf] at h
  obtain ⟨⟨join, g₁⟩, hjoin, h⟩ := bind_eq_ok_iff.1 h
  obtain ⟨blk, hblk, h⟩ := bind_eq_ok_iff.1 h
  obtain ⟨⟨side, g₂⟩, hside, h⟩ := bind_eq_ok_iff.1 h
  obtain rfl := Except.ok.inj h
  obtain ⟨rfl, hsize₁, hparent, hadd₁⟩ := of_addBlockUnder hjoin
  obtain ⟨hlast, hsize₂, -, hadd₂⟩ := of_addBlockUnder hside
  rw [block_eq_ok_iff] at hblk
  -- the number of the side is simplified first: it would be unfolded wherever it is put in
  simp only [size_link, size_continueTo, size_setOrigin] at hlast hsize₂
  subst hlast
  have hjoin₁ : g.blocks.size < g₁.blocks.size := by omega
  have hjoin₂ : g.blocks.size < g₂.blocks.size := by omega
  have hside₂ : g₁.blocks.size < g₂.blocks.size := by omega
  have hparent₂ : parent < g₂.blocks.size := Nat.lt_trans hparent hside₂
  -- the block may be the join itself, so its exits are read off after the join has been added
  have horigin : Rewires g (g₁.setOrigin g.blocks.size parent) :=
    (Relation.ReflTransGen.single hadd₁).tail (.setOrigin _ _ hjoin₁ hparent)
  have hexits : Rewires g ((g₁.setOrigin g.blocks.size parent).continueTo g.blocks.size
      ((g₁.setOrigin g.blocks.size parent).backEdge? blk) blk.fallTo) := by
    refine horigin.continueTo (by rwa [size_setOrigin]) (fun c hc => lt_size_of_backEdge? hc) ?_
    intro c hc
    exact (horigin.wired w).linked.target_lt (e := .fall) (a := parent)
      (by rw [next, hblk]; exact hc)
  have hlinked := hexits.tail (.link .branch parent g.blocks.size (by simpa) (by simpa))
  exact (((hlinked.tail hadd₂).tail (.link .fall g₁.blocks.size g.blocks.size hside₂ hjoin₂)).tail
    (.link .fall parent g₁.blocks.size (by simpa) (by simpa))).tail
    (.addRole parent .ifHead (by simpa) (by simp))

theorem openElse_rewires (h : g.openElse parent = .ok (b, g')) (w : g.Wired) : Rewires g g' := by
  rw [openElse] at h
  obtain ⟨blk, hblk, h⟩ := bind_eq_ok_iff.1 h
  obtain ⟨-, -, h⟩ := bind_eq_ok_iff.1 h
  obtain ⟨join, hjoin, h⟩ := bind_eq_ok_iff.1 h
  obtain ⟨thenTail, htail, h⟩ := bind_eq_ok_iff.1 h
  obtain ⟨⟨side, g₁⟩, hside, h⟩ := bind_eq_ok_iff.1 h
  obtain ⟨rfl, rfl⟩ := Prod.mk.inj (Except.ok.inj h)
  obtain ⟨hlast, hsize₁, hparent, hadd⟩ := of_addBlockUnder hside
  simp only [size_link, size_unlinkNext] at hlast hsize₁
  subst hlast
  rw [block_eq_ok_iff] at hblk
  rw [expect_eq_ok_iff] at hjoin htail
  have hjoin' : join < g.blocks.size :=
    w.linked.target_lt (e := .branch) (a := parent) (by rw [next, hblk]; exact hjoin)
  have htail' : thenTail < g.blocks.size := lt_size_of_next ((w.linked .fall thenTail join).2 htail)
  have hturned : Rewires g ((g.unlinkNext .fall thenTail).link .branch thenTail join) :=
    (Relation.ReflTransGen.single (.unlinkNext .fall thenTail)).tail
      (.link .branch thenTail join (by simpa using htail') (by simpa using hjoin'))
  have hside₁ : g.blocks.size < g₁.blocks.size := by omega
  have hjoin₁ : join < g₁.blocks.size := Nat.lt_trans hjoin' hside₁
  exact ((hturned.tail hadd).tail (.link .branch parent g.blocks.size hparent hside₁)).tail
    (.link .fall g.blocks.size join (by simpa) (by simpa))

/-- The block itself becomes the header only if it lists nothing. -/
theorem openHead_rewires (h : g.openHead b = .ok (head, g')) :
    Rewires g g' ∧ head < g'.blocks.size := by
  rw [openHead] at h
  obtain ⟨blk, hblk, h⟩ := bind_eq_ok_iff.1 h
  rw [block_eq_ok_iff] at hblk
  have hb := lt_size_of_block? hblk
  split at h
  · rename_i hempty
    obtain ⟨rfl, rfl⟩ := Prod.mk.inj (Except.ok.inj h)
    rw [Bool.and_eq_true, Block.isEmpty, Bool.and_eq_true, List.isEmpty_iff] at hempty
    refine ⟨.single (.addRole b .loopHead hb fun _ => ?_), by simpa using hb⟩
    rw [listed, hblk]
    exact hempty.1.1
  · obtain ⟨⟨head', g₁⟩, hadd, h⟩ := bind_eq_ok_iff.1 h
    obtain ⟨rfl, rfl⟩ := Prod.mk.inj (Except.ok.inj h)
    obtain ⟨rfl, hsize, hb', hwires⟩ := of_addBlockUnder hadd
    have hhead : g.blocks.size < g₁.blocks.size := by omega
    have hlinked : Rewires g (g₁.link .fall b g.blocks.size) :=
      (Relation.ReflTransGen.single hwires).tail (.link .fall b g.blocks.size hb' hhead)
    exact ⟨hlinked, by simpa⟩

/-- The exit of the loop takes over the exits that the block had before. -/
theorem openLoop_rewires (h : g.openLoop b = .ok (head, g')) (w : g.Wired) : Rewires g g' := by
  rw [openLoop] at h
  obtain ⟨before, hbefore, h⟩ := bind_eq_ok_iff.1 h
  obtain ⟨⟨head', g₁⟩, hhead, h⟩ := bind_eq_ok_iff.1 h
  obtain ⟨⟨body, g₂⟩, hbody, h⟩ := bind_eq_ok_iff.1 h
  obtain ⟨⟨exit, g₃⟩, hexit, h⟩ := bind_eq_ok_iff.1 h
  obtain ⟨rfl, rfl⟩ := Prod.mk.inj (Except.ok.inj h)
  rw [block_eq_ok_iff] at hbefore
  have hcut : Rewires g (if (g.backEdge? before).isSome then g.unlinkNext .branch b else g) := by
    split
    · exact .single (.unlinkNext .branch b)
    · exact .refl
  obtain ⟨hopened, hhead₁⟩ := openHead_rewires hhead
  have hstart : Rewires g g₁ := hcut.trans hopened
  have hgrown := hstart.size_le
  obtain ⟨rfl, hsize₂, hhead₂, hadd₂⟩ := of_addBlockUnder hbody
  obtain ⟨hlast, hsize₃, hhead₃, hadd₃⟩ := of_addBlockUnder hexit
  simp only [size_link] at hlast hsize₃
  subst hlast
  have hbody₂ : g₁.blocks.size < g₂.blocks.size := by omega
  have hexit₃ : g₂.blocks.size < g₃.blocks.size := by omega
  have hgrown₃ : g.blocks.size ≤ g₃.blocks.size := by omega
  have hlooped := ((hstart.tail hadd₂).tail (.link .fall head' g₁.blocks.size hhead₂ hbody₂)).tail
    (.link .branch g₁.blocks.size head' (by simpa) (by simpa))
  have hleft := ((hlooped.tail hadd₃).tail (.setOrigin g₂.blocks.size head' hexit₃ hhead₃)).tail
    (.link .branch head' g₂.blocks.size (by simpa) (by simpa))
  refine Rewires.continueTo hleft (by simpa) (fun c hc => ?_) fun c hc => ?_
  · simpa using Nat.lt_of_lt_of_le (lt_size_of_backEdge? hc) hgrown₃
  · have hc' : c < g.blocks.size :=
      w.linked.target_lt (e := .fall) (a := b) (by rw [next, hbefore]; exact hc)
    simpa using Nat.lt_of_lt_of_le hc' hgrown₃

end Graph
end StructuredSSA
