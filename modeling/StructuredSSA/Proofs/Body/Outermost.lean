import StructuredSSA.Proofs.Body.Effect
import StructuredSSA.Proofs.Body.Run
import StructuredSSA.Proofs.Body.Settled
import StructuredSSA.Proofs.Graph.Develop

/-!
# A block that no construct is around

The edges out of a block tell which construct it is in: the end of an if side falls through into a
join, and the end of a loop body branches back to the header.  The entry of a body never comes to
lie in a construct, at whatever blocks constructs are opened.  It falls through to no join; and like
any block that holds the test of an if, it branches to no loop header.  The latter has to be known
of all these blocks at once, because an else side turns a fallthrough edge into a branch edge to
where the test branched to.

## What is here

* `Graph.Detached` — where the block and the tests of ifs lead.
* `Graph.Detached.openIf`, `Graph.Detached.openElse`, `Graph.Detached.openLoop` — openings keep it.
* `Graph.Detached.region_eq` — no construct is around the block.
* `Body.Reachable.detached` — so it is with the entry of every body that can be built.
-/

set_option autoImplicit false

namespace StructuredSSA
namespace Graph

variable {g g₁ g' : Graph} {tests : BlockId → Prop} {root b c head parent : BlockId}

/-- **Where `root` leads**: it falls through to no join, and it is one of the blocks `tests`, which
branch to no loop header.  All blocks that hold the test of an if are among these. -/
structure Detached (g : Graph) (root : BlockId) (tests : BlockId → Prop) : Prop where
  linked : g.Linked
  root_tests : tests root
  ifHead_tests : ∀ b, g.hasRole b .ifHead = true → tests b
  lt_size : ∀ b, tests b → b < g.blocks.size
  fall : ∀ c, g.next .fall root = some c → g.hasRole c .join = false
  branch : ∀ b c, tests b → g.next .branch b = some c → g.hasRole c .loopHead = false

/-! ## Roles -/

@[simp] theorem hasRole_link (g : Graph) (e : Edge) (src dst c : BlockId) (r : Role) :
    (g.link e src dst).hasRole c r = g.hasRole c r :=
  (sameContents_link g e src dst).hasRole_eq c r

@[simp] theorem hasRole_unlinkNext (g : Graph) (e : Edge) (src c : BlockId) (r : Role) :
    (g.unlinkNext e src).hasRole c r = g.hasRole c r :=
  (sameContents_unlinkNext g e src).hasRole_eq c r

@[simp] theorem hasRole_continueTo (g : Graph) (b : BlockId) (loop fall : Option BlockId)
    (c : BlockId) (r : Role) : (g.continueTo b loop fall).hasRole c r = g.hasRole c r :=
  (sameContents_continueTo g b loop fall).hasRole_eq c r

namespace Detached

theorem root_lt (s : g.Detached root tests) : root < g.blocks.size := s.lt_size root s.root_tests

theorem of_sameSkeleton (s : g.Detached root tests) (h : SameSkeleton g g') :
    g'.Detached root tests where
  linked := s.linked.of_sameSkeleton h
  root_tests := s.root_tests
  ifHead_tests b hb := s.ifHead_tests b (by rwa [h.hasRole_eq] at hb)
  lt_size b hb := (h.lt_size_iff b).2 (s.lt_size b hb)
  fall c hc := by
    rw [h.next_eq] at hc
    rw [h.hasRole_eq]
    exact s.fall c hc
  branch b c hb hc := by
    rw [h.next_eq] at hc
    rw [h.hasRole_eq]
    exact s.branch b c hb hc

/-- Where the edges come from the old ones, and the roles that matter too. -/
theorem of_next (s : g.Detached root tests) (hlinked : g'.Linked)
    (hsize : g.blocks.size ≤ g'.blocks.size)
    (hif : ∀ b, g'.hasRole b .ifHead = true → g.hasRole b .ifHead = true)
    (hfall : ∀ c, g'.next .fall root = some c → g'.hasRole c .join = false)
    (hbranch : ∀ b c, tests b → g'.next .branch b = some c → g'.hasRole c .loopHead = false) :
    g'.Detached root tests where
  linked := hlinked
  root_tests := s.root_tests
  ifHead_tests b hb := s.ifHead_tests b (hif b hb)
  lt_size b hb := Nat.lt_of_lt_of_le (s.lt_size b hb) hsize
  fall := hfall
  branch := hbranch

/-! ## One change -/

theorem withBlock (s : g.Detached root tests) {r : Role} (hr : r ≠ .ifHead) (a : Available) :
    (g.withBlock r a).Detached root tests := by
  have hrole {e : Edge} {c d : BlockId} (h : (g.withBlock r a).next e c = some d) (r' : Role) :
      g.next e c = some d ∧ (g.withBlock r a).hasRole d r' = g.hasRole d r' := by
    rw [next_withBlock] at h
    have hne : d ≠ g.nextBlock := Nat.ne_of_lt (s.linked.target_lt h)
    rw [hasRole_withBlock, if_neg hne]
    exact ⟨h, rfl⟩
  refine s.of_next (s.linked.withBlock r a) (by simp) (fun c hc => ?_) (fun c hc => ?_)
    fun c d hc hd => ?_
  · rw [hasRole_withBlock] at hc
    split at hc
    · exact absurd (of_decide_eq_true hc).symm hr
    · exact hc
  · obtain ⟨hc, heq⟩ := hrole hc .join
    rw [heq]
    exact s.fall c hc
  · obtain ⟨hd, heq⟩ := hrole hd .loopHead
    rw [heq]
    exact s.branch c d hc hd

/-- A new block is no test. -/
theorem addBlockUnder (s : g.Detached root tests) {dom : BlockId} {r : Role} (hr : r ≠ .ifHead)
    (h : g.addBlockUnder dom r = .ok (b, g')) :
    g'.Detached root tests ∧ (b < g'.blocks.size ∧ dom < g'.blocks.size) ∧ ¬ tests b ∧
      g.blocks.size < g'.blocks.size ∧ ∀ r', g'.hasRole b r' = decide (r' = r) := by
  obtain ⟨rfl, hsize, hdom, -⟩ := of_addBlockUnder h
  have hdom' : dom ≤ g.blocks.size := by
    rw [hsize] at hdom
    exact Nat.le_of_lt_succ hdom
  have hlt : g.blocks.size < g'.blocks.size := by
    rw [hsize]
    exact Nat.lt_succ_self _
  rw [addBlockUnder_eq hdom'] at h
  cases h
  refine ⟨s.withBlock hr _, ⟨hlt, hdom⟩, fun hb => Nat.lt_irrefl _ (s.lt_size _ hb), hlt,
    fun r' => ?_⟩
  rw [hasRole_withBlock]
  exact if_pos rfl

/-- An edge may be added unless it leads `root` into a join or a test to a loop header. -/
theorem link (s : g.Detached root tests) (e : Edge) (src dst : BlockId) (hs : src < g.blocks.size)
    (hd : dst < g.blocks.size)
    (hfall : e = .fall → src = root → g.hasRole dst .join = false)
    (hbranch : e = .branch → tests src → g.hasRole dst .loopHead = false) :
    (g.link e src dst).Detached root tests := by
  have hnext {e' : Edge} {c d : BlockId} (h : (g.link e src dst).next e' c = some d) :
      (e = e' ∧ c = src ∧ d = dst) ∨ g.next e' c = some d := by
    rw [next_link s.linked hs] at h
    split at h
    · rename_i he
      subst he
      split at h
      · rename_i hc
        exact .inl ⟨rfl, hc, (Option.some.inj h).symm⟩
      · split at h
        · cases h
        · exact .inr h
    · exact .inr h
  refine s.of_next (s.linked.link hs hd e) (by simp) (fun c hc => by simpa using hc)
    (fun c hc => ?_) fun c d hc hcd => ?_
  · rw [hasRole_link]
    rcases hnext hc with ⟨he, hroot, rfl⟩ | hc
    · exact hfall he hroot.symm
    · exact s.fall c hc
  · rw [hasRole_link]
    rcases hnext hcd with ⟨he, rfl, rfl⟩ | hcd
    · exact hbranch he hc
    · exact s.branch c d hc hcd

theorem unlinkNext (s : g.Detached root tests) (e : Edge) (src : BlockId) :
    (g.unlinkNext e src).Detached root tests := by
  have hnext {e' : Edge} {c d : BlockId} (h : (g.unlinkNext e src).next e' c = some d) :
      g.next e' c = some d := by
    rw [next_unlinkNext] at h
    split at h
    · cases h
    · exact h
  refine s.of_next (s.linked.unlinkNext e src) (by simp) (fun c hc => by simpa using hc)
    (fun c hc => ?_) fun c d hc hcd => ?_
  · rw [hasRole_unlinkNext]
    exact s.fall c (hnext hc)
  · rw [hasRole_unlinkNext]
    exact s.branch c d hc (hnext hcd)

theorem setOrigin (s : g.Detached root tests) (b origin : BlockId) :
    (g.setOrigin b origin).Detached root tests := by
  refine s.of_next (s.linked.setOrigin b origin) (by simp) (fun c hc => ?_) (fun c hc => ?_)
    fun c d hc hcd => ?_
  · rwa [hasRole_setOrigin] at hc
  · rw [next_setOrigin] at hc
    rw [hasRole_setOrigin]
    exact s.fall c hc
  · rw [next_setOrigin] at hcd
    rw [hasRole_setOrigin]
    exact s.branch c d hc hcd

/-- Blocks other than the tests may take over whatever exits. -/
theorem continueTo (s : g.Detached root tests) (hb : b < g.blocks.size) (hother : ¬ tests b)
    {loop fall : Option BlockId} (hloop : ∀ c, loop = some c → c < g.blocks.size)
    (hfall : ∀ c, fall = some c → c < g.blocks.size) :
    (g.continueTo b loop fall).Detached root tests := by
  have hroot : b ≠ root := fun h => hother (h ▸ s.root_tests)
  cases loop with
  | some c =>
    exact s.link .branch b c hb (hloop c rfl) (fun h => by cases h) fun _ h => absurd h hother
  | none =>
    cases fall with
    | some c =>
      exact s.link .fall b c hb (hfall c rfl) (fun _ h => absurd h hroot) fun h => by cases h
    | none => exact s

/-- A block that branches to no loop header may count as a test. -/
theorem mark (s : g.Detached root tests) (hb : b < g.blocks.size)
    (hbranch : ∀ c, g.next .branch b = some c → g.hasRole c .loopHead = false) :
    g.Detached root fun c => tests c ∨ c = b where
  linked := s.linked
  root_tests := .inl s.root_tests
  ifHead_tests c hc := .inl (s.ifHead_tests c hc)
  lt_size c hc := by
    rcases hc with hc | rfl
    · exact s.lt_size c hc
    · exact hb
  fall := s.fall
  branch c d hc hcd := by
    rcases hc with hc | rfl
    · exact s.branch c d hc hcd
    · exact hbranch d hcd

theorem addIfHead (s : g.Detached root tests) (hb : tests b) :
    (g.modifyBlock b (·.addRole .ifHead)).Detached root tests where
  linked := s.linked.addRole b .ifHead
  root_tests := s.root_tests
  ifHead_tests c hc := by
    rw [hasRole_addRole (s.lt_size b hb), Bool.or_eq_true, decide_eq_true_iff] at hc
    rcases hc with hc | ⟨rfl, -⟩
    · exact s.ifHead_tests c hc
    · exact hb
  lt_size c hc := by
    rw [size_modifyBlock]
    exact s.lt_size c hc
  fall c hc := by
    rw [next_addRole] at hc
    simp [hasRole_addRole (s.lt_size b hb), s.fall c hc]
  branch c d hc hcd := by
    rw [next_addRole] at hcd
    simp [hasRole_addRole (s.lt_size b hb), s.branch c d hc hcd]

/-- A block that nothing branches to may become a loop header. -/
theorem addLoopHead (s : g.Detached root tests) (hb : b < g.blocks.size)
    (hfree : g.prev .branch b = none) :
    (g.modifyBlock b (·.addRole .loopHead)).Detached root tests := by
  refine s.of_next (s.linked.addRole b .loopHead) (by simp) (fun c hc => ?_) (fun c hc => ?_)
    fun c d hc hcd => ?_
  · simpa [hasRole_addRole hb] using hc
  · rw [next_addRole] at hc
    simp [hasRole_addRole hb, s.fall c hc]
  · rw [next_addRole] at hcd
    have hne : d ≠ b := by
      rintro rfl
      rw [(s.linked .branch c d).1 hcd] at hfree
      cases hfree
    simp [hasRole_addRole hb, s.branch c d hc hcd, hne]

/-! ## Openings -/

/-- The block at which an if is opened branches to the new join, and counts as a test from then
on. -/
theorem openIf (s : g.Detached root tests) (h : g.openIf parent = .ok g') :
    g'.Detached root fun c => tests c ∨ c = parent := by
  rw [Graph.openIf] at h
  obtain ⟨⟨join, g₁⟩, hjoin, h⟩ := bind_eq_ok_iff.1 h
  obtain ⟨blk, hblk, h⟩ := bind_eq_ok_iff.1 h
  obtain ⟨⟨side, g₂⟩, hside, h⟩ := bind_eq_ok_iff.1 h
  obtain rfl := Except.ok.inj h
  rw [block_eq_ok_iff] at hblk
  obtain ⟨s₁, ⟨hjoin₁, hparent⟩, hother, -, hrole₁⟩ := s.addBlockUnder (by decide) hjoin
  have horigin := s₁.setOrigin join parent
  have hexits : ((g₁.setOrigin join parent).continueTo join
      ((g₁.setOrigin join parent).backEdge? blk) blk.fallTo).Detached root tests := by
    refine horigin.continueTo (by simpa) hother (fun c hc => lt_size_of_backEdge? hc) fun c hc => ?_
    exact horigin.linked.target_lt (e := .fall) (a := parent) (by rw [next, hblk]; exact hc)
  have hlinked := hexits.link .branch parent join (by simpa) (by simpa)
    (fun h => by cases h) fun _ _ => by simp [hasRole_setOrigin, hrole₁]
  have hmarked := hlinked.mark (b := parent) (by simpa) fun c hc => by
    rw [next_link hexits.linked (by simpa), if_pos rfl, if_pos rfl] at hc
    cases hc
    simp [hasRole_setOrigin, hrole₁]
  obtain ⟨s₂, ⟨hside₂, hparent₂⟩, hother₂, hgrown, hrole₂⟩ :=
    hmarked.addBlockUnder (by decide) hside
  simp only [size_link, size_continueTo, size_setOrigin] at hgrown
  have hjoin₂ : join < g₂.blocks.size := Nat.lt_trans hjoin₁ hgrown
  have hroot : side ≠ root := fun h => hother₂ (h ▸ .inl s.root_tests)
  have hjoined := s₂.link .fall side join hside₂ hjoin₂ (fun _ h => absurd h hroot)
    fun h => by cases h
  exact (hjoined.link .fall parent side (by simpa) (by simpa) (fun _ _ => by simp [hrole₂])
    fun h => by cases h).addIfHead (.inr rfl)

/-- The end of the then side is made to branch where the test branched to, which is no loop
header. -/
theorem openElse (s : g.Detached root tests) (h : g.openElse parent = .ok (b, g')) :
    g'.Detached root tests := by
  rw [Graph.openElse] at h
  obtain ⟨blk, hblk, h⟩ := bind_eq_ok_iff.1 h
  obtain ⟨_, hif, h⟩ := bind_eq_ok_iff.1 h
  obtain ⟨join, hjoin, h⟩ := bind_eq_ok_iff.1 h
  obtain ⟨thenTail, htail, h⟩ := bind_eq_ok_iff.1 h
  obtain ⟨⟨side, g₁⟩, hside, h⟩ := bind_eq_ok_iff.1 h
  obtain ⟨rfl, rfl⟩ := Prod.mk.inj (Except.ok.inj h)
  rw [block_eq_ok_iff] at hblk
  rw [require_eq_ok_iff] at hif
  rw [expect_eq_ok_iff] at hjoin htail
  have htests : tests parent := s.ifHead_tests parent (by rw [hasRole, hblk]; exact hif)
  have hbranch : g.next .branch parent = some join := by rw [next, hblk]; exact hjoin
  have hjoin' : join < g.blocks.size := s.linked.target_lt hbranch
  have htail' : thenTail < g.blocks.size := lt_size_of_next ((s.linked .fall thenTail join).2 htail)
  have hturned := (s.unlinkNext .fall thenTail).link .branch thenTail join
    (by simpa) (by simpa) (fun h => by cases h)
    fun _ _ => by simpa using s.branch parent join htests hbranch
  obtain ⟨s₁, ⟨hside₁, hparent₁⟩, hother, hgrown, hrole⟩ :=
    hturned.addBlockUnder (by decide) hside
  simp only [size_link, size_unlinkNext] at hgrown
  have hjoin₁ : join < g₁.blocks.size := Nat.lt_trans hjoin' hgrown
  have hroot : side ≠ root := fun h => hother (h ▸ s.root_tests)
  have hbranched := s₁.link .branch parent side hparent₁ hside₁ (fun h => by cases h)
    fun _ _ => by simp [hrole]
  exact hbranched.link .fall side join (by simpa) (by simpa) (fun _ h => absurd h hroot)
    fun h => by cases h

theorem openHead (s : g.Detached root tests) (h : g.openHead b = .ok (head, g')) :
    g'.Detached root tests ∧ head < g'.blocks.size ∧ g.blocks.size ≤ g'.blocks.size := by
  obtain ⟨blk, hblk, h⟩ := bind_eq_ok_iff.1 h
  rw [block_eq_ok_iff] at hblk
  have hb := lt_size_of_block? hblk
  split at h
  · rename_i hempty
    obtain ⟨rfl, rfl⟩ := Prod.mk.inj (Except.ok.inj h)
    rw [Bool.and_eq_true, Option.isNone_iff_eq_none] at hempty
    refine ⟨s.addLoopHead hb ?_, by simpa, by simp⟩
    rw [prev, hblk]
    exact hempty.2
  · obtain ⟨⟨head', g₁⟩, hadd, h⟩ := bind_eq_ok_iff.1 h
    obtain ⟨rfl, rfl⟩ := Prod.mk.inj (Except.ok.inj h)
    obtain ⟨s₁, ⟨hhead, hb'⟩, -, hgrown, hrole⟩ := s.addBlockUnder (by decide) hadd
    have s₂ := s₁.link .fall b head' hb' hhead (fun _ _ => by simp [hrole]) fun h => by cases h
    refine ⟨s₂, by simpa, ?_⟩
    rw [size_link]
    exact Nat.le_of_lt hgrown

/-- Only the new blocks branch to the header, and only the new exit takes over the exits of the
block. -/
theorem openLoop (s : g.Detached root tests) (h : g.openLoop b = .ok (head, g')) :
    g'.Detached root tests := by
  rw [Graph.openLoop] at h
  obtain ⟨before, hbefore, h⟩ := bind_eq_ok_iff.1 h
  obtain ⟨⟨head', g₁⟩, hhead, h⟩ := bind_eq_ok_iff.1 h
  obtain ⟨⟨body, g₂⟩, hbody, h⟩ := bind_eq_ok_iff.1 h
  obtain ⟨⟨exit, g₃⟩, hexit, h⟩ := bind_eq_ok_iff.1 h
  obtain ⟨rfl, rfl⟩ := Prod.mk.inj (Except.ok.inj h)
  rw [block_eq_ok_iff] at hbefore
  obtain ⟨hcut, hsize⟩ :
      (if (g.backEdge? before).isSome then g.unlinkNext .branch b else g).Detached root tests ∧
      (if (g.backEdge? before).isSome then g.unlinkNext .branch b else g).blocks.size =
        g.blocks.size := by
    split
    · exact ⟨s.unlinkNext .branch b, by simp⟩
    · exact ⟨s, rfl⟩
  obtain ⟨s₁, hhead₁, hgrown₁⟩ := hcut.openHead hhead
  rw [hsize] at hgrown₁
  obtain ⟨s₂, ⟨hbody₂, hhead₂⟩, hother₂, hgrown₂, hrole₂⟩ := s₁.addBlockUnder (by decide) hbody
  have hentered := s₂.link .fall head' body hhead₂ hbody₂ (fun _ _ => by simp [hrole₂])
    fun h => by cases h
  have hlooped := hentered.link .branch body head' (by simpa) (by simpa) (fun h => by cases h)
    fun _ h => absurd h hother₂
  obtain ⟨s₃, ⟨hexit₃, hhead₃⟩, hother₃, hgrown₃, hrole₃⟩ :=
    hlooped.addBlockUnder (by decide) hexit
  simp only [size_link] at hgrown₃
  have hgrown : g.blocks.size ≤ g₃.blocks.size := by omega
  have hleft := (s₃.setOrigin exit head').link .branch head' exit
    (by simpa) (by simpa) (fun h => by cases h) fun _ _ => by simp [hasRole_setOrigin, hrole₃]
  refine hleft.continueTo (by simpa) hother₃ (fun c hc => ?_) fun c hc => ?_
  · simpa using Nat.lt_of_lt_of_le (lt_size_of_backEdge? hc) hgrown
  · have hc' : c < g.blocks.size :=
      s.linked.target_lt (e := .fall) (a := b) (by rw [next, hbefore]; exact hc)
    simpa using Nat.lt_of_lt_of_le hc' hgrown

/-! ## Regions -/

/-- **No construct is around the block.** -/
theorem region_eq (s : g.Detached root tests) {blk : Block} (hblk : g.block? root = some blk) :
    g.region blk = .outermost := by
  have hfall : g.next .fall root = blk.fallTo := by rw [next, hblk]; rfl
  have hbranch : g.next .branch root = blk.branchTo := by rw [next, hblk]; rfl
  have hjoin : g.joinAhead? blk = none := by
    rw [joinAhead?, Option.filter_eq_none_iff]
    intro c hc
    rw [s.fall c (hfall.trans hc)]
    decide
  have hback : g.backEdge? blk = none := by
    rw [backEdge?, Option.filter_eq_none_iff]
    intro c hc
    rw [s.branch root c s.root_tests (hbranch.trans hc)]
    decide
  rw [region, hjoin, hback]

end Detached

end Graph

namespace Body

variable {u u' : Body} {adds : Operation → Prop}

/-! ## The entry of a body -/

/-- The entry of the body leads neither into a join nor back to a loop header. -/
def Detached (u : Body) : Prop := ∃ tests, u.graph.Detached entry tests

namespace Detached

theorem of_sameSkeleton (s : u.Detached) (h : u.graph.SameSkeleton u'.graph) : u'.Detached := by
  obtain ⟨tests, s⟩ := s
  exact ⟨tests, s.of_sameSkeleton h⟩

theorem place (s : u.Detached) {b : BlockId} {op : Operation} {i : InstrId}
    (h : u.place b op = .ok (i, u')) : u'.Detached := by
  obtain ⟨-, op', g, -, hplaces, rfl⟩ := places_of_place h
  exact s.of_sameSkeleton hplaces.skeleton

theorem arranges (s : u.Detached) (h : u.Arranges u') : u'.Detached := by
  cases h with
  | moveTo b => exact s
  | bind b x value => exact s.of_sameSkeleton (Graph.rebinds_bindIn _ b x value).skeleton
  | inherit b origin => exact s.of_sameSkeleton (Graph.rebinds_inheritScope _ b origin).skeleton
  | target h => exact s.of_sameSkeleton (Graph.Reworks.targetOf h).skeleton
  | aim i t => exact s.of_sameSkeleton (Graph.sameSkeleton_modifyInstr _ i _)
  | openIf h =>
    obtain ⟨tests, s⟩ := s
    exact ⟨_, s.openIf h⟩
  | openElse h =>
    obtain ⟨tests, s⟩ := s
    exact ⟨tests, s.openElse h⟩
  | openLoop h =>
    obtain ⟨tests, s⟩ := s
    exact ⟨tests, s.openLoop h⟩
  | leaveLoop => exact s

/-- Only openings change links. -/
theorem effect (s : u.Detached) (h : Effect adds u u') : u'.Detached := by
  cases h with
  | arrange h => exact s.arranges h
  | place hop h => exact s.place h
  | placeRetired hop harith hoe hsame h =>
    obtain ⟨⟨j, v⟩, hplace, h⟩ := bind_eq_ok_iff.1 h
    cases h
    exact (s.place hplace).of_sameSkeleton (Graph.sameSkeleton_modifyInstr _ _ _)
  | insertPhi h =>
    obtain ⟨⟨j, v⟩, hplace, h⟩ := bind_eq_ok_iff.1 h
    cases h
    exact (s.place hplace).of_sameSkeleton (Graph.rebinds_bindIn _ _ _ _).skeleton
  | setPhiSide hphi x side value =>
    exact s.of_sameSkeleton (Graph.sameSkeleton_modifyInstr _ _ _)
  | redirectRead h =>
    obtain rfl := eq_of_redirectRead h
    rw [withRead]
    split
    · refine s.of_sameSkeleton ?_
      rw [graph_noteCompletion]
      exact (Graph.sameSkeleton_modifyInstr _ _ _).trans (sameShape_revived _ _).skeleton
    · exact s
  | settle h =>
    obtain ⟨g, hsettles, rfl⟩ := settles_of_settle h
    exact s.of_sameSkeleton hsettles.skeleton

end Detached

/-- At first the entry leads nowhere. -/
theorem detached_start (options : Options) : (start options).Detached := by
  refine ⟨fun b => b = entry, {
    linked := (Built.start options).layout.linked
    root_tests := rfl
    ifHead_tests := fun b hb => ?_
    lt_size := fun b hb => by rw [size_start, hb]; decide
    fall := fun c hc => ?_
    branch := fun b c _ hc => ?_ }⟩
  · rw [hasRole_start options b .ifHead (by decide)] at hb
    cases hb
  · rw [next_start, if_neg (by decide)] at hc
    cases hc
  · rw [next_start, if_neg (by simp)] at hc
    cases hc

/-- In **every body that can be built** no construct is around the entry. -/
theorem Reachable.detached {options : Options} (h : Reachable options u) : u.Detached :=
  h.effects.invariant (fun _ _ heffect s => s.effect heffect) (detached_start options)

end Body
end StructuredSSA
