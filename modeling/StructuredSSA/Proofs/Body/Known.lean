import StructuredSSA.Proofs.Body.Entries

/-!
# What is known in a block

A value is known in a block if control does not come to the end of the block without computing it.
What a variable meant where a construct was opened stays known in the whole construct, because its
test dominates all that is in it.

## What is here

* `Graph.Knows`, `Graph.KnowsAll` — values that are known in a block.
* `Spanned` — the test of an open construct dominates what is in it.
* `Recalled` — what variables meant before a construct is known at its test.
-/

set_option autoImplicit false

namespace StructuredSSA

namespace Graph

/-- Control does not come to the end of `b` without computing `d`. -/
def Knows (g : Graph) (b : BlockId) (d : InstrId) : Prop :=
  ∃ a, g.home? d = some a ∧ g.Dominates Body.head a b

/-- All that variables mean in `σ` is known in `b`. -/
def KnowsAll (g : Graph) (b : BlockId) (σ : Var → Option InstrId) : Prop :=
  ∀ x d, σ x = some d → g.Knows b d

variable {g g' : Graph} {b c : BlockId} {d : InstrId} {σ : Var → Option InstrId}

namespace Knows

theorem extend (h : g.Knows b d) (hext : g.Extends g') (hb : b < g.blocks.size) : g'.Knows b d := by
  obtain ⟨a, ha, hab⟩ := h
  exact ⟨a, hext.home? d a ha, hext.dominates a b hb hab⟩

theorem dominated (h : g.Knows b d) (hbc : g.Dominates Body.head b c) : g.Knows c d := by
  obtain ⟨a, ha, hab⟩ := h
  exact ⟨a, ha, hab.trans hbc⟩

end Knows

namespace KnowsAll

theorem extend (h : g.KnowsAll b σ) (hext : g.Extends g') (hb : b < g.blocks.size) :
    g'.KnowsAll b σ := fun x d hd => (h x d hd).extend hext hb

theorem dominated (h : g.KnowsAll b σ) (hbc : g.Dominates Body.head b c) : g.KnowsAll c σ :=
  fun x d hd => (h x d hd).dominated hbc

theorem update (h : g.KnowsAll b σ) {x : Var} {v : Option InstrId}
    (hv : ∀ d, v = some d → g.Knows b d) : g.KnowsAll b (Function.update σ x v) := by
  intro y d hd
  by_cases hy : y = x
  · subst hy
    rw [Function.update_self] at hd
    exact hv d hd
  · rw [Function.update_of_ne hy] at hd
    exact h y d hd

end KnowsAll

end Graph

/-! ## Open constructs -/

/-- **The test of an open construct dominates what is in it.** -/
structure Spanned (g : Graph) (w : Site) : Prop where
  spans : ∀ f ∈ w.frames, ∀ b ∈ w.tail :: f.target :: f.behind, g.Dominates Body.head f.test b
  nested : w.frames.Pairwise fun inner outer => g.Dominates Body.head outer.test inner.test

namespace Spanned

variable {g g' : Graph} {w : Site}

theorem start (options : Options) : Spanned (Body.start options).graph .start where
  spans f hf := by cases hf
  nested := .nil

theorem of_sameSkeleton (s : Spanned g w) (h : g.SameSkeleton g') : Spanned g' w where
  spans f hf b hb := h.dominates_iff.2 (s.spans f hf b hb)
  nested := s.nested.imp fun hab => h.dominates_iff.2 hab

/-- The tests of all open constructs dominate the innermost one. -/
theorem dominates_test (s : Spanned g w) {f f' : Frame} {fs : List Frame}
    (hframes : w.frames = f :: fs) (hf' : f' ∈ w.frames) :
    g.Dominates Body.head f'.test f.test := by
  have hnested := s.nested
  rw [hframes] at hnested hf'
  rcases List.mem_cons.1 hf' with rfl | hf'
  · exact .refl _ _ _
  · exact (List.pairwise_cons.1 hnested).1 f' hf'

/-- The phis of the innermost construct are dominated by the tests of all open constructs. -/
theorem dominates_phiBlock (s : Spanned g w) {f f' : Frame} {fs : List Frame}
    (hframes : w.frames = f :: fs) (hf' : f' ∈ w.frames) :
    g.Dominates Body.head f'.test f.phiBlock := by
  have htest := s.dominates_test hframes hf'
  by_cases hpart : f.part = .loopBody
  · rw [Frame.phiBlock_eq_test hpart]
    exact htest
  · rw [Frame.phiBlock_eq_target hpart]
    exact htest.trans (s.spans f (by simp [hframes]) _ (by simp))

/-- Construction goes on behind a block that is dominated by the phis of the innermost construct. -/
theorem phiBlock_dominates (s : Spanned g w) {f : Frame} (hf : f ∈ w.frames) :
    g.Dominates Body.head f.phiBlock f.target := by
  by_cases hpart : f.part = .loopBody
  · rw [Frame.phiBlock_eq_test hpart]
    exact s.spans f hf _ (by simp)
  · rw [Frame.phiBlock_eq_target hpart]
    exact .refl _ _ _

theorem accepts (s : Spanned g w) {c : BlockId} (hc : w.Accepts c) {f : Frame} (hf : f ∈ w.frames) :
    g.Dominates Body.head f.test c := by
  rcases hc with rfl | ⟨f', fs, hframes, rfl⟩
  · exact s.spans f hf _ (by simp)
  · exact s.dominates_test hframes hf

/-- A construct is opened at the tail. -/
theorem push (s : Spanned g w) (l : Layout g w) (hext : g.Extends g') {f : Frame}
    (blocks : List BlockId) {first : BlockId} (htest : g'.Dominates Body.head w.tail f.test)
    (hfirst : g'.Dominates Body.head f.test first)
    (htarget : g'.Dominates Body.head f.test f.target)
    (hpart : ∀ tt, f.part ≠ .elseSide tt) : Spanned g' (w.push blocks first f) := by
  have hold : ∀ f' ∈ w.frames, g'.Dominates Body.head f'.test f.test := fun f' hf' =>
    (hext.dominates _ _ l.tail_lt (s.spans f' hf' _ (by simp))).trans htest
  refine ⟨List.forall_mem_cons.2 ⟨fun b hb => ?_, fun f' hf' b hb => ?_⟩,
    List.pairwise_cons.2 ⟨hold, s.nested.imp_of_mem fun {f₁ f₂} h₁ h₂ hdom => ?_⟩⟩
  · have hbehind : f.behind = [f.test] := by
      cases hp : f.part with
      | elseSide tt => exact absurd hp (hpart tt)
      | _ => simp [Frame.behind, hp]
    rw [hbehind] at hb
    simp only [List.mem_cons, List.not_mem_nil, or_false] at hb
    rcases hb with rfl | rfl | rfl
    · exact hfirst
    · exact htarget
    · exact .refl _ _ _
  · rcases List.mem_cons.1 hb with rfl | hb
    · exact (hold f' hf').trans hfirst
    · refine hext.dominates _ _ ?_ (s.spans f' hf' b (List.mem_cons_of_mem _ hb))
      rcases List.mem_cons.1 hb with rfl | hb
      · exact l.target_lt (List.mem_map_of_mem hf')
      · exact l.passed_lt (l.behind f' hf' b hb)
  · exact hext.dominates _ _ (l.passed_lt (l.behind f₁ h₁ _ (Layout.test_mem_behind f₁))) hdom

/-- An else side is opened. -/
theorem openElse (s : Spanned g w) (l : Layout g w) (hext : g.Extends g') {f : Frame}
    {fs : List Frame} (hframes : w.frames = f :: fs) {side : BlockId}
    (hside : g'.Dominates Body.head f.test side) : Spanned g' (w.openElse side) := by
  have hw := Site.openElse_eq hframes side
  have hf : f ∈ w.frames := by simp [hframes]
  have hsub : ∀ f' ∈ fs, f' ∈ w.frames := fun f' h => by simp [hframes, h]
  have hlt : ∀ f' ∈ w.frames, ∀ b ∈ w.tail :: f'.target :: f'.behind, b < g.blocks.size := by
    intro f' hf' b hb
    rcases List.mem_cons.1 hb with rfl | hb
    · exact l.tail_lt
    · rcases List.mem_cons.1 hb with rfl | hb
      · exact l.target_lt (List.mem_map_of_mem hf')
      · exact l.passed_lt (l.behind f' hf' b hb)
  have hold : ∀ f' ∈ w.frames, ∀ b ∈ w.tail :: f'.target :: f'.behind,
      g'.Dominates Body.head f'.test b := fun f' hf' b hb =>
    hext.dominates _ _ (hlt f' hf' b hb) (s.spans f' hf' b hb)
  have hnested := s.nested
  rw [hframes] at hnested
  have hnested' := hnested.imp_of_mem fun {f₁ f₂} h₁ _ hdom =>
    hext.dominates _ _ (l.passed_lt (l.behind f₁ (hframes ▸ h₁) _ (Layout.test_mem_behind f₁))) hdom
  rw [hw]
  refine ⟨List.forall_mem_cons.2 ⟨fun b hb => ?_, fun f' hf' b hb => ?_⟩,
    List.pairwise_cons.2 (List.pairwise_cons.1 hnested')⟩
  · simp only [Frame.behind, List.mem_cons, List.not_mem_nil, or_false] at hb
    rcases hb with rfl | rfl | rfl | rfl
    · exact hside
    · exact hold f hf _ (by simp)
    · exact .refl _ _ _
    · exact hold f hf _ (by simp)
  · rcases List.mem_cons.1 hb with rfl | hb
    · exact ((List.pairwise_cons.1 hnested').1 f' hf').trans hside
    · exact hold f' (hsub f' hf') b (List.mem_cons_of_mem _ hb)

theorem pop (s : Spanned g w) {f : Frame} {fs : List Frame} (hframes : w.frames = f :: fs) :
    Spanned g w.pop := by
  have hpop := Site.pop_eq hframes
  have hnested := s.nested
  rw [hframes] at hnested
  rw [hpop]
  refine ⟨fun f' hf' b hb => ?_, (List.pairwise_cons.1 hnested).2⟩
  rcases List.mem_cons.1 hb with rfl | hb
  · exact ((List.pairwise_cons.1 hnested).1 f' hf').trans
      (s.spans f (by simp [hframes]) _ (by simp))
  · exact s.spans f' (by simp [hframes, hf']) b (List.mem_cons_of_mem _ hb)

end Spanned

/-- **What the variables meant before an open construct** is known at its test and, in a loop, where
the loop is entered from. -/
structure Recalled (g : Graph) (w : Site) : Prop where
  before : ∀ f ∈ w.frames, g.KnowsAll f.test f.before
  entered : ∀ f ∈ w.frames, f.part = .loopBody →
    ∃ q, g.entry .first f.test = some q ∧ g.KnowsAll q f.before

namespace Recalled

variable {g g' : Graph} {w : Site}

theorem start (options : Options) : Recalled (Body.start options).graph .start where
  before f hf := by cases hf
  entered f hf := by cases hf

theorem of_sameSkeleton (r : Recalled g w) (l : Layout g w) (h : g.SameSkeleton g')
    (hext : g.Extends g') : Recalled g' w where
  before f hf := (r.before f hf).extend hext
    (l.passed_lt (l.behind f hf _ (Layout.test_mem_behind f)))
  entered f hf hpart := by
    obtain ⟨q, hq, hknows⟩ := r.entered f hf hpart
    exact ⟨q, by rw [h.entry_eq, hq], hknows.extend hext (l.entry_lt hq)⟩

/-- Whatever is opened, the constructs around it recall what they did. -/
theorem opened (r : Recalled g w) (l : Layout g w) (hext : g.Extends g')
    (hentries : g.KeepsEntries w g') {f : Frame} (hf : f ∈ w.frames) :
    g'.KnowsAll f.test f.before ∧ (f.part = .loopBody →
      ∃ q, g'.entry .first f.test = some q ∧ g'.KnowsAll q f.before) := by
  have hpassed := l.behind f hf _ (Layout.test_mem_behind f)
  refine ⟨(r.before f hf).extend hext (l.passed_lt hpassed), fun hpart => ?_⟩
  obtain ⟨q, hq, hknows⟩ := r.entered f hf hpart
  obtain ⟨q', hq', hdom⟩ := hentries f.test .first q (l.passed_lt hpassed)
    (fun heq => absurd (heq ▸ hpassed) l.tail_not_passed) (.inr (l.framed_loopBody hf hpart).1) hq
  exact ⟨q', hq', (hknows.extend hext (l.entry_lt hq)).dominated hdom⟩

theorem pop (r : Recalled g w) : Recalled g w.pop := by
  cases hframes : w.frames with
  | nil =>
    have : w.pop = w := by rw [Site.pop, hframes]
    rw [this]
    exact r
  | cons f fs =>
    have hpop := Site.pop_eq hframes
    have hsub : ∀ f' ∈ fs, f' ∈ w.frames := fun f' h => by simp [hframes, h]
    rw [hpop]
    exact ⟨fun f' h => r.before f' (hsub f' h), fun f' h => r.entered f' (hsub f' h)⟩

end Recalled

end StructuredSSA
