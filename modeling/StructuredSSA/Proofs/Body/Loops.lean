import StructuredSSA.Proofs.Body.Drift

/-!
# Open loops

The reads of a variable in a loop are redirected to a phi of the loop if they read what the variable
meant before the loop.  So for an instruction two things matter of the constructs that are open: the
loops among them, and what the variables meant before each.

Two facts make this work.  What a variable meant before a construct was there before the construct
was opened, so it is none of the phis of the construct, and none of the phis of constructs inside.
And what the then side of an if has left stays as it is while the else side is being built, though
loops around the if may still get phis.

## What is here

* `Site.loops` — the open loops.
* `Shift.other_eq` — what the side of an open construct brings that is not being built.
* `Site.Precedes`, `Site.Precedes.run` — what was meant before a construct is older.
-/

set_option autoImplicit false

namespace StructuredSSA

/-- The open loops, the innermost first. -/
def Site.loops (w : Site) : List Frame := w.frames.filter (·.part = .loopBody)

/-- What a variable meant before an open construct was there before the construct was opened. -/
def Site.Precedes (w : Site) : Prop :=
  ∀ f ∈ w.frames, ∀ x i, f.before x = some i → i < f.start

namespace Site

variable {w w' : Site} {f : Frame}

theorem mem_loops : f ∈ w.loops ↔ f ∈ w.frames ∧ f.part = .loopBody := by
  simp [loops]

theorem loops_congr (hframes : w'.frames = w.frames) : w'.loops = w.loops := by
  rw [loops, hframes, loops]

theorem loops_cons (hframes : w'.frames = f :: w.frames) (hpart : f.part = .loopBody) :
    w'.loops = f :: w.loops := by
  rw [loops, hframes, List.filter_cons_of_pos (by simpa), loops]

theorem loops_cons_of_ne (hframes : w'.frames = f :: w.frames) (hpart : f.part ≠ .loopBody) :
    w'.loops = w.loops := by
  rw [loops, hframes, List.filter_cons_of_neg (by simpa), loops]

theorem frames_eq_cons_pop {fs : List Frame} (hframes : w.frames = f :: fs) :
    w.frames = f :: w.pop.frames := by
  rw [pop_eq hframes, hframes]

theorem loops_push_loop (blocks : List BlockId) (first : BlockId) (hpart : f.part = .loopBody) :
    (w.push blocks first f).loops = f :: w.loops :=
  loops_cons rfl hpart

theorem loops_push_of_ne (blocks : List BlockId) (first : BlockId) (hpart : f.part ≠ .loopBody) :
    (w.push blocks first f).loops = w.loops :=
  loops_cons_of_ne rfl hpart

theorem loops_openElse {fs : List Frame} (hframes : w.frames = f :: fs) (hpart : f.part ≠ .loopBody)
    (side : BlockId) : (w.openElse side).loops = w.loops := by
  rw [loops, loops, openElse, hframes, List.filter_cons_of_neg (by simp),
    List.filter_cons_of_neg (by simpa)]

end Site

/-! ## What the then side has left -/

namespace Built

variable {w : Site} {u u' : Body} {f : Frame} {fs : List Frame} {x : Var} {v : Option InstrId}

/-- A merge does not change what the side of an open construct brings that is not being built. -/
theorem other_merges (b : Built w u) (n : Numbered u.graph w) (h : u.Merges w x v u')
    (hf : f ∈ w.frames) : f.other u'.graph = f.other u.graph := by
  funext y
  obtain ⟨f₀, fs, hframes⟩ := List.exists_cons_of_ne_nil (List.ne_nil_of_mem hf)
  rcases List.mem_cons.1 (hframes ▸ hf) with rfl | hf'
  · rw [Frame.other, Frame.other]
    split
    · rename_i tt hpart
      have htt : tt ∈ f.behind := by simp [Frame.behind, hpart]
      refine b.layout.meaning_of_skeleton (b.skeleton_merges h) (b.behind_lt hf htt)
        (c := f.phiBlock) (fun d hd => b.binding_merges n h fun f' fs' hframes' hd' => ?_)
        fun habove => ?_
      · rw [hframes] at hframes'
        exact absurd ((List.cons.inj hframes').1 ▸ hd') hd
      · rw [Frame.phiBlock_eq_target (by simp [hpart])] at habove
        exact absurd habove (b.layout.not_above_target hf
          (List.mem_cons_of_mem _ (b.layout.behind f hf tt htt)))
    · rfl
  · exact (b.sameView_merges n hframes h hf').other_eq y

theorem other_carriesEach (b : Built w u) (n : Numbered u.graph w)
    (htested : ∀ f ∈ w.frames, u.graph.HasBranch f.test) {c : BlockId} {is : List InstrId}
    (h : Body.CarriesEach w c is u u') (hf : f ∈ w.frames) :
    f.other u'.graph = f.other u.graph := by
  obtain ⟨f₀, fs, hframes⟩ := List.exists_cons_of_ne_nil (List.ne_nil_of_mem hf)
  induction h with
  | nil => rfl
  | cons _ hmerge _ ih =>
    have hgrows := b.grows hframes hmerge
    exact (ih (b.of_merges hmerge) (n.grow b.layout hframes htested hgrows)
      fun f' hf' => (hgrows.hasBranch_iff _).2 (htested f' hf')).trans (b.other_merges n hmerge hf)

theorem other_carries (b : Built w u) (n : Numbered u.graph w)
    (htested : ∀ f ∈ w.frames, u.graph.HasBranch f.test) {c origin : BlockId}
    (h : u.Carries w c origin u') (hf : f ∈ w.frames) : f.other u'.graph = f.other u.graph := by
  cases h with
  | outermost hnil =>
    rw [hnil] at hf
    cases hf
  | inner _ each => exact b.other_carriesEach n htested each hf

end Built

/-- **A step does not change what the other side brings** of a construct that stays open. -/
theorem Shift.other_eq {w w' : Site} {u u' : Body} {f : Frame} (h : Shift w u w' u') (b : Built w u)
    (n : Numbered u.graph w) (hf : f ∈ w.frames) (hf' : f ∈ w'.frames) :
    f.other u'.graph = f.other u.graph := by
  have l := b.layout
  have houter : f ∈ w'.frames.tail → f.other u'.graph = f.other u.graph := fun hmem =>
    funext (Levelled.sameView_shift b n h hmem).2.other_eq
  cases h with
  | retarget h => exact funext (Levelled.sameView_calm l (.of_retargets h) hf).other_eq
  | receive h hphi _ hclear =>
    exact funext (Levelled.sameView_calm l (.of_receives h hphi hclear) hf).other_eq
  | @assign _ x v _ hv _ hmerges =>
    have hre := Graph.rebinds_bindIn u.graph w.tail x v
    exact ((b.withBinding x hv).other_merges (n.rebind l hre) hmerges hf).trans
      (funext (Levelled.sameView_rebindTail l hre hf).other_eq)
  | openIf => exact houter hf
  | @openElse f₀ fs _ _ hframes hpart =>
    rw [Site.openElse, hframes] at houter
    rcases List.mem_cons.1 (hframes ▸ hf) with rfl | hf
    · funext x
      rw [Frame.other, Frame.other, hpart]
    · exact houter hf
  | openLoop => exact houter hf
  | close hframes hgraph hleft htested hcarries =>
    rw [← hgraph] at n htested ⊢
    refine hleft.other_carries n.pop (fun f' hf' => htested f' ?_) hcarries hf'
    rwa [Site.pop, hframes] at hf'

/-! ## Blocks and values of open loops -/

/-- The innermost construct has its phis elsewhere than in the header of a loop around it. -/
theorem Layout.phiBlock?_ne {g : Graph} {w : Site} (l : Layout g w) {f : Frame}
    (hf : f ∈ w.frames.tail) (hpart : f.part = .loopBody) : w.phiBlock? ≠ some f.test := by
  cases hframes : w.frames with
  | nil =>
    rw [hframes] at hf
    cases hf
  | cons f₀ fs =>
    rw [hframes] at hf
    rw [Site.phiBlock?, hframes, List.head?_cons, Option.map_some, ← Frame.phiBlock_eq_test hpart,
      ne_eq, Option.some.injEq]
    exact (l.phiBlock_ne hframes hf).symm

namespace Site.Precedes

variable {w w' : Site} {u u' : Body} {f : Frame} {fs : List Frame}

theorem start : Site.start.Precedes := fun f hf => by cases hf

/-- A construct is opened: what the variables mean there has been added before. -/
theorem push (p : w.Precedes) (b : Built w u) (hframes : w'.frames = f :: w.frames)
    (hbefore : f.before = u.graph.meaning w.tail) (hstart : f.start = u.graph.nextId) :
    w'.Precedes := by
  intro f' hf' x i hi
  rcases List.mem_cons.1 (hframes ▸ hf') with rfl | hf'
  · rw [hbefore] at hi
    rw [hstart]
    exact b.layout.meaning_lt b.contents b.layout.tail_lt hi
  · exact p f' hf' x i hi

/-- **Every step keeps it.** -/
theorem shift (p : w.Precedes) (b : Built w u) (h : Shift w u w' u') : w'.Precedes := by
  cases h with
  | retarget | receive | assign => exact p
  | openIf | openLoop => exact p.push b rfl rfl rfl
  | @openElse f fs _ _ hframes =>
    intro f' hf' x i hi
    rw [Site.openElse_eq hframes] at hf'
    rcases List.mem_cons.1 hf' with rfl | hf'
    · exact p f (by simp [hframes]) x i hi
    · exact p f' (by simp [hframes, hf']) x i hi
  | close hframes =>
    intro f' hf'
    rw [Site.pop, hframes] at hf'
    exact p f' (by simp [hframes, show f' ∈ _ from hf'])

theorem run {cs : List Body.Command} (h : Run w u cs w' u') (b : Built w u) (p : w.Precedes) :
    w'.Precedes :=
  h.preserves_along (P := fun w _ => w.Precedes) b p fun _ _ hb hp hstep =>
    hp.shift hb (hstep.shift hb)

end Site.Precedes
end StructuredSSA
