import StructuredSSA.Proofs.Source.Reach

/-!
# What the edges tell about nesting

No stack of open constructs is kept; the region of the current block is read off its edges.  Here it
is compared with the text: at every position of a structured program the region is the side that is
being built of the innermost construct that is open there.

## What is here

* `Enclosure` — an open construct, as the text has it.
* `Stmt.Enters`, `Stmt.Stands` — the sides of a construct, and the positions in a program with the
  constructs that are open there.
* `Body.Tells` — the edges of the current block tell which construct is the innermost.
* `Stmt.Stands.exists_ready` — the frames of the layout are the constructs of the text.
* `Stmt.region_tells_nesting` — the edges tell it at every position.
-/

set_option autoImplicit false

namespace StructuredSSA

/-- A construct that is open at a position, with the side of it that the position is in. -/
inductive Enclosure where
  /-- The then side of the if at `test`, which ends in `join`. -/
  | thenSide (test join : BlockId)
  /-- The else side of the if at `test`, which ends in `join`. -/
  | elseSide (test join : BlockId)
  /-- The body of the loop with header `head`. -/
  | loopBody (head : BlockId)
deriving DecidableEq, Repr

namespace Stmt

/-- `Enters s t e t' v`: lowering the construct `s` from `t` comes to the beginning of its side `v`
with `t'` built so far, and `e` is the construct with this side. -/
inductive Enters : Stmt → Script → Enclosure → Script → Stmt → Prop where
  | thenOnly {c : Test} {s : Stmt} {t t' : Script} {test join : BlockId}
      (enter : t.enterIf c = .ok (test, join, t')) :
      Enters (.ifThen c s) t (.thenSide test join) t' s
  | thenSide {c : Test} {s₁ s₂ : Stmt} {t t' : Script} {test join : BlockId}
      (enter : t.enterIf c = .ok (test, join, t')) :
      Enters (.ifElse c s₁ s₂) t (.thenSide test join) t' s₁
  | elseSide {c : Test} {s₁ s₂ : Stmt} {t t₁ t₂ t' : Script} {test join : BlockId}
      (enter : t.enterIf c = .ok (test, join, t₁)) (before : s₁.lower t₁ = .ok t₂)
      (turn : t₂.enterElse test = .ok t') :
      Enters (.ifElse c s₁ s₂) t (.elseSide test join) t' s₂
  | loopBody {c : Test} {s : Stmt} {t t' : Script} {head : BlockId}
      (enter : t.enterLoop c = .ok (head, t')) : Enters (.loop c s) t (.loopBody head) t' s

/-- `Stands es t s es' t' u`: lowering `s` from `t`, inside of the constructs `es`, comes to the
statement `u` with `t'` built so far, inside of the constructs `es'`.  The innermost construct comes
first. -/
inductive Stands : List Enclosure → Script → Stmt → List Enclosure → Script → Stmt → Prop where
  | here {es : List Enclosure} {t : Script} {s : Stmt} : Stands es t s es t s
  | first {es es' : List Enclosure} {t t' : Script} {s₁ s₂ u : Stmt}
      (inner : Stands es t s₁ es' t' u) : Stands es t (.seq s₁ s₂) es' t' u
  | second {es es' : List Enclosure} {t t₁ t' : Script} {s₁ s₂ u : Stmt}
      (before : s₁.lower t = .ok t₁) (inner : Stands es t₁ s₂ es' t' u) :
      Stands es t (.seq s₁ s₂) es' t' u
  | inside {es es' : List Enclosure} {t t₁ t' : Script} {s v u : Stmt} {e : Enclosure}
      (enters : Enters s t e t₁ v) (inner : Stands (e :: es) t₁ v es' t' u) :
      Stands es t s es' t' u

end Stmt

/-- **The edges of the current block tell the innermost construct** of `es`: the region is the side
of it that is being built, and the outermost one if there is no construct. -/
structure Body.Tells (u : Body) (es : List Enclosure) : Prop where
  region : ∃ blk, u.graph.block u.current = .ok blk ∧
    (∀ join, u.graph.region blk = .thenSide join ↔ ∃ test outer,
      es = .thenSide test join :: outer) ∧
    (∀ join, u.graph.region blk = .elseSide join ↔ ∃ test outer,
      es = .elseSide test join :: outer) ∧
    (∀ head, u.graph.region blk = .loopBody head ↔ ∃ outer, es = .loopBody head :: outer) ∧
    (u.graph.region blk = .outermost ↔ es = [])
  /-- The join of an open if remembers its if. -/
  join : ∀ test join, .thenSide test join ∈ es ∨ .elseSide test join ∈ es →
    u.graph.hasRole join .join = true ∧ u.graph.originOf join = some test
  head : ∀ head, .loopBody head ∈ es → u.graph.hasRole head .loopHead = true

/-! ## Frames and constructs -/

/-- The construct that a frame keeps. -/
def Frame.enclosure (f : Frame) : Enclosure :=
  match f.part with
  | .thenSide => .thenSide f.test f.target
  | .elseSide _ => .elseSide f.test f.target
  | .loopBody => .loopBody f.test

/-- The constructs that are open at a site, the innermost first. -/
def Site.enclosures (w : Site) : List Enclosure := w.frames.map Frame.enclosure

namespace Frame

variable {f : Frame} {test join head : BlockId}

theorem enclosure_of_thenSide (h : f.part = .thenSide) :
    f.enclosure = .thenSide f.test f.target := by
  rw [enclosure, h]

theorem enclosure_of_loopBody (h : f.part = .loopBody) : f.enclosure = .loopBody f.test := by
  rw [enclosure, h]

theorem region_eq_thenSide_iff :
    f.region = .thenSide join ↔ ∃ test, f.enclosure = .thenSide test join := by
  cases hp : f.part <;> simp [region, enclosure, hp]

theorem region_eq_elseSide_iff :
    f.region = .elseSide join ↔ ∃ test, f.enclosure = .elseSide test join := by
  cases hp : f.part <;> simp [region, enclosure, hp]

theorem region_eq_loopBody_iff : f.region = .loopBody head ↔ f.enclosure = .loopBody head := by
  cases hp : f.part <;> simp [region, enclosure, hp]

theorem region_ne_outermost : f.region ≠ .outermost := by
  cases hp : f.part <;> simp [region, hp]

/-- The join of an open if. -/
theorem Framed.join_of_enclosure {g : Graph} (h : f.Framed g)
    (he : f.enclosure = .thenSide test join ∨ f.enclosure = .elseSide test join) :
    g.hasRole join .join = true ∧ g.originOf join = some test := by
  cases hp : f.part with
  | thenSide =>
    simp only [enclosure, hp, Enclosure.thenSide.injEq, reduceCtorEq, or_false] at he
    simp only [Framed, hp] at h
    obtain ⟨rfl, rfl⟩ := he
    exact ⟨h.2.2.2, h.2.2.1⟩
  | elseSide tt =>
    simp only [enclosure, hp, Enclosure.elseSide.injEq, reduceCtorEq, false_or] at he
    simp only [Framed, hp] at h
    obtain ⟨rfl, rfl⟩ := he
    exact ⟨h.2.2.2.2.2, h.2.2.2.2.1⟩
  | loopBody => simp [enclosure, hp] at he

/-- The header of an open loop. -/
theorem Framed.head_of_enclosure {g : Graph} (h : f.Framed g) (he : f.enclosure = .loopBody head) :
    g.hasRole head .loopHead = true := by
  cases hp : f.part with
  | loopBody =>
    simp only [enclosure, hp, Enclosure.loopBody.injEq] at he
    simp only [Framed, hp] at h
    exact he ▸ h.1
  | _ => simp [enclosure, hp] at he

end Frame

/-- **Where construction is ready, the edges tell the frames.** -/
theorem Ready.tells {w : Site} {u : Body} (r : Ready w u) : u.Tells w.enclosures where
  region := by
    obtain ⟨blk, hblk, hblk'⟩ := Graph.exists_block_ok r.built.current_lt
    refine ⟨blk, hblk, ?_⟩
    rw [r.current_eq] at hblk'
    rw [r.built.layout.region_tail hblk', Site.region, Site.enclosures]
    cases w.frames with
    | nil => simp
    | cons f fs =>
      simp [Frame.region_eq_thenSide_iff, Frame.region_eq_elseSide_iff,
        Frame.region_eq_loopBody_iff, Frame.region_ne_outermost]
  join test join hmem := by
    have hframe : ∃ f ∈ w.frames,
        f.enclosure = .thenSide test join ∨ f.enclosure = .elseSide test join := by
      rcases hmem with hmem | hmem
      · obtain ⟨f, hf, he⟩ := List.mem_map.1 hmem
        exact ⟨f, hf, .inl he⟩
      · obtain ⟨f, hf, he⟩ := List.mem_map.1 hmem
        exact ⟨f, hf, .inr he⟩
    obtain ⟨f, hf, he⟩ := hframe
    exact (r.built.layout.framed f hf).join_of_enclosure he
  head head hmem := by
    obtain ⟨f, hf, he⟩ := List.mem_map.1 hmem
    exact (r.built.layout.framed f hf).head_of_enclosure he

/-! ## Positions -/

namespace Stmt

variable {w : Site} {t t' : Script} {s u v : Stmt} {e : Enclosure} {es es' : List Enclosure}

/-- At the beginning of a side its construct is the innermost frame. -/
theorem Enters.exists_opens (h : Enters s t e t' v) (r : Ready w t.body) :
    ∃ f xs w', f.enclosure = e ∧ t.Opens w f xs w' t' := by
  cases h with
  | thenOnly enter | thenSide enter =>
    obtain ⟨f, w', t₁, henter, hpart, hopens⟩ := Script.exists_opensIf r _
    rw [henter, Except.ok.injEq, Prod.mk.injEq, Prod.mk.injEq] at enter
    obtain ⟨rfl, rfl, rfl⟩ := enter
    exact ⟨f, [], w', Frame.enclosure_of_thenSide hpart, hopens⟩
  | @elseSide c s₁ s₂ t t₁ t₂ t' test join enter before turn =>
    obtain ⟨f, w₁, t₁', henter, hpart, hopens⟩ := Script.exists_opensIf r c
    rw [henter, Except.ok.injEq, Prod.mk.injEq, Prod.mk.injEq] at enter
    obtain ⟨rfl, rfl, rfl⟩ := enter
    obtain ⟨w₂, t₂', hlower, hstays⟩ := s₁.exists_lower hopens.ready
    obtain rfl : t₂ = t₂' := Except.ok.inj (before.symm.trans hlower)
    obtain ⟨tt, w', t'', hturn, -, hopens'⟩ := (hopens.stays hstays).exists_enterElse hpart
    obtain rfl : t' = t'' := Except.ok.inj (turn.symm.trans hturn)
    exact ⟨_, _, w', rfl, hopens'⟩
  | loopBody enter =>
    obtain ⟨f, w', t₁, henter, hpart, hopens⟩ := Script.exists_opensLoop r _
    rw [henter, Except.ok.injEq, Prod.mk.injEq] at enter
    obtain ⟨rfl, rfl⟩ := enter
    exact ⟨f, [], w', Frame.enclosure_of_loopBody hpart, hopens⟩

/-- **The frames follow the text**: construction is ready at every position, and its frames are the
constructs that are open there. -/
theorem Stands.exists_ready (h : Stands es t s es' t' u) (r : Ready w t.body)
    (hes : w.enclosures = es) : ∃ w', Ready w' t'.body ∧ w'.enclosures = es' := by
  induction h generalizing w with
  | here => exact ⟨w, r, hes⟩
  | first _ ih => exact ih r hes
  | @second es es' t t₁ t' s₁ s₂ u before _ ih =>
    obtain ⟨w₁, t₁', hlower, hstays⟩ := s₁.exists_lower r
    obtain rfl : t₁ = t₁' := Except.ok.inj (before.symm.trans hlower)
    exact ih hstays.ready (by rw [Site.enclosures, hstays.frames_eq]; exact hes)
  | inside enters _ ih =>
    obtain ⟨f, xs, w₁, rfl, hopens⟩ := enters.exists_opens r
    refine ih hopens.ready ?_
    rw [Site.enclosures, hopens.frames_eq, List.map_cons, ← hes, Site.enclosures]

/-- **The edges tell the nesting**: at every position of a structured program, before a statement
and behind it, the region of the current block is the side that is being built of the innermost open
construct. -/
theorem region_tells_nesting {options : Options}
    (h : Stands [] { body := .start options } s es t u) :
    ∃ t', u.lower t = .ok t' ∧ t.body.Tells es ∧ t'.body.Tells es := by
  obtain ⟨w, r, rfl⟩ := h.exists_ready (Ready.start options) rfl
  obtain ⟨w', t', hlower, hstays⟩ := u.exists_lower r
  refine ⟨t', hlower, r.tells, ?_⟩
  have hsame : w'.enclosures = w.enclosures := by rw [Site.enclosures, hstays.frames_eq]; rfl
  rw [← hsame]
  exact hstays.ready.tells

/-- A loop on the else side of an if, which comes after another if; every test is `0 = 0`. -/
def loopInElse : Stmt :=
  .seq (.ifThen ⟨.lit 0, .eq, .lit 0⟩ .skip)
    (.ifElse ⟨.lit 0, .eq, .lit 0⟩ .skip (.loop ⟨.lit 0, .eq, .lit 0⟩ .skip))

/-- The way into the loop: the second if is at block 2 and joins at block 4, and the header of the
loop is block 7. -/
theorem loopInElse_enters : (do
    let t ← (ifThen ⟨.lit 0, .eq, .lit 0⟩ .skip).lower { body := .start {} }
    let (test, join, t) ← t.enterIf ⟨.lit 0, .eq, .lit 0⟩
    let t ← t.enterElse test
    let (head, _) ← t.enterLoop ⟨.lit 0, .eq, .lit 0⟩
    return (test, join, head)) = Except.ok (2, 4, 7) := by
  decide +kernel

theorem region_tells_nesting_loopInElse : ∃ t t',
    Stands [] { body := .start {} } loopInElse [.loopBody 7, .elseSide 2 4] t .skip ∧
      Stmt.skip.lower t = .ok t' ∧ t.body.Tells [.loopBody 7, .elseSide 2 4] ∧
      t'.body.Tells [.loopBody 7, .elseSide 2 4] := by
  obtain ⟨t₁, hfirst, h⟩ := bind_eq_ok_iff.1 loopInElse_enters
  obtain ⟨⟨test, join, t₂⟩, hif, h⟩ := bind_eq_ok_iff.1 h
  obtain ⟨t₃, helse, h⟩ := bind_eq_ok_iff.1 h
  obtain ⟨⟨head, t⟩, hloop, h⟩ := bind_eq_ok_iff.1 h
  cases h
  have hstands : Stands [] { body := .start {} } loopInElse [.loopBody 7, .elseSide 2 4] t .skip :=
    .second hfirst (.inside (.elseSide hif rfl helse) (.inside (.loopBody hloop) .here))
  obtain ⟨t', h⟩ := region_tells_nesting hstands
  exact ⟨t, t', hstands, h⟩

end Stmt
end StructuredSSA
