import StructuredSSA.Proofs.Body.Run
import StructuredSSA.Proofs.Graph.Dominance

/-!
# Sharing and dominance

A result can be shared with a block only if control cannot come to the block without computing it.
What a block is offered satisfies this, so an instruction that is retired when it is added is
dominated by its stand-in.  Whether it stays so depends on what happens when sharing is undone.

## What is here

* `Graph.Covers` — an instruction is computed whenever control comes to another.
* `Graph.Extends` — what dominated before still does.
* `Graph.Offering` — everything offered comes from dominating blocks.
* `Step.advances` — what one step does to dominance, to the offers and to stand-ins.
* `Shared` — the invariant of sharing.
* `Unshared` — nothing is retired if nothing is to be shared.
-/

set_option autoImplicit false

namespace StructuredSSA

namespace Graph

/-- Control does not come to `d` without computing `r` first: both are in one block and `r` was
placed before `d`, or the block of `r` is another one that dominates the block of `d`. -/
def Covers (g : Graph) (r d : InstrId) : Prop :=
  ∃ a b, g.home? r = some a ∧ g.home? d = some b ∧
    (a = b ∧ r < d ∨ a ≠ b ∧ g.Dominates Body.head a b)

/-- Control can come to every block. -/
def Connected (g : Graph) : Prop := ∀ b, b < g.blocks.size → g.Reached Body.head b

/-- Everything offered is computed in a block that dominates the one it is offered to. -/
def Offering (g : Graph) : Prop :=
  ∀ b k i, b < g.blocks.size → i ∈ (g.offered b).candidates k →
    ∃ a, g.home? i = some a ∧ g.Dominates Body.head a b

/-- **Covering is transitive.** -/
theorem Covers.trans {g : Graph} (hc : g.Contents) (hg : g.Connected) {i j k : InstrId}
    (hij : g.Covers i j) (hjk : g.Covers j k) : g.Covers i k := by
  obtain ⟨a, b, ha, hb, hab⟩ := hij
  obtain ⟨b', c, hb', hk, hbc⟩ := hjk
  rw [hb, Option.some.injEq] at hb'
  subst hb'
  refine ⟨a, c, ha, hk, ?_⟩
  rcases hab with ⟨rfl, hij⟩ | ⟨hne, hab⟩
  · rcases hbc with ⟨rfl, hjk⟩ | hbc
    · exact .inl ⟨rfl, Nat.lt_trans hij hjk⟩
    · exact .inr hbc
  · rcases hbc with ⟨rfl, -⟩ | ⟨-, hbc⟩
    · exact .inr ⟨hne, hab⟩
    · refine .inr ⟨fun hac => hne ?_, hab.trans hbc⟩
      subst hac
      exact hab.antisymm hbc (hg b (hc.home_lt j b hb))

/-! ## Growth -/

/-- Nothing is lost from `g` to `g'`: instructions stay in their blocks, and what dominated a block
still does. -/
structure Extends (g g' : Graph) : Prop where
  home? : ∀ i b, g.home? i = some b → g'.home? i = some b
  dominates : ∀ a b, b < g.blocks.size → g.Dominates Body.head a b → g'.Dominates Body.head a b
  connected : g.Connected → g'.Connected

namespace Extends

variable {g g' g'' : Graph}

theorem refl (g : Graph) : Extends g g := ⟨fun _ _ h => h, fun _ _ _ h => h, id⟩

theorem of_sameSkeleton (h : SameSkeleton g g')
    (hhome : ∀ i b, g.home? i = some b → g'.home? i = some b) : Extends g g' where
  home? := hhome
  dominates _ _ _ hab := h.dominates_iff.2 hab
  connected hg b hb := h.reached_iff.2 (hg b ((h.lt_size_iff b).1 hb))

theorem of_places {c : BlockId} {op : Operation} (h : Places g c op g') : Extends g g' :=
  of_sameSkeleton h.skeleton fun i b hi => by
    rw [h.home?_eq, if_neg (Nat.ne_of_lt (lt_nextId_of_home? hi)), hi]

theorem of_sameShape (h : SameShape g g') : Extends g g' :=
  of_sameSkeleton h.skeleton fun i b hi => by rw [h.home?_eq, hi]

theorem of_grows {c : BlockId} (h : Grows g c g') : Extends g g' :=
  of_sameSkeleton h.skeleton fun i b hi => by rw [h.home?_old i (lt_nextId_of_home? hi), hi]

theorem of_rebinds {c : BlockId} (h : Rebinds g c g') : Extends g g' :=
  of_sameSkeleton h.skeleton fun i b hi => by rw [h.home?_eq, hi]

theorem of_grafts {p : BlockId} (h : Grafts g p g') (hstock : SameStock g g') : Extends g g' where
  home? i b hi := by rw [Graph.home?, hstock.instr?_eq]; exact hi
  dominates a b hb hab := h.dominates (Nat.lt_of_le_of_lt (Nat.zero_le _) hb) hb hab
  connected hg b hb := h.reached hg hb

theorem trans (h : Extends g g') (h' : Extends g' g'')
    (hsize : g.blocks.size ≤ g'.blocks.size) : Extends g g'' where
  home? i b hi := h'.home? i b (h.home? i b hi)
  dominates a b hb hab := h'.dominates a b (Nat.lt_of_lt_of_le hb hsize) (h.dominates a b hb hab)
  connected hg := h'.connected (h.connected hg)

theorem covers (h : Extends g g') (hc : g.Contents) {r d : InstrId} (hrd : g.Covers r d) :
    g'.Covers r d := by
  obtain ⟨a, b, ha, hb, hab⟩ := hrd
  exact ⟨a, b, h.home? r a ha, h.home? d b hb,
    hab.imp_right fun ⟨hne, hab⟩ => ⟨hne, h.dominates a b (hc.home_lt d b hb) hab⟩⟩

/-- The offers stay sound if each block is offered what it was offered, or what a dominating block
was offered. -/
theorem offering (h : Extends g g') (ho : g.Offering)
    (hoffered : ∀ b, b < g'.blocks.size → ∃ b', b' < g.blocks.size ∧ g'.offered b = g.offered b' ∧
      (b = b' ∨ g'.Dominates Body.head b' b)) : g'.Offering := by
  intro b k i hb hi
  obtain ⟨b', hlt, heq, hb'⟩ := hoffered b hb
  rw [heq] at hi
  obtain ⟨a, ha, hab⟩ := ho b' k i hlt hi
  refine ⟨a, h.home? i a ha, ?_⟩
  rcases hb' with rfl | hdom
  · exact h.dominates a b hlt hab
  · exact (h.dominates a b' hlt hab).trans hdom

/-- The offers stay sound if they stay the same. -/
theorem offering_of_eq (h : Extends g g') (hskel : SameSkeleton g g')
    (hoffered : ∀ b, g'.offered b = g.offered b) (ho : g.Offering) : g'.Offering :=
  h.offering ho fun b hb => ⟨b, (hskel.lt_size_iff b).1 hb, hoffered b, .inl rfl⟩

/-- Placing an operation offers it to its own block only. -/
theorem offering_places {c : BlockId} {op : Operation} (h : Places g c op g') (ho : g.Offering) :
    g'.Offering := by
  have hext := of_places h
  intro b k i hb hi
  have hb' := (h.skeleton.lt_size_iff b).1 hb
  have hold : i ∈ (g.offered b).candidates k →
      ∃ a, g'.home? i = some a ∧ g'.Dominates Body.head a b := by
    intro hi
    obtain ⟨a, ha, hab⟩ := ho b k i hb' hi
    exact ⟨a, hext.home? i a ha, hext.dominates a b hb' hab⟩
  rw [h.offered_eq] at hi
  split at hi
  · rename_i heq
    subst heq
    rw [Available.with] at hi
    split at hi
    · rw [Available.candidates_push] at hi
      split at hi
      · rcases List.mem_cons.1 hi with rfl | hi
        · exact ⟨b, by rw [h.home?_eq, if_pos rfl], .refl _ _ _⟩
        · exact hold hi
      · exact hold hi
    · exact hold hi
  · exact hold hi

end Extends
end Graph

/-! ## What one step does -/

namespace Built

variable {w : Site} {u u' : Body}

theorem growth_merges (b : Built w u) {x : Var} {v : Option InstrId} (h : u.Merges w x v u') :
    u.graph.Extends u'.graph ∧ u.graph.SameSkeleton u'.graph ∧
      (∀ c, u'.graph.offered c = u.graph.offered c) := by
  cases hframes : w.frames with
  | nil =>
    obtain rfl := h.eq_of_outermost hframes
    exact ⟨.refl _, .refl _, fun _ => rfl⟩
  | cons f fs =>
    have hgrows := b.grows hframes h
    exact ⟨.of_grows hgrows, hgrows.skeleton, hgrows.offered_eq⟩

theorem growth_carries (b : Built w u) {c origin : BlockId} (h : u.Carries w c origin u') :
    u.graph.Extends u'.graph ∧ u.graph.SameSkeleton u'.graph ∧
      (∀ d, u'.graph.offered d = u.graph.offered d) := by
  cases h with
  | outermost =>
    have hre := Graph.rebinds_inheritScope u.graph w.tail origin
    exact ⟨.of_rebinds hre, hre.skeleton, hre.offered_eq⟩
  | inner hne each =>
    obtain ⟨f, fs, hframes⟩ := List.exists_cons_of_ne_nil hne
    have hgrows := (b.of_carriesEach hframes each).1
    exact ⟨.of_grows hgrows, hgrows.skeleton, hgrows.offered_eq⟩

/-- How merging changes stand-ins. -/
theorem regroups_merges (b : Built w u) {x : Var} {v : Option InstrId} (h : u.Merges w x v u') :
    u.graph.Regroups u'.graph := by
  cases h with
  | outermost => exact .of_eq fun _ => rfl
  | replaced => exact .of_eq fun j => Graph.standIn?_modifyInstr_mapOp _ _ _ _
  | @joined f fs before g _ _ _ _ hplace =>
    have hre := Graph.rebinds_bindIn g f.phiBlock x (some u.graph.nextId)
    exact .of_eq fun j => (hre.standIn?_eq j).trans (hplace.standIn?_eq j)
  | @looped f fs before g start hframes _ hnone _ hplace _ =>
    have hre := Graph.rebinds_bindIn g f.phiBlock x (some u.graph.nextId)
    have hb := b.withPhi (b.phiBlock_lt (by rw [hframes]; exact List.mem_cons_self)) hnone hplace
    refine Graph.Regroups.trans (.of_eq fun j => (hre.standIn?_eq j).trans (hplace.standIn?_eq j))
      (hb.redirected_redirectFrom x before u.graph.nextId start).1.regroups

theorem regroups_carriesEach (b : Built w u) {c : BlockId} {is : List InstrId}
    (h : Body.CarriesEach w c is u u') : u.graph.Regroups u'.graph := by
  induction h with
  | nil => exact .of_eq fun _ => rfl
  | cons _ hmerge _ ih => exact (b.regroups_merges hmerge).trans (ih (b.of_merges hmerge))

theorem regroups_carries (b : Built w u) {c origin : BlockId} (h : u.Carries w c origin u') :
    u.graph.Regroups u'.graph := by
  cases h with
  | outermost => exact .of_eq (Graph.rebinds_inheritScope u.graph w.tail origin).standIn?_eq
  | inner _ each => exact b.regroups_carriesEach each

end Built

/-- What one step does to a graph, as far as sharing is concerned. -/
structure Graph.Advances (g g' : Graph) : Prop where
  growth : g.Extends g'
  offering : g.Offering → g'.Offering
  /-- A new stand-in covers a new instruction, or is live. -/
  standIn?_cases : g.Offering → ∀ d p, g'.standIn? d = some p → g.standIn? d = some p ∨
    g.standIn? d = none ∧ g'.Covers p d ∨ g.standIn? d ≠ none ∧ g'.standIn? p = none

namespace Graph.Advances

variable {g g' : Graph}

theorem of_eq (h : g.Extends g') (ho : g.Offering → g'.Offering)
    (hstand : ∀ d, g'.standIn? d = g.standIn? d) : Advances g g' :=
  ⟨h, ho, fun _ d p hd => .inl (by rw [← hstand, hd])⟩

theorem of_regroups (h : g.Extends g') (hskel : g.SameSkeleton g')
    (hoffered : ∀ b, g'.offered b = g.offered b) (hregroups : g.Regroups g') : Advances g g' where
  growth := h
  offering := h.offering_of_eq hskel hoffered
  standIn?_cases _ d p hd := by
    rcases hregroups d with h' | h' | ⟨hne, p', hp', hlive⟩
    · exact .inl (by rw [← h', hd])
    · rw [h'] at hd
      cases hd
    · rw [hd, Option.some.injEq] at hp'
      subst hp'
      exact .inr (.inr ⟨hne, hlive⟩)

theorem of_places {c : BlockId} {op : Operation} (h : Places g c op g') : Advances g g' :=
  of_eq (.of_places h) (Extends.offering_places h) h.standIn?_eq

/-- New blocks are offered what the block was offered that they are grafted onto. -/
theorem of_grafts {p : BlockId} (h : Grafts g p g') (hstock : SameStock g g')
    (hold : ∀ b, b < g.blocks.size → g'.offered b = g.offered b)
    (hnew : ∀ b, g.blocks.size ≤ b → b < g'.blocks.size → g'.offered b = g.offered p) :
    Advances g g' := by
  have hext := Extends.of_grafts h hstock
  refine of_eq hext (fun ho => hext.offering ho fun b hb => ?_) fun d => by
    rw [standIn?, hstock.instr?_eq, standIn?]
  rcases Nat.lt_or_ge b g.blocks.size with hlt | hge
  · exact ⟨b, hlt, hold b hlt, .inl rfl⟩
  · exact ⟨p, h.base_lt, hnew b hge hb,
      .inr (h.dominates_new (Nat.lt_of_le_of_lt (Nat.zero_le _) h.base_lt) hge)⟩

end Graph.Advances

/-- Adding an operation. -/
theorem Body.Emits.advances {w : Site} {u u' : Body} (b : Built w u) {op : Operation} {i : InstrId}
    (h : u.Emits op i u') : u.graph.Advances u'.graph := by
  cases h with
  | reused => exact .of_eq (.refl _) id fun _ => rfl
  | placed hplace => exact .of_places hplace
  | @retired e k oe g _ hplace hoffer hop hsame =>
    have hshape := Graph.sameShape_setStandIn g u.graph.nextId (some e)
    have hext := (Graph.Extends.of_places hplace).trans (.of_sameShape hshape)
      (Nat.le_of_eq hplace.skeleton.size_eq.symm)
    refine ⟨hext, fun ho => (Graph.Extends.of_sameShape hshape).offering_of_eq hshape.skeleton
      hshape.offered_eq (Graph.Extends.offering_places hplace ho), fun ho d p hd => ?_⟩
    change (g.modifyInstr u.graph.nextId (·.setStandIn (some e))).standIn? d = some p at hd
    rw [Graph.standIn?_modifyInstr_setStandIn] at hd
    split at hd
    · rename_i heq
      subst heq
      rw [hplace.instr?_new] at hd
      cases hd
      obtain ⟨a, ha, hdom⟩ := ho u.current k e b.current_lt hoffer
      refine .inr (.inl ⟨by rw [Graph.standIn?, Graph.Places.instr?_nextId]; rfl, a, u.current,
        hext.home? e a ha, (hshape.home?_eq _).trans ?_, ?_⟩)
      · rw [hplace.home?_eq, if_pos rfl]
      · by_cases hne : a = u.current
        · exact .inl ⟨hne, Graph.lt_nextId_of_home? ha⟩
        · exact .inr ⟨hne, hext.dominates a _ b.current_lt hdom⟩
    · rw [hplace.standIn?_eq] at hd
      exact .inl hd

/-- An assignment. -/
theorem Built.advances_assign {w : Site} {u u' : Body} (b : Built w u) {x : Var}
    {v : Option InstrId} (hv : ∀ i, v = some i → (u.graph.op? i).isSome = true)
    (h : (u.withBinding w.tail x v).Merges w x v u') : u.graph.Advances u'.graph := by
  have hre := Graph.rebinds_bindIn u.graph w.tail x v
  have hb := b.withBinding x hv
  obtain ⟨hext, hskel, hoffered⟩ := hb.growth_merges h
  exact .of_regroups ((Graph.Extends.of_rebinds hre).trans hext
    (Nat.le_of_eq hre.skeleton.size_eq.symm)) (hre.skeleton.trans hskel)
    (fun d => (hoffered d).trans (hre.offered_eq d))
    (Graph.Regroups.trans (.of_eq hre.standIn?_eq) (hb.regroups_merges h))

namespace Step

variable {w w' : Site} {u u' : Body} {c : Body.Command}

/-- **What one step does** to dominance, to offers and to stand-ins. -/
theorem advances (b : Built w u) (h : Step w u c w' u') : u.graph.Advances u'.graph := by
  cases h.change with
  | found => exact .of_eq (.refl _) id fun _ => rfl
  | constant hplace => exact .of_places hplace
  | emit _ _ _ _ _ hemits => exact hemits.advances b
  | test _ _ _ hplace => exact .of_places hplace
  | assign _ hv _ hmerges => exact b.advances_assign hv hmerges
  | moveTo => exact .of_eq (.refl _) id fun _ => rfl
  | joinAhead => exact .of_eq (.refl _) id fun _ => rfl
  | openIf _ _ hopens =>
    refine .of_grafts (hopens.grafts b.layout.linked b.layout.tail_lt) hopens.stock
      (fun d hd => ?_) fun d hd hd' => ?_
    · rw [hopens.offered_eq, if_neg]
      rintro (rfl | rfl)
      · exact absurd hd (by rw [hopens.join_eq]; exact Nat.lt_irrefl _)
      · exact absurd hd (by rw [hopens.side_eq]; exact Nat.not_succ_lt_self)
    · rw [hopens.offered_eq, if_pos]
      rw [hopens.size_eq] at hd'
      rw [hopens.join_eq, hopens.side_eq]
      dsimp only [BlockId] at *
      omega
  | openElse hframes hpart _ _ hopens =>
    obtain ⟨hbranch, htail, htail'⟩ := b.edges_thenSide hframes hpart
    refine .of_grafts (hopens.grafts b.layout.linked hbranch htail htail') hopens.stock
      (fun d hd => ?_) fun d hd hd' => ?_
    · rw [hopens.offered_eq, if_neg]
      rintro rfl
      exact absurd hd (by rw [hopens.side_eq]; exact Nat.lt_irrefl _)
    · rw [hopens.offered_eq, if_pos]
      rw [hopens.size_eq] at hd'
      rw [hopens.side_eq]
      exact Nat.le_antisymm (Nat.le_of_lt_succ hd') hd
  | openLoop _ _ hopens =>
    refine .of_grafts (hopens.grafts b.layout.linked b.layout.tail_lt) hopens.stock
      (fun d hd => ?_) fun d hd hd' => ?_
    · rw [hopens.offered_eq]
      split
      · rename_i hnew
        have hexit := hopens.exit_eq
        rcases hopens.head_eq with ⟨hh, hb, -⟩ | ⟨hh, hb⟩
        · obtain rfl : d = w.tail := by
            dsimp only [BlockId] at *
            omega
          rfl
        · dsimp only [BlockId] at *
          omega
      · rfl
    · rw [hopens.offered_eq, if_pos]
      rw [hopens.size_eq] at hd'
      have hexit := hopens.exit_eq
      rcases hopens.head_eq with ⟨hh, hb, -⟩ | ⟨hh, hb⟩
      · dsimp only [BlockId] at *
        omega
      · dsimp only [BlockId] at *
        omega
  | aimBranch _ _ haims =>
    have hext : u.graph.Extends _ := .of_sameSkeleton haims.skeleton fun i d hi => by
      rw [haims.home?_eq, hi]
    exact .of_eq hext (hext.offering_of_eq haims.skeleton haims.offered_eq) haims.standIn?_eq
  | emitJump _ _ _ _ _ hshape _ hstand hplace =>
    refine .of_eq ((Graph.Extends.of_sameShape hshape).trans (.of_places hplace)
      (Nat.le_of_eq hshape.skeleton.size_eq.symm)) (fun ho => ?_) fun d => ?_
    · exact Graph.Extends.offering_places hplace
        ((Graph.Extends.of_sameShape hshape).offering_of_eq hshape.skeleton hshape.offered_eq ho)
    · rw [hplace.standIn?_eq, hstand]
  | closeIf _ _ _ _ hleft hcarries =>
    obtain ⟨hext, hskel, hoffered⟩ := hleft.growth_carries hcarries
    exact .of_regroups hext hskel hoffered (hleft.regroups_carries hcarries)
  | closeLoop _ _ _ _ hleft hcarries =>
    obtain ⟨hext, hskel, hoffered⟩ := hleft.growth_carries hcarries
    exact .of_regroups hext hskel hoffered (hleft.regroups_carries hcarries)

end Step

/-! ## Runs -/

/-- **The invariant of sharing.** -/
structure Shared (g : Graph) : Prop where
  connected : g.Connected
  offering : g.Offering

namespace Shared

theorem start (options : Options) : Shared (Body.start options).graph where
  connected b hb := by
    rw [Body.size_start] at hb
    have hedge : (Body.start options).graph.Succ Body.head Body.entry :=
      Graph.succ_iff.2 ⟨.fall, by rw [Body.next_start]; rfl⟩
    have hcases : b = Body.head ∨ b = Body.entry := by
      dsimp only [BlockId, Body.head, Body.entry] at *
      omega
    rcases hcases with rfl | rfl
    · exact .refl _ _
    · exact .step (.refl _ _) hedge
  offering b k i _ hi := by
    obtain ⟨op, hop, -⟩ := (Built.start options).contents.offers b k i hi
    rw [Graph.op?, Body.instr?_start] at hop
    cases hop

theorem step {w w' : Site} {u u' : Body} {c : Body.Command} (b : Built w u)
    (h : Step w u c w' u') (hs : Shared u.graph) : Shared u'.graph :=
  ⟨(h.advances b).growth.connected hs.connected, (h.advances b).offering hs.offering⟩

theorem run {options : Options} {w : Site} {u : Body} {cs : List Body.Command}
    (h : Run .start (Body.start options) cs w u) : Shared u.graph :=
  h.preserves_along (P := fun _ u => Shared u.graph) (.start options) (.start options)
    fun _ _ hb hp hstep => hp.step hb hstep

end Shared

/-- Nothing is to be shared, and nothing is retired. -/
structure Unshared (u : Body) : Prop where
  share_eq : u.options.share = false
  live : ∀ i, u.graph.standIn? i = none

namespace Unshared

variable {w w' : Site} {u u' : Body} {c : Body.Command}

theorem start {options : Options} (h : options.share = false) :
    Unshared (Body.start options) where
  share_eq := h
  live i := by
    rw [Graph.standIn?, Body.instr?_start]
    rfl

theorem regroups (s : Unshared u) (hoptions : u'.options = u.options)
    (h : u.graph.Regroups u'.graph) : Unshared u' :=
  ⟨by rw [hoptions, s.share_eq], fun i => h.live_of_live (s.live i)⟩

theorem places (s : Unshared u) {b : BlockId} {op : Operation} {g : Graph}
    (h : u.graph.Places b op g) : Unshared { u with graph := g } :=
  s.regroups rfl (.of_eq h.standIn?_eq)

theorem opened (s : Unshared u) (hoptions : u'.options = u.options)
    (h : u.graph.SameStock u'.graph) : Unshared u' :=
  s.regroups hoptions (.of_eq fun i => by rw [Graph.standIn?, h.instr?_eq, Graph.standIn?])

theorem step (b : Built w u) (h : Step w u c w' u') (s : Unshared u) : Unshared u' := by
  cases h.change with
  | found | moveTo | joinAhead => exact ⟨s.share_eq, s.live⟩
  | constant hplace => exact s.places hplace
  | emit _ _ _ _ _ hemits =>
    cases hemits with
    | reused => exact s
    | retired hshare =>
      rw [s.share_eq] at hshare
      cases hshare
    | placed hplace => exact s.places hplace
  | test _ _ _ hplace => exact s.places hplace
  | @assign _ x v _ hv _ hmerges =>
    have hre := Graph.rebinds_bindIn u.graph w.tail x v
    exact s.regroups hmerges.setting.options_eq
      (Graph.Regroups.trans (.of_eq hre.standIn?_eq) ((b.withBinding x hv).regroups_merges hmerges))
  | openIf _ _ hopens => exact s.opened rfl hopens.stock
  | openElse _ _ _ _ hopens => exact s.opened rfl hopens.stock
  | openLoop _ _ hopens => exact s.opened rfl hopens.stock
  | aimBranch _ _ haims => exact s.regroups rfl (.of_eq haims.standIn?_eq)
  | emitJump _ _ _ _ _ _ _ hstand hplace =>
    exact s.regroups rfl (.of_eq fun i => (hplace.standIn?_eq i).trans (hstand i))
  | closeIf _ _ _ _ hleft hcarries =>
    exact s.regroups hcarries.setting.options_eq (hleft.regroups_carries hcarries)
  | closeLoop _ _ _ _ hleft hcarries =>
    exact s.regroups hcarries.setting.options_eq (hleft.regroups_carries hcarries)

theorem run {options : Options} {cs : List Body.Command} (hshare : options.share = false)
    (h : Run .start (Body.start options) cs w u) : Unshared u :=
  h.preserves_along (P := fun _ u => Unshared u) (.start options) (.start hshare)
    fun _ _ hb hp hstep => hp.step hb hstep

end Unshared

end StructuredSSA
