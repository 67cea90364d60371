import StructuredSSA.Proofs.Body.Run

/-!
# The kinds of steps

Most commands add an instruction or aim a branch; variables, phis and constructs do not take part.
`Shift` puts them together and leaves the steps that matter to variables: assignments, and the
opening and closing of constructs.

## What is here

* `Graph.Retargets`, `Graph.Receives` — the same instructions as before, and one more.
* `Graph.Calm` — what both leave alone.
* `Shift` — the kinds of steps.
* `Step.close_cases`, `Step.carriesOut` — what closing a construct does.
* `Step.shift` — every step is of one of these kinds.
-/

set_option autoImplicit false

namespace StructuredSSA

namespace Graph

/-- `g'` is `g` but for stand-ins and the targets of branches. -/
structure Retargets (g g' : Graph) : Prop where
  skeleton : SameSkeleton g g'
  nextId_eq : g'.nextId = g.nextId
  home?_eq : ∀ i, g'.home? i = g.home? i
  isBranch_eq : ∀ i, g'.isBranch i = g.isBranch i
  op?_iff : ∀ i op, op.isBranch = false → (g'.op? i = some op ↔ g.op? i = some op)
  listed_eq : ∀ b, g'.listed b = g.listed b
  binding_eq : ∀ b x, g'.binding b x = g.binding b x

/-- `g'` is `g` with `op` at the end of `c`, but for stand-ins and the targets of branches. -/
structure Receives (g : Graph) (c : BlockId) (op : Operation) (g' : Graph) : Prop where
  skeleton : SameSkeleton g g'
  nextId_eq : g'.nextId = g.nextId + 1
  home?_eq : ∀ i, g'.home? i = if i = g.nextId then some c else g.home? i
  isBranch_eq : ∀ i, g'.isBranch i = if i = g.nextId then op.isBranch else g.isBranch i
  op?_iff : ∀ i o, o.isBranch = false →
    (g'.op? i = some o ↔ i = g.nextId ∧ o = op ∨ i ≠ g.nextId ∧ g.op? i = some o)
  listed_eq : ∀ b, g'.listed b = if b = c then g.listed c ++ [g.nextId] else g.listed b
  binding_eq : ∀ b x, g'.binding b x = g.binding b x

namespace Retargets

variable {g g' g'' : Graph}

theorem refl (g : Graph) : Retargets g g :=
  ⟨.refl g, rfl, fun _ => rfl, fun _ => rfl, fun _ _ _ => Iff.rfl, fun _ => rfl, fun _ _ => rfl⟩

theorem of_sameShape (h : SameShape g g')
    (hop : ∀ i op, op.isBranch = false → (g'.op? i = some op ↔ g.op? i = some op)) :
    Retargets g g' :=
  ⟨h.skeleton, h.nextId_eq, h.home?_eq, h.isBranch_eq, hop, h.listed_eq, h.binding_eq⟩

theorem of_aims {c : BlockId} (h : Aims g c g') : Retargets g g' :=
  ⟨h.skeleton, h.nextId_eq, h.home?_eq, h.isBranch_eq, h.op?_iff, h.listed_eq, h.binding_eq⟩

theorem hasBranch_iff (h : Retargets g g') (b : BlockId) : g'.HasBranch b ↔ g.HasBranch b :=
  Closable.hasBranch_congr h.isBranch_eq h.home?_eq b

end Retargets

namespace Receives

variable {g g' g'' : Graph} {c : BlockId} {op : Operation}

theorem of_places (h : Places g c op g') (hphi : op.isPhi = false) : Receives g c op g' where
  skeleton := h.skeleton
  nextId_eq := h.nextId_eq
  home?_eq := h.home?_eq
  isBranch_eq i := by
    split
    · rename_i hi
      rw [hi, h.isBranch_new]
    · rename_i hi
      exact h.isBranch_old hi
  op?_iff i o ho := h.op?_eq ho
  listed_eq b := by
    rw [h.listed_eq, listedWith, hphi, Bool.false_and]
    rfl
  binding_eq := h.binding_eq

theorem after (h : Retargets g g') (h' : Receives g' c op g'') : Receives g c op g'' where
  skeleton := h.skeleton.trans h'.skeleton
  nextId_eq := by rw [h'.nextId_eq, h.nextId_eq]
  home?_eq i := by rw [h'.home?_eq, h.nextId_eq, h.home?_eq]
  isBranch_eq i := by rw [h'.isBranch_eq, h.nextId_eq, h.isBranch_eq]
  op?_iff i o ho := by rw [h'.op?_iff i o ho, h.nextId_eq, h.op?_iff i o ho]
  listed_eq b := by rw [h'.listed_eq, h.nextId_eq, h.listed_eq, h.listed_eq]
  binding_eq b x := (h'.binding_eq b x).trans (h.binding_eq b x)

theorem retargeted (h : Receives g c op g') (h' : Retargets g' g'') : Receives g c op g'' where
  skeleton := h.skeleton.trans h'.skeleton
  nextId_eq := h'.nextId_eq.trans h.nextId_eq
  home?_eq i := (h'.home?_eq i).trans (h.home?_eq i)
  isBranch_eq i := (h'.isBranch_eq i).trans (h.isBranch_eq i)
  op?_iff i o ho := (h'.op?_iff i o ho).trans (h.op?_iff i o ho)
  listed_eq b := (h'.listed_eq b).trans (h.listed_eq b)
  binding_eq b x := (h'.binding_eq b x).trans (h.binding_eq b x)

theorem hasBranch_iff (h : Receives g c op g') (b : BlockId) :
    g'.HasBranch b ↔ g.HasBranch b ∨ op.isBranch = true ∧ b = c := by
  constructor
  · rintro ⟨i, hi, hhome⟩
    rw [h.isBranch_eq] at hi
    rw [h.home?_eq] at hhome
    split at hhome
    · rename_i heq
      rw [if_pos heq] at hi
      exact .inr ⟨hi, (Option.some.inj hhome).symm⟩
    · rename_i hne
      rw [if_neg hne] at hi
      exact .inl ⟨i, hi, hhome⟩
  · rintro (⟨i, hi, hhome⟩ | ⟨hop, rfl⟩)
    · have hne := Nat.ne_of_lt (lt_nextId_of_home? hhome)
      exact ⟨i, by rw [h.isBranch_eq, if_neg hne, hi], by rw [h.home?_eq, if_neg hne, hhome]⟩
    · exact ⟨g.nextId, by rw [h.isBranch_eq, if_pos rfl, hop], by rw [h.home?_eq, if_pos rfl]⟩

theorem hasBranch (h : Receives g c op g') {b : BlockId} (hb : g.HasBranch b) : g'.HasBranch b :=
  (h.hasBranch_iff b).2 (.inl hb)

end Receives

/-- `g'` is `g` with more instructions, none of them a phi, and with branches aimed.  Apart from the
head block, instructions are added only to blocks without a branch. -/
structure Calm (g g' : Graph) : Prop where
  skeleton : SameSkeleton g g'
  nextId_le : g.nextId ≤ g'.nextId
  binding_eq : ∀ b x, g'.binding b x = g.binding b x
  home?_old : ∀ i, i < g.nextId → g'.home? i = g.home? i
  home?_new : ∀ i b, g.nextId ≤ i → g'.home? i = some b → b = Body.head ∨ ¬ g.HasBranch b
  op?_iff : ∀ i op, i < g.nextId → op.isBranch = false →
    (g'.op? i = some op ↔ g.op? i = some op)
  isPhi_new : ∀ i, g.nextId ≤ i → g'.isPhi i = false
  hasBranch : ∀ b, g.HasBranch b → g'.HasBranch b

namespace Calm

variable {g g' : Graph} {b : BlockId} {op : Operation}

theorem of_retargets (h : Retargets g g') : Calm g g' where
  skeleton := h.skeleton
  nextId_le := Nat.le_of_eq h.nextId_eq.symm
  binding_eq := h.binding_eq
  home?_old i _ := h.home?_eq i
  home?_new i b hi hb := by
    rw [h.home?_eq] at hb
    exact absurd (lt_nextId_of_home? hb) (Nat.not_lt.2 hi)
  op?_iff i op _ ho := h.op?_iff i op ho
  isPhi_new i hi := by
    have : g'.instr? i = none := instr?_eq_none_of_le (by rw [h.nextId_eq]; exact hi)
    rw [isPhi_eq, op?, this]
    rfl
  hasBranch b hb := (h.hasBranch_iff b).2 hb

theorem of_receives {c : BlockId} (h : Receives g c op g') (hphi : op.isPhi = false)
    (hc : c = Body.head ∨ ¬ g.HasBranch c) : Calm g g' where
  skeleton := h.skeleton
  nextId_le := by
    rw [h.nextId_eq]
    exact Nat.le_succ _
  binding_eq := h.binding_eq
  home?_old i hi := by rw [h.home?_eq, if_neg (Nat.ne_of_lt hi)]
  home?_new i b hi hb := by
    rw [h.home?_eq] at hb
    split at hb
    · cases hb
      exact hc
    · exact absurd (lt_nextId_of_home? hb) (Nat.not_lt.2 hi)
  op?_iff i o hi ho := by
    rw [h.op?_iff i o ho]
    simp [Nat.ne_of_lt hi]
  isPhi_new i hi := by
    cases hi' : g'.isPhi i with
    | false => rfl
    | true =>
      rw [isPhi_eq, Option.any_eq_true] at hi'
      obtain ⟨o, ho, ho'⟩ := hi'
      rcases (h.op?_iff i o (Operation.isBranch_of_isPhi ho')).1 ho with ⟨-, rfl⟩ | ⟨-, ho⟩
      · rw [hphi] at ho'
        cases ho'
      · exact absurd (lt_nextId_of_op? ho) (Nat.not_lt.2 hi)
  hasBranch b hb := h.hasBranch hb

/-- Phis are left alone altogether. -/
theorem op?_phi (h : Calm g g') {i : InstrId} {op : Operation} (hphi : op.isPhi = true) :
    g'.op? i = some op ↔ g.op? i = some op := by
  have hbr := Operation.isBranch_of_isPhi hphi
  by_cases hi : i < g.nextId
  · exact h.op?_iff i op hi hbr
  · refine iff_of_false (fun hop => ?_) fun hop => hi (lt_nextId_of_op? hop)
    have := h.isPhi_new i (Nat.not_lt.1 hi)
    rw [isPhi_eq, hop, Option.any_some, hphi] at this
    cases this

theorem isPhi_eq (h : Calm g g') (i : InstrId) : g'.isPhi i = g.isPhi i := by
  rw [Bool.eq_iff_iff, Graph.isPhi_eq, Graph.isPhi_eq, Option.any_eq_true, Option.any_eq_true]
  constructor
  · rintro ⟨op, hop, hphi⟩
    exact ⟨op, (h.op?_phi hphi).1 hop, hphi⟩
  · rintro ⟨op, hop, hphi⟩
    exact ⟨op, (h.op?_phi hphi).2 hop, hphi⟩

theorem ownPhi_iff (h : Calm g g') {x : Var} {i : InstrId} : g'.OwnPhi b x i ↔ g.OwnPhi b x i := by
  rw [OwnPhi, OwnPhi, h.binding_eq, h.isPhi_eq]
  by_cases hi : i < g.nextId
  · rw [h.home?_old i hi]
  · have hphi : g.isPhi i = false := by rw [← h.isPhi_eq, h.isPhi_new i (Nat.not_lt.1 hi)]
    simp [hphi]

end Calm
end Graph

/-- An operation that is retired when it is added is added all the same. -/
theorem Graph.Places.receives_retire {u : Body} {op : Operation} {g : Graph} {b : BlockId}
    (h : u.graph.Places b op g) (hphi : op.isPhi = false) (e : InstrId) :
    u.graph.Receives b op (({ u with graph := g } : Body).retire u.graph.nextId e).graph := by
  refine (Graph.Receives.of_places h hphi).retargeted ?_
  exact .of_sameShape (Graph.sameShape_setStandIn g u.graph.nextId (some e)) fun j o _ => by
    rw [Body.retire, Graph.op?_modifyInstr_setStandIn]

/-- Adding an operation to the current block adds an instruction there, or none. -/
theorem Body.Emits.receives {u u' : Body} {op : Operation} {i : InstrId} (h : u.Emits op i u')
    (hphi : op.isPhi = false) :
    u'.graph = u.graph ∨ u.graph.Receives u.current op u'.graph := by
  cases h with
  | reused => exact .inl rfl
  | @retired e k oe g _ hplace => exact .inr (hplace.receives_retire hphi e)
  | placed hplace => exact .inr (.of_places hplace hphi)

/-! ## Kinds of steps -/

/-- Where instructions other than phis are added: constants to the head block, anything to the
blocks that accept operations, and to the end of a then side its jump, which comes late. -/
def Site.Fills (w : Site) (c : BlockId) (op : Operation) : Prop :=
  (c = Body.head ∧ ∃ v, op = .const v) ∨ w.Accepts c ∨
    op.isBranch = true ∧ ∃ f ∈ w.frames, f.part = .elseSide c

/-- `Shift w u w' u'`: the kinds of steps from `w` and `u` to `w'` and `u'`. -/
inductive Shift (w : Site) (u : Body) : Site → Body → Prop where
  /-- At most the branch of a test is aimed. -/
  | retarget {u' : Body} (h : u.graph.Retargets u'.graph) : Shift w u w u'
  /-- An instruction is added that is no phi. -/
  | receive {u' : Body} {c : BlockId} {op : Operation} (h : u.graph.Receives c op u'.graph)
      (hphi : op.isPhi = false) (hfills : w.Fills c op)
      (hclear : c = Body.head ∨ ¬ u.graph.HasBranch c)
      (hreads : op.operands = [] ∨ c = u.current ∧ w.Accepts c ∧
        ∀ o ∈ op.operands, ∀ d, o.value = some d → u.Obtains d)
      (hmeans : ∀ o ∈ op.operands, u.Means o) : Shift w u w u'
  | assign {u' : Body} {x : Var} {v : Option InstrId} (hcurrent : u.current = w.tail)
      (hv : ∀ i, v = some i → (u.graph.op? i).isSome = true)
      (hvalue : ∀ i, v = some i → u.Obtains i)
      (hmerges : (u.withBinding w.tail x v).Merges w x v u') : Shift w u w u'
  | openIf {join side : BlockId} {u' : Body} (hclear : ¬ u.graph.HasBranch w.tail)
      (hopens : u.graph.OpensIf w.tail join side u'.graph) :
      Shift w u (w.openIf join side (u.graph.meaning w.tail) u.graph.nextId) u'
  | openElse {f : Frame} {fs : List Frame} {side : BlockId} {u' : Body}
      (hframes : w.frames = f :: fs) (hpart : f.part = .thenSide)
      (hclear : ¬ u.graph.HasBranch w.tail)
      (hopens : u.graph.OpensElse f.test f.target w.tail side u'.graph) :
      Shift w u (w.openElse side) u'
  | openLoop {head body exit : BlockId} {u' : Body} (hclear : ¬ u.graph.HasBranch w.tail)
      (hopens : u.graph.OpensLoop w.tail head body exit u'.graph) :
      Shift w u (w.openLoop head body exit (u.graph.meaning w.tail) u.graph.nextId) u'
  /-- A construct is left, and its phis are carried outward. -/
  | close {f : Frame} {fs : List Frame} {u₀ u' : Body} (hframes : w.frames = f :: fs)
      (hgraph : u₀.graph = u.graph) (hleft : Built w.pop u₀)
      (htested : ∀ f' ∈ fs, u.graph.HasBranch f'.test)
      (hcarries : u₀.Carries w.pop f.phiBlock f.test u') : Shift w u w.pop u'

/-- A construct is closed, whatever kind it is of. -/
theorem Step.close_cases {w w' : Site} {u u' : Body} {c : Body.Command} (b : Built w u)
    (h : Step w u c w' u') {p : BlockId} (hc : c = .closeIf p ∨ c = .closeLoop p) :
    ∃ f fs u₀, w.frames = f :: fs ∧ f.test = p ∧ w' = w.pop ∧ u₀.graph = u.graph ∧
      Built w.pop u₀ ∧ (∀ f' ∈ fs, u.graph.HasBranch f'.test) ∧
      u₀.Carries w.pop f.phiBlock f.test u' := by
  have hchange := h.change
  rcases hc with rfl | rfl
  · cases hchange with
    | @closeIf _ f fs hframes hpart hcurrent _ hleft hcarries =>
      refine ⟨f, fs, u, hframes, rfl, rfl, rfl, hleft, fun f' hf' => ?_, ?_⟩
      · have hmem : f' ∈ w.frames := by rw [hframes]; exact List.mem_cons_of_mem _ hf'
        refine (b.closable.tested f' hmem).resolve_left fun heq => ?_
        have hpassed := b.layout.behind f' hmem _ (Layout.test_mem_behind f')
        rw [heq, hcurrent] at hpassed
        exact b.layout.passed_not_target hpassed (List.mem_map_of_mem (by simp [hframes]))
      · rw [Frame.phiBlock_eq_target hpart]
        exact hcarries
  · cases hchange with
    | @closeLoop _ f fs hframes hpart hcurrent _ hleft hcarries =>
      refine ⟨f, fs, { u with loopStarts := u.loopStarts.tail }, hframes, rfl, rfl, rfl, hleft,
        fun f' hf' => ?_, ?_⟩
      · have hmem : f' ∈ w.frames := by rw [hframes]; exact List.mem_cons_of_mem _ hf'
        refine (b.closable.tested f' hmem).resolve_left fun heq => ?_
        have hnested := b.layout.nested
        rw [hframes] at hnested
        have hbefore := (List.pairwise_cons.1 hnested).1 f' hf' _ (Layout.test_mem_behind f')
        exact b.layout.ne_of_sublist hbefore (heq.trans hcurrent)
      · rw [Frame.phiBlock_eq_test hpart]
        exact hcarries

/-- `CarriesOut u c b exit origin u₀`: the command `c`, which closes a construct that was opened at
`origin` and is left through `exit`, carries the phis of `b` outward, beginning with the body
`u₀`. -/
inductive Body.CarriesOut (u : Body) :
    Body.Command → BlockId → BlockId → BlockId → Body → Prop where
  | closeIf {parent : BlockId} : CarriesOut u (.closeIf parent) u.current u.current parent u
  | closeLoop {head exit : BlockId} {blk : Block} (hblk : u.graph.block head = .ok blk)
      (hexit : blk.branchTo = some exit) :
      CarriesOut u (.closeLoop head) head exit head { u with loopStarts := u.loopStarts.tail }

/-- Closing a construct carries its phis to where construction goes on. -/
theorem Step.carriesOut {w w' : Site} {u u' u₀ : Body} {c : Body.Command} {d exit origin : BlockId}
    (b : Built w u) (h : Step w u c w' u') (hout : u.CarriesOut c d exit origin u₀) :
    ∃ f fs, w.frames = f :: fs ∧ d = f.phiBlock ∧ exit = w.pop.tail ∧ origin = f.test ∧
      u₀.graph = u.graph ∧ Built w.pop u₀ ∧ ∀ f' ∈ fs, u.graph.HasBranch f'.test := by
  have hchange := h.change
  cases hout with
  | closeIf =>
    obtain ⟨f', fs', -, hframes', -, -, -, -, htested, -⟩ := h.close_cases b (.inl rfl)
    cases hchange with
    | @closeIf _ f fs hframes hpart hcurrent _ hleft _ =>
      rw [hframes] at hframes'
      obtain ⟨rfl, rfl⟩ := List.cons.inj hframes'
      have htail : w.pop.tail = f.target := by rw [Site.pop, hframes]
      exact ⟨f, fs, hframes, by rw [Frame.phiBlock_eq_target hpart, hcurrent],
        by rw [htail, hcurrent], rfl, rfl, hleft, htested⟩
  | closeLoop hblk hexit =>
    obtain ⟨f', fs', -, hframes', -, -, -, -, htested, -⟩ := h.close_cases b (.inr rfl)
    cases hchange with
    | @closeLoop _ f fs hframes hpart hcurrent _ hleft _ =>
      rw [hframes] at hframes'
      obtain ⟨rfl, rfl⟩ := List.cons.inj hframes'
      have htail : w.pop.tail = f.target := by rw [Site.pop, hframes]
      have hframed := b.layout.framed_loopBody (f := f) (by simp [hframes]) hpart
      simp only [Graph.next, Graph.block_eq_ok_iff.1 hblk] at hframed
      exact ⟨f, fs, hframes, by rw [Frame.phiBlock_eq_test hpart],
        by rw [htail]; exact Option.some.inj (hexit.symm.trans hframed.2), rfl, rfl, hleft, htested⟩

/-- **Every step is of one of these kinds.** -/
theorem Step.shift {w w' : Site} {u u' : Body} {c : Body.Command} (b : Built w u)
    (h : Step w u c w' u') : Shift w u w' u' := by
  cases h.change with
  | found => exact .retarget (.refl _)
  | constant hplace =>
    exact .receive (.of_places hplace rfl) rfl (.inl ⟨rfl, _, rfl⟩) (.inl rfl) (.inl rfl) (by nofun)
  | emit hphi _ hplace hreads hclear hemits hmeans =>
    rcases hemits.receives hphi with heq | hreceives
    · exact .retarget (by rw [heq]; exact .refl _)
    · exact .receive hreceives hphi (.inr (.inl hplace)) (.inr hclear) (.inr ⟨rfl, hplace, hreads⟩)
        hmeans
  | @test f fs _ _ hframes hcurrent hclear hplace =>
    exact .receive (.of_places hplace rfl) rfl (.inr (.inl (.inr ⟨f, fs, hframes, hcurrent⟩)))
      (.inr hclear) (.inl rfl) (by nofun)
  | assign hcurrent hv hvalue hmerges => exact .assign hcurrent hv hvalue hmerges
  | moveTo => exact .retarget (.refl _)
  | joinAhead => exact .retarget (.refl _)
  | openIf _ hclear hopens => exact .openIf hclear hopens
  | openElse hframes hpart _ hclear hopens => exact .openElse hframes hpart hclear hopens
  | openLoop _ hclear hopens => exact .openLoop hclear hopens
  | aimBranch _ _ haims => exact .retarget (.of_aims haims)
  | @emitJump f fs c dst t g₁ g hframes hc _ _ hclear hshape hop _ hplace =>
    refine .receive (.after (.of_sameShape hshape fun i o _ => by rw [hop])
      (.of_places hplace rfl)) rfl ?_ (.inr hclear) (.inl rfl) (by nofun)
    rcases hc with hpart | ⟨-, htail⟩
    · exact .inr (.inr ⟨rfl, f, by simp [hframes], hpart⟩)
    · exact .inr (.inl (.inl htail))
  | closeIf =>
    obtain ⟨f, fs, u₀, hframes, -, -, hgraph, hleft, htested, hcarries⟩ :=
      h.close_cases b (.inl rfl)
    exact .close hframes hgraph hleft htested hcarries
  | closeLoop =>
    obtain ⟨f, fs, u₀, hframes, -, -, hgraph, hleft, htested, hcarries⟩ :=
      h.close_cases b (.inr rfl)
    exact .close hframes hgraph hleft htested hcarries

end StructuredSSA
