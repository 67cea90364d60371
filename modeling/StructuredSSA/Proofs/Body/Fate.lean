import StructuredSSA.Proofs.Body.Proceeds

/-!
# What becomes of operands

An instruction of a loop that reads what a variable meant before the loop reads the loop's phi of
the variable in the end, if the loop gets one after the instruction has been added; and if it does
not, the next loop around may get one.  So what is read in the end can be told from the finished
graph, from what the variables meant before the loops, and from which phis the loops had when the
instruction was added.

The work is to show that it is told rightly at all times: an instruction reads by now what has
become of its operation by now (`Stands`).  Only a new loop phi changes anything.  It takes the
place of one value in the reads of one variable, and `Graph.fate_redirected` shows that this is what
the fate of these reads does too: a loop inside with a new phi has taken them over before, and its
phi is newer than what the outer loop replaces; the loops around have got no phi of the variable
since.  The second of these is what the invariant must carry (`Stands.waits`): an outer loop may
well get its phi later, but not while a loop inside of it is open.

## What is here

* `Graph.phi?` — the phi of a variable in a block.
* `Graph.fate`, `Operation.fated` — what becomes of a value that is read in open loops, and of an
  operation.
* `Graph.SameRenewals`, `Graph.fate_since` — when a read was added does not matter as long as the
  loops get no phis.
* `Around` — the loops that were open when an instruction was added.
* `Stands` — an instruction that reads what it should read by now.
* `Stands.proceeds` — it still does when construction goes on.
-/

set_option autoImplicit false

namespace StructuredSSA

namespace Operation

instance (op : Operation) (x : Var) : Decidable (op.IsPhiOf x) :=
  decidable_of_iff (op.isPhi = true ∧ ∀ o ∈ op.operands, o.var = some x) <| by
    constructor
    · rintro ⟨hphi, hvars⟩
      cases op with
      | binary k l r =>
        cases k with
        | phi => exact ⟨l, r, rfl, hvars l (by simp [operands]), hvars r (by simp [operands])⟩
        | _ => cases hphi
      | _ => cases hphi
    · rintro ⟨l, r, rfl, hl, hr⟩
      exact ⟨rfl, by simp [operands, hl, hr]⟩

theorem mapOperands_mapOperands (f h : Operand → Operand) (op : Operation) :
    (op.mapOperands f).mapOperands h = op.mapOperands fun o => h (f o) := by
  cases op <;> rfl

theorem mapOperands_congr {f h : Operand → Operand} {op : Operation}
    (heq : ∀ o ∈ op.operands, f o = h o) : op.mapOperands f = op.mapOperands h := by
  cases op with
  | binary op l r =>
    rw [mapOperands, mapOperands, heq l (by simp [operands]), heq r (by simp [operands])]
  | unary op a => rw [mapOperands, mapOperands, heq a (by simp [operands])]
  | move a r => rw [mapOperands, mapOperands, heq a (by simp [operands])]
  | _ => rfl

theorem mapOperands_eq_self {f : Operand → Operand} {op : Operation}
    (heq : ∀ o ∈ op.operands, f o = o) : op.mapOperands f = op := by
  have hid : op.mapOperands id = op := by cases op <;> rfl
  exact (mapOperands_congr heq).trans hid

end Operation

/-! ## The phi of a variable -/

namespace Graph

variable {g g' : Graph} {b : BlockId} {x : Var} {i : InstrId}

/-- The phi of `x` in `b`. -/
def phi? (g : Graph) (b : BlockId) (x : Var) : Option InstrId :=
  (g.listed b).find? fun i => (g.op? i).any fun op => decide (op.IsPhiOf x)

theorem phiOf_of_phi? (h : g.phi? b x = some i) : g.PhiOf b x i := by
  rw [phi?] at h
  have hany := List.find?_some h
  obtain ⟨op, hop, hphi⟩ := (Option.any_eq_true _ _).1 hany
  exact ⟨List.mem_of_find?_eq_some h, op, hop, of_decide_eq_true hphi⟩

theorem phi?_eq_none_iff : g.phi? b x = none ↔ ¬ g.HasPhi b x := by
  rw [phi?, List.find?_eq_none]
  constructor
  · rintro h ⟨i, hi, op, hop, hphi⟩
    exact h i hi (by simp [hop, hphi])
  · intro h i hi hany
    obtain ⟨op, hop, hphi⟩ := (Option.any_eq_true _ _).1 hany
    exact h ⟨i, hi, op, hop, of_decide_eq_true hphi⟩

end Graph

namespace PhiLayout

variable {g g' : Graph} {w w' : Site} {b : BlockId} {x : Var} {i : InstrId}

theorem phi?_eq_some_iff (p : PhiLayout g w) : g.phi? b x = some i ↔ g.PhiOf b x i := by
  refine ⟨Graph.phiOf_of_phi?, fun hi => ?_⟩
  cases h : g.phi? b x with
  | none => exact absurd ⟨i, hi⟩ (Graph.phi?_eq_none_iff.1 h)
  | some j => rw [p.unique b x j i (Graph.phiOf_of_phi? h) hi]

theorem phi?_congr (p : PhiLayout g w) (p' : PhiLayout g' w')
    (h : ∀ i, g'.PhiOf b x i ↔ g.PhiOf b x i) : g'.phi? b x = g.phi? b x :=
  Option.ext fun i => by rw [p.phi?_eq_some_iff, p'.phi?_eq_some_iff, h]

end PhiLayout

/-! ## Values -/

/-- The phi that takes the place of `v` where it is read through `x` in the loop, if the read was
added to `g₀`: it does so if this is what `x` meant before the loop, and the loop had no phi of `x`
yet. -/
def Frame.replacement? (f : Frame) (g g₀ : Graph) (x : Var) (v : Option InstrId) :
    Option InstrId :=
  if v = f.before x ∧ g₀.phi? f.test x = none then g.phi? f.test x else none

/-- The loops have phis of the same variables in both graphs. -/
def Graph.SameRenewals (ls : List Frame) (g g' : Graph) : Prop :=
  ∀ f ∈ ls, ∀ x, g'.HasPhi f.test x ↔ g.HasPhi f.test x

namespace Graph.SameRenewals

variable {g g' g'' : Graph} {ls : List Frame}

theorem of_samePhis (h : g.SamePhis g') : SameRenewals ls g g' := fun _ _ _ => h.hasPhi_iff

theorem symm (h : SameRenewals ls g g') : SameRenewals ls g' g := fun f hf x => (h f hf x).symm

theorem trans (h : SameRenewals ls g g') (h' : SameRenewals ls g' g'') :
    SameRenewals ls g g'' := fun f hf x => (h' f hf x).trans (h f hf x)

end Graph.SameRenewals

namespace Graph

variable {g g' g₀ g₁ : Graph} {fs fs' : List Frame} {f : Frame} {x : Var} {v : Option InstrId}

/-- What becomes of `v` where it is read through `x` in the loops `fs`, the innermost first, by
something that was added to `g₀`: the first loop in which there is a phi that takes its place has
it. -/
def fate (g g₀ : Graph) (fs : List Frame) (x : Var) (v : Option InstrId) : Option InstrId :=
  (fs.findSome? fun f => f.replacement? g g₀ x v).or v

theorem fate_append : g.fate g₀ (fs ++ fs') x v =
    (fs.findSome? fun f => f.replacement? g g₀ x v).or (g.fate g₀ fs' x v) := by
  rw [fate, fate, List.findSome?_append, Option.or_assoc]

theorem fate_cons :
    g.fate g₀ (f :: fs) x v = (f.replacement? g g₀ x v).or (g.fate g₀ fs x v) := by
  rw [fate, fate, List.findSome?_cons]
  cases f.replacement? g g₀ x v <;> rfl

/-- What a variable meant before the loop becomes the phi of the loop. -/
theorem fate_cons_before (hnone : ¬ g₀.HasPhi f.test x) :
    g.fate g₀ (f :: fs) x (f.before x) =
      (g.phi? f.test x).or (g.fate g₀ fs x (f.before x)) := by
  rw [fate_cons, Frame.replacement?, if_pos ⟨rfl, phi?_eq_none_iff.2 hnone⟩]

theorem replacement?_eq_none (h : v = f.before x → g.HasPhi f.test x → g₀.HasPhi f.test x) :
    f.replacement? g g₀ x v = none := by
  rw [Frame.replacement?]
  split
  · rename_i hv
    exact phi?_eq_none_iff.2 fun hphi => phi?_eq_none_iff.1 hv.2 (h hv.1 hphi)
  · rfl

/-- A value that no phi takes the place of stays. -/
theorem fate_eq_self
    (h : ∀ f ∈ fs, v = f.before x → g.HasPhi f.test x → g₀.HasPhi f.test x) :
    g.fate g₀ fs x v = v := by
  rw [fate, List.findSome?_eq_none_iff.2 fun f hf => replacement?_eq_none (h f hf), Option.none_or]

/-- What is read in the end is the value or a phi of one of the loops. -/
theorem fate_cases (g g₀ : Graph) (fs : List Frame) (x : Var) (v : Option InstrId) :
    g.fate g₀ fs x v = v ∨
      ∃ f ∈ fs, ∃ i, g.phi? f.test x = some i ∧ g.fate g₀ fs x v = some i := by
  rw [fate]
  cases h : fs.findSome? fun f => f.replacement? g g₀ x v with
  | none => exact .inl rfl
  | some i =>
    obtain ⟨f, hf, hi⟩ := List.exists_of_findSome?_eq_some h
    rw [Frame.replacement?] at hi
    split at hi
    · exact .inr ⟨f, hf, i, hi, rfl⟩
    · cases hi

theorem replacement?_congr (h : g'.phi? f.test x = g.phi? f.test x) :
    f.replacement? g' g₀ x v = f.replacement? g g₀ x v := by
  rw [Frame.replacement?, Frame.replacement?, h]

theorem findSome?_replacement?_congr (h : ∀ f ∈ fs, g'.phi? f.test x = g.phi? f.test x) :
    (fs.findSome? fun f => f.replacement? g' g₀ x v) =
      fs.findSome? fun f => f.replacement? g g₀ x v := by
  induction fs with
  | nil => rfl
  | cons f fs ih =>
    rw [List.findSome?_cons, List.findSome?_cons, replacement?_congr (h f List.mem_cons_self),
      ih fun f' hf' => h f' (List.mem_cons_of_mem _ hf')]

theorem fate_congr (h : ∀ f ∈ fs, g'.phi? f.test x = g.phi? f.test x) :
    g'.fate g₀ fs x v = g.fate g₀ fs x v := by
  rw [fate, fate, findSome?_replacement?_congr h]

/-- It does not matter when a read was added, as long as the loops got no phis. -/
theorem fate_since (h : ∀ f ∈ fs, g₁.HasPhi f.test x ↔ g₀.HasPhi f.test x) :
    g.fate g₁ fs x v = g.fate g₀ fs x v := by
  induction fs with
  | nil => rfl
  | cons f fs ih =>
    rw [fate_cons, fate_cons, ih fun f' hf' => h f' (List.mem_cons_of_mem _ hf')]
    have hnone : g₁.phi? f.test x = none ↔ g₀.phi? f.test x = none := by
      rw [phi?_eq_none_iff, phi?_eq_none_iff, h f List.mem_cons_self]
    simp only [Frame.replacement?, hnone]

/-- **A new loop phi** takes the place of what the variable meant before the loop: what has become
of a value by now is redirected, unless a loop inside has a phi for it, and loops around have got
none. -/
theorem fate_redirected {closed rest : List Frame} {F : Frame} {i : InstrId}
    (habsent : ¬ g.HasPhi F.test x) (hearlier : g₀.HasPhi F.test x → g.HasPhi F.test x)
    (hnew : g'.phi? F.test x = some i)
    (hold : ∀ f ∈ closed ++ rest, g'.phi? f.test x = g.phi? f.test x)
    (hlater : ∀ f ∈ closed, ∀ j, g.phi? f.test x = some j → some j ≠ F.before x)
    (hwaits : ∀ f ∈ rest, g.HasPhi f.test x → g₀.HasPhi f.test x) :
    g'.fate g₀ (closed ++ F :: rest) x v =
      if g.fate g₀ (closed ++ F :: rest) x v = F.before x then some i
      else g.fate g₀ (closed ++ F :: rest) x v := by
  have hnone : g₀.phi? F.test x = none := phi?_eq_none_iff.2 fun h => habsent (hearlier h)
  have hself : g.fate g₀ rest x v = v := fate_eq_self fun f hf _ => hwaits f hf
  have hself' : g'.fate g₀ rest x v = v := by
    rw [fate_congr fun f hf => hold f (List.mem_append_right _ hf), hself]
  rw [fate_append, fate_append, fate_cons, fate_cons, hself, hself',
    findSome?_replacement?_congr fun f hf => hold f (List.mem_append_left _ hf),
    replacement?_eq_none fun _ h => absurd h habsent]
  cases hfind : closed.findSome? fun f => f.replacement? g g₀ x v with
  | some j =>
    obtain ⟨f, hf, hj⟩ := List.exists_of_findSome?_eq_some hfind
    rw [Frame.replacement?] at hj
    split at hj
    · simp [hlater f hf j hj]
    · cases hj
  | none =>
    rw [Option.none_or, Option.none_or, Option.none_or, Frame.replacement?, hnone]
    by_cases hv : v = F.before x
    · rw [if_pos ⟨hv, rfl⟩, if_pos hv, hnew, Option.some_or]
    · rw [if_neg fun h => hv h.1, if_neg hv, Option.none_or]

end Graph

/-! ## Operations -/

/-- What becomes of an operand that was added to `g₀`. -/
def Operand.fated (g g₀ : Graph) (fs : List Frame) (o : Operand) : Operand :=
  match o.var with
  | some x => { o with value := g.fate g₀ fs x o.value }
  | none => o

theorem Operand.fated_congr {g g' g₀ g₁ : Graph} {fs : List Frame} {o : Operand}
    (h : ∀ x v, g'.fate g₁ fs x v = g.fate g₀ fs x v) : o.fated g' g₁ fs = o.fated g g₀ fs := by
  rw [fated, fated]
  split
  · rw [h]
  · rfl

theorem Graph.SameRenewals.fated_eq {g g₀ g₁ : Graph} {ls : List Frame}
    (h : SameRenewals ls g₀ g₁) (o : Operand) : o.fated g g₁ ls = o.fated g g₀ ls :=
  Operand.fated_congr fun x _ => fate_since fun f hf => h f hf x

namespace Operation

/-- What becomes of an operation that was added to `g₀`. -/
def fated (g g₀ : Graph) (fs : List Frame) (op : Operation) : Operation :=
  op.mapOperands (·.fated g g₀ fs)

variable {g g' g₀ : Graph} {fs : List Frame} {op : Operation}

@[simp] theorem isPhi_fated : (op.fated g g₀ fs).isPhi = op.isPhi := isPhi_mapOperands _ op

@[simp] theorem isBranch_fated : (op.fated g g₀ fs).isBranch = op.isBranch :=
  isBranch_mapOperands _ op

theorem fated_congr (h : ∀ f ∈ fs, ∀ x, g'.phi? f.test x = g.phi? f.test x) :
    op.fated g' g₀ fs = op.fated g g₀ fs :=
  mapOperands_congr fun _ _ => Operand.fated_congr fun x _ => Graph.fate_congr fun f hf => h f hf x

/-- Nothing has become of an operation as long as the loops got no phis. -/
theorem fated_eq_self (h : Graph.SameRenewals fs g₀ g) : op.fated g g₀ fs = op := by
  refine mapOperands_eq_self fun o _ => ?_
  rw [Operand.fated]
  split
  · rename_i x _
    rw [Graph.fate_eq_self fun f hf _ => (h f hf x).1]
  · rfl

/-- What becomes of an operation when reads are redirected to a new loop phi. -/
theorem redirect_fated {x : Var} {before : Option InstrId} {i : InstrId}
    (hother : ∀ y, y ≠ x → ∀ v, g'.fate g₀ fs y v = g.fate g₀ fs y v)
    (hredirected : ∀ o ∈ op.operands, o.var = some x → g'.fate g₀ fs x o.value =
      if g.fate g₀ fs x o.value = before then some i else g.fate g₀ fs x o.value) :
    (op.fated g g₀ fs).redirect x before i = op.fated g' g₀ fs := by
  rw [redirect, fated, mapOperands_mapOperands]
  refine mapOperands_congr fun o ho => ?_
  obtain ⟨v, y⟩ := o
  cases y with
  | none => simp [Operand.fated, Operand.redirect, Operand.through]
  | some y =>
    by_cases hy : y = x
    · subst hy
      have h := hredirected _ ho rfl
      simp only [Operand.fated, Operand.redirect, Operand.through, Operand.mk.injEq, and_true, h]
      split <;> rfl
    · simp [Operand.fated, Operand.redirect, Operand.through, hy, hother y hy]

end Operation

/-! ## The loops around an instruction -/

/-- The loops `ls` were open when the instruction `i` was added, and all loops that are open by now
and are not among them have been opened since. -/
structure Around (g : Graph) (w : Site) (ls : List Frame) (i : InstrId) : Prop where
  nested : ls.Pairwise fun inner outer => outer.start ≤ inner.start ∧ outer.test ≠ inner.test
  before_lt : ∀ f ∈ ls, ∀ x k, f.before x = some k → k < f.start
  inside : ∀ f ∈ ls, f.start ≤ i
  own_ge : ∀ f ∈ ls, ∀ j, g.home? j = some f.test → f.start ≤ j
  passed : ∀ f ∈ ls, f.test ∈ w.passed
  added : i < g.nextId
  loops : ∃ newer older, w.loops = newer ++ older ∧ older <:+ ls ∧
    ∀ f ∈ newer, i < f.start ∧ ∀ f' ∈ ls, f'.test ≠ f.test

/-- From `w` to `w'` loops may have been closed and opened. -/
def Site.Reloops (w : Site) (next : InstrId) (w' : Site) : Prop :=
  ∃ newer older, w'.loops = newer ++ older ∧ older <:+ w.loops ∧
    ∀ f ∈ newer, next ≤ f.start ∧ f.test ∉ w.passed

namespace Site.Reloops

variable {w w' : Site} {next : InstrId}

theorem of_eq (h : w'.loops = w.loops) : w.Reloops next w' :=
  ⟨[], w'.loops, rfl, h ▸ List.suffix_refl _, nofun⟩

theorem pop {f : Frame} {fs : List Frame} (hframes : w.frames = f :: fs) :
    w.Reloops next w.pop := by
  refine ⟨[], w.pop.loops, rfl, ?_, nofun⟩
  have hcons := frames_eq_cons_pop hframes
  by_cases hpart : f.part = .loopBody
  · exact loops_cons hcons hpart ▸ List.suffix_cons f _
  · exact loops_cons_of_ne hcons hpart ▸ List.suffix_refl _

end Site.Reloops

theorem Shift.reloops {w w' : Site} {u u' : Body} (h : Shift w u w' u') (hb : Built w u) :
    w.Reloops u.graph.nextId w' := by
  cases h with
  | retarget | receive | assign => exact .of_eq rfl
  | openIf => exact .of_eq (Site.loops_push_of_ne _ _ (by simp))
  | openElse hframes hpart => exact .of_eq (Site.loops_openElse hframes (by simp [hpart]) _)
  | @openLoop head body exit _ _ hopens =>
    exact ⟨[_], w.loops, Site.loops_push_loop _ _ rfl, List.suffix_refl _,
      List.forall_mem_singleton.2 ⟨Nat.le_refl _, hb.layout.head_not_passed hopens⟩⟩
  | close hframes => exact .pop hframes

namespace Around

variable {g g' : Graph} {w w' : Site} {ls : List Frame} {i : InstrId}

/-- An instruction is added. -/
theorem start (l : Layout g w) (n : Numbered g w) (p : w.Precedes)
    (hinside : ∀ f ∈ w.loops, f.start ≤ i) (hi : i < g.nextId) : Around g w w.loops i where
  nested := by
    have hnested := n.nested.and l.nested
    refine (hnested.imp ?_).filter _
    rintro inner outer ⟨⟨hstart, -⟩, hbehind⟩
    exact ⟨hstart, l.ne_of_sublist (hbehind _ (Layout.test_mem_behind outer))⟩
  before_lt f hf := p f (Site.mem_loops.1 hf).1
  inside := hinside
  own_ge f hf j hj := by
    obtain ⟨hmem, hpart⟩ := Site.mem_loops.1 hf
    exact n.own_ge f hmem j (by rw [hj, Frame.phiBlock_eq_test hpart])
  passed f hf := l.behind f (Site.mem_loops.1 hf).1 _ (Layout.test_mem_behind f)
  added := hi
  loops := ⟨[], w.loops, rfl, List.suffix_refl _, nofun⟩

/-- Construction goes on. -/
theorem follow (a : Around g w ls i) (hnext : g.nextId ≤ g'.nextId)
    (hhome : ∀ j, j < g.nextId → g'.home? j = g.home? j) (hpassed : w.passed ⊆ w'.passed)
    (hloops : w.Reloops g.nextId w') : Around g' w' ls i where
  nested := a.nested
  before_lt := a.before_lt
  inside := a.inside
  own_ge f hf j hj := by
    rcases Nat.lt_or_ge j g.nextId with hlt | hge
    · exact a.own_ge f hf j (hhome j hlt ▸ hj)
    · exact Nat.le_trans (a.inside f hf) (Nat.le_of_lt (Nat.lt_of_lt_of_le a.added hge))
  passed f hf := hpassed (a.passed f hf)
  added := Nat.lt_of_lt_of_le a.added hnext
  loops := by
    obtain ⟨newer, older, heq, hsuffix, hnewer⟩ := a.loops
    obtain ⟨newer', older', heq', ⟨ts, hts⟩, hnewer'⟩ := hloops
    have hfresh : ∀ f ∈ newer', i < f.start ∧ ∀ f' ∈ ls, f'.test ≠ f.test := fun f hf =>
      ⟨Nat.lt_of_lt_of_le a.added (hnewer' f hf).1,
        fun f' hf' htest => (hnewer' f hf).2 (htest ▸ a.passed f' hf')⟩
    rw [heq] at hts
    rcases List.append_eq_append_iff.1 hts with ⟨ms, hms, hms'⟩ | ⟨ms, hms, hms'⟩
    · refine ⟨newer' ++ ms, older, by rw [heq', hms', List.append_assoc], hsuffix, fun f hf => ?_⟩
      rcases List.mem_append.1 hf with hf | hf
      · exact hfresh f hf
      · exact hnewer f (hms ▸ List.mem_append_right _ hf)
    · exact ⟨newer', older', heq', .trans ⟨ms, hms'.symm⟩ hsuffix, hfresh⟩

/-- The loop at the head of the open ones is one of them, with those inside it closed, or it has
been opened since. -/
theorem innermost_cases (a : Around g w ls i) {F : Frame} {rest : List Frame}
    (hloops : w.loops = F :: rest) :
    (∃ closed, ls = closed ++ F :: rest) ∨ i < F.start ∧ ∀ f ∈ ls, f.test ≠ F.test := by
  obtain ⟨newer, older, heq, ⟨closed, hclosed⟩, hnewer⟩ := a.loops
  cases newer with
  | nil =>
    rw [hloops, List.nil_append] at heq
    exact .inl ⟨closed, by rw [heq, hclosed]⟩
  | cons N newer =>
    rw [hloops] at heq
    obtain rfl : F = N := (List.cons.inj heq).1
    exact .inr (hnewer F List.mem_cons_self)

end Around

/-! ## Instructions that read what they should -/

/-- The instruction `i` was added as `op` to `g₀` in the loops `ls` and reads by now what has become
of the operands. -/
structure Stands (g g₀ : Graph) (w : Site) (ls : List Frame) (i : InstrId)
    (op : Operation) : Prop where
  around : Around g w ls i
  op_eq : g.op? i = some (op.fated g g₀ ls)
  isBranch : op.isBranch = false
  /-- Reads are redirected from the first instruction of a test on, and that was there before. -/
  begun : op.isPhi = true ∨ op.operands = [] ∨
    ∀ f ∈ ls, ∃ j, (g.plain f.test).head? = some j ∧ j ≤ i
  /-- The operands of phis of closed constructs are not replaced any more. -/
  housed : op.isPhi = true → ∃ b, g.home? i = some b ∧ Sealed g w b
  /-- Loops only get phis. -/
  gained : ∀ f ∈ ls, ∀ x, g₀.HasPhi f.test x → g.HasPhi f.test x
  /-- Only the innermost loop gets phis. -/
  waits : w.loops.Pairwise fun inner outer => inner ∈ ls →
    ∀ x, g.HasPhi outer.test x → g₀.HasPhi outer.test x

namespace Stands

variable {g g' g₀ : Graph} {w w' : Site} {u u' : Body} {ls : List Frame} {i : InstrId}
  {op : Operation}

/-- Construction goes on in a way that gives the instruction the operands it should have. -/
theorem follow (s : Stands g g₀ w ls i op) (hnext : g.nextId ≤ g'.nextId)
    (hhome : ∀ j, j < g.nextId → g'.home? j = g.home? j)
    (hop : g'.op? i = some (op.fated g' g₀ ls))
    (hplain : ∀ b, g.plain b <+: g'.plain b) (hpassed : w.passed ⊆ w'.passed)
    (hloops : w.Reloops g.nextId w') (hsealed : ∀ b, Sealed g w b → Sealed g' w' b)
    (hgains : ∀ b x, g.HasPhi b x → g'.HasPhi b x)
    (hphis : ∀ f ∈ w.loops.tail, ∀ x, g'.HasPhi f.test x → g.HasPhi f.test x) :
    Stands g' g₀ w' ls i op where
  around := s.around.follow hnext hhome hpassed hloops
  op_eq := hop
  isBranch := s.isBranch
  begun := s.begun.imp_right (.imp_right fun h f hf => by
    obtain ⟨j, hj, hle⟩ := h f hf
    obtain ⟨is, his⟩ := hplain f.test
    exact ⟨j, by rw [← his, List.head?_append, hj, Option.some_or], hle⟩)
  housed hphi := by
    obtain ⟨b, hb, hs⟩ := s.housed hphi
    exact ⟨b, (hhome i s.around.added).trans hb, hsealed b hs⟩
  gained f hf x h := hgains f.test x (s.gained f hf x h)
  waits := by
    obtain ⟨newer, older, heq, hsuffix, hnewer⟩ := hloops
    have hnot : ∀ f ∈ newer, f ∉ ls := fun f hf hls =>
      Nat.not_le.2 (Nat.lt_of_lt_of_le s.around.added (hnewer f hf).1) (s.around.inside f hls)
    have hold : w.loops.Pairwise fun inner outer => inner ∈ ls →
        ∀ x, g'.HasPhi outer.test x → g₀.HasPhi outer.test x := by
      cases hw : w.loops with
      | nil => exact .nil
      | cons F rest =>
        have h := s.waits
        rw [hw] at h hphis
        obtain ⟨hF, hrest⟩ := List.pairwise_cons.1 h
        exact List.pairwise_cons.2 ⟨fun outer houter hin x hhas =>
          hF outer houter hin x (hphis outer houter x hhas),
          hrest.imp_of_mem fun _ houter h hin x hhas => h hin x (hphis _ houter x hhas)⟩
    rw [heq]
    exact List.pairwise_append.2 ⟨List.pairwise_of_forall_mem_list fun f hf _ _ hin =>
      absurd hin (hnot f hf), hold.sublist hsuffix.sublist,
      fun f hf _ _ hin => absurd hin (hnot f hf)⟩

/-- Construction goes on without another phi. -/
theorem same (s : Stands g g₀ w ls i op) (p : PhiLayout g w) (p' : PhiLayout g' w')
    (hphis : g.SamePhis g') (hnext : g.nextId ≤ g'.nextId)
    (hhome : ∀ j, j < g.nextId → g'.home? j = g.home? j)
    (hop : ∀ o, o.isBranch = false → g.op? i = some o → g'.op? i = some o)
    (hplain : ∀ b, g.plain b <+: g'.plain b) (hpassed : w.passed ⊆ w'.passed)
    (hloops : w.Reloops g.nextId w') (hsealed : ∀ b, Sealed g w b → Sealed g' w' b) :
    Stands g' g₀ w' ls i op := by
  refine s.follow hnext hhome ?_ hplain hpassed hloops hsealed
    (fun _ _ => hphis.hasPhi_iff.2) fun f _ x => hphis.hasPhi_iff.1
  rw [Operation.fated_congr fun f _ x => p.phi?_congr p' (hphis f.test x)]
  exact hop _ (Operation.isBranch_fated.trans s.isBranch) s.op_eq

/-! ### Merging -/

section Merges

variable {F : Frame} {fs : List Frame} {x : Var} {v : Option InstrId} {σ : Var → Option InstrId}

/-- The block that the innermost construct has its phis in is not the header of a closed loop. -/
theorem test_ne (s : Stands u.graph g₀ w ls i op) (b : Built w u) (hframes : w.frames = F :: fs)
    {f : Frame} (hf : f ∈ ls) (hpart : F.part ≠ .loopBody) : f.test ≠ F.phiBlock := by
  rw [Frame.phiBlock_eq_target hpart]
  exact fun heq => b.layout.passed_not_target (s.around.passed f hf)
    (heq ▸ List.mem_map_of_mem (by simp [hframes]))

/-- Before a loop has a phi of a variable, its header sees what the variable meant before the
loop. -/
theorem before_eq (b : Built w u) (hframes : w.frames = F :: fs) (m : F.Merged u.graph σ)
    {before : Option InstrId} {start : InstrId} (h : u.graph.Absorbs F x before v start g) :
    before = F.before x :=
  (b.layout.meaning_eq (b.behind_lt (by simp [hframes]) (Layout.test_mem_behind F))
    h.resolves).symm.trans
    (m.kept x h.absent).2.2

/-- A loop redirects the reads of an instruction that was added in it. -/
theorem start_le (s : Stands u.graph g₀ w ls i op) (hpart : F.part = .loopBody)
    {before : Option InstrId} {start : InstrId} (h : u.graph.Absorbs F x before v start g)
    (hF : F ∈ ls) (hoperands : op.operands ≠ []) : start ≤ i := by
  rcases s.begun with hphi | hnil | hbegun
  · refine h.start_le hpart i ?_ (s.around.inside F hF)
    rw [Graph.isPhi_eq, s.op_eq, Option.any_some, Operation.isPhi_fated, hphi]
  · exact absurd hnil hoperands
  · obtain ⟨j, hj, hle⟩ := hbegun F hF
    rw [h.first hpart] at hj
    exact Option.some.inj hj ▸ hle

/-- What becomes of an operand when a loop that was open at its instruction gets a phi. -/
theorem fate_gains (s : Stands u.graph g₀ w ls i op) (b : Built w u) (p : PhiLayout u.graph w)
    (p' : PhiLayout g w) {closed rest : List Frame} (hloops : w.loops = F :: rest)
    (hls : ls = closed ++ F :: rest) (habsent : ¬ u.graph.HasPhi F.test x)
    (hgains : u.graph.Gains F.test x g) :
    g.fate g₀ ls x v = if u.graph.fate g₀ ls x v = F.before x then some u.graph.nextId
      else u.graph.fate g₀ ls x v := by
  have hnested := s.around.nested
  rw [hls, List.pairwise_append] at hnested
  obtain ⟨-, hnested, hcross⟩ := hnested
  have hclosed : ∀ f ∈ closed, F.start ≤ f.start ∧ F.test ≠ f.test := fun f hf =>
    hcross f hf F List.mem_cons_self
  have hold : ∀ f : Frame, f.test ≠ F.test → g.phi? f.test x = u.graph.phi? f.test x :=
    fun f hf => p.phi?_congr p' fun j => hgains.phiOf_iff hf
  rw [hls]
  refine Graph.fate_redirected habsent (s.gained F (by simp [hls]) x)
    (p'.phi?_eq_some_iff.2 ((hgains _ _ _).2 (.inr ⟨⟨rfl, rfl, rfl⟩, habsent⟩))) (fun f hf => ?_)
    (fun f hf j hj heq => ?_) fun f hf => ?_
  · rcases List.mem_append.1 hf with hf | hf
    · exact hold f (hclosed f hf).2.symm
    · exact hold f ((List.pairwise_cons.1 hnested).1 f hf).2
  · -- a phi of a loop inside is newer than what the variable meant before
    have hhome := (b.contents.mem_listed _ _).1 (Graph.phiOf_of_phi? hj).1
    have hlt := s.around.before_lt F (by simp [hls]) x j heq.symm
    have hle := s.around.own_ge f (by simp [hls, hf]) j hhome
    exact Nat.not_lt.2 (Nat.le_trans (hclosed f hf).1 hle) hlt
  · have hwaits := s.waits
    rw [hloops] at hwaits
    exact (List.pairwise_cons.1 hwaits).1 f hf (by simp [hls]) x

/-- A new phi of a loop. -/
theorem absorbs_loop (s : Stands u.graph g₀ w ls i op) (b : Built w u) (p : PhiLayout u.graph w)
    (p' : PhiLayout g w) (hframes : w.frames = F :: fs) (hpart : F.part = .loopBody)
    (m : F.Merged u.graph σ) (hgains : u.graph.Gains F.phiBlock x g) {before : Option InstrId}
    {start : InstrId} (h : u.graph.Absorbs F x before v start g) :
    g.op? i = some (op.fated g g₀ ls) := by
  have hblock := Frame.phiBlock_eq_test hpart
  rw [hblock] at hgains
  have hloops := Site.loops_cons (Site.frames_eq_cons_pop hframes) hpart
  have hbranch : (op.fated g g₀ ls).isBranch = false := Operation.isBranch_fated.trans s.isBranch
  refine (h.op?_old i _ (Nat.ne_of_lt s.around.added) hbranch).2 ⟨_, s.op_eq, ?_⟩
  by_cases hnil : op.operands = []
  · have hself : ∀ h : Operand → Operand, op.mapOperands h = op := fun h =>
      Operation.mapOperands_eq_self fun o ho => by simp [hnil] at ho
    rw [Operation.fated, Operation.fated, Operation.redirect, hself, hself, hself, ite_self]
  rcases s.around.innermost_cases hloops with ⟨closed, hls⟩ | ⟨hlt, htests⟩
  · -- the loop was open when the instruction was added
    have habsent : ¬ u.graph.HasPhi F.test x := by
      rintro ⟨j, hj⟩
      rw [← hblock] at hj
      exact h.absent j ((b.phiOf_iff_ownPhi (by simp [hframes])).1 hj)
    rw [if_pos (s.start_le hpart h (by simp [hls]) hnil), before_eq b hframes m h,
      Operation.redirect_fated]
    · intro y hy c
      exact Graph.fate_congr fun f _ => p.phi?_congr p' fun j => (hgains f.test y j).trans
        (or_iff_left fun h' => hy h'.1.2.1)
    · exact fun o _ _ => s.fate_gains b p p' hloops hls habsent hgains
  · -- the loop has been opened since
    rw [if_neg fun hle => Nat.not_le.2 hlt (Nat.le_trans h.start_ge hle)]
    exact Operation.fated_congr fun f hf y =>
      p.phi?_congr p' fun j => hgains.phiOf_iff (htests f hf)

/-- A new phi of a join. -/
theorem absorbs_join (s : Stands u.graph g₀ w ls i op) (b : Built w u) (p : PhiLayout u.graph w)
    (p' : PhiLayout g w) (hframes : w.frames = F :: fs) (hpart : F.part ≠ .loopBody)
    (hgains : u.graph.Gains F.phiBlock x g) {before : Option InstrId} {start : InstrId}
    (h : u.graph.Absorbs F x before v start g) : g.op? i = some (op.fated g g₀ ls) := by
  have hphi : ∀ f ∈ ls, ∀ y, g.phi? f.test y = u.graph.phi? f.test y := fun f hf y =>
    p.phi?_congr p' fun j => hgains.phiOf_iff (s.test_ne b hframes hf hpart)
  rw [Operation.fated_congr hphi]
  refine (h.op?_old i _ (Nat.ne_of_lt s.around.added)
    (Operation.isBranch_fated.trans s.isBranch)).2 ⟨_, s.op_eq, ?_⟩
  rw [if_neg fun hle => Nat.not_le.2 s.around.added (Nat.le_trans (h.start_join hpart) hle)]

/-- The phis of closed constructs are left alone. -/
theorem replaced (s : Stands u.graph g₀ w ls i op) (p : PhiLayout u.graph w)
    (hframes : w.frames = F :: fs) {j : InstrId} (hown : u.graph.OwnPhi F.phiBlock x j)
    (hg : g = u.graph.modifyInstr j (·.mapOp (·.setSide F.side v))) (p' : PhiLayout g w) :
    g.op? i = some (op.fated g g₀ ls) := by
  have hshape : u.graph.SameShape g :=
    hg ▸ Graph.sameShape_mapOp u.graph j (Operation.similar_setSide _ v)
  have hij : j ≠ i := by
    rintro rfl
    have hphi := hown.2.1
    rw [Graph.isPhi_eq, s.op_eq, Option.any_some, Operation.isPhi_fated] at hphi
    obtain ⟨c, hc, hs⟩ := s.housed hphi
    exact hs.closed.closed F (by simp [hframes]) (Option.some.inj (hown.2.2.symm.trans hc))
  rw [Operation.fated_congr fun f _ y => p.phi?_congr p' (hshape.samePhis f.test y), hg,
    Graph.op?_modifyInstr_mapOp, if_neg hij]
  exact s.op_eq

theorem mem_tail_frames {f : Frame} (hf : f ∈ w.loops.tail) :
    f ∈ w.frames.tail ∧ f.part = .loopBody := by
  refine ⟨?_, (Site.mem_loops.1 (List.mem_of_mem_tail hf)).2⟩
  rw [Site.loops] at hf
  cases hframes : w.frames with
  | nil =>
    rw [hframes] at hf
    cases hf
  | cons F fs =>
    rw [hframes, List.filter_cons] at hf
    split at hf
    · exact List.mem_of_mem_filter hf
    · exact List.mem_of_mem_filter (List.mem_of_mem_tail hf)

/-- **A merge** redirects what it should. -/
theorem merges (s : Stands u.graph g₀ w ls i op) (b : Built w u) (n : Numbered u.graph w)
    (p : PhiLayout u.graph w) (hl : Levels u.graph σ w.frames) (h : u.Merges w x v u') :
    Stands u'.graph g₀ w ls i op := by
  cases hframes : w.frames with
  | nil =>
    rw [h.eq_of_outermost hframes]
    exact s
  | cons F fs =>
    have hgrows := b.grows hframes h
    have hgains := b.gains hframes h
    have p' := p.merges b h
    refine s.follow hgrows.nextId_le hgrows.home?_old ?_
      (fun c => b.plain_merges h c ▸ List.prefix_refl _) (fun _ hc => hc) (.of_eq rfl)
      (fun c hc => hc.of_skeleton hgrows.skeleton)
      (fun d y hhas => (b.hasPhi_merges h d y).2 (.inl hhas)) fun f hf y hhas => ?_
    · rw [hframes] at hl
      rcases b.merge_cases n hframes h with ⟨j, hown, hg⟩ | ⟨before, start, habsorbs⟩
      · exact s.replaced p hframes hown hg p'
      · by_cases hpart : F.part = .loopBody
        · exact s.absorbs_loop b p p' hframes hpart hl.1 hgains habsorbs
        · exact s.absorbs_join b p p' hframes hpart hgains habsorbs
    · obtain ⟨hmem, hpart⟩ := mem_tail_frames hf
      exact ((b.hasPhi_merges h f.test y).1 hhas).resolve_right fun h' =>
        b.layout.phiBlock?_ne hmem hpart h'.1

theorem carriesEach (s : Stands u.graph g₀ w ls i op) (b : Built w u) (n : Numbered u.graph w)
    (p : PhiLayout u.graph w) (htested : ∀ f ∈ w.frames, u.graph.HasBranch f.test)
    (hframes : w.frames = F :: fs) (hl : Levels u.graph σ w.frames) {c : BlockId}
    {is : List InstrId} (h : Body.CarriesEach w c is u u') : Stands u'.graph g₀ w ls i op := by
  induction h generalizing σ with
  | nil => exact s
  | cons _ hmerge _ ih =>
    have hgrows := b.grows hframes hmerge
    exact ih (s.merges b n p hl hmerge) (b.of_merges hmerge)
      (n.grow b.layout hframes htested hgrows)
      (p.merges b hmerge) (fun f hf => (hgrows.hasBranch_iff _).2 (htested f hf))
      (b.levels_merges n hmerge hl)

/-- **Carrying phis outward** redirects what it should. -/
theorem carries (s : Stands u.graph g₀ w ls i op) (b : Built w u) (n : Numbered u.graph w)
    (p : PhiLayout u.graph w) (htested : ∀ f ∈ w.frames, u.graph.HasBranch f.test)
    (hl : Levels u.graph σ w.frames) {c origin : BlockId} (h : u.Carries w c origin u') :
    Stands u'.graph g₀ w ls i op := by
  cases h with
  | outermost =>
    have hre := Graph.rebinds_inheritScope u.graph w.tail origin
    refine s.same p (p.rebind hre) hre.samePhis (Nat.le_of_eq hre.nextId_eq.symm)
      (fun j _ => hre.home?_eq j) (fun o _ ho => (hre.op?_eq i).trans ho)
      (fun c => hre.plain_eq c ▸ List.prefix_refl _) (fun _ hc => hc) (.of_eq rfl)
      fun c hc => hc.of_skeleton hre.skeleton
  | inner hne each =>
    obtain ⟨F, fs, hframes⟩ := List.exists_cons_of_ne_nil hne
    exact s.carriesEach b n p htested hframes hl each

end Merges

/-! ### Steps -/

/-- **Every step redirects what it should.** -/
theorem shift (s : Stands u.graph g₀ w ls i op) (ho : Orderly w u) (h : Shift w u w' u') :
    Stands u'.graph g₀ w' ls i op := by
  have b := ho.built
  have p := ho.phis
  have p' := p.shift b ho.numbered h
  have hprefix := h.plain_prefix b
  have hpassed := h.passed_subset
  have hloops := h.reloops b
  have hsealed : ∀ c, Sealed u.graph w c → Sealed u'.graph w' c := fun c hc => (hc.shift b h).1
  have hstock : u.graph.SameStock u'.graph → Stands u'.graph g₀ w' ls i op := fun hstock =>
    s.same p p' hstock.samePhis (Nat.le_of_eq hstock.nextId_eq.symm)
      (fun j _ => by rw [Graph.home?, Graph.home?, hstock.instr?_eq])
      (fun o _ hop => by rw [Graph.op?, hstock.instr?_eq]; exact hop) hprefix hpassed hloops hsealed
  cases h with
  | retarget h =>
    exact s.same p p' h.samePhis (Nat.le_of_eq h.nextId_eq.symm) (fun j _ => h.home?_eq j)
      (fun o ho => (h.op?_iff i o ho).2) hprefix hpassed hloops hsealed
  | receive h hphi =>
    exact s.same p p' (h.samePhis hphi)
      (Nat.le_of_lt (by rw [h.nextId_eq]; exact Nat.lt_succ_self _))
      (fun j hj => by rw [h.home?_eq, if_neg (Nat.ne_of_lt hj)])
      (fun o ho hop => (h.op?_iff i o ho).2 (.inr ⟨Nat.ne_of_lt s.around.added, hop⟩))
      hprefix hpassed hloops hsealed
  | @assign _ x v _ hv _ hmerges =>
    have hre : u.graph.Rebinds w.tail (u.withBinding w.tail x v).graph :=
      Graph.rebinds_bindIn u.graph w.tail x v
    have hbound : Stands (u.withBinding w.tail x v).graph g₀ w ls i op :=
      s.same p (p.rebind hre) hre.samePhis (Nat.le_of_eq hre.nextId_eq.symm)
        (fun j _ => hre.home?_eq j) (fun o _ hop => (hre.op?_eq i).trans hop)
        (fun c => hre.plain_eq c ▸ List.prefix_refl _) (fun _ hc => hc) (.of_eq rfl)
        fun c hc => hc.of_skeleton hre.skeleton
    refine hbound.merges (b.withBinding x hv) (ho.numbered.rebind b.layout hre) (p.rebind hre)
      (Levels.congr (fun f hf => ?_) ho.levelled.levels) hmerges
    exact Levelled.sameView_rebindTail b.layout hre hf
  | openIf _ hopens => exact hstock hopens.stock
  | openElse _ _ _ hopens => exact hstock hopens.stock
  | openLoop _ hopens => exact hstock hopens.stock
  | @close f fs u₀ _ hframes hgraph hleft htested hcarries =>
    have hpop := Site.pop_eq hframes
    have hpopped : Stands u₀.graph g₀ w.pop ls i op := by
      rw [hgraph]
      refine s.same p p.pop (.refl _) (Nat.le_refl _) (fun _ _ => rfl) (fun _ _ hop => hop)
        (fun _ => List.prefix_refl _) hpassed hloops fun c hc => ?_
      rw [hpop]
      refine hc.of_passed [w.tail] rfl (by simp) (fun heq => ?_) fun f' hf' =>
        hc.closed.closed f' (by simp [hframes, show f' ∈ fs from hf'])
      exact b.layout.target_not_reached hc.closed.reached
        (heq ▸ List.mem_map_of_mem (by simp [hframes]))
    have hlevels := ho.levelled.levels
    rw [hframes] at hlevels
    refine hpopped.carries hleft (hgraph ▸ ho.numbered.pop) (hgraph ▸ p.pop) (fun f' hf' => ?_)
      (σ := f.before) ?_ hcarries
    · rw [hpop] at hf'
      exact hgraph ▸ htested f' hf'
    · rw [hpop, hgraph]
      exact hlevels.2

/-- **An instruction reads in the end what has become of its operands.** -/
theorem proceeds (s : Stands u.graph g₀ w ls i op) (h : Proceeds w u w' u') :
    Stands u'.graph g₀ w' ls i op := by
  induction h with
  | refl => exact s
  | step _ ho _ hshift ih => exact ih.shift ho hshift

end Stands
end StructuredSSA
