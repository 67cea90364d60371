import Mathlib.Logic.Relation
import StructuredSSA.Body.Command
import StructuredSSA.Proofs.Body.Redirect
import StructuredSSA.Proofs.Body.Reuse
import StructuredSSA.Proofs.Graph.Contents

/-!
# What commands are made of

A command may do several things in a row: an assignment binds a variable, inserts a phi and
redirects reads to it one by one.  Here every command that does not stop is taken apart into such
*effects*, whatever body it starts from: blocks need not be linked sensibly, and operands may be
anything.  What each effect preserves, every construction preserves, also in the middle of a
command.  A command that settles the body does so last, and once the body is settled little can be
done to it.

## What is here

* `Body.Arranges`, `Body.Effect` — the effects; those that leave instructions alone come first.
* `Body.SameWork`, `Body.Arranges.sameWork` — what the first kind leaves alone.
* `Body.Effects` — effects in a row, and `Body.Effects.invariant` what they preserve.
* `Body.Works` — effects in a row that do not settle the body.
* `Body.Command.Adds` — the operations that a command may add.
* `Body.exec_works`, `Body.exec_effects`, `Body.execAll_effects` — commands are made of effects.
* `Body.exec_of_settled` — what can still be done to a settled body.
* `Body.execAll_invariant` — what each command preserves, a list of them preserves.
-/

set_option autoImplicit false

namespace StructuredSSA
namespace Body

/-- The effects that change no instruction but for the target of a branch. -/
inductive Arranges (u : Body) : Body → Prop where
  | moveTo (b : BlockId) : Arranges u (u.moveTo b)
  | bind (b : BlockId) (x : Var) (value : Option InstrId) :
      Arranges u { u with graph := u.graph.bindIn b x value }
  | inherit (b origin : BlockId) : Arranges u { u with graph := u.graph.inheritScope b origin }
  /-- A block is asked for what a branch into it is to be pointed at. -/
  | target {b : BlockId} {t : Target} {g : Graph} (h : u.graph.targetOf b = .ok (t, g)) :
      Arranges u { u with graph := g }
  | aim (i : InstrId) (t : Target) :
      Arranges u { u with graph := u.graph.modifyInstr i (·.mapOp (·.aim t)) }
  | openIf {g : Graph} (h : u.graph.openIf u.current = .ok g) : Arranges u { u with graph := g }
  | openElse {parent side : BlockId} {g : Graph} (h : u.graph.openElse parent = .ok (side, g)) :
      Arranges u { u with graph := g }
  | openLoop {head : BlockId} {g : Graph} (h : u.graph.openLoop u.current = .ok (head, g)) :
      Arranges u
        { u with graph := g, current := head, loopStarts := g.nextId :: u.loopStarts }
  | leaveLoop : Arranges u { u with loopStarts := u.loopStarts.tail }

/-- **One effect** of a command that adds operations which satisfy `adds`. -/
inductive Effect (adds : Operation → Prop) (u : Body) : Body → Prop where
  | arrange {u' : Body} (h : u.Arranges u') : Effect adds u u'
  | place {b : BlockId} {op : Operation} {i : InstrId} {u' : Body} (hop : adds op)
      (h : u.place b op = .ok (i, u')) : Effect adds u u'
  /-- An operation is added and retired in favour of `e`, which computes the same. -/
  | placeRetired {op oe : Operation} {e i : InstrId} {u' : Body} (hop : adds op)
      (harith : op.arith?.isSome = true) (hoe : u.graph.op? e = some oe)
      (hsame : oe.sameValue op = true) (h : u.placeRetired op e = .ok (i, u')) : Effect adds u u'
  | insertPhi {b : BlockId} {x : Var} {first second : Option InstrId} {i : InstrId} {u' : Body}
      (h : u.insertPhi b x first second = .ok (i, u')) : Effect adds u u'
  | setPhiSide {i : InstrId} (hphi : u.graph.isPhi i = true) (x : Var) (side : Side)
      (value : Option InstrId) : Effect adds u (u.setPhiSide i x side value)
  | redirectRead {x : Var} {before : Option InstrId} {phi i : InstrId} {u' : Body}
      (h : u.redirectRead x before phi i = .ok u') : Effect adds u u'
  | settle {u' : Body} (h : u.settle = .ok u') : Effect adds u u'

theorem Effect.mono {adds adds' : Operation → Prop} {u u' : Body} (h : Effect adds u u')
    (hsub : ∀ op, adds op → adds' op) : Effect adds' u u' := by
  cases h with
  | arrange h => exact .arrange h
  | place hop h => exact .place (hsub _ hop) h
  | placeRetired hop harith hoe hsame h => exact .placeRetired (hsub _ hop) harith hoe hsame h
  | insertPhi h => exact .insertPhi h
  | setPhiSide hphi x side value => exact .setPhiSide hphi x side value
  | redirectRead h => exact .redirectRead h
  | settle h => exact .settle h

/-- Effects in a row. -/
def Effects (adds : Operation → Prop) : Body → Body → Prop := Relation.ReflTransGen (Effect adds)

namespace Effects

variable {adds adds' : Operation → Prop} {u u₁ u' : Body}

theorem single (h : Effect adds u u') : Effects adds u u' := Relation.ReflTransGen.single h

theorem trans (h : Effects adds u u₁) (h' : Effects adds u₁ u') : Effects adds u u' :=
  Relation.ReflTransGen.trans h h'

theorem mono (h : Effects adds u u') (hsub : ∀ op, adds op → adds' op) : Effects adds' u u' :=
  Relation.ReflTransGen.mono (p := Effect adds') (fun _ _ heffect => heffect.mono hsub) _ _ h

/-- **What each effect preserves**, effects in a row preserve. -/
theorem invariant {P : Body → Prop} (h : Effects adds u u')
    (step : ∀ v v', Effect adds v v' → P v → P v') (hu : P u) : P u' := by
  induction h with
  | refl => exact hu
  | tail _ hlast ih => exact step _ _ hlast ih

end Effects

/-- A loop whose steps do something several times unless they stop. -/
theorem reflTransGen_foldlM {σ α : Type} {r : σ → σ → Prop} {f : σ → α → Except Fault σ}
    {as : List α}
    (h : ∀ a ∈ as, ∀ {u u'}, f u a = .ok u' → Relation.ReflTransGen r u u') {u u' : σ}
    (hfold : as.foldlM f u = .ok u') : Relation.ReflTransGen r u u' := by
  induction as generalizing u with
  | nil =>
    cases hfold
    exact .refl
  | cons a as ih =>
    rw [List.foldlM_cons] at hfold
    obtain ⟨u₁, hu₁, hfold⟩ := bind_eq_ok_iff.1 hfold
    exact (h a (by simp) hu₁).trans (ih (fun a' ha' => h a' (List.mem_cons_of_mem _ ha')) hfold)

/-- Effects in a row, none of which settles the body. -/
def Works (adds : Operation → Prop) : Body → Body → Prop :=
  Relation.ReflTransGen fun u u' => Effect adds u u' ∧ u'.isSettled = u.isSettled

section Settled

variable {u u' : Body} {i : InstrId}

theorem Arranges.isSettled_eq (h : u.Arranges u') : u'.isSettled = u.isSettled := by
  cases h <;> rfl

/-- What has been placed, in the graph of the body. -/
theorem places_of_place {b : BlockId} {op : Operation} (h : u.place b op = .ok (i, u')) :
    i = u.graph.nextId ∧ ∃ op' g, Graph.Lands b u.graph.nextId op op' ∧ u.graph.Places b op' g ∧
      u' = { u with graph := g } := by
  obtain ⟨⟨j, g⟩, hplace, h⟩ := bind_eq_ok_iff.1 h
  cases h
  obtain ⟨hlast, op', hlands, hplaces⟩ := Graph.places_of_place hplace
  exact ⟨hlast, op', g, hlands, hplaces, rfl⟩

theorem isSettled_place {b : BlockId} {op : Operation} (h : u.place b op = .ok (i, u')) :
    u'.isSettled = u.isSettled := by
  obtain ⟨-, op', g, -, -, rfl⟩ := places_of_place h
  rfl

theorem isSettled_placeRetired {op : Operation} {e : InstrId}
    (h : u.placeRetired op e = .ok (i, u')) : u'.isSettled = u.isSettled := by
  obtain ⟨⟨j, v⟩, hplace, h⟩ := bind_eq_ok_iff.1 h
  cases h
  exact (show v.isSettled = u.isSettled from isSettled_place hplace)

theorem isSettled_insertPhi {b : BlockId} {x : Var} {first second : Option InstrId}
    (h : u.insertPhi b x first second = .ok (i, u')) : u'.isSettled = u.isSettled := by
  obtain ⟨⟨j, v⟩, hplace, h⟩ := bind_eq_ok_iff.1 h
  cases h
  exact (show v.isSettled = u.isSettled from isSettled_place hplace)

end Settled

namespace Works

variable {adds : Operation → Prop} {u u₁ u' : Body}

theorem refl (u : Body) : Works adds u u := Relation.ReflTransGen.refl

theorem trans (h : Works adds u u₁) (h' : Works adds u₁ u') : Works adds u u' :=
  Relation.ReflTransGen.trans h h'

theorem arrange (h : u.Arranges u') : Works adds u u' := .single ⟨.arrange h, h.isSettled_eq⟩

theorem place {b : BlockId} {op : Operation} {i : InstrId} (hop : adds op)
    (h : u.place b op = .ok (i, u')) : Works adds u u' :=
  .single ⟨.place hop h, isSettled_place h⟩

theorem insertPhi {b : BlockId} {x : Var} {first second : Option InstrId} {i : InstrId}
    (h : u.insertPhi b x first second = .ok (i, u')) : Works adds u u' :=
  .single ⟨.insertPhi h, isSettled_insertPhi h⟩

theorem setPhiSide {i : InstrId} (hphi : u.graph.isPhi i = true) (x : Var) (side : Side)
    (value : Option InstrId) : Works adds u (u.setPhiSide i x side value) :=
  .single ⟨.setPhiSide hphi x side value, rfl⟩

theorem redirectRead {x : Var} {before : Option InstrId} {phi i : InstrId}
    (h : u.redirectRead x before phi i = .ok u') : Works adds u u' :=
  .single ⟨.redirectRead h, isSettled_redirectRead h⟩

theorem effects (h : Works adds u u') : Effects adds u u' :=
  Relation.ReflTransGen.mono (p := Effect adds) (fun _ _ h => h.1) _ _ h

/-- **What each effect on an open body preserves**, effects in a row preserve. -/
theorem open_invariant {P : Body → Prop} (h : Works adds u u') (hopen : u.isSettled = false)
    (step : ∀ v v', Effect adds v v' → v'.isSettled = false → P v → P v') (hu : P u) :
    u'.isSettled = false ∧ P u' := by
  induction h with
  | refl => exact ⟨hopen, hu⟩
  | tail _ hlast ih =>
    have hopen' := hlast.2.trans ih.1
    exact ⟨hopen', step _ _ hlast.1 hopen' ih.2⟩

end Works

end Body

/-! ## What arrangements leave alone -/

namespace Graph

variable {g g' : Graph} {b parent : BlockId}

@[simp] theorem instrs_modifyBlock (g : Graph) (b : BlockId) (f : Block → Block) :
    (g.modifyBlock b f).instrs = g.instrs := rfl

@[simp] theorem instrs_link (g : Graph) (e : Edge) (src dst : BlockId) :
    (g.link e src dst).instrs = g.instrs :=
  (sameContents_link g e src dst).instrs_eq

@[simp] theorem instrs_unlinkNext (g : Graph) (e : Edge) (src : BlockId) :
    (g.unlinkNext e src).instrs = g.instrs :=
  (sameContents_unlinkNext g e src).instrs_eq

@[simp] theorem instrs_continueTo (g : Graph) (b : BlockId) (loop fall : Option BlockId) :
    (g.continueTo b loop fall).instrs = g.instrs :=
  (sameContents_continueTo g b loop fall).instrs_eq

@[simp] theorem instrs_setOrigin (g : Graph) (b origin : BlockId) :
    (g.setOrigin b origin).instrs = g.instrs := rfl

theorem instrs_targetOf {t : Target} (h : g.targetOf b = .ok (t, g')) : g'.instrs = g.instrs := by
  obtain ⟨blk, -, h⟩ := bind_eq_ok_iff.1 h
  split at h <;> cases h <;> rfl

theorem instrs_addBlockUnder {dom : BlockId} {r : Role} (h : g.addBlockUnder dom r = .ok (b, g')) :
    g'.instrs = g.instrs := by
  obtain ⟨above, -, h⟩ := bind_eq_ok_iff.1 h
  cases h
  rfl

theorem instrs_openIf (h : g.openIf parent = .ok g') : g'.instrs = g.instrs := by
  rw [openIf] at h
  obtain ⟨⟨join, g₁⟩, hjoin, h⟩ := bind_eq_ok_iff.1 h
  obtain ⟨blk, -, h⟩ := bind_eq_ok_iff.1 h
  obtain ⟨⟨side, g₂⟩, hside, h⟩ := bind_eq_ok_iff.1 h
  have hg := Except.ok.inj h
  rw [← hg]
  simp [instrs_addBlockUnder hside, instrs_addBlockUnder hjoin]

theorem instrs_openElse (h : g.openElse parent = .ok (b, g')) : g'.instrs = g.instrs := by
  rw [openElse] at h
  obtain ⟨blk, -, h⟩ := bind_eq_ok_iff.1 h
  obtain ⟨-, -, h⟩ := bind_eq_ok_iff.1 h
  obtain ⟨join, -, h⟩ := bind_eq_ok_iff.1 h
  obtain ⟨thenTail, -, h⟩ := bind_eq_ok_iff.1 h
  obtain ⟨⟨side, g₁⟩, hside, h⟩ := bind_eq_ok_iff.1 h
  obtain ⟨-, hg⟩ := Prod.mk.inj (Except.ok.inj h)
  rw [← hg]
  simp [instrs_addBlockUnder hside]

theorem instrs_openHead {head : BlockId} (h : g.openHead b = .ok (head, g')) :
    g'.instrs = g.instrs := by
  obtain ⟨blk, -, h⟩ := bind_eq_ok_iff.1 h
  split at h
  · obtain ⟨-, hg⟩ := Prod.mk.inj (Except.ok.inj h)
    rw [← hg, instrs_modifyBlock]
  · obtain ⟨⟨head', g₁⟩, hhead, h⟩ := bind_eq_ok_iff.1 h
    obtain ⟨-, hg⟩ := Prod.mk.inj (Except.ok.inj h)
    rw [← hg, instrs_link, instrs_addBlockUnder hhead]

theorem instrs_openLoop {head : BlockId} (h : g.openLoop b = .ok (head, g')) :
    g'.instrs = g.instrs := by
  rw [openLoop] at h
  obtain ⟨before, -, h⟩ := bind_eq_ok_iff.1 h
  obtain ⟨⟨head', g₁⟩, hhead, h⟩ := bind_eq_ok_iff.1 h
  obtain ⟨⟨body, g₂⟩, hbody, h⟩ := bind_eq_ok_iff.1 h
  obtain ⟨⟨exit, g₃⟩, hexit, h⟩ := bind_eq_ok_iff.1 h
  obtain ⟨-, hg⟩ := Prod.mk.inj (Except.ok.inj h)
  have hcut : g₁.instrs = g.instrs := by
    rw [instrs_openHead hhead]
    split
    · exact instrs_unlinkNext g .branch b
    · rfl
  rw [← hg]
  simp [instrs_addBlockUnder hexit, instrs_addBlockUnder hbody, hcut]

end Graph

namespace Body

/-- The same instructions but for the targets of branches, and the same books. -/
structure SameWork (u u' : Body) : Prop where
  dependents_eq : u'.dependents = u.dependents
  incomplete_eq : u'.incomplete = u.incomplete
  standIn?_eq : ∀ j, u'.graph.standIn? j = u.graph.standIn? j
  op?_iff : ∀ j op, op.isBranch = false → (u'.graph.op? j = some op ↔ u.graph.op? j = some op)

theorem SameWork.of_instrs {u u' : Body} (h : u'.graph.instrs = u.graph.instrs)
    (hdep : u'.dependents = u.dependents) (hinc : u'.incomplete = u.incomplete) :
    SameWork u u' := by
  have hinstr : ∀ j, u'.graph.instr? j = u.graph.instr? j := fun j => by
    cases j with
    | zero => rfl
    | succ k => rw [Graph.instr?, h, Graph.instr?]
  exact ⟨hdep, hinc, fun j => by rw [Graph.standIn?, hinstr, Graph.standIn?],
    fun j op _ => by rw [Graph.op?, hinstr, Graph.op?]⟩

/-- A branch that is aimed stays a branch. -/
theorem sameWork_aim (u : Body) (i : InstrId) (t : Target) :
    SameWork u { u with graph := u.graph.modifyInstr i (·.mapOp (·.aim t)) } := by
  refine ⟨rfl, rfl, fun j => Graph.standIn?_modifyInstr_mapOp _ _ _ _, fun j op hop => ?_⟩
  rw [Graph.op?_aim]
  split
  · cases hold : u.graph.op? j with
    | none => simp
    | some o =>
      cases o with
      | branch c t' =>
        constructor
        · rintro ⟨⟩
          cases hop
        · rintro ⟨⟩
          cases hop
      | _ => rfl
  · rfl

theorem Arranges.sameWork {u u' : Body} (h : u.Arranges u') : SameWork u u' := by
  cases h with
  | moveTo b => exact .of_instrs rfl rfl rfl
  | bind b x value => exact .of_instrs (Graph.rebinds_bindIn _ b x value).instrs_eq rfl rfl
  | inherit b origin => exact .of_instrs (Graph.rebinds_inheritScope _ b origin).instrs_eq rfl rfl
  | target h => exact .of_instrs (Graph.instrs_targetOf h) rfl rfl
  | aim i t => exact sameWork_aim u i t
  | openIf h => exact .of_instrs (Graph.instrs_openIf h) rfl rfl
  | openElse h => exact .of_instrs (Graph.instrs_openElse h) rfl rfl
  | openLoop h => exact .of_instrs (Graph.instrs_openLoop h) rfl rfl
  | leaveLoop => exact .of_instrs rfl rfl rfl

/-! ## Merging and closing -/

section Merging

variable {adds : Operation → Prop} {u u' : Body}

theorem mergeIntoJoin_works {join : BlockId} {x : Var} {value : Option InstrId} {side : Side}
    (h : u.mergeIntoJoin join x value side = .ok u') : Works adds u u' := by
  obtain ⟨own, hown, h⟩ := bind_eq_ok_iff.1 h
  cases own with
  | some phi =>
    cases h
    exact .setPhiSide (((Graph.eq_some_iff_of_ownPhi? hown phi).1 rfl).2.1) x side value
  | none =>
    obtain ⟨blk, -, h⟩ := bind_eq_ok_iff.1 h
    obtain ⟨origin, -, h⟩ := bind_eq_ok_iff.1 h
    obtain ⟨before, -, h⟩ := bind_eq_ok_iff.1 h
    cases side with
    | first | second =>
      obtain ⟨⟨i, v⟩, hinsert, h⟩ := bind_eq_ok_iff.1 h
      cases h
      exact .insertPhi hinsert

theorem mergeIntoLoop_works {head : BlockId} {x : Var} {value : Option InstrId}
    (h : u.mergeIntoLoop head x value = .ok u') : Works adds u u' := by
  obtain ⟨own, hown, h⟩ := bind_eq_ok_iff.1 h
  cases own with
  | some phi =>
    cases h
    exact .setPhiSide (((Graph.eq_some_iff_of_ownPhi? hown phi).1 rfl).2.1) x .second value
  | none =>
    obtain ⟨before, -, h⟩ := bind_eq_ok_iff.1 h
    obtain ⟨⟨phi, v⟩, hinsert, h⟩ := bind_eq_ok_iff.1 h
    obtain ⟨blk, -, h⟩ := bind_eq_ok_iff.1 h
    obtain ⟨start, -, h⟩ := bind_eq_ok_iff.1 h
    exact (Works.insertPhi hinsert).trans
      (reflTransGen_foldlM (fun _ _ _ _ hread => Works.redirectRead hread) h)

theorem merge_works {region : Region} {x : Var} {value : Option InstrId}
    (h : u.merge region x value = .ok u') : Works adds u u' := by
  cases region with
  | thenSide join | elseSide join => exact mergeIntoJoin_works h
  | loopBody head => exact mergeIntoLoop_works h
  | outermost =>
    cases h
    exact .refl u

theorem assign_works {x : Var} {value : Option InstrId} (h : u.assign x value = .ok u') :
    Works adds u u' := by
  obtain ⟨-, -, h⟩ := bind_eq_ok_iff.1 h
  obtain ⟨-, -, h⟩ := bind_eq_ok_iff.1 h
  obtain ⟨blk, -, h⟩ := bind_eq_ok_iff.1 h
  exact (Works.arrange (.bind u.current x value)).trans (merge_works h)

theorem carryPhis_works {b exit origin : BlockId} (h : u.carryPhis b exit origin = .ok u') :
    Works adds u u' := by
  obtain ⟨last, -, h⟩ := bind_eq_ok_iff.1 h
  split at h
  · cases h
    exact .arrange (.inherit exit origin)
  · obtain ⟨blk, -, h⟩ := bind_eq_ok_iff.1 h
    refine reflTransGen_foldlM (fun i _ v v' hcarry => ?_) h
    obtain ⟨blk', -, hcarry⟩ := bind_eq_ok_iff.1 hcarry
    obtain ⟨x, -, hcarry⟩ := bind_eq_ok_iff.1 hcarry
    exact merge_works hcarry

theorem closeIf_works {parent : BlockId} (h : u.closeIf parent = .ok u') : Works adds u u' := by
  obtain ⟨-, -, h⟩ := bind_eq_ok_iff.1 h
  obtain ⟨blk, -, h⟩ := bind_eq_ok_iff.1 h
  obtain ⟨-, -, h⟩ := bind_eq_ok_iff.1 h
  exact carryPhis_works h

theorem closeLoop_works {head : BlockId} (h : u.closeLoop head = .ok u') : Works adds u u' := by
  obtain ⟨-, -, h⟩ := bind_eq_ok_iff.1 h
  obtain ⟨blk, -, h⟩ := bind_eq_ok_iff.1 h
  obtain ⟨-, -, h⟩ := bind_eq_ok_iff.1 h
  obtain ⟨exit, -, h⟩ := bind_eq_ok_iff.1 h
  exact (Works.arrange .leaveLoop).trans (carryPhis_works h)

end Merging

/-! ## Adding and opening -/

section Adding

variable {adds : Operation → Prop} {u u' : Body}

theorem constant_works {v : Int64} {i : InstrId} (h : u.constant v = .ok (i, u'))
    (hop : adds (.const v)) : Works adds u u' := by
  rw [constant] at h
  split at h
  · cases h
    exact .refl u
  · exact .place hop h

theorem emit_works {op : Operation} {i : InstrId} (h : u.emit op = .ok (i, u')) (hop : adds op) :
    Works adds u u' := by
  rcases emit_cases h with rfl | ⟨e, oe, harith, hoe, hsame, h⟩ | h
  · exact .refl u'
  · exact .single ⟨.placeRetired hop harith hoe hsame h, isSettled_placeRetired h⟩
  · exact .place hop h

theorem openIf_works {b : BlockId} (h : u.openIf = .ok (b, u')) : Works adds u u' := by
  obtain ⟨-, -, h⟩ := bind_eq_ok_iff.1 h
  obtain ⟨g, hg, h⟩ := bind_eq_ok_iff.1 h
  cases h
  exact .arrange (.openIf hg)

theorem openElse_works {parent b : BlockId} (h : u.openElse parent = .ok (b, u')) :
    Works adds u u' := by
  obtain ⟨-, -, h⟩ := bind_eq_ok_iff.1 h
  obtain ⟨⟨side, g⟩, hg, h⟩ := bind_eq_ok_iff.1 h
  cases h
  exact .arrange (.openElse hg)

theorem openLoop_works {b : BlockId} (h : u.openLoop = .ok (b, u')) : Works adds u u' := by
  obtain ⟨-, -, h⟩ := bind_eq_ok_iff.1 h
  obtain ⟨⟨head, g⟩, hg, h⟩ := bind_eq_ok_iff.1 h
  cases h
  exact .arrange (.openLoop hg)

theorem aimBranch_works {b : BlockId} (h : u.aimBranch b = .ok u') : Works adds u u' := by
  obtain ⟨-, -, h⟩ := bind_eq_ok_iff.1 h
  obtain ⟨blk, -, h⟩ := bind_eq_ok_iff.1 h
  obtain ⟨dst, -, h⟩ := bind_eq_ok_iff.1 h
  obtain ⟨⟨t, g⟩, hg, h⟩ := bind_eq_ok_iff.1 h
  obtain ⟨i, -, h⟩ := bind_eq_ok_iff.1 h
  cases h
  exact (Works.arrange (.target hg)).trans (.arrange (.aim i t))

theorem emitJump_works {b : BlockId} {i : InstrId} (h : u.emitJump b = .ok (i, u'))
    (hop : ∀ t, adds (.branch .always (some t))) : Works adds u u' := by
  obtain ⟨-, -, h⟩ := bind_eq_ok_iff.1 h
  obtain ⟨blk, -, h⟩ := bind_eq_ok_iff.1 h
  obtain ⟨dst, -, h⟩ := bind_eq_ok_iff.1 h
  obtain ⟨⟨t, g⟩, hg, h⟩ := bind_eq_ok_iff.1 h
  exact (Works.arrange (.target hg)).trans (.place (hop t) h)

theorem settleWith_works {last : Operation} (h : u.settleWith last = .ok u') (hop : adds last) :
    ∃ v, Works adds u v ∧ v.settle = .ok u' := by
  obtain ⟨-, -, h⟩ := bind_eq_ok_iff.1 h
  obtain ⟨⟨i, v⟩, hplace, h⟩ := bind_eq_ok_iff.1 h
  exact ⟨v, .place hop hplace, h⟩

end Adding

/-! ## Commands -/

/-- The operations that a command may add, phis that merge values apart. -/
inductive Command.Adds : Command → Operation → Prop where
  | constant (v : Int64) : Adds (.constant v) (.const v)
  | argument (slot : Nat) : Adds (.argument slot) (.argument slot)
  | emit (op : Operation) : Adds (.emit op) op
  | emitJump (b : BlockId) (t : Target) : Adds (.emitJump b) (.branch .always (some t))
  | settleWith (last : Operation) : Adds (.settleWith last) last

theorem of_silently {r : Except Fault Body} {o : Outcome} {u : Body}
    (h : silently r = .ok (o, u)) : r = .ok u := by
  cases r <;> cases h
  rfl

theorem of_namingInstr {r : Except Fault (InstrId × Body)} {o : Outcome} {u : Body}
    (h : namingInstr r = .ok (o, u)) : ∃ i, r = .ok (i, u) := by
  cases r <;> cases h
  exact ⟨_, rfl⟩

theorem of_namingBlock {r : Except Fault (BlockId × Body)} {o : Outcome} {u : Body}
    (h : namingBlock r = .ok (o, u)) : ∃ b, r = .ok (b, u) := by
  cases r <;> cases h
  exact ⟨_, rfl⟩

theorem eq_of_joinAhead {u u' : Body} {o : Outcome} (h : u.exec .joinAhead = .ok (o, u')) :
    u' = u := by
  obtain ⟨b, h⟩ := of_namingBlock h
  cases hjoin : u.joinAhead with
  | error f =>
    rw [hjoin] at h
    cases h
  | ok join =>
    rw [hjoin] at h
    cases h
    rfl

/-- **Every command is made of effects**, and if it settles the body it does this last. -/
theorem exec_works {u u' : Body} {c : Command} {o : Outcome} (h : u.exec c = .ok (o, u')) :
    Works c.Adds u u' ∨ ∃ v, Works c.Adds u v ∧ v.settle = .ok u' := by
  cases c with
  | declare x =>
    obtain ⟨blk, -, h⟩ := bind_eq_ok_iff.1 (of_silently h)
    cases h
    exact .inl (.arrange (.bind u.current x none))
  | constant v =>
    obtain ⟨i, h⟩ := of_namingInstr h
    exact .inl (constant_works h (.constant v))
  | argument slot =>
    obtain ⟨i, h⟩ := of_namingInstr h
    exact .inl (.place (.argument slot) h)
  | emit op =>
    obtain ⟨i, h⟩ := of_namingInstr h
    exact .inl (emit_works h (.emit op))
  | assign x value => exact .inl (assign_works (of_silently h))
  | moveTo b =>
    cases h
    exact .inl (.arrange (.moveTo b))
  | openIf =>
    obtain ⟨b, h⟩ := of_namingBlock h
    exact .inl (openIf_works h)
  | openElse parent =>
    obtain ⟨b, h⟩ := of_namingBlock h
    exact .inl (openElse_works h)
  | joinAhead =>
    obtain rfl := eq_of_joinAhead h
    exact .inl (.refl u')
  | openLoop =>
    obtain ⟨b, h⟩ := of_namingBlock h
    exact .inl (openLoop_works h)
  | aimBranch b => exact .inl (aimBranch_works (of_silently h))
  | emitJump b =>
    obtain ⟨i, h⟩ := of_namingInstr h
    exact .inl (emitJump_works h (.emitJump b))
  | closeIf parent => exact .inl (closeIf_works (of_silently h))
  | closeLoop head => exact .inl (closeLoop_works (of_silently h))
  | settleWith last => exact .inr (settleWith_works (of_silently h) (.settleWith last))
  | settle => exact .inr ⟨u, .refl u, of_silently h⟩

theorem exec_effects {u u' : Body} {c : Command} {o : Outcome} (h : u.exec c = .ok (o, u')) :
    Effects c.Adds u u' := by
  rcases exec_works h with hworks | ⟨v, hworks, hsettle⟩
  · exact hworks.effects
  · exact hworks.effects.trans (.single (.settle hsettle))

theorem isSettled_of_requireOpen {u : Body} {w : Unit} (h : u.requireOpen = .ok w) :
    u.isSettled = false := by
  simpa using require_eq_ok_iff.1 h

/-- **What can still be done to a settled body**: arrangements, and placing constants and
arguments. -/
theorem exec_of_settled {u u' : Body} {c : Command} {o : Outcome} (h : u.exec c = .ok (o, u'))
    (hsettled : u.isSettled = true) :
    u' = u ∨ u.Arranges u' ∨ ∃ b op i, u.place b op = .ok (i, u') := by
  have hnot : ∀ {w : Unit}, u.requireOpen ≠ .ok w := fun hopen => by
    rw [isSettled_of_requireOpen hopen] at hsettled
    cases hsettled
  cases c with
  | declare x =>
    obtain ⟨blk, -, h⟩ := bind_eq_ok_iff.1 (of_silently h)
    cases h
    exact .inr (.inl (.bind u.current x none))
  | constant v =>
    obtain ⟨i, h⟩ := of_namingInstr h
    rw [constant] at h
    split at h
    · cases h
      exact .inl rfl
    · exact .inr (.inr ⟨_, _, i, h⟩)
  | argument slot =>
    obtain ⟨i, h⟩ := of_namingInstr h
    exact .inr (.inr ⟨_, _, i, h⟩)
  | moveTo b =>
    cases h
    exact .inr (.inl (.moveTo b))
  | joinAhead => exact .inl (eq_of_joinAhead h)
  | emit | emitJump =>
    obtain ⟨i, h⟩ := of_namingInstr h
    obtain ⟨_, hopen, -⟩ := bind_eq_ok_iff.1 h
    exact absurd hopen hnot
  | openIf | openElse | openLoop =>
    obtain ⟨b, h⟩ := of_namingBlock h
    obtain ⟨_, hopen, -⟩ := bind_eq_ok_iff.1 h
    exact absurd hopen hnot
  | assign | aimBranch | closeIf | closeLoop | settleWith | settle =>
    obtain ⟨_, hopen, -⟩ := bind_eq_ok_iff.1 (of_silently h)
    exact absurd hopen hnot

/-- A command that a list of commands carries out. -/
theorem exists_of_map_snd {σ τ : Type} {r : Except Fault (τ × σ)} {u : σ}
    (h : r.map Prod.snd = .ok u) : ∃ o, r = .ok (o, u) := by
  cases r with
  | error f => cases h
  | ok r =>
    cases h
    exact ⟨r.1, rfl⟩

/-- **Every construction is made of effects.** -/
theorem execAll_effects {adds : Operation → Prop} {u u' : Body} {cs : List Command}
    (h : u.execAll cs = .ok u') (hadds : ∀ c ∈ cs, ∀ op, c.Adds op → adds op) :
    Effects adds u u' := by
  refine reflTransGen_foldlM (fun c hc v v' hexec => ?_) h
  obtain ⟨o, hexec⟩ := exists_of_map_snd hexec
  exact (exec_effects hexec).mono (hadds c hc)

/-- **What each command preserves**, a list of commands preserves. -/
theorem execAll_invariant {P : Body → Prop} {u u' : Body} {cs : List Command}
    (h : u.execAll cs = .ok u') (step : ∀ v v' c o, v.exec c = .ok (o, v') → P v → P v')
    (hu : P u) : P u' := by
  have hsteps : Relation.ReflTransGen (fun v v' => P v → P v') u u' := by
    refine reflTransGen_foldlM (fun c _ v v' hexec => ?_) h
    obtain ⟨o, hexec⟩ := exists_of_map_snd hexec
    exact .single (step v v' c o hexec)
  clear h
  induction hsteps with
  | refl => exact hu
  | tail _ hlast ih => exact hlast ih

/-- A body that some construction leads to. -/
theorem Reachable.effects {options : Options} {u : Body} (h : Reachable options u) :
    Effects (fun _ => True) (start options) u := by
  obtain ⟨cs, h⟩ := h
  exact execAll_effects h fun _ _ _ _ => trivial

end Body
end StructuredSSA
