import StructuredSSA.Proofs.Body.Effect
import StructuredSSA.Proofs.Body.Run
import StructuredSSA.Proofs.Body.Settled
import StructuredSSA.Proofs.Graph.Develop

/-!
# How commands advance a body

A command works on an open body, or it settles one as the last thing it does, or it adds to a body
that has been settled already.  In each case it is said here how the graph develops, whatever blocks
the command works on; so an invariant of all constructions has three cases to look at.

Links are such an invariant: every edge is recorded at both of its ends.

## What is here

* `Body.Arranges.develops`, `Body.Effect.develops` — effects that do not settle the body.
* `Body.Advances`, `Body.exec_advances` — what a command does.
* `Body.Reachable.invariant` — what every command preserves holds of every body.
* `Body.links_symmetric` — edges are recorded at both of their ends.
-/

set_option autoImplicit false

namespace StructuredSSA

namespace Graph

theorem Settles.keeps {g g' : Graph} (h : g.Settles g') : Keeps g g' := by
  intro i ins hins
  obtain ⟨ins', hins', hsettles⟩ := h.instr i ins hins
  refine ⟨ins', hins', hsettles.id_eq, hsettles.block_eq, ?_⟩
  cases hop : ins.op with
  | branch c t =>
    obtain ⟨j, hj⟩ := hsettles.branch c t hop
    rw [hj]
    rfl
  | _ =>
    rw [hsettles.op_eq (by rw [hop]; rfl), hop]
    exact Operation.outline_mapOperands (Operand.var_mapValue _) _

end Graph

namespace Body

open StructuredSSA.Graph (Develops Reworks)

variable {adds : Operation → Prop} {u u' v : Body}

/-! ## Effects -/

theorem Arranges.develops (h : u.Arranges u') (w : u.graph.Wired) : Develops u.graph u'.graph := by
  cases h with
  | moveTo b => exact .refl
  | bind b x value => exact .rework (.of_rebinds (Graph.rebinds_bindIn _ b x value))
  | inherit b origin => exact .rework (.of_rebinds (Graph.rebinds_inheritScope _ b origin))
  | target h => exact .rework (.targetOf h)
  | aim i t => exact .rework (.mapOp _ i (Operation.outline_aim t))
  | openIf h => exact .rewires (Graph.openIf_rewires h w)
  | openElse h => exact .rewires (Graph.openElse_rewires h w)
  | openLoop h => exact .rewires (Graph.openLoop_rewires h w)
  | leaveLoop => exact .refl

theorem place_develops {b : BlockId} {op : Operation} {i : InstrId}
    (h : u.place b op = .ok (i, u')) : Develops u.graph u'.graph := by
  obtain ⟨-, op', g, -, hplaces, rfl⟩ := places_of_place h
  exact .single (.place hplaces)

theorem placeRetired_develops {op : Operation} {e i : InstrId}
    (h : u.placeRetired op e = .ok (i, u')) : Develops u.graph u'.graph := by
  obtain ⟨⟨j, v⟩, hplace, h⟩ := bind_eq_ok_iff.1 h
  cases h
  exact (place_develops hplace).tail (.rework (.setStandIn _ _ _))

theorem insertPhi_develops {b : BlockId} {x : Var} {first second : Option InstrId} {i : InstrId}
    (h : u.insertPhi b x first second = .ok (i, u')) : Develops u.graph u'.graph := by
  obtain ⟨⟨j, v⟩, hplace, h⟩ := bind_eq_ok_iff.1 h
  cases h
  exact (place_develops hplace).tail (.rework (.of_rebinds (Graph.rebinds_bindIn _ b x _)))

theorem reworks_revived (u : Body) (i : InstrId) : Reworks u.graph (u.revived i).graph :=
  .of_sameShape (sameShape_revived u i) (op?_revived u i)

theorem redirectRead_develops {x : Var} {before : Option InstrId} {phi i : InstrId}
    (h : u.redirectRead x before phi i = .ok u') : Develops u.graph u'.graph := by
  rw [eq_of_redirectRead h, withRead]
  split
  · rw [graph_noteCompletion]
    exact .rework ((Reworks.mapOp u.graph i (Operation.outline_redirect x before phi)).trans
      (reworks_revived { u with graph := _ } i))
  · exact .refl

theorem Effect.develops (h : Effect adds u u') (hopen : u'.isSettled = false)
    (w : u.graph.Wired) : Develops u.graph u'.graph := by
  cases h with
  | arrange h => exact h.develops w
  | place hop h => exact place_develops h
  | placeRetired hop harith hoe hsame h => exact placeRetired_develops h
  | insertPhi h => exact insertPhi_develops h
  | setPhiSide hphi x side value =>
    exact .rework (.mapOp _ _ (Operation.outline_setSide side value))
  | redirectRead h => exact redirectRead_develops h
  | settle h =>
    obtain ⟨g, -, rfl⟩ := settles_of_settle h
    cases hopen

theorem Works.develops (h : Works adds u u') (hopen : u.isSettled = false) (w : u.graph.Wired) :
    u'.isSettled = false ∧ Develops u.graph u'.graph :=
  h.open_invariant (P := fun v => Develops u.graph v.graph) hopen
    (fun _ _ heffect hopen' hdev => hdev.trans (heffect.develops hopen' (Develops.wired hdev w)))
    .refl

/-! ## Commands -/

/-- **What a command does** to a body. -/
inductive Advances (u : Body) : Body → Prop where
  | work {u' : Body} (hopen : u.isSettled = false) (hopen' : u'.isSettled = false)
      (h : Develops u.graph u'.graph) : Advances u u'
  | settle {v u' : Body} (hopen : u.isSettled = false) (hopen' : v.isSettled = false)
      (h : Develops u.graph v.graph) (hsettle : v.settle = .ok u') : Advances u u'
  /-- The body has been settled before; nothing is retired or revived any more. -/
  | add {u' : Body} (hsettled : u.isSettled = true) (hsettled' : u'.isSettled = true)
      (h : Develops u.graph u'.graph) (hstand : ∀ i, u'.graph.standIn? i = u.graph.standIn? i) :
      Advances u u'

theorem standIn?_place {b : BlockId} {op : Operation} {i : InstrId} (h : u.place b op = .ok (i, u'))
    (j : InstrId) : u'.graph.standIn? j = u.graph.standIn? j := by
  obtain ⟨-, op', g, -, hplaces, rfl⟩ := places_of_place h
  exact hplaces.standIn?_eq j

theorem exec_advances {c : Command} {o : Outcome} (h : u.exec c = .ok (o, u'))
    (w : u.graph.Wired) : u.Advances u' := by
  cases hu : u.isSettled with
  | false =>
    rcases exec_works h with hworks | ⟨v, hworks, hsettle⟩
    · obtain ⟨hopen', hdev⟩ := hworks.develops hu w
      exact .work hu hopen' hdev
    · obtain ⟨hopen', hdev⟩ := hworks.develops hu w
      exact .settle hu hopen' hdev hsettle
  | true =>
    rcases exec_of_settled h hu with rfl | harranges | ⟨b, op, i, hplace⟩
    · exact .add hu hu .refl fun _ => rfl
    · exact .add hu (harranges.isSettled_eq.trans hu) (harranges.develops w)
        harranges.sameWork.standIn?_eq
    · exact .add hu ((isSettled_place hplace).trans hu) (place_develops hplace)
        (standIn?_place hplace)

namespace Advances

theorem wired (h : u.Advances u') (w : u.graph.Wired) : u'.graph.Wired := by
  cases h with
  | work hopen hopen' h => exact h.wired w
  | settle hopen hopen' h hsettle =>
    obtain ⟨g, hsettles, rfl⟩ := settles_of_settle hsettle
    exact (h.wired w).of_sameSkeleton hsettles.skeleton
  | add hsettled hsettled' h hstand => exact h.wired w

theorem keeps (h : u.Advances u') : u.graph.Keeps u'.graph := by
  cases h with
  | work hopen hopen' h => exact h.keeps
  | settle hopen hopen' h hsettle =>
    obtain ⟨g, hsettles, rfl⟩ := settles_of_settle hsettle
    exact h.keeps.trans hsettles.keeps
  | add hsettled hsettled' h hstand => exact h.keeps

end Advances

/-! ## Constructions -/

theorem wired_start (options : Options) : (start options).graph.Wired where
  linked := (Built.start options).layout.linked
  origin_lt b o ho := by
    rw [Graph.originOf] at ho
    rcases b with _ | _ | b
    · cases ho
    · cases ho
    · rw [block?_start options (Nat.le_add_left 2 b)] at ho
      cases ho

theorem wired_execAll {cs : List Command} (h : u.execAll cs = .ok u') (w : u.graph.Wired) :
    u'.graph.Wired :=
  execAll_invariant (P := fun v => v.graph.Wired) h
    (fun _ _ _ _ hexec w => (exec_advances hexec w).wired w) w

theorem Reachable.wired {options : Options} (h : Reachable options u) : u.graph.Wired := by
  obtain ⟨cs, h⟩ := h
  exact wired_execAll h (wired_start options)

/-- **What every command preserves** holds of every body that can be built. -/
theorem Reachable.invariant {P : Body → Prop} {options : Options} (h : Reachable options u)
    (step : ∀ v v', v.Advances v' → P v → P v') (hstart : P (start options)) : P u := by
  obtain ⟨cs, h⟩ := h
  have hboth := execAll_invariant (P := fun v => v.graph.Wired ∧ P v) h
    (fun v v' c o hexec hv =>
      have hadvances := exec_advances hexec hv.1
      ⟨hadvances.wired hv.1, step v v' hadvances hv.2⟩)
    ⟨wired_start options, hstart⟩
  exact hboth.2

/-! ## Links -/

/-- **Links are symmetric**, whatever blocks the commands were given: an edge is recorded at both of
its ends, links and origins name blocks that exist, and no two edges of one kind lead to the same
block. -/
theorem links_symmetric {options : Options} (h : Reachable options u) :
    (∀ e a b, u.graph.next e a = some b ↔ u.graph.prev e b = some a) ∧
      (∀ e a b, u.graph.next e a = some b → a < u.graph.blocks.size ∧ b < u.graph.blocks.size) ∧
      (∀ b o, u.graph.originOf b = some o → b < u.graph.blocks.size ∧ o < u.graph.blocks.size) ∧
      ∀ e a a' b, u.graph.next e a = some b → u.graph.next e a' = some b → a = a' := by
  have w := h.wired
  refine ⟨w.linked, fun e a b hab => ⟨Graph.lt_size_of_next hab, w.linked.target_lt hab⟩,
    fun b o ho => ⟨Graph.lt_size_of_originOf ho, w.origin_lt b o ho⟩,
    fun e a a' b hab hab' => w.linked.source_unique hab hab'⟩

/-- An if that is opened at the very block which becomes its join: the block branches to itself, and
falls through to the side that falls through to it. -/
def ifAtItsJoin : List Command := [.moveTo 2, .openIf]

theorem exists_ifAtItsJoin : ∃ u, Reachable {} u ∧ u.graph.next .branch 2 = some 2 :=
  ⟨_, ⟨ifAtItsJoin, rfl⟩, rfl⟩

theorem links_symmetric_ifAtItsJoin : ∃ u, Reachable {} u ∧ u.graph.next .branch 2 = some 2 ∧
    (∀ e a b, u.graph.next e a = some b ↔ u.graph.prev e b = some a) ∧
    (∀ e a b, u.graph.next e a = some b → a < u.graph.blocks.size ∧ b < u.graph.blocks.size) ∧
    (∀ b o, u.graph.originOf b = some o → b < u.graph.blocks.size ∧ o < u.graph.blocks.size) ∧
    ∀ e a a' b, u.graph.next e a = some b → u.graph.next e a' = some b → a = a' := by
  obtain ⟨u, hu, hself⟩ := exists_ifAtItsJoin
  exact ⟨u, hu, hself, links_symmetric hu⟩

end Body
end StructuredSSA
