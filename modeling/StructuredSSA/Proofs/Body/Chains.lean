import StructuredSSA.Proofs.Body.Advance
import StructuredSSA.Proofs.Graph.Walk
import StructuredSSA.Proofs.Layout.Resolve

/-!
# Searches along chains of blocks

A variable is looked up along the scope parents of a block, and a landing along its fallthrough
edges; both searches count the blocks they look into and stop when there cannot be more.  Whatever
commands have been issued, the chains may run in circles or pass through every block.  The count
still never cuts a search short, and a look-up is refused only where it would go on for ever.

## What is here

* `Graph.Linked.parent_lt` — a scope chain stays among the blocks there are.
* `Graph.resolveWithin_eq`, `Graph.landingWithin_eq` — both searches are `search` along a walk.
* `Body.resolve_exact` — a look-up finds the nearest binding, and fails on endless chains only.
* `Body.landing_complete` — a landing is the first instruction on the way.
-/

set_option autoImplicit false

namespace StructuredSSA

namespace Graph

variable {g : Graph} {b c d : BlockId}

/-! ## Chains -/

theorem Linked.source_lt (hg : g.Linked) {e : Edge} (h : g.prev e c = some d) :
    d < g.blocks.size :=
  lt_size_of_next ((hg e d c).2 h)

theorem Linked.parent_lt (hg : g.Linked) (c d : BlockId) (h : g.parent c = some d) :
    d < g.blocks.size := by
  rw [parent] at h
  split at h
  · exact hg.source_lt h
  · exact hg.source_lt h

/-! ## Looking a variable up -/

/-- A look-up is a search along the scope parents.  It yields no value both where the nearest
binding is a mere declaration and where the chain stops. -/
theorem resolveWithin_eq (hg : g.Linked) (x : Var) (fuel : Nat) (hb : b < g.blocks.size) :
    g.resolveWithin x fuel b =
      expect ((search g.parent (g.binding · x) fuel b).map Option.join) (.scopeCycle x) := by
  induction fuel generalizing b with
  | zero => rfl
  | succ fuel ih =>
    obtain ⟨blk, hblk⟩ := exists_block hb
    have hbinding : g.binding b x = blk.symbols.get? x := by rw [binding, hblk]; rfl
    rw [search, hbinding, ← scopeParent_eq hblk, resolveWithin, block_eq_ok_iff.2 hblk]
    cases hget : blk.symbols.get? x with
    | some v => simp only [bind, Except.bind, hget, Option.map_some, Option.join_some, expect_some]
    | none =>
      cases hparent : blk.scopeParent with
      | none =>
        simp only [bind, Except.bind, hget, hparent, Option.map_some, Option.join_none, expect_some]
      | some p =>
        have hp : p < g.blocks.size := hg.parent_lt b p ((scopeParent_eq hblk).symm.trans hparent)
        simp only [bind, Except.bind, hget, hparent]
        exact ih hp

theorem resolve_eq_ok_iff (hg : g.Linked) (x : Var) (hb : b < g.blocks.size) (v : Option InstrId) :
    g.resolve b x = .ok v ↔ Nearest g.parent (g.binding · x) b v ∨
      v = none ∧ Ends g.parent b ∧ Barren g.parent (g.binding · x) b := by
  rw [resolve, resolveWithin_eq hg x _ hb, expect_eq_ok_iff,
    ← search_eq_found_iff hg.parent_lt hb, ← search_eq_ended_iff hg.parent_lt hb]
  rcases search g.parent (g.binding · x) (g.blocks.size + 1) b with _ | _ | v' <;> simp [eq_comm]

theorem resolve_eq_error_iff (hg : g.Linked) (x : Var) (hb : b < g.blocks.size) (f : Fault) :
    g.resolve b x = .error f ↔
      f = .scopeCycle x ∧ ¬ Ends g.parent b ∧ Barren g.parent (g.binding · x) b := by
  rw [resolve, resolveWithin_eq hg x _ hb, expect_eq_error_iff, Option.map_eq_none_iff,
    search_eq_none_iff hg.parent_lt hb, and_comm, eq_comm]

/-! ## Looking for a landing -/

/-- The search for a landing is one for a first instruction along the fallthrough edges. -/
theorem landingWithin_eq (hg : g.Linked) (fuel : Nat) {blk : Block} (hblk : g.block? b = some blk) :
    g.landingWithin fuel blk =
      (search (g.next .fall) (fun c => (g.listed c).head?) fuel b).join := by
  induction fuel generalizing b blk with
  | zero => rfl
  | succ fuel ih =>
    have hlisted : (g.listed b).head? = blk.first? := by rw [listed, hblk]; rfl
    have hnext : g.next .fall b = blk.fallTo := by rw [next, hblk]; rfl
    rw [search, hlisted, hnext, landingWithin]
    cases blk.first? with
    | some i => rfl
    | none =>
      cases hfall : blk.fallTo with
      | none => rfl
      | some c =>
        obtain ⟨blk', hblk'⟩ := exists_block (hg.target_lt (hnext.trans hfall))
        simp only [Option.bind_some, hblk']
        exact ih hblk'

theorem landing?_eq_some_iff (hg : g.Linked) {blk : Block} (hblk : g.block? b = some blk)
    (i : InstrId) : g.landing? blk = some i ↔
      Nearest (g.next .fall) (fun c => (g.listed c).head?) b i := by
  rw [landing?, landingWithin_eq hg _ hblk, Option.join_eq_some_iff,
    search_eq_found_iff (fun _ _ => hg.target_lt) (lt_size_of_block? hblk)]

theorem landing?_eq_none_iff (hg : g.Linked) {blk : Block} (hblk : g.block? b = some blk) :
    g.landing? blk = none ↔ Barren (g.next .fall) (fun c => (g.listed c).head?) b := by
  have hb := lt_size_of_block? hblk
  rw [landing?, landingWithin_eq hg _ hblk]
  rcases search_cases (fun _ _ => hg.target_lt) hb (fun c => (g.listed c).head?) with
    ⟨i, hsearch, hi⟩ | ⟨hsearch, -, hbarren⟩ | ⟨hsearch, -, hbarren⟩
  · exact iff_of_false (by simp [hsearch]) fun h => h.not_nearest hi
  · exact iff_of_true (by rw [hsearch]; rfl) hbarren
  · exact iff_of_true (by rw [hsearch]; rfl) hbarren

end Graph

namespace Body

variable {options : Options} {u : Body} {b : BlockId}

/-! ## In every body that can be built -/

/-- **Look-ups are exact**, whatever circles the links form.  The scope chain of a block stays among
the blocks there are.  A look-up yields what the nearest block on the chain that binds the variable
binds it to, which is nothing for a mere declaration; it yields nothing if the chain stops and no
block on it binds the variable; and it fails if and only if the chain never stops and no block on it
binds the variable, with a fault that names the cycle and the variable. -/
theorem resolve_exact (h : Reachable options u) (hb : b < u.graph.blocks.size) (x : Var) :
    (∀ n c, walk u.graph.parent n b = some c → c < u.graph.blocks.size) ∧
      (∀ v, u.graph.resolve b x = .ok v ↔
        (∃ n c, walk u.graph.parent n b = some c ∧ u.graph.binding c x = some v ∧
          ∀ m < n, ∀ d, walk u.graph.parent m b = some d → u.graph.binding d x = none) ∨
        v = none ∧ (∃ n, walk u.graph.parent n b = none) ∧
          ∀ n c, walk u.graph.parent n b = some c → u.graph.binding c x = none) ∧
      (∀ f, u.graph.resolve b x = .error f ↔
        f = .scopeCycle x ∧ (∀ n, walk u.graph.parent n b ≠ none) ∧
          ∀ n c, walk u.graph.parent n b = some c → u.graph.binding c x = none) ∧
      (Fault.scopeCycle x).message =
        "cycle in upstream links while resolving identifier " ++ toString x := by
  have hg := h.wired.linked
  refine ⟨fun n c hc => walk_lt_size hg.parent_lt hb hc, Graph.resolve_eq_ok_iff hg x hb,
    fun f => ?_, rfl⟩
  rw [Graph.resolve_eq_error_iff hg x hb, Ends, not_exists]
  rfl

/-- An if is opened at the very block which becomes its join, so that this block and the then side
are each other's scope parents.  The join binds one variable, and nothing the other. -/
def ringOfScopes : List Command := [.moveTo 2, .openIf, .moveTo 3, .declare 5]

theorem exists_ringOfScopes : ∃ u, Reachable {} u ∧ 2 < u.graph.blocks.size ∧
    u.graph.resolve 2 5 = .ok none ∧ u.graph.resolve 2 6 = .error (.scopeCycle 6) :=
  ⟨_, ⟨ringOfScopes, rfl⟩, by decide, by decide, by decide⟩

theorem resolve_exact_ringOfScopes : ∃ u, Reachable {} u ∧ 2 < u.graph.blocks.size ∧
    (∃ n c, walk u.graph.parent n 2 = some c ∧ u.graph.binding c 5 = some none ∧
      ∀ m < n, ∀ d, walk u.graph.parent m 2 = some d → u.graph.binding d 5 = none) ∧
    (∀ n, walk u.graph.parent n 2 ≠ none) ∧
    ∀ n c, walk u.graph.parent n 2 = some c → u.graph.binding c 6 = none := by
  obtain ⟨u, hu, hsize, hbound, hcycle⟩ := exists_ringOfScopes
  obtain ⟨-, -, hfails, -⟩ := resolve_exact hu hsize 6
  obtain ⟨-, hendless, hbarren⟩ := (hfails _).1 hcycle
  obtain ⟨-, hyields, -⟩ := resolve_exact hu hsize 5
  rcases (hyields none).1 hbound with hnearest | ⟨-, ⟨n, hends⟩, -⟩
  · exact ⟨u, hu, hsize, hnearest, hendless, hbarren⟩
  · exact absurd hends (hendless n)

/-- **Landings are complete**, however long the chain of blocks and whatever circle it runs into.
The search finds an instruction if and only if some block on the fallthrough chain lists any and
this one comes first in the first such block; it finds none if and only if all of these blocks are
empty. -/
theorem landing_complete (h : Reachable options u) {blk : Block}
    (hblk : u.graph.block? b = some blk) :
    (∀ n c, walk (u.graph.next .fall) n b = some c → c < u.graph.blocks.size) ∧
      (∀ i, u.graph.landing? blk = some i ↔
        ∃ n c rest, walk (u.graph.next .fall) n b = some c ∧ u.graph.listed c = i :: rest ∧
          ∀ m < n, ∀ d, walk (u.graph.next .fall) m b = some d → u.graph.listed d = []) ∧
      (u.graph.landing? blk = none ↔
        ∀ n c, walk (u.graph.next .fall) n b = some c → u.graph.listed c = []) := by
  have hg := h.wired.linked
  refine ⟨fun n c hc => walk_lt_size (fun _ _ => hg.target_lt) (Graph.lt_size_of_block? hblk) hc,
    fun i => ?_, ?_⟩
  · rw [Graph.landing?_eq_some_iff hg hblk]
    simp only [Nearest, Vain, List.head?_eq_some_iff, List.head?_eq_none_iff, exists_and_left,
      exists_and_right]
  · rw [Graph.landing?_eq_none_iff hg hblk]
    simp only [Barren, List.head?_eq_none_iff]

/-- The two blocks of `ifAtItsJoin` that fall through to each other, both empty. -/
theorem exists_ringOfEmptyBlocks : ∃ u blk, Reachable {} u ∧ u.graph.block? 2 = some blk ∧
    u.graph.next .fall 2 = some 3 ∧ u.graph.next .fall 3 = some 2 ∧ u.graph.landing? blk = none :=
  ⟨_, _, ⟨ifAtItsJoin, rfl⟩, rfl, rfl, rfl, rfl⟩

theorem landing_complete_ringOfEmptyBlocks : ∃ u blk, Reachable {} u ∧
    u.graph.block? 2 = some blk ∧ u.graph.next .fall 2 = some 3 ∧ u.graph.next .fall 3 = some 2 ∧
    ∀ n c, walk (u.graph.next .fall) n 2 = some c → u.graph.listed c = [] := by
  obtain ⟨u, blk, hu, hblk, h₂, h₃, hnone⟩ := exists_ringOfEmptyBlocks
  obtain ⟨-, -, hempty⟩ := landing_complete hu hblk
  exact ⟨u, blk, hu, hblk, h₂, h₃, hempty.1 hnone⟩

end Body
end StructuredSSA
