import StructuredSSA.Proofs.Body.Reused
import StructuredSSA.Proofs.Exec.Moves
import StructuredSSA.Source.Eval

/-!
# Executions along a construction

While a structured program is executed, the finished graph is executed beside it.  At each point of
the construction the two agree: control has come to the end of what the current block held then, and
what has become of each variable has the value that the variable has in the program.

The comparison is with the finished graph `U` all along, not with the graph at that point, whose
loops lack phis.  So a variable does not have the value of what it means there, but the value of
what becomes of this if it is read there (`Graph.fate`).  This depends on the point: a loop phi that
is there already takes over no later reads.

Between two points instructions are added and executed; a value stays what it is as long as its
instruction is not executed again, which within one round of the loops around holds for everything
that was added before, and for phis and constants (`Graph.Lasts`).

## What is here

* `Leads` — a state on the way to the finished body.
* `Agrees`, `Body.At`, `Tracks` — the values, where control is, and both together.
* `Body.At.goes_inside` — control comes to what is added next.
* `Leads.op?_added` — what an instruction that is added reads in the end.
* `Leads.executes` — an instruction is added and executed.

The finished graph is not settled yet: retired instructions are in it, and are executed like all
others.  What sharing does to an execution is left to `Proofs.Exec.Settled`.
-/

set_option autoImplicit false

namespace StructuredSSA

/-- Construction comes from `w` and `u` to the finished body `U`. -/
structure Leads (w : Site) (u : Body) (wE : Site) (U : Body) : Prop where
  orderly : Orderly w u
  proceeds : Proceeds w u wE U
  finished : Orderly wE U
  steered : Steered U.graph wE

/-! ## Values -/

namespace Graph

/-- Instruction `i` is a constant or a phi, or was added before instruction `n`: whatever else is
executed of what is added later leaves its value alone. -/
def Lasts (g : Graph) (n i : InstrId) : Prop :=
  i < n ∨ g.isPhi i = true ∨ ∃ v, g.op? i = some (.const v)

theorem Lasts.mono {g : Graph} {n n' i : InstrId} (h : g.Lasts n i) (hn : n ≤ n') : g.Lasts n' i :=
  h.imp_left fun hi => Nat.lt_of_lt_of_le hi hn

end Graph

/-- The machine `m'` has the values of `m` that last. -/
def Machine.Retains (g : Graph) (n : InstrId) (m m' : Machine) : Prop :=
  ∀ i, g.Lasts n i → m'.values i = m.values i

/-- What becomes of an operand that is added to `g₀` is there to stay. -/
def Operand.Lasts (g g₀ : Graph) (ls : List Frame) (n : InstrId) (o : Operand) : Prop :=
  ∀ i, (o.fated g g₀ ls).value = some i → g.Lasts n i

namespace Machine.Retains

variable {g g₀ : Graph} {n n' : InstrId} {m m₁ m' : Machine}

theorem refl (g : Graph) (n : InstrId) (m : Machine) : m.Retains g n m := fun _ _ => rfl

theorem trans (h : m.Retains g n m₁) (h' : m₁.Retains g n' m') (hn : n ≤ n') : m.Retains g n m' :=
  fun i hi => (h' i (hi.mono hn)).trans (h i hi)

theorem read_eq {ls : List Frame} (h : m.Retains g n m') {o : Operand} (ho : o.Lasts g g₀ ls n) :
    m'.read (o.fated g g₀ ls) = m.read (o.fated g g₀ ls) := by
  rw [read, read]
  cases hv : (o.fated g g₀ ls).value with
  | none => rfl
  | some i => exact h i (ho i hv)

/-- An instruction that is neither a constant nor a phi records its result. -/
theorem set {op : Operation} (hop : g.op? n = some op) (hphi : op.isPhi = false)
    (hconst : ∀ v, op ≠ .const v) (a : Int64) : m.Retains g n (m.set n a) := by
  intro i hi
  refine if_neg ?_
  rintro rfl
  rcases hi with hi | hi | ⟨v, hv⟩
  · exact Nat.lt_irrefl _ hi
  · rw [Graph.isPhi_eq, hop, Option.any_some, hphi] at hi
    cases hi
  · rw [hop] at hv
    exact hconst v (Option.some.inj hv)

end Machine.Retains

/-- **The values of a store**: in the loops `ls`, what becomes of each variable, which means what
`σ` says where it is read in `g₀`, has its value. -/
structure Agrees (g g₀ : Graph) (ls : List Frame) (σ : Var → Option InstrId) (st : Store)
    (m : Machine) : Prop where
  taken : m.taken = st.taken
  written : m.written = st.written
  consts : ∀ i v, g.op? i = some (.const v) → g.home? i = some Body.head → m.values i = some v
  vars : ∀ x a, st.values x = some a → m.read ((Operand.through x (σ x)).fated g g₀ ls) = some a

namespace Agrees

variable {g g₀ g₁ : Graph} {ls ls' : List Frame} {σ σ' : Var → Option InstrId} {st st' : Store}
  {m m' : Machine} {n : InstrId}

/-- Values that last keep the agreement. -/
theorem retain (h : Agrees g g₀ ls σ st m) (hretains : m.Retains g n m')
    (hlasts : ∀ x, (Operand.through x (σ x)).Lasts g g₀ ls n) (htaken : m'.taken = st'.taken)
    (hwritten : m'.written = st'.written) (hvalues : st'.values = st.values) :
    Agrees g g₀ ls σ st' m' where
  taken := htaken
  written := hwritten
  consts i v hi hhome := (hretains i (.inr (.inr ⟨v, hi⟩))).trans (h.consts i v hi hhome)
  vars x a hx := by
    rw [hretains.read_eq (hlasts x)]
    exact h.vars x a (hvalues ▸ hx)

/-- What becomes of the variables is the same in other loops. -/
theorem congr (h : Agrees g g₀ ls σ st m)
    (heq : ∀ x, g.fate g₁ ls' x (σ' x) = g.fate g₀ ls x (σ x)) : Agrees g g₁ ls' σ' st m where
  taken := h.taken
  written := h.written
  consts := h.consts
  vars x a hx := by
    have hread := h.vars x a hx
    rw [Machine.read] at hread ⊢
    change (g.fate g₁ ls' x (σ' x)).bind m.values = some a
    rw [heq x]
    exact hread

/-- The variables may be read later, as long as the loops have got no phis. -/
theorem since (h : Agrees g g₀ ls σ st m) (hsame : Graph.SameRenewals ls g₀ g₁) :
    Agrees g g₁ ls σ st m :=
  h.congr fun x => Graph.fate_since fun f hf => hsame f hf x

end Agrees

/-! ## Positions -/

/-- Control has come to the end of what the current block holds.  Into an empty block that may still
become the header of a loop, it is only about to come. -/
inductive Body.At (u : Body) (w : Site) (g : Graph) : Point → Prop where
  | inside {rest : List InstrId} (hrest : g.plain u.current = u.graph.plain u.current ++ rest)
      (hoccupied : u.current = w.tail →
        u.graph.prev .branch u.current ≠ none ∨ u.graph.plain u.current ≠ []) :
      At u w g (.inside u.current rest)
  | entering (hclosed : w.Closed u.current) (hplain : u.graph.plain u.current = [])
      (hphis : ∀ x, ¬ u.graph.HasPhi u.current x) : At u w g (.entering u.current .fall)

/-- **Control and values** are where construction is. -/
structure Tracks (g : Graph) (w : Site) (u : Body) (st : Store) (q : Point × Machine) : Prop where
  position : u.At w g q.1
  agrees : Agrees g u.graph w.loops (u.graph.meaning w.tail) st q.2

/-- Construction goes on without anything new in the current block. -/
theorem Body.At.congr {u u' : Body} {w w' : Site} {g : Graph} {p : Point} (h : u.At w g p)
    (hcurrent : u'.current = u.current)
    (hplain : u'.graph.plain u.current = u.graph.plain u.current)
    (hphis : w.Closed u.current → ∀ x, u'.graph.HasPhi u.current x → u.graph.HasPhi u.current x)
    (hclosed : w.Closed u.current → w'.Closed u.current)
    (htail : u.current = w'.tail → u.current = w.tail ∧
      u'.graph.prev .branch u.current = u.graph.prev .branch u.current) : u'.At w' g p := by
  cases h with
  | inside hrest hoccupied =>
    rw [← hcurrent]
    refine .inside ?_ ?_
    · rw [hcurrent, hplain]
      exact hrest
    · rw [hcurrent, hplain]
      intro heq
      rw [(htail heq).2]
      exact hoccupied (htail heq).1
  | entering hcl hnil hnone =>
    rw [← hcurrent]
    refine .entering ?_ ?_ ?_
    · rw [hcurrent]
      exact hclosed hcl
    · rw [hcurrent, hplain]
      exact hnil
    · intro x hx
      rw [hcurrent] at hx
      exact hnone x (hphis hcl x hx)

/-- Control comes inside of the block, which has no phis if it had none when control came to it. -/
theorem Body.At.goes_inside {u : Body} {w : Site} {g : Graph} {p : Point} (h : u.At w g p)
    (input : Nat → Int64) (hlt : u.current < g.blocks.size)
    (hnone : w.Closed u.current → (∀ x, ¬ u.graph.HasPhi u.current x) →
      ∀ i ∈ g.listed u.current, g.isPhi i = false)
    (m : Machine) : ∃ rest, g.plain u.current = u.graph.plain u.current ++ rest ∧
      g.Goes input (p, m) (.inside u.current rest, m) := by
  cases h with
  | inside hrest => exact ⟨_, hrest, .refl⟩
  | entering hclosed hplain hphis =>
    refine ⟨g.plain u.current, by rw [hplain, List.nil_append], .single ?_⟩
    exact Graph.moves_enter_of_not_isPhi hlt (hnone hclosed hphis) m

/-- Control falls off the end of the block. -/
theorem Body.At.falls {u : Body} {w : Site} {g : Graph} {input : Nat → Int64} {p : Point}
    (h : u.At w g p) (hlt : u.current < g.blocks.size)
    (hnone : w.Closed u.current → (∀ x, ¬ u.graph.HasPhi u.current x) →
      ∀ i ∈ g.listed u.current, g.isPhi i = false)
    (hplain : g.plain u.current = u.graph.plain u.current) {d : BlockId}
    (hnext : g.next .fall u.current = some d) (m : Machine) :
    g.Goes input (p, m) (.entering d .fall, m) := by
  obtain ⟨rest, hrest, hgoes⟩ := h.goes_inside input hlt hnone m
  obtain rfl : rest = [] := List.self_eq_append_right.1 (hplain.symm.trans hrest)
  exact hgoes.tail (.fall hnext)

/-- Control leaves the block by the jump at its end. -/
theorem Body.At.jumps {u : Body} {w : Site} {g : Graph} {input : Nat → Int64} {p : Point}
    (h : u.At w g p) (hlt : u.current < g.blocks.size)
    (hnone : w.Closed u.current → (∀ x, ¬ u.graph.HasPhi u.current x) →
      ∀ i ∈ g.listed u.current, g.isPhi i = false) {i : InstrId}
    (hplain : g.plain u.current = u.graph.plain u.current ++ [i]) {target : Option Target}
    (hop : g.op? i = some (.branch .always target)) {d : BlockId}
    (hnext : g.next .branch u.current = some d) (m : Machine) :
    g.Goes input (p, m) (.entering d .branch, m) := by
  obtain ⟨rest, hrest, hgoes⟩ := h.goes_inside input hlt hnone m
  obtain rfl : [i] = rest := List.append_cancel_left (hplain.symm.trans hrest)
  obtain ⟨ins, hins, hinsop⟩ := Option.map_eq_some_iff.1 hop
  refine hgoes.tail (.branch hins ?_ hnext)
  simp only [Machine.step, hinsop]

namespace Leads

variable {w wE : Site} {u u' U : Body} {input : Nat → Int64} {op : Operation}

/-- No phi comes to a filled block that has none. -/
theorem not_isPhi_of_filled (h : Leads w u wE U) {b : BlockId} (hfilled : Filled u.graph w b)
    (hnone : ∀ x, ¬ u.graph.HasPhi b x) : ∀ i ∈ U.graph.listed b, U.graph.isPhi i = false := by
  intro i hi
  rw [Bool.eq_false_iff]
  intro hphi
  obtain ⟨x, hx⟩ := h.finished.built.contents.exists_phiOf hi hphi
  exact hnone x ⟨i, ((h.proceeds.filled hfilled).2 x i).1 hx⟩

/-- No phi comes to a block that construction has passed, if no construct has its phis there. -/
theorem not_isPhi_of_passed (h : Leads w u wE U) {b : BlockId} (hpassed : b ∈ w.passed)
    (hclosed : w.Closed b) (hnone : ∀ x, ¬ u.graph.HasPhi b x) :
    ∀ i ∈ U.graph.listed b, U.graph.isPhi i = false := by
  refine h.not_isPhi_of_filled ⟨hclosed, ?_⟩ hnone
  rintro rfl
  exact absurd hpassed h.orderly.built.layout.tail_not_passed

theorem passed_lt (h : Leads w u wE U) {b : BlockId} (hpassed : b ∈ w.passed) :
    b < U.graph.blocks.size :=
  h.finished.built.layout.passed_lt (h.proceeds.passed_subset hpassed)

/-- The branch at the end of a block that has no other way on is a jump. -/
theorem op?_jump (h : Leads w u wE U) {b : BlockId} (hbranch : U.graph.HasBranch b)
    (hfall : U.graph.next .fall b = none) {is : List InstrId} {i : InstrId}
    (hplain : U.graph.plain b = is ++ [i]) :
    ∃ target, U.graph.op? i = some (.branch .always target) := by
  obtain ⟨j, cond, target, hj⟩ := hbranch.exists_branchAt
  obtain rfl := (h.steered.cond b j cond target hj).2 hfall
  obtain ⟨js, hlisted, -⟩ := h.steered.last b j _ target hj
  have hphi : U.graph.isPhi j = false := by
    rw [Graph.isPhi_eq, hj.2]
    rfl
  rw [Graph.plain, hlisted, List.filter_append, List.filter_singleton, hphi] at hplain
  obtain rfl : j = i := by simpa using (List.append_inj_right' hplain rfl)
  exact ⟨target, hj.2⟩

/-- Nothing but phis is added to a frozen block that needs no jump. -/
theorem plain_eq (h : Leads w u wE U) {b : BlockId} (hfrozen : Frozen u.graph w b)
    (hjump : u.graph.HasBranch b ∨ ∀ f ∈ w.frames, f.part ≠ .elseSide b) :
    U.graph.plain b = u.graph.plain b := by
  rcases (h.proceeds.frozen hfrozen).2 with heq | ⟨hclear, -, f, hf, hpart⟩
  · exact heq
  · exact absurd hpart (hjump.resolve_left hclear f hf)

/-- What has become of a variable is there to stay. -/
theorem lasts (h : Leads w u wE U) (x : Var) :
    (Operand.through x (u.graph.meaning w.tail x)).Lasts U.graph u.graph w.loops
      u.graph.nextId := by
  intro i hi
  change U.graph.fate u.graph w.loops x (u.graph.meaning w.tail x) = some i at hi
  rcases U.graph.fate_cases u.graph w.loops x (u.graph.meaning w.tail x) with
    heq | ⟨f, -, j, hj, heq⟩
  · rw [heq] at hi
    exact .inl (h.orderly.built.layout.meaning_lt h.orderly.built.contents
      h.orderly.built.layout.tail_lt hi)
  · rw [heq] at hi
    exact .inr (.inl (Option.some.inj hi ▸ (Graph.phiOf_of_phi? hj).isPhi))

/-- While a test is being built, the variables mean there what they mean at the tail. -/
theorem meaning_current (h : Leads w u wE U) (hacc : w.Accepts u.current)
    (hclear : ¬ u.graph.HasBranch u.current) (x : Var) :
    u.graph.meaning u.current x = u.graph.meaning w.tail x := by
  rcases hacc with heq | ⟨f, fs, hframes, htest⟩
  · rw [heq]
  · have hf : f ∈ w.frames := by simp [hframes]
    have hlevels := h.orderly.levelled.levels
    rw [hframes] at hlevels
    have hnone : ∀ i, ¬ u.graph.OwnPhi f.phiBlock x i := fun i hi =>
      Nat.not_lt.2 (h.orderly.numbered.own_ge f hf i hi.2.2)
        (h.orderly.numbered.quiet f hf (htest ▸ hclear) i hi.2.1)
    obtain ⟨htail, -, hmeaning⟩ := hlevels.1.kept x hnone
    rw [htest, hmeaning, htail]

/-- **What an instruction that is added reads in the end** is what becomes of its operands. -/
theorem op?_added (h : Leads w u wE U) (h' : Leads w u' wE U)
    (hreceives : u.graph.Receives u.current op u'.graph) (hphi : op.isPhi = false)
    (hbranch : op.isBranch = false) (hclear : ¬ u.graph.HasBranch u.current) :
    U.graph.op? u.graph.nextId = some (op.fated U.graph u.graph w.loops) := by
  have hphis := hreceives.samePhis hphi
  have hlt : u.graph.nextId < u'.graph.nextId := by
    rw [hreceives.nextId_eq]
    exact Nat.lt_succ_self _
  have hstands : Stands u'.graph u.graph w w.loops u.graph.nextId op :=
    { around := .start h'.orderly.built.layout h'.orderly.numbered h'.orderly.precedes
        (fun f hf => h.orderly.numbered.start_le f (Site.mem_loops.1 hf).1) hlt
      op_eq := by
        rw [Operation.fated_eq_self (.of_samePhis hphis), hreceives.op?_iff _ _ hbranch]
        exact .inl ⟨rfl, rfl⟩
      isBranch := hbranch
      begun := .inr (.inr fun f hf =>
        h.orderly.built.exists_first h'.orderly.built hreceives hphi (.inr hclear)
          (Site.mem_loops.1 hf).1)
      housed := fun hphi' => by
        rw [hphi] at hphi'
        cases hphi'
      gained := fun _ _ _ => hphis.hasPhi_iff.2
      waits := List.pairwise_of_forall fun _ _ _ _ => hphis.hasPhi_iff.1 }
  exact (hstands.proceeds h'.proceeds).op_eq

/-- What has been added to the current block is executed next. -/
theorem goes_to_added (h' : Leads w u' wE U) (input : Nat → Int64)
    (hreceives : u.graph.Receives u.current op u'.graph) (hcurrent : u'.current = u.current)
    (hphi : op.isPhi = false) (hclear : ¬ u.graph.HasBranch u.current) {p : Point}
    (hat : u.At w U.graph p) (m : Machine) : ∃ rest,
      U.graph.Goes input (p, m) (.inside u.current (u.graph.nextId :: rest), m) ∧
      U.graph.plain u.current = u'.graph.plain u.current ++ rest ∧
      u'.At w U.graph (.inside u.current rest) := by
  have hplain : u'.graph.plain u.current = u.graph.plain u.current ++ [u.graph.nextId] := by
    rw [hreceives.plain_eq hphi (.inr hclear), if_pos rfl]
  have hne : u'.graph.plain u.current ≠ [] := by
    rw [hplain]
    exact List.append_ne_nil_of_right_ne_nil _ (List.cons_ne_nil _ _)
  obtain ⟨rest, hrest⟩ := h'.proceeds.plain_prefix u.current
  have hsplit := hrest.symm
  have hlt : u.current < U.graph.blocks.size := by
    by_contra hge
    have hnil : U.graph.plain u.current = [] := by
      rw [Graph.plain, Graph.listed_eq_nil_of_size_le (Nat.le_of_not_lt hge)]
      rfl
    exact hne (List.append_eq_nil_iff.1 (hrest.trans hnil)).1
  obtain ⟨rest', hrest', hgoes⟩ := hat.goes_inside input hlt (fun hclosed hnone =>
    h'.not_isPhi_of_filled ⟨hclosed, fun _ => .inr hne⟩ fun x hx =>
      hnone x ((hreceives.samePhis hphi).hasPhi_iff.1 hx)) m
  rw [hrest', hplain, List.append_assoc] at hrest
  obtain rfl := List.append_cancel_left hrest
  refine ⟨rest, hgoes, hsplit, hcurrent ▸ .inside ?_ ?_⟩
  · rw [hcurrent]
    exact hsplit
  · rw [hcurrent]
    exact fun _ => .inr hne

/-- The variables mean the same at the tail when all bindings are the same. -/
theorem meaning_tail (h : Leads w u wE U) {g : Graph} (hskel : u.graph.SameSkeleton g)
    (hbinding : ∀ b x, g.binding b x = u.graph.binding b x) :
    g.meaning w.tail = u.graph.meaning w.tail :=
  funext fun _ => h.orderly.built.layout.meaning_of_skeleton (c := w.tail) hskel
    h.orderly.built.layout.tail_lt (fun _ _ => hbinding _ _) fun _ => hbinding _ _

/-- **An instruction is added and executed.** -/
theorem executes (h : Leads w u wE U) (h' : Leads w u' wE U)
    (hreceives : u.graph.Receives u.current op u'.graph) (hcurrent : u'.current = u.current)
    (hphi : op.isPhi = false) (hbranch : op.isBranch = false)
    (hclear : ¬ u.graph.HasBranch u.current) {st : Store} {q : Point × Machine}
    (ht : Tracks U.graph w u st q) (st' : Store) (m' : Machine)
    (hstep : ∀ ins, ins.id = u.graph.nextId → ins.op = op.fated U.graph u.graph w.loops →
      q.2.step input ins = some (m', .onward))
    (hretains : q.2.Retains U.graph u.graph.nextId m') (htaken : m'.taken = st'.taken)
    (hwritten : m'.written = st'.written) (hvalues : st'.values = st.values) :
    ∃ p', U.graph.Goes input q (p', m') ∧ Tracks U.graph w u' st' (p', m') := by
  obtain ⟨rest, hgoes, -, hat⟩ :=
    h'.goes_to_added input hreceives hcurrent hphi hclear ht.position q.2
  have hop := h.op?_added h' hreceives hphi hbranch hclear
  obtain ⟨ins, hins, hinsop⟩ := Option.map_eq_some_iff.1 hop
  have hid := h.finished.built.contents.id_eq _ _ hins
  refine ⟨_, hgoes.tail (.exec hins (hstep ins hid hinsop)), hat, ?_⟩
  rw [h.meaning_tail hreceives.skeleton hreceives.binding_eq]
  exact (ht.agrees.retain hretains h.lasts htaken hwritten hvalues).since
    (.of_samePhis (hreceives.samePhis hphi))

end Leads
end StructuredSSA
