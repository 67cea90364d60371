import StructuredSSA.Body.Command
import StructuredSSA.Proofs.Body.Close

/-!
# Constructions step by step

A structured program issues its commands in an order in which each of them succeeds.  `Change` says
for each command in which situation it is issued and what it does to the body and to the site of
construction; `Run` is a sequence of such steps.

## What is here

* `Built.start` — where every construction starts.
* `Site.Accepts`, `Body.Obtains`, `Body.Means`, `Frame.Finished` — situations in which commands are
  issued.
* `Change` — what one command does.
* `Step` — a command that succeeds and keeps the invariant.
* `Run` — a sequence of steps, with the commands that were issued.
* `Run.execAll_eq` — the commands of a run lead from its first body to its last.
* `Run.upTo` — whatever a run comes to is the end of a run.
-/

set_option autoImplicit false

namespace StructuredSSA

open Body (Command)

/-! ## The start -/

namespace Body

theorem size_start (options : Options) : (start options).graph.blocks.size = 2 := rfl

theorem block?_start (options : Options) {b : BlockId} (hb : 2 ≤ b) :
    (start options).graph.block? b = none :=
  Array.getElem?_eq_none hb

theorem next_start (options : Options) (e : Edge) (b : BlockId) :
    (start options).graph.next e b = if .fall = e ∧ b = head then some entry else none := by
  rcases b with _ | _ | b
  · cases e <;> rfl
  · cases e <;> rfl
  · rw [Graph.next, block?_start options (Nat.le_add_left 2 b)]
    simp [head]

theorem prev_start (options : Options) (e : Edge) (b : BlockId) :
    (start options).graph.prev e b = if .fall = e ∧ b = entry then some head else none := by
  rcases b with _ | _ | b
  · cases e <;> rfl
  · cases e <;> rfl
  · rw [Graph.prev, block?_start options (Nat.le_add_left 2 b)]
    simp [entry]

theorem hasRole_start (options : Options) (b : BlockId) (r : Role) (hr : r ≠ .plain) :
    (start options).graph.hasRole b r = false := by
  rcases b with _ | _ | b
  · cases r <;> first | rfl | exact absurd rfl hr
  · cases r <;> first | rfl | exact absurd rfl hr
  · rw [Graph.hasRole, block?_start options (Nat.le_add_left 2 b)]
    rfl

theorem instr?_start (options : Options) (i : InstrId) : (start options).graph.instr? i = none := by
  cases i <;> rfl

theorem listed_start (options : Options) (b : BlockId) : (start options).graph.listed b = [] := by
  rcases b with _ | _ | b
  · rfl
  · rfl
  · rw [Graph.listed, block?_start options (Nat.le_add_left 2 b)]
    rfl

end Body

/-- Construction starts in the entry block, outside of all constructs. -/
def Site.start : Site where
  passed := [Body.head]
  tail := Body.entry
  frames := []

/-- **The empty body** satisfies the invariant. -/
theorem Built.start (options : Options) : Built .start (Body.start options) := by
  have hop : ∀ i, (Body.start options).graph.op? i = none := fun i => by
    rw [Graph.op?, Body.instr?_start]
    rfl
  have hhome : ∀ i, (Body.start options).graph.home? i = none := fun i => by
    rw [Graph.home?, Body.instr?_start]
    rfl
  have hstand : ∀ i, (Body.start options).graph.standIn? i = none := fun i => by
    rw [Graph.standIn?, Body.instr?_start]
    rfl
  have hbranch : ∀ b, ¬ (Body.start options).graph.HasBranch b := by
    rintro b ⟨i, -, hi⟩
    rw [hhome] at hi
    cases hi
  have hfresh : ∀ b, (Body.start options).graph.listed b = [] ∧
      (∀ x, (Body.start options).graph.binding b x = none) ∧
      ∀ k, ((Body.start options).graph.offered b).candidates k = [] := by
    rintro (_ | _ | b)
    · exact ⟨rfl, fun _ => rfl, fun k => by cases k <;> rfl⟩
    · exact ⟨rfl, fun _ => rfl, fun k => by cases k <;> rfl⟩
    · rw [Graph.listed, Graph.offered]
      simp only [Graph.binding, Body.block?_start options (Nat.le_add_left 2 b)]
      exact ⟨rfl, fun _ => rfl, fun k => by cases k <;> rfl⟩
  have hdep : ∀ e, (Body.start options).dependents.get? e = none := fun _ => rfl
  refine {
    layout := {
      linked := fun e a b => ?_
      nodup := by decide
      mem_order := fun b => ?_
      fall_forward := fun a b h => ?_
      branch_forward := fun a b h => ?_
      continues := fun e => ?_
      framed := fun f hf => by cases hf
      behind := fun f hf => by cases hf
      nested := .nil
      headed := fun b hb => ?_
      branched := fun b hb => ?_
      untested := fun b _ => Body.hasRole_start options b .ifHead (by simp) }
    contents := {
      id_eq := fun i ins h => by rw [Body.instr?_start] at h; cases h
      home_lt := fun i b h => by rw [hhome] at h; cases h
      mem_listed := fun b i => by rw [(hfresh b).1, hhome]; simp
      bound := fun b x i h => by rw [(hfresh b).2.1] at h; cases h
      offers := fun b k i h => by rw [(hfresh b).2.2] at h; cases h
      phi_vars := fun i l r h => by rw [hop] at h; cases h
      aimed := fun i c t h => by rw [hop] at h; cases h
      one_branch := fun i j h => by rw [Graph.isBranch_eq, hop] at h; cases h }
    closable := {
      phi_bound := fun f hf => by cases hf
      unaimed := fun i c h => by rw [hop] at h; cases h
      targets_clear := fun b _ => hbranch b
      tested := fun f hf => by cases hf
      onward := fun b hb => ?_ }
    books := {
      mem_iff := fun d e => iff_of_false (by simp [Body.dependentsOf, hdep]) (by simp [hstand])
      nodup := fun e => by simp [Body.dependentsOf, hdep]
      nonempty := fun e => by simp [hdep]
      rooted := fun i => ⟨i, .live (hstand i)⟩ }
    matched := fun d e h => by rw [hstand] at h; cases h
    isOpen := rfl
    current_lt := Nat.one_lt_two }
  · rw [Body.next_start, Body.prev_start]
    by_cases he : .fall = e
    · simp [he, eq_comm, and_comm]
    · simp [he]
  · simp [Site.order, Site.targets, Site.start, Body.head, Body.entry, Body.size_start]
    dsimp only [BlockId] at *
    omega
  · rw [Body.next_start] at h
    split at h
    · rename_i hab
      cases h
      rw [hab.2]
      exact .refl _
    · cases h
  · rw [Body.next_start] at h
    simp at h
  · rw [Body.next_start]
    simp [Site.start, Body.entry, Body.head]
  · rw [Body.hasRole_start options b .loopHead (by simp)] at hb
    cases hb
  · simp only [Body.hasRole_start options b .elseSide (by simp),
      Body.hasRole_start options b .loopExit (by simp),
      Body.hasRole_start options b .join (by simp)] at hb
    simp at hb
  · obtain rfl : b = Body.head := List.mem_singleton.1 hb
    rw [Body.next_start]
    exact .inl rfl

/-! ## Situations -/

/-- Instructions can be added to `c`: it is the tail, or the test of the innermost construct. -/
def Site.Accepts (w : Site) (c : BlockId) : Prop :=
  c = w.tail ∨ ∃ f fs, w.frames = f :: fs ∧ c = f.test

/-- Where the current block gets the value `d` from: a variable means it there, it is in the head
block or in the current block itself, or it is offered. -/
inductive Body.Obtains (u : Body) (d : InstrId) : Prop where
  | meant (x : Var) (h : u.graph.Resolves x u.current (some d))
  | head (h : u.graph.home? d = some Body.head)
  | here (h : u.graph.home? d = some u.current)
  | offered (k : ArithOp) (h : d ∈ (u.graph.offered u.current).candidates k)

/-- If the operand is read through a variable, it is what the variable means in the current
block. -/
def Body.Means (u : Body) (o : Operand) : Prop :=
  ∀ x, o.var = some x → u.graph.Resolves x u.current o.value

/-- The branches of a construct whose last side ends in `tail` are there and aimed. -/
structure Frame.Finished (g : Graph) (tail : BlockId) (f : Frame) : Prop where
  tested : g.HasBranch f.test
  steers : g.Steers f.test
  jumps : ∀ b, f.part = .elseSide b ∨ f.part = .loopBody ∧ b = tail → g.HasBranch b

/-! ## Steps -/

/-- `Change w u c w' u'`: construction stands at the site `w` with the body `u`; the command `c`
takes it to `w'` and `u'`. -/
inductive Change : Site → Body → Command → Site → Body → Prop where
  /-- The constant is there. -/
  | found {w : Site} {u : Body} {v : Int64} {i : InstrId} (hop : u.graph.op? i = some (.const v)) :
      Change w u (.constant v) w u
  /-- The constant is added to the head block. -/
  | constant {w : Site} {u : Body} {v : Int64} {g : Graph}
      (hplace : u.graph.Places Body.head (.const v) g) :
      Change w u (.constant v) w { u with graph := g }
  /-- An operation is added that is neither a phi nor a branch. -/
  | emit {w : Site} {u u' : Body} {op : Operation} {i : InstrId} (hphi : op.isPhi = false)
      (hbranch : op.isBranch = false) (hplace : w.Accepts u.current)
      (hreads : ∀ o ∈ op.operands, ∀ d, o.value = some d → u.Obtains d)
      (hclear : ¬ u.graph.HasBranch u.current) (hemits : u.Emits op i u')
      (hmeans : ∀ o ∈ op.operands, u.Means o) : Change w u (.emit op) w u'
  /-- A test is completed by its branch. -/
  | test {w : Site} {u : Body} {f : Frame} {fs : List Frame} {rel : Relation} {g : Graph}
      (hframes : w.frames = f :: fs) (hcurrent : u.current = f.test)
      (hclear : ¬ u.graph.HasBranch u.current)
      (hplace : u.graph.Places u.current (.branch (.whenever rel) none) g) :
      Change w u (.emit (.branch (.whenever rel) none)) w { u with graph := g }
  | assign {w : Site} {u u' : Body} {x : Var} {v : Option InstrId} (hcurrent : u.current = w.tail)
      (hv : ∀ i, v = some i → (u.graph.op? i).isSome = true)
      (hvalue : ∀ i, v = some i → u.Obtains i)
      (hmerges : (u.withBinding w.tail x v).Merges w x v u') : Change w u (.assign x v) w u'
  | moveTo {w : Site} {u : Body} {c : BlockId} (hc : c < u.graph.blocks.size)
      (htested : ∀ f ∈ w.frames, u.graph.HasBranch f.test) : Change w u (.moveTo c) w (u.moveTo c)
  | joinAhead {w : Site} {u : Body} : Change w u .joinAhead w u
  | openIf {w : Site} {u : Body} {join side : BlockId} {g : Graph} (hcurrent : u.current = w.tail)
      (hclear : ¬ u.graph.HasBranch w.tail) (hopens : u.graph.OpensIf w.tail join side g) :
      Change w u .openIf (w.openIf join side (u.graph.meaning w.tail) u.graph.nextId)
        { u with graph := g }
  | openElse {w : Site} {u : Body} {f : Frame} {fs : List Frame} {side : BlockId} {g : Graph}
      (hframes : w.frames = f :: fs) (hpart : f.part = .thenSide) (hcurrent : u.current = w.tail)
      (hclear : ¬ u.graph.HasBranch w.tail)
      (hopens : u.graph.OpensElse f.test f.target w.tail side g) :
      Change w u (.openElse f.test) (w.openElse side) { u with graph := g }
  | openLoop {w : Site} {u : Body} {head body exit : BlockId} {g : Graph}
      (hcurrent : u.current = w.tail) (hclear : ¬ u.graph.HasBranch w.tail)
      (hopens : u.graph.OpensLoop w.tail head body exit g) :
      Change w u .openLoop
        (w.openLoop head body exit (u.graph.meaning w.tail) u.graph.nextId)
        { u with graph := g, current := head, loopStarts := u.graph.nextId :: u.loopStarts }
  /-- The branch of a test is aimed. -/
  | aimBranch {w : Site} {u : Body} {f : Frame} {fs : List Frame} {g : Graph}
      (hframes : w.frames = f :: fs) (hbranch : u.graph.HasBranch f.test)
      (haims : u.graph.Aims f.test g) : Change w u (.aimBranch f.test) w { u with graph := g }
  /-- The end of a then side or of a loop body gets its jump. -/
  | emitJump {w : Site} {u : Body} {f : Frame} {fs : List Frame} {c dst : BlockId} {t : Target}
      {g₁ g : Graph} (hframes : w.frames = f :: fs)
      (hc : f.part = .elseSide c ∨ f.part = .loopBody ∧ c = w.tail)
      (hnext : u.graph.next .branch c = some dst) (hnames : u.graph.Names t dst)
      (hclear : ¬ u.graph.HasBranch c) (hshape : u.graph.SameShape g₁)
      (hop : ∀ j, g₁.op? j = u.graph.op? j) (hstand : ∀ j, g₁.standIn? j = u.graph.standIn? j)
      (hplace : g₁.Places c (.branch .always (some t)) g) :
      Change w u (.emitJump c) w { u with graph := g }
  | closeIf {w : Site} {u u' : Body} {f : Frame} {fs : List Frame} (hframes : w.frames = f :: fs)
      (hpart : f.part ≠ .loopBody) (hcurrent : u.current = f.target)
      (hfinished : f.Finished u.graph w.tail) (hleft : Built w.pop u)
      (hcarries : u.Carries w.pop f.target f.test u') : Change w u (.closeIf f.test) w.pop u'
  | closeLoop {w : Site} {u u' : Body} {f : Frame} {fs : List Frame} (hframes : w.frames = f :: fs)
      (hpart : f.part = .loopBody) (hcurrent : u.current = f.test)
      (hfinished : f.Finished u.graph w.tail)
      (hleft : Built w.pop { u with loopStarts := u.loopStarts.tail })
      (hcarries :
        ({ u with loopStarts := u.loopStarts.tail } : Body).Carries w.pop f.test f.test u') :
      Change w u (.closeLoop f.test) w.pop u'

/-- A command that succeeds and keeps the invariant. -/
structure Step (w : Site) (u : Body) (c : Command) (w' : Site) (u' : Body) : Prop where
  exec_eq : (u.exec c).map Prod.snd = .ok u'
  change : Change w u c w' u'
  built : Built w' u'

/-- A sequence of steps. -/
inductive Run : Site → Body → List Command → Site → Body → Prop where
  | nil {w : Site} {u : Body} : Run w u [] w u
  | cons {w w₁ w' : Site} {u u₁ u' : Body} {c : Command} {cs : List Command}
      (step : Step w u c w₁ u₁) (rest : Run w₁ u₁ cs w' u') : Run w u (c :: cs) w' u'

namespace Run

variable {w w₁ w' : Site} {u u₁ u' : Body} {c : Command} {cs cs' : List Command}

theorem single (h : Step w u c w' u') : Run w u [c] w' u' := .cons h .nil

theorem trans (h : Run w u cs w₁ u₁) (h' : Run w₁ u₁ cs' w' u') : Run w u (cs ++ cs') w' u' := by
  induction h with
  | nil => exact h'
  | cons step _ ih => exact .cons step (ih h')

theorem built (h : Run w u cs w' u') (b : Built w u) : Built w' u' := by
  induction h with
  | nil => exact b
  | cons step _ ih => exact ih step.built

/-- What holds at the start of a run holds at its end, if each step preserves it; a step comes with
the run that leads to it. -/
theorem preserves_along {P : Site → Body → Prop} (h : Run w u cs w' u') (b : Built w u)
    (hp : P w u) (hstep : ∀ {cs₁ c cs₂ w₁ u₁ w₂ u₂}, cs = cs₁ ++ c :: cs₂ → Run w u cs₁ w₁ u₁ →
      Built w₁ u₁ → P w₁ u₁ → Step w₁ u₁ c w₂ u₂ → P w₂ u₂) : P w' u' := by
  induction h with
  | nil => exact hp
  | cons step _ ih =>
    refine ih step.built (@hstep [] _ _ _ _ _ _ rfl .nil b hp step) ?_
    intro cs₁ c cs₂ w₁ u₁ w₂ u₂ hcs hrun hb hp₁ hstep₁
    exact hstep (by rw [hcs]; rfl) (.cons step hrun) hb hp₁ hstep₁

/-- **The commands of a run lead from its first body to its last.** -/
theorem execAll_eq (h : Run w u cs w' u') : u.execAll cs = .ok u' := by
  induction h with
  | nil => rfl
  | cons step _ ih =>
    rw [Body.execAll, List.foldlM_cons]
    simp only [step.exec_eq, bind, Except.bind]
    exact ih

theorem upTo (h : Run w u cs w' u') (hcs : cs' <+: cs) :
    ∃ w₁ u₁ cs₁, Run w u cs' w₁ u₁ ∧ Run w₁ u₁ cs₁ w' u' ∧ cs = cs' ++ cs₁ := by
  induction h generalizing cs' with
  | nil =>
    rw [List.prefix_nil] at hcs
    subst hcs
    exact ⟨_, _, [], .nil, .nil, rfl⟩
  | @cons w w₁ w' u u₁ u' c cs step rest ih =>
    cases cs' with
    | nil => exact ⟨w, u, c :: cs, .nil, .cons step rest, rfl⟩
    | cons d ds =>
      obtain ⟨rfl, hds⟩ := List.cons_prefix_cons.1 hcs
      obtain ⟨w₂, u₂, cs₂, h₁, h₂, heq⟩ := ih hds
      exact ⟨w₂, u₂, cs₂, .cons step h₁, h₂, by rw [heq]; rfl⟩

end Run
end StructuredSSA
