import StructuredSSA.Program.Command
import StructuredSSA.Proofs.Body.Effect
import StructuredSSA.Proofs.Body.Settled

/-!
# Commands reach one body

Construction works on one body of a program at a time: that of the function which is being defined,
or else the main one.  A command may open a function, complete the open one or describe it; whatever
else it does is done to that one body, by commands on bodies.  So the other bodies are left alone,
and a function that has been completed stays as it is.

## What is here

* `Body.Leads` — commands on a body lead from one body to another.
* `Program.Acts`, `Program.exec_acts` — what a command does to a program.
* `Program.routed`, `Program.bodyAt?` — the bodies of a program, and the one that construction
  works on.
* `Program.Reachable.body_reachable` — each body of a program can be built by itself.
* `Program.closed_prefix_of_execAll` — completed functions stay.
* `Program.Isolates`, `Program.exec_isolates` — what a command leaves alone.
-/

set_option autoImplicit false

namespace StructuredSSA

/-! ## Commands on bodies -/

namespace Body

/-- Commands lead from one body to another. -/
def Leads : Body → Body → Prop := Relation.ReflTransGen fun u u' => ∃ c o, u.exec c = .ok (o, u')

variable {u u' : Body} {options : Options}

namespace Leads

theorem of_exec {c : Command} {o : Outcome} (h : u.exec c = .ok (o, u')) : Leads u u' :=
  .single ⟨c, o, h⟩

theorem of_silently {c : Command} {r : Except Fault Body} (hc : u.exec c = silently r)
    (h : r = .ok u') : Leads u u' :=
  of_exec (o := .done) (by rw [hc, h]; rfl)

theorem of_namingInstr {c : Command} {r : Except Fault (InstrId × Body)} {i : InstrId}
    (hc : u.exec c = namingInstr r) (h : r = .ok (i, u')) : Leads u u' :=
  of_exec (o := .instr i) (by rw [hc, h]; rfl)

theorem emit {op : Operation} {i : InstrId} (h : u.emit op = .ok (i, u')) : Leads u u' :=
  of_namingInstr (c := .emit op) rfl h

theorem bindParam {x : Var} {slot : Nat} (h : u.bindParam x slot = .ok u') : Leads u u' := by
  obtain ⟨u₁, hdeclare, h⟩ := bind_eq_ok_iff.1 h
  obtain ⟨⟨i, u₂⟩, hargument, hassign⟩ := bind_eq_ok_iff.1 h
  have h₁ : Leads u u₁ := of_silently (c := .declare x) rfl hdeclare
  have h₂ : Leads u₁ u₂ := of_namingInstr (c := .argument slot) rfl hargument
  have h₃ : Leads u₂ u' := of_silently (c := .assign x (some i)) rfl hassign
  exact (h₁.trans h₂).trans h₃

theorem moveArgs {args : List Operand} {register : Nat} {is : List InstrId}
    (h : u.moveArgs register args = .ok (is, u')) : Leads u u' := by
  induction args generalizing u register is with
  | nil =>
    cases h
    exact .refl
  | cons src rest ih =>
    obtain ⟨⟨i, u₁⟩, hemit, h⟩ := bind_eq_ok_iff.1 h
    obtain ⟨⟨js, u₂⟩, hrest, h⟩ := bind_eq_ok_iff.1 h
    cases h
    exact (emit hemit).trans (ih hrest)

theorem emitCall {f : Var} {name : String} {args : List Operand} {i : InstrId}
    (h : u.emitCall f name args = .ok (i, u')) : Leads u u' := by
  obtain ⟨⟨moves, u₁⟩, hmoves, h⟩ := bind_eq_ok_iff.1 h
  exact (moveArgs hmoves).trans (emit h)

theorem complete (h : u.complete = .ok u') : Leads u u' := by
  obtain ⟨ends, -, h⟩ := bind_eq_ok_iff.1 h
  split at h
  · exact of_silently (c := .settle) rfl h
  · exact of_silently (c := .settleWith _) rfl h

/-- What can be built can be built on. -/
theorem reachable (h : Leads u u') (hu : Reachable options u) : Reachable options u' := by
  induction h with
  | refl => exact hu
  | tail _ hlast ih =>
    obtain ⟨cs, hcs⟩ := ih
    obtain ⟨c, o, hexec⟩ := hlast
    refine ⟨cs ++ [c], ?_⟩
    rw [execAll, List.foldlM_append]
    exact bind_eq_ok_iff.2 ⟨_, hcs, by rw [List.foldlM_cons, hexec]; rfl⟩

end Leads

theorem isSettled_of_settle (h : u.settle = .ok u') : u'.isSettled = true := by
  obtain ⟨g, -, rfl⟩ := settles_of_settle h
  rfl

theorem isSettled_of_complete (h : u.complete = .ok u') : u'.isSettled = true := by
  obtain ⟨ends, -, h⟩ := bind_eq_ok_iff.1 h
  split at h
  · exact isSettled_of_settle h
  · obtain ⟨-, -, h⟩ := bind_eq_ok_iff.1 h
    obtain ⟨⟨i, v⟩, -, h⟩ := bind_eq_ok_iff.1 h
    exact isSettled_of_settle h

end Body

/-! ## Commands on programs -/

namespace Program

variable {p p' : Program} {c : Command} {o : Outcome} {options : Options}

/-- The command opens a function. -/
def Command.opens : Command → Bool
  | .openFunction _ => true
  | _ => false

/-- **What a command does** to a program. -/
inductive Acts (p : Program) : Command → Program → Prop where
  /-- Construction goes on in the body that it works on. -/
  | work {c : Command} {u : Body} (hc : c.opens = false) (h : p.body.Leads u) :
      Acts p c (p.setBody u)
  /-- Parameters are only ever added. -/
  | describe {c : Command} {d : Definition} (hc : c.opens = false) (hd : p.opened = some d)
      (ident : Option Var) (params : List Var) (hparams : d.params <+: params) :
      Acts p c { p with opened := some { d with ident, params } }
  | openFunction (isVoid : Bool) (hd : p.opened = none) :
      Acts p (.openFunction isVoid) { p with opened := some { isVoid, body := .start p.options } }
  | close {d : Definition} {u : Body} (hd : p.opened = some d) (h : d.body.Leads u) :
      Acts p .closeFunction
        { p with closed := p.closed ++ [{ d with body := u }], opened := none }

theorem setBody_of_opened {d : Definition} (hd : p.opened = some d) (u : Body) :
    p.setBody u = { p with opened := some { d with body := u } } := by
  rw [setBody, hd]

theorem setBody_of_none (hd : p.opened = none) (u : Body) : p.setBody u = { p with main := u } := by
  rw [setBody, hd]

theorem body_setBody (p : Program) (u : Body) : (p.setBody u).body = u := by
  cases p with
  | mk main closed opened options => cases opened <;> rfl

theorem setBody_body (p : Program) : p.setBody p.body = p := by
  cases p with
  | mk main closed opened options => cases opened <;> rfl

/-- A command that does nothing. -/
theorem acts_self (hc : c.opens = false) : p.Acts c p := by
  have h : p.Acts c (p.setBody p.body) := .work hc .refl
  rwa [setBody_body] at h

theorem of_silently {r : Except Fault Program} (h : silently r = .ok (o, p')) : r = .ok p' := by
  cases r <;> cases h
  rfl

theorem of_map {α : Type} {r : Except Fault (α × Program)} {f : α → Outcome}
    (h : (r.map fun (a, q) => (f a, q)) = .ok (o, p')) : ∃ a, r = .ok (a, p') := by
  cases r with
  | error e => cases h
  | ok r =>
    cases h
    exact ⟨r.1, rfl⟩

theorem bindParams_acts (hc : c.opens = false) (h : p.bindParams = .ok p') : p.Acts c p' := by
  obtain ⟨d, hd, h⟩ := bind_eq_ok_iff.1 h
  obtain ⟨u, hfold, h⟩ := bind_eq_ok_iff.1 h
  cases h
  rw [definition, expect_eq_ok_iff] at hd
  have hlead : d.body.Leads u :=
    Body.reflTransGen_foldlM (fun _ _ _ _ hbind => Body.Leads.bindParam hbind) hfold
  have hacts : p.Acts c (p.setBody u) := .work hc (by rwa [body, hd])
  rwa [setBody_of_opened hd] at hacts

theorem call_acts {f : Var} {name : String} {args : List Operand} {r : Except CallError InstrId}
    (hc : c.opens = false) (h : p.call f name args = .ok (r, p')) : p.Acts c p' := by
  rw [call] at h
  split at h
  · cases h
    exact acts_self hc
  · obtain ⟨⟨i, u⟩, hcall, h⟩ := bind_eq_ok_iff.1 h
    cases h
    exact .work hc (.emitCall hcall)

theorem callForValue_acts {f : Var} {name : String} {args : List Operand}
    {r : Except CallError InstrId} (hc : c.opens = false)
    (h : p.callForValue f name args = .ok (r, p')) : p.Acts c p' := by
  rw [callForValue] at h
  split at h
  · cases h
    exact acts_self hc
  · split at h
    · cases h
      exact acts_self hc
    · obtain ⟨⟨i, u⟩, hcall, h⟩ := bind_eq_ok_iff.1 h
      obtain ⟨⟨j, v⟩, hmove, h⟩ := bind_eq_ok_iff.1 h
      cases h
      exact .work hc ((Body.Leads.emitCall hcall).trans (Body.Leads.emit hmove))

theorem of_closeFunction (h : p.closeFunction = .ok p') : ∃ d u, p.opened = some d ∧
    d.body.complete = .ok u ∧
    p' = { p with closed := p.closed ++ [{ d with body := u }], opened := none } := by
  obtain ⟨d, hd, h⟩ := bind_eq_ok_iff.1 h
  obtain ⟨u, hcomplete, h⟩ := bind_eq_ok_iff.1 h
  exact ⟨d, u, expect_eq_ok_iff.1 hd, hcomplete, (Except.ok.inj h).symm⟩

theorem finish_acts {xs : List Var} (hc : c.opens = false) (h : p.finish = .ok (xs, p')) :
    p.Acts c p' := by
  obtain ⟨_, hclosed, h⟩ := bind_eq_ok_iff.1 h
  obtain ⟨u, hsettle, h⟩ := bind_eq_ok_iff.1 h
  cases h
  have hopened : p.opened = none := by simpa [inFunction] using require_eq_ok_iff.1 hclosed
  have hlead : p.body.Leads u := by
    rw [body, hopened]
    exact .of_silently (c := .settleWith .halt) rfl hsettle
  have hacts : p.Acts c (p.setBody u) := .work hc hlead
  rwa [setBody_of_none hopened] at hacts

/-- **Every command acts** on the body that construction works on, or it opens, describes or
completes a function. -/
theorem exec_acts (h : p.exec c = .ok (o, p')) : p.Acts c p' := by
  cases c with
  | body c =>
    cases hexec : p.body.exec c with
    | error e =>
      rw [exec, hexec] at h
      cases h
    | ok r =>
      rw [exec, hexec] at h
      cases h
      exact .work rfl (.of_exec hexec)
  | openFunction isVoid =>
    obtain ⟨_, hclosed, h⟩ := bind_eq_ok_iff.1 (of_silently h)
    cases h
    exact .openFunction isVoid (by simpa [inFunction] using require_eq_ok_iff.1 hclosed)
  | nameFunction f =>
    obtain ⟨d, hd, h⟩ := bind_eq_ok_iff.1 (of_silently h)
    cases h
    exact .describe rfl (expect_eq_ok_iff.1 hd) (some f) d.params List.prefix_rfl
  | addParam x =>
    obtain ⟨d, hd, h⟩ := bind_eq_ok_iff.1 (of_silently h)
    cases h
    exact .describe rfl (expect_eq_ok_iff.1 hd) d.ident (d.params ++ [x]) (List.prefix_append _ _)
  | bindParams => exact bindParams_acts rfl (of_silently h)
  | call f name args =>
    obtain ⟨r, h⟩ := of_map h
    exact call_acts rfl h
  | callForValue f name args =>
    obtain ⟨r, h⟩ := of_map h
    exact callForValue_acts rfl h
  | closeFunction =>
    obtain ⟨d, u, hd, hcomplete, rfl⟩ := of_closeFunction (of_silently h)
    exact .close hd (.complete hcomplete)
  | finish =>
    obtain ⟨xs, h⟩ := of_map h
    exact finish_acts rfl h

/-! ## Bodies -/

/-- The function that construction works on, by its position; none while it works on the main
body. -/
def routed (p : Program) : Option Nat := p.opened.map fun _ => p.closed.length

/-- The body of a function, by its position, or the main body. -/
def bodyAt? (p : Program) : Option Nat → Option Body
  | none => some p.main
  | some k => p.functions[k]?.map Definition.body

theorem getElem?_functions (p : Program) (k : Nat) :
    p.functions[k]? = if k = p.closed.length then p.opened else p.closed[k]? := by
  rw [functions]
  split
  · rename_i hk
    rw [hk, List.getElem?_append_right (Nat.le_refl _), Nat.sub_self]
    cases p.opened <;> rfl
  · rename_i hk
    rcases Nat.lt_or_gt_of_ne hk with hlt | hgt
    · exact List.getElem?_append_left hlt
    · have hlen : p.opened.toList.length ≤ 1 := by cases p.opened <;> simp
      rw [List.getElem?_eq_none (Nat.le_of_lt hgt), List.getElem?_eq_none]
      rw [List.length_append]
      omega

theorem routed_setBody (p : Program) (u : Body) : (p.setBody u).routed = p.routed := by
  cases p with
  | mk main closed opened options => cases opened <;> rfl

/-- The body that is routed to is the one that construction works on. -/
theorem bodyAt?_routed (p : Program) : p.bodyAt? p.routed = some p.body := by
  rw [routed, body]
  cases hd : p.opened with
  | none => rfl
  | some d => rw [Option.map_some, bodyAt?, getElem?_functions, if_pos rfl, hd, Option.map_some]

namespace Acts

variable {k : Nat}

theorem closed_prefix (h : p.Acts c p') : p.closed <+: p'.closed := by
  cases h with
  | work hc h =>
    rw [setBody]
    split <;> exact List.prefix_rfl
  | describe hc hd ident params hparams => exact List.prefix_rfl
  | openFunction isVoid hd => exact List.prefix_rfl
  | close hd h => exact List.prefix_append _ _

/-- No function is touched but the one that is being defined. -/
theorem function_eq (h : p.Acts c p') (hk : k ≠ p.closed.length) :
    p'.functions[k]? = p.functions[k]? := by
  rw [getElem?_functions, getElem?_functions, if_neg hk]
  cases h with
  | work hc h =>
    rw [setBody]
    split <;> exact if_neg hk
  | describe hc hd ident params hparams => exact if_neg hk
  | openFunction isVoid hd => exact if_neg hk
  | @close d u hd h =>
    rw [List.length_append, List.length_singleton]
    split
    · rename_i hlast
      rw [List.getElem?_eq_none (by omega)]
    · rcases Nat.lt_or_gt_of_ne hk with hlt | hgt
      · exact List.getElem?_append_left hlt
      · rw [List.getElem?_eq_none (Nat.le_of_lt hgt), List.getElem?_eq_none]
        rw [List.length_append]
        exact hgt

theorem main_eq (h : p.Acts c p') {d : Definition} (hd : p.opened = some d) : p'.main = p.main := by
  cases h with
  | work hc h => rw [setBody_of_opened hd]
  | describe hc hd ident params hparams => rfl
  | openFunction isVoid hd => rfl
  | close hd h => rfl

theorem length_eq (h : p.Acts c p') (hc : c.opens = false) :
    p'.functions.length = p.functions.length := by
  cases h with
  | @work _ u hc h =>
    rw [setBody]
    cases hd : p.opened with
    | none => simp [functions, hd]
    | some d => simp [functions, hd]
  | describe hc hd ident params hparams => simp [functions, hd]
  | openFunction isVoid hd => cases hc
  | close hd h => simp [functions, hd]

/-- The function that is being defined stays where it is with its parameters, and void or not. -/
theorem opened_stays (h : p.Acts c p') {d : Definition} (hd : p.opened = some d) :
    ∃ d', p'.functions[p.closed.length]? = some d' ∧ d'.isVoid = d.isVoid ∧
      d.params <+: d'.params := by
  rw [getElem?_functions]
  cases h with
  | work hc h =>
    rw [setBody_of_opened hd]
    exact ⟨_, if_pos rfl, rfl, List.prefix_rfl⟩
  | describe hc hd' ident params hparams =>
    obtain rfl := Option.some.inj (hd.symm.trans hd')
    exact ⟨_, if_pos rfl, rfl, hparams⟩
  | openFunction isVoid hd' =>
    rw [hd] at hd'
    cases hd'
  | @close _ u hd' h =>
    obtain rfl := Option.some.inj (hd.symm.trans hd')
    exact ⟨{ d with body := u }, by simp, rfl, List.prefix_rfl⟩

theorem opened_cases (h : p.Acts c p') {d : Definition} (hd : p.opened = some d) :
    ∃ d', p'.functions[p.closed.length]? = some d' ∧ d'.isVoid = d.isVoid := by
  obtain ⟨d', hd', hvoid, -⟩ := h.opened_stays hd
  exact ⟨d', hd', hvoid⟩

/-- Every function stays where it is with its parameters. -/
theorem params_prefix (h : p.Acts c p') {d : Definition} (hd : p.functions[k]? = some d) :
    ∃ d', p'.functions[k]? = some d' ∧ d.params <+: d'.params := by
  by_cases hk : k = p.closed.length
  · subst hk
    rw [getElem?_functions, if_pos rfl] at hd
    obtain ⟨d', hd', -, hparams⟩ := h.opened_stays hd
    exact ⟨d', hd', hparams⟩
  · exact ⟨d, by rw [h.function_eq hk, hd], List.prefix_rfl⟩

theorem opens (h : p.Acts c p') (hc : c.opens = true) : ∃ isVoid, p.opened = none ∧
    p' = { p with opened := some { isVoid, body := .start p.options } } := by
  cases h with
  | openFunction isVoid hd => exact ⟨isVoid, hd, rfl⟩
  | work hc' h =>
    rw [hc'] at hc
    cases hc
  | describe hc' hd ident params hparams =>
    rw [hc'] at hc
    cases hc
  | close hd h => cases hc

theorem options_eq (h : p.Acts c p') : p'.options = p.options := by
  cases h with
  | work hc h =>
    rw [setBody]
    split <;> rfl
  | _ => rfl

/-- **The frame**: every body is left alone but the one that construction works on and the one of a
function that is opened. -/
theorem bodyAt?_eq (h : p.Acts c p') {r : Option Nat} (hr : r ≠ p.routed)
    (hnew : c.opens = true → r ≠ some p.functions.length) : p'.bodyAt? r = p.bodyAt? r := by
  cases r with
  | none =>
    cases hd : p.opened with
    | none => exact absurd (by rw [routed, hd]; rfl) hr
    | some d => rw [bodyAt?, bodyAt?, h.main_eq hd]
  | some k =>
    rw [bodyAt?, bodyAt?]
    by_cases hk : k = p.closed.length
    · cases hd : p.opened with
      | some d => exact absurd (by rw [routed, hd, hk]; rfl) hr
      | none =>
        have hlast : k = p.functions.length := by simp [hk, functions, hd]
        have hc : c.opens = false := by
          rw [Bool.eq_false_iff]
          exact fun hc => hnew hc (congrArg some hlast)
        have hle : p.functions.length ≤ k := Nat.le_of_eq hlast.symm
        rw [List.getElem?_eq_none hle, List.getElem?_eq_none (by rwa [h.length_eq hc])]
    · rw [h.function_eq hk]

/-- What becomes of the body that construction works on. -/
theorem exists_bodyAt?_routed (h : p.Acts c p') :
    ∃ u, p'.bodyAt? p.routed = some u ∧ p.body.Leads u := by
  cases h with
  | @work _ u hc h => exact ⟨u, by rw [← routed_setBody p u, bodyAt?_routed, body_setBody], h⟩
  | @describe _ d hc hd ident params hparams =>
    refine ⟨d.body, ?_, by rw [body, hd]; exact .refl⟩
    rw [routed, hd, Option.map_some, bodyAt?, getElem?_functions, if_pos rfl]
    rfl
  | openFunction isVoid hd =>
    refine ⟨p.main, ?_, by rw [body, hd]; exact .refl⟩
    rw [routed, hd]
    rfl
  | @close d u hd h =>
    refine ⟨u, ?_, by rwa [body, hd]⟩
    rw [routed, hd, Option.map_some, bodyAt?, getElem?_functions]
    simp

end Acts

/-! ## Constructions -/

theorem execAll_acts {cs : List Command} (h : p.execAll cs = .ok p') :
    Relation.ReflTransGen (fun q q' => ∃ c, Acts q c q') p p' := by
  refine Body.reflTransGen_foldlM (fun c _ q q' hexec => ?_) h
  obtain ⟨o, hexec⟩ := Body.exists_of_map_snd hexec
  exact .single ⟨c, exec_acts hexec⟩

/-- **Completed functions stay**, in their order, whatever is done to the program. -/
theorem closed_prefix_of_execAll {cs : List Command} (h : p.execAll cs = .ok p') :
    p.closed <+: p'.closed := by
  have hacts := execAll_acts h
  clear h
  induction hacts with
  | refl => exact List.prefix_rfl
  | tail _ hlast ih =>
    obtain ⟨c, hacts⟩ := hlast
    exact ih.trans hacts.closed_prefix

theorem function_of_execAll {cs : List Command} (h : p.execAll cs = .ok p') {k : Nat}
    (hk : k < p.closed.length) : p'.functions[k]? = p.functions[k]? := by
  have hprefix := closed_prefix_of_execAll h
  have hk' := Nat.lt_of_lt_of_le hk hprefix.length_le
  rw [functions, functions, List.getElem?_append_left hk, List.getElem?_append_left hk']
  obtain ⟨rest, hrest⟩ := hprefix
  rw [← hrest, List.getElem?_append_left hk]

/-- Parameters are only ever added, whatever is done to the program. -/
theorem params_of_execAll {cs : List Command} (h : p.execAll cs = .ok p') {k : Nat} {d : Definition}
    (hd : p.functions[k]? = some d) :
    ∃ d', p'.functions[k]? = some d' ∧ d.params <+: d'.params := by
  have hacts := execAll_acts h
  clear h
  induction hacts with
  | refl => exact ⟨d, hd, List.prefix_rfl⟩
  | tail _ hlast ih =>
    obtain ⟨c, hacts⟩ := hlast
    obtain ⟨d₁, hd₁, hparams₁⟩ := ih
    obtain ⟨d₂, hd₂, hparams₂⟩ := hacts.params_prefix hd₁
    exact ⟨d₂, hd₂, hparams₁.trans hparams₂⟩

theorem Acts.bodies_reachable (h : p.Acts c p') (hoptions : p.options = options)
    (hp : ∀ r u, p.bodyAt? r = some u → Body.Reachable options u) :
    ∀ r u, p'.bodyAt? r = some u → Body.Reachable options u := by
  intro r u hu
  by_cases hr : r = p.routed
  · obtain ⟨v, hv, hleads⟩ := h.exists_bodyAt?_routed
    rw [hr, hv] at hu
    cases hu
    exact hleads.reachable (hp _ _ p.bodyAt?_routed)
  · by_cases hnew : c.opens = true ∧ r = some p.functions.length
    · obtain ⟨hc, rfl⟩ := hnew
      obtain ⟨isVoid, hd, rfl⟩ := h.opens hc
      rw [bodyAt?, getElem?_functions] at hu
      simp only [functions, hd, Option.toList_none, List.append_nil, if_true] at hu
      cases hu
      exact ⟨[], by rw [← hoptions]; rfl⟩
    · exact hp r u (by rw [← h.bodyAt?_eq hr fun hc heq => hnew ⟨hc, heq⟩, hu])

/-- **Every body of a program** can be built by itself: what holds of all bodies that can be built
holds of the bodies of programs. -/
theorem Reachable.body_reachable (h : Reachable options p) {r : Option Nat} {u : Body}
    (hu : p.bodyAt? r = some u) : Body.Reachable options u := by
  obtain ⟨cs, h⟩ := h
  have hacts := execAll_acts h
  clear h
  have hall : p.options = options ∧ ∀ r u, p.bodyAt? r = some u → Body.Reachable options u := by
    clear hu
    induction hacts with
    | refl =>
      refine ⟨rfl, fun r u hu => ?_⟩
      cases r with
      | none =>
        cases hu
        exact ⟨[], rfl⟩
      | some k => cases hu
    | tail _ hlast ih =>
      obtain ⟨c, hacts⟩ := hlast
      obtain ⟨hoptions, hbodies⟩ := ih
      exact ⟨hacts.options_eq.trans hoptions, hacts.bodies_reachable hoptions hbodies⟩
  exact hall.2 r u hu

/-! ## What a command leaves alone -/

/-- **What a command leaves alone** of a program that it turns into `p'`. -/
structure Isolates (p : Program) (c : Command) (p' : Program) : Prop where
  /-- Every body stays but the one that construction works on; a function that is opened is new. -/
  bodyAt?_eq : ∀ r, r ≠ p.routed →
    (∀ isVoid, c = .openFunction isVoid → r ≠ some p.functions.length) →
    p'.bodyAt? r = p.bodyAt? r
  /-- So does all the rest of the other functions. -/
  function_eq : ∀ k, k < p.functions.length → some k ≠ p.routed →
    p'.functions[k]? = p.functions[k]?
  /-- Every function stays where it is, and void or not. -/
  isVoid_eq : ∀ (k : Nat) (d : Definition), p.functions[k]? = some d →
    ∃ d' : Definition, p'.functions[k]? = some d' ∧ d'.isVoid = d.isVoid
  /-- Opening a function adds one that is fresh, and does nothing else. -/
  opened : ∀ isVoid, c = .openFunction isVoid → p'.main = p.main ∧
    p'.functions = p.functions ++ [{ isVoid, body := .start p.options }]
  /-- No other command adds a function or takes one away. -/
  length_eq : (∀ isVoid, c ≠ .openFunction isVoid) → p'.functions.length = p.functions.length
  /-- The function that is completed is settled, and frozen from then on. -/
  frozen : c = .closeFunction → ∃ k d, p.routed = some k ∧ p'.functions[k]? = some d ∧
    d.body.isSettled = true ∧ ∀ cs p'', p'.execAll cs = .ok p'' → p''.functions[k]? = some d

theorem Command.exists_of_opens (hc : c.opens = true) : ∃ isVoid, c = .openFunction isVoid := by
  cases c with
  | openFunction isVoid => exact ⟨isVoid, rfl⟩
  | _ => cases hc

theorem frozen_of_closeFunction (h : p.closeFunction = .ok p') : ∃ k d, p.routed = some k ∧
    p'.functions[k]? = some d ∧ d.body.isSettled = true ∧
    ∀ cs p'', p'.execAll cs = .ok p'' → p''.functions[k]? = some d := by
  obtain ⟨d, u, hd, hcomplete, rfl⟩ := of_closeFunction h
  have hk : p.closed.length < (p.closed ++ [{ d with body := u }]).length := by simp
  have hclosed : ({ p with closed := p.closed ++ [{ d with body := u }], opened := none } :
      Program).functions[p.closed.length]? = some { d with body := u } := by simp [functions]
  refine ⟨p.closed.length, { d with body := u }, by rw [routed, hd]; rfl, hclosed,
    Body.isSettled_of_complete hcomplete, fun cs p'' hcs => ?_⟩
  rw [function_of_execAll hcs hk, hclosed]

/-- **Bodies are isolated and completed functions are frozen**, whatever the command and whatever
the program. -/
theorem exec_isolates (h : p.exec c = .ok (o, p')) : p.Isolates c p' := by
  have hacts := exec_acts h
  refine ⟨fun r hr hnew => ?_, fun k hk hr => ?_, fun k d hd => ?_, fun isVoid hc => ?_,
    fun hc => ?_, fun hc => ?_⟩
  · refine hacts.bodyAt?_eq hr fun hc => ?_
    obtain ⟨isVoid, hc⟩ := Command.exists_of_opens hc
    exact hnew isVoid hc
  · refine hacts.function_eq fun heq => ?_
    cases hd : p.opened with
    | none => simp [functions, hd, heq] at hk
    | some d => exact hr (by rw [routed, hd, heq]; rfl)
  · by_cases hk : k = p.closed.length
    · subst hk
      rw [getElem?_functions, if_pos rfl] at hd
      exact hacts.opened_cases hd
    · exact ⟨d, by rw [hacts.function_eq hk, hd], rfl⟩
  · subst hc
    cases hacts with
    | openFunction _ hd => exact ⟨rfl, by simp [functions, hd]⟩
    | work hc h => cases hc
    | describe hc hd ident params => cases hc
  · refine hacts.length_eq (Bool.eq_false_iff.2 fun htrue => ?_)
    obtain ⟨isVoid, heq⟩ := Command.exists_of_opens htrue
    exact hc isVoid heq
  · subst hc
    exact frozen_of_closeFunction (of_silently h)

/-- Two functions, the second of which calls the first and is still being defined; the main body has
a statement too. -/
def twoFunctions : List Command :=
  [.openFunction false, .nameFunction 7, .addParam 0, .bindParams, .body (.emit (.unary .ret {})),
    .closeFunction, .body (.emit .read), .openFunction true, .nameFunction 8, .bindParams,
    .callForValue 7 "first" [{}]]

theorem exists_twoFunctions : ∃ p o p', (start {}).execAll twoFunctions = .ok p ∧
    p.exec .closeFunction = .ok (o, p') ∧ p.routed = some 1 ∧ p.functions.length = 2 := by
  have h : ((start {}).execAll twoFunctions).toOption.any (fun p =>
      (p.exec .closeFunction).toOption.isSome = true ∧ p.routed = some 1 ∧
      p.functions.length = 2) = true := by
    decide +kernel
  obtain ⟨p, hp, hall⟩ := exists_ok_of_any h
  obtain ⟨hclose, hrest⟩ := of_decide_eq_true hall
  cases hexec : p.exec .closeFunction with
  | error e =>
    rw [hexec] at hclose
    cases hclose
  | ok r => exact ⟨p, r.1, r.2, hp, hexec, hrest⟩

theorem exec_isolates_twoFunctions : ∃ p o p', (start {}).execAll twoFunctions = .ok p ∧
    p.exec .closeFunction = .ok (o, p') ∧ p.routed = some 1 ∧ p.functions.length = 2 ∧
    p.Isolates .closeFunction p' := by
  obtain ⟨p, o, p', hp, hexec, hrouted, hlength⟩ := exists_twoFunctions
  exact ⟨p, o, p', hp, hexec, hrouted, hlength, exec_isolates hexec⟩

end Program
end StructuredSSA
