import StructuredSSA.Proofs.Body.Dominance
import StructuredSSA.Proofs.Exec.InTime
import StructuredSSA.Proofs.Exec.Loopless
import StructuredSSA.Proofs.Exec.Loops

/-!
# Executing whole programs

Control goes through the head block, which holds the constants, follows the program from the entry
block on, and comes to its end.  The settled graph follows this execution in turn, provided that in
the end every retired instruction is covered by its root.  Where nothing is to be shared, nothing is
retired, so this asks for nothing.

## What is here

* `Graph.HeadConsts`, `Proceeds.headConsts` — what the head block holds.
* `Course.starts` — the beginning of an execution.
* `Stmt.Compiles.covered` — the graph may be settled.
* `Stmt.Compiles.writes` — the end of an execution, in the settled graph.
* `Stmt.compile_writes` — compiled programs keep their meaning.
* `Stmt.compile_writes_of_loopFree` — the same of programs without loops, of which less is asked.

## What is not covered

* **Sharing that does not respect dominance.**  With sharing on, an instruction may be replaced by
  one that is not executed on every path to its readers, and then they may read nothing, or
  something old.  That this does not happen is asked of the compiled program (`Graph.RootsCover`).
  In programs without loops it never does (`Proofs.Exec.Loopless`).
* **Loops that renew a variable too late.**  A loop phi finds the reads that it replaces by their
  value, so it can take over a read of what was assigned in the loop; then the graph writes
  something else.  `Stmt.Renews` leaves these programs out, and with them those in which nobody ever
  looks at what was read.
* **Variables without a value** where a construct assigns them.  Their phis have an operand without
  a value, which an execution may not select; `Stmt.AssignsFirst` leaves them out.
* **Programs that go on forever**, of which it is only said that they compile.
-/

set_option autoImplicit false

namespace StructuredSSA

/-! ## The head block -/

/-- All that the head block holds are constants. -/
def Graph.HeadConsts (g : Graph) : Prop :=
  ∀ i ∈ g.plain Body.head, ∃ v, g.op? i = some (.const v)

/-- **No instruction but constants comes to the head block**, as long as it has no branch. -/
theorem Proceeds.headConsts {w w' : Site} {u u' : Body} (h : Proceeds w u w' u')
    (hclear : ¬ u'.graph.HasBranch Body.head) (hconsts : u.graph.HeadConsts) :
    u'.graph.HeadConsts := by
  induction h with
  | refl => exact hconsts
  | @step w₁ w' u₁ u' _ orderly keeps shift ih =>
    have ih := ih fun hb => hclear (shift.hasBranch_mono orderly.built hb)
    have hkept : ∀ i ∈ u₁.graph.plain Body.head, ∃ v, u'.graph.op? i = some (.const v) := by
      intro i hi
      obtain ⟨v, hv⟩ := ih i hi
      exact ⟨v, (keeps.const hv).1⟩
    intro i hi
    rcases shift.plain_cases orderly.built Body.head with hsame |
      ⟨j, op, hfills, -, hsame, hbranch, hop⟩
    · exact hkept i (hsame ▸ hi)
    · rw [hsame, List.mem_append, List.mem_singleton] at hi
      rcases hi with hi | rfl
      · exact hkept i hi
      · have n := orderly.numbered
        have l := orderly.built.layout
        rcases hfills with ⟨-, v, rfl⟩ | (htail | ⟨f, fs, hframes, htest⟩) | ⟨hbr, -⟩
        · exact ⟨v, hop rfl⟩
        · exact absurd htail.symm (n.tail_ne_head l)
        · exact absurd htest.symm (n.test_ne_head f (by simp [hframes]))
        · exact absurd (hbranch hbr) hclear

/-- Constants are executed one after the other. -/
theorem Graph.goes_consts {g : Graph} (hc : g.Contents) (input : Nat → Int64) (b : BlockId)
    {is : List InstrId} (hconsts : ∀ i ∈ is, ∃ v, g.op? i = some (.const v)) (m : Machine) :
    ∃ m', g.Goes input (.inside b is, m) (.inside b [], m') ∧ m'.taken = m.taken ∧
      m'.written = m.written ∧ ∀ i v, g.op? i = some (.const v) →
        i ∈ is ∨ m.values i = some v → m'.values i = some v := by
  induction is generalizing m with
  | nil => exact ⟨m, .refl, rfl, rfl, fun i v _ h => h.resolve_left List.not_mem_nil⟩
  | cons j is ih =>
    obtain ⟨a, ha⟩ := hconsts j List.mem_cons_self
    obtain ⟨ins, hins, hop⟩ := Option.map_eq_some_iff.1 ha
    obtain ⟨m', hgoes, htaken, hwritten, hvalues⟩ :=
      ih (fun i hi => hconsts i (List.mem_cons_of_mem _ hi)) (m.set j a)
    have hstep : m.step input ins = some (m.set j a, .onward) := by
      simp only [Machine.step, hop, hc.id_eq _ _ hins]
    refine ⟨m', .head (.exec hins hstep) hgoes, htaken, hwritten, fun i v hv hi => ?_⟩
    refine hvalues i v hv ?_
    by_cases heq : i = j
    · subst heq
      rw [ha] at hv
      cases hv
      exact .inr (if_pos rfl)
    · exact hi.imp (fun hi => (List.mem_cons.1 hi).resolve_left heq) fun hi => (if_neg heq).trans hi

namespace Course

variable {options : Options} {w wE : Site} {t tE : Script} {U : Body}
  {input : Nat → Int64}

/-- **Control comes to the entry block** with the constants in place. -/
theorem starts (c : Course options wE tE U) (input : Nat → Int64)
    (hpasses : Script.Passes options .start { body := .start options } wE tE) :
    ∃ q, U.graph.Goes input (.entering Body.head .fall, {}) q ∧
      Tracks U.graph .start (Body.start options) {} q := by
  have h := c.leads hpasses
  have hc := h.finished.built.contents
  have hlisted := Body.listed_start options
  have hfilled : Filled (Body.start options).graph .start Body.head :=
    ⟨⟨by simp [Site.start], fun f hf => by cases hf⟩, fun heq => by cases heq⟩
  have hnone := h.not_isPhi_of_filled hfilled fun x => Graph.not_hasPhi_of_listed_nil (hlisted _)
  have hconsts : U.graph.HeadConsts := by
    refine h.proceeds.headConsts h.steered.head_clear fun i hi => ?_
    rw [Graph.plain, hlisted] at hi
    cases hi
  have hnext : U.graph.next .fall Body.head = some Body.entry := by
    have hsteady : Site.start.Steady .fall Body.head :=
      ⟨by simp [Site.start], fun he => by cases he⟩
    rw [(h.proceeds.steady hsteady).2]
    rfl
  obtain ⟨m, hgoes, htaken, hwritten, hvalues⟩ := Graph.goes_consts hc input Body.head hconsts {}
  refine ⟨(.entering Body.entry .fall, m), ?_, ⟨?_, ?_⟩⟩
  · exact .head (Graph.moves_enter_of_not_isPhi h.finished.built.head_lt hnone {})
      (hgoes.tail (.fall hnext))
  · refine .entering ⟨List.mem_cons_self, fun f hf => by cases hf⟩ ?_ fun x =>
      Graph.not_hasPhi_of_listed_nil (hlisted _)
    rw [Graph.plain, hlisted]
    rfl
  · refine ⟨htaken, hwritten, fun i v hop hhome => hvalues i v hop (.inl ?_),
      fun x a ha => by cases ha⟩
    rw [Graph.plain, List.mem_filter]
    refine ⟨(hc.mem_listed _ _).2 hhome, ?_⟩
    rw [Graph.isPhi_eq, hop]
    rfl

/-- When the end of the program has been added, nothing more is to come. -/
theorem leads_end (c : Course options wE tE U) (hpasses : tE.Passes options wE wE tE) :
    Leads wE U wE U where
  orderly := (c.leads hpasses).finished
  proceeds := .refl
  finished := (c.leads hpasses).finished
  steered := (c.leads hpasses).steered

end Course

/-! ## Whole programs -/

namespace Stmt.Compiles

variable {options : Options} {s : Stmt} {w : Site} {t : Script}
  {g₁ g : Graph} {input : Nat → Int64}

/-- The graph of a finished program may be settled if in the end the roots cover what they stand
for. -/
theorem covered (h : s.Compiles options w t g₁ g)
    (hcover : options.share = true → g.RootsCover) : g₁.Covered where
  toProper := h.proper
  matched := h.complete.built.matched
  rooted := h.complete.built.books.rooted
  cover := by
    cases hshare : options.share with
    | true => exact h.settles.rootsCover_iff.1 (hcover hshare)
    | false =>
      refine .of_live fun i => ?_
      rw [h.ended.standIn?_eq]
      exact (Unshared.run hshare h.run).live i

/-- **The settled graph writes what the program writes.** -/
theorem writes (h : s.Compiles options w t g₁ g) (hcovered : g₁.Covered)
    (hpasses : t.Passes options w w t) {st : Store} {q : Point × Machine}
    (hgoes : g₁.Goes input (.entering Body.head .fall, {}) q) (ht : Tracks g₁ w t.body st q) :
    g.Writes Body.head input st.written.reverse := by
  have hreceives : t.body.graph.Receives t.body.current .halt g₁ := by
    rw [h.ready.current_eq]
    exact .of_places h.ended rfl
  have hhalt : g₁.op? t.body.graph.nextId = some .halt :=
    (hreceives.op?_iff _ _ rfl).2 (.inl ⟨rfl, rfl⟩)
  obtain ⟨rest, hend, -, -⟩ :=
    (h.course.leads_end hpasses).goes_to_added (u := t.body) input hreceives rfl
    rfl h.ready.clear_current ht.position q.2
  obtain ⟨m', hsettled, hm⟩ :=
    h.settles.follows hcovered (.start g₁) (.refl g₁ {}) (hgoes.trans hend)
  have hlive := hcovered.matched.isRetired_eq_false hhalt rfl
  simp only [Graph.settledPoint, List.filter_cons, hlive, Bool.not_false, if_true] at hsettled
  rw [← ht.agrees.written, ← hm.written_eq]
  refine hsettled.writes ?_
  obtain ⟨ins, hins, hop⟩ := Option.map_eq_some_iff.1 hhalt
  obtain ⟨ins', hins', hsettles⟩ := h.settles.instr _ ins hins
  rw [Graph.op?, hins', Option.map_some, hsettles.op_eq (by rw [hop]; rfl), hop]
  rfl

end Stmt.Compiles

namespace Stmt

/-- **The finished graph writes what the program writes**, if roots cover what they stand for. -/
theorem Compiles.writes_of_writes {options : Options} {s : Stmt} {w₀ : Site} {t₀ : Script}
    {g₀ g : Graph} (h₀ : s.Compiles options w₀ t₀ g₀ g) (hassigns : s.AssignsFirst)
    (hrenews : s.Renews options) (hcover : options.share = true → g.RootsCover)
    {input : Nat → Int64} {out : List Int64} (hwrites : s.Writes input out) :
    g.Writes Body.head input out := by
  have hstart : Script.Reached options .start { body := .start options } := .nil
  obtain ⟨fuel, st, hrun, rfl⟩ := hwrites
  obtain ⟨w, t, hlower, hstays, hfollows⟩ :=
    s.simulates input hassigns.assignsWithin (Ready.start options) hstart
  have hreached := hstart.advance hstays.advances
  obtain ⟨g₁, g', h⟩ := Compiles.of_run hlower hreached hstays.ready hstays.frames_eq
  obtain rfl : g' = g := congrArg (fun r : List Var × Program => r.2.main.graph)
    (Except.ok.inj (h.compile_eq.symm.trans h₀.compile_eq))
  have hcourse := h.course
  have hpasses : t.Passes options w w t := ⟨hreached, .refl w t⟩
  obtain ⟨q, hgoes, ht⟩ := hcourse.starts input (hpasses.back hstart hstays.advances)
  have htimely : s.Timely g₁ Site.start.loops .outermost { body := .start options } :=
    { inside := hrenews
      around := fun f hf => absurd hf List.not_mem_nil }
  have hq : g₁.UpToDate q := hcourse.proper.goes (.start g₁) hgoes
  obtain ⟨q', hgoes', ht'⟩ :=
    hfollows hcourse hpasses _ htimely fuel {} st q hq (by nofun) ht hrun
  exact h.writes (h.covered hcover) hpasses (hgoes.trans hgoes') ht'

/-- **A compiled program writes what the source program writes**, when every variable is assigned
first and loops renew their variables in time.  With sharing on, each instruction that is retired in
the end has to be covered by its root. -/
theorem compile_writes (options : Options) (s : Stmt) (hassigns : s.AssignsFirst)
    (hrenews : s.Renews options) :
    ∃ xs p, s.compile options = .ok (xs, p) ∧
      ((options.share = true → p.main.graph.RootsCover) →
        ∀ input out, s.Writes input out → p.main.graph.Writes Body.head input out) := by
  obtain ⟨w, t, g₁, g, h⟩ := s.exists_compiles options
  exact ⟨_, _, h.compile_eq, fun hcover _ _ => h.writes_of_writes hassigns hrenews hcover⟩

/-- Adds up the odd numbers among those from the one that is read down to one, and writes the square
of the sum twice. -/
def oddSum : Stmt :=
  .seq (.assign 0 .read) (.seq (.assign 1 (.lit 0)) (.seq (.assign 2 (.lit 0))
    (.seq (.loop ⟨.var 0, .ne, .lit 0⟩
        (.seq (.assign 2 (.arith .sub (.var 0)
        (.arith .mul (.arith .div (.var 0) (.lit 2)) (.lit 2))))
          (.seq (.ifThen ⟨.var 2, .ne, .lit 0⟩ (.assign 1 (.arith .add (.var 1) (.var 0))))
            (.assign 0 (.arith .sub (.var 0) (.lit 1))))))
      (.seq (.assign 2 (.var 1)) (.seq (.write (.arith .mul (.var 1) (.var 1)))
        (.write (.arith .mul (.var 1) (.var 2))))))))

/-- From five on, the odd numbers are nine in total. -/
theorem oddSum_run :
    (oddSum.run (fun _ => 5) 16 {}).any (fun st => st.written == [81, 81]) = true := by
  decide +kernel

/-- Both squares are computed behind the loop, and the first one stands in for the second. -/
theorem oddSum_compile : (oddSum.compile {}).toOption.any (fun r =>
    r.2.main.graph.isRetired 21 && (List.range r.2.main.graph.nextId).all fun d =>
      !r.2.main.graph.isRetired d || d == 21 && r.2.main.graph.root? d == some 19 &&
        r.2.main.graph.home? 19 == some 4 && r.2.main.graph.home? d == some 4) = true := by
  decide +kernel

/-- The squares are what the compiled program writes, although one of them is not computed. -/
theorem compile_writes_oddSum : oddSum.AssignsFirst ∧ oddSum.Renews {} ∧
    oddSum.Writes (fun _ => 5) [81, 81] ∧ ∃ xs p, oddSum.compile {} = .ok (xs, p) ∧
      p.main.graph.isRetired 21 = true ∧ p.main.graph.RootsCover ∧
      p.main.graph.Writes Body.head (fun _ => 5) [81, 81] := by
  have hassigns : oddSum.AssignsFirst := by decide
  have hrenews : oddSum.Renews {} := renews_of_inTime oddSum (by decide)
  have hwrites : oddSum.Writes (fun _ => 5) [81, 81] := by
    obtain ⟨st, hst, hout⟩ := Option.any_eq_true _ _ |>.1 oddSum_run
    rw [beq_iff_eq] at hout
    exact ⟨16, st, hst, by rw [hout]; rfl⟩
  obtain ⟨xs, p, hcompile, hp⟩ := compile_writes {} oddSum hassigns hrenews
  have hcheck := oddSum_compile
  simp only [hcompile, Except.toOption, Option.any_some, Bool.and_eq_true, List.all_eq_true,
    List.mem_range, Bool.or_eq_true, Bool.not_eq_true', beq_iff_eq] at hcheck
  obtain ⟨hretired, hall⟩ := hcheck
  have hcover : p.main.graph.RootsCover := by
    intro d r hd hr
    obtain ⟨⟨⟨rfl, hroot⟩, hhome⟩, hhome'⟩ :=
      (hall d (Graph.lt_nextId_of_isRetired hd)).resolve_left (by rw [hd]; exact Bool.noConfusion)
    obtain rfl : r = 19 := Option.some.inj (hr.symm.trans hroot)
    exact ⟨4, 4, hhome, hhome', .inl ⟨rfl, by decide⟩⟩
  exact ⟨hassigns, hrenews, hwrites, xs, p, hcompile, hretired, hcover,
    hp (fun _ => hcover) _ _ hwrites⟩

/-- **Without loops, a compiled program writes what the source program writes**, whether or not
anything is shared. -/
theorem compile_writes_of_loopFree (options : Options) (s : Stmt) (hfree : s.loopFree = true)
    (hassigns : s.AssignsFirst) : ∃ xs p, s.compile options = .ok (xs, p) ∧
      ∀ input out, s.Writes input out → p.main.graph.Writes Body.head input out := by
  obtain ⟨w, t, g₁, g, h⟩ := s.exists_compiles options
  have hrenews : s.Renews options := renews_of_inTime s (inTime_of_loopFree hfree)
  exact ⟨_, _, h.compile_eq, fun _ _ =>
    h.writes_of_writes hassigns hrenews fun _ => h.rootsCover_of_loopFree hfree⟩

end Stmt
end StructuredSSA
