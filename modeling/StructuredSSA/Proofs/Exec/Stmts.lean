import StructuredSSA.Proofs.Exec.Closing
import StructuredSSA.Proofs.Exec.Exprs
import StructuredSSA.Proofs.Source.Renewed
import StructuredSSA.Proofs.Source.Stores

/-!
# Executing statements

Control follows the execution of a structured program from statement to statement: if the finished
graph and the program agree where a statement begins, and the program executes the statement, then
control comes to where the statement ends, and they agree there.

The claim is about the finished graph, in which there is more than the statement has built.  So a
statement has to be simulated wherever it is built, and whatever is built after it: `Stmt.Simulates`
asks for all states that are ready, and `Follows` for all courses of a construction that pass them.
Control begins where the values of all that it has passed are up to date, which goes on by itself.
The proofs go by induction on the statement; sequences are put together here, and an assignment is
the one simple statement that changes what variables mean.

## What is here

* `Follows` — control follows the execution of a statement.
* `Stmt.Simulates` — wherever the statement is built.
* `Stmt.simulates_skip` and its like — simple statements and sequences.
-/

set_option autoImplicit false

namespace StructuredSSA

/-- Control follows the execution of `s`, which is built from `u` to `u'`. -/
def Follows (g : Graph) (input : Nat → Int64) (xs : List Var) (s : Stmt) (w : Site) (u : Body)
    (w' : Site) (u' : Body) : Prop :=
  ∀ fuel st st' q, g.UpToDate q → st.Defines xs → Tracks g w u st q →
    s.run input fuel st = some st' → ∃ q', g.Goes input q q' ∧ Tracks g w' u' st' q'

/-- Wherever the statement is built, control follows its execution in the finished body. -/
def Stmt.Simulates (options : Options) (input : Nat → Int64) (xs : List Var) (s : Stmt) : Prop :=
  ∀ ⦃w : Site⦄ ⦃t : Script⦄, Ready w t.body → t.Reached options w →
    ∃ w' t', s.lower t = .ok t' ∧ t.Stays w s.assigned w' t' ∧
      ∀ ⦃wE : Site⦄ ⦃tE : Script⦄ ⦃U : Body⦄, Course options wE tE U →
        t'.Passes options w' wE tE → ∀ region, s.Timely U.graph w.loops region t →
          Follows U.graph input xs s w t.body w' t'.body

/-- An operand reads a variable only if the expression is the variable. -/
theorem Expr.eq_var_of_lower {e : Expr} {t t' : Script} {o : Operand} {y : Var}
    (h : e.lower t = .ok (o, t')) (hy : o.var = some y) : e = .var y := by
  cases e with
  | var x =>
    obtain ⟨o', hread, h⟩ := bind_eq_ok_iff.1 h
    obtain ⟨v, -, hread⟩ := bind_eq_ok_iff.1 hread
    cases hread
    cases h
    cases hy
    rfl
  | lit | read =>
    obtain ⟨r, -, h⟩ := bind_eq_ok_iff.1 h
    cases h
    cases hy
  | arith op l r =>
    obtain ⟨r₁, -, h⟩ := bind_eq_ok_iff.1 h
    obtain ⟨r₂, -, h⟩ := bind_eq_ok_iff.1 h
    obtain ⟨r₃, -, h⟩ := bind_eq_ok_iff.1 h
    cases h
    cases hy

variable {options : Options} {w : Site} {t t' : Script} {U : Body}

/-- An assignment is not executed: the variable means another value from now on. -/
theorem tracks_assign (r : Ready w t.body) (hreached : t.Reached options w) {x : Var} {o : Operand}
    (hvalue : ∀ i, o.value = some i → (t.body.graph.op? i).isSome = true)
    (hassign : t.assign x o.value = .ok t')
    (hown : ∀ f ∈ w.loops, o.value = f.before x → t'.body.graph.HasPhi f.test x)
    (hcopied : ∀ f ∈ w.loops, ∀ y, o.var = some y → o.value = f.before y →
      U.graph.HasPhi f.test y → t.body.graph.HasPhi f.test y) {st : Store} {a : Int64}
    {q : Point × Machine} (ht : Tracks U.graph w t.body st q)
    (hread : q.2.read (o.fated U.graph t.body.graph w.loops) = some a) :
    Tracks U.graph w t'.body (st.set x a) q := by
  obtain ⟨u', hu', hmerges, -⟩ := r.built.assign r.current_eq x hvalue
  simp only [Script.assign, hu', bind, Except.bind, pure, Except.pure, Except.ok.injEq] at hassign
  obtain rfl := hassign
  have b' := r.built.withBinding x hvalue
  have hrebinds := Graph.rebinds_bindIn t.body.graph w.tail x o.value
  -- what is copied has not become anything else
  have hcopy : (o.fated U.graph t.body.graph w.loops).value = o.value := by
    rw [Operand.fated]
    split
    · rename_i y hy
      exact Graph.fate_eq_self fun f hf => hcopied f hf y hy
    · rfl
  have hphis : ∀ d y, u'.graph.HasPhi d y ↔
      t.body.graph.HasPhi d y ∨ w.phiBlock? = some d ∧ y = x := fun d y =>
    (b'.hasPhi_merges hmerges d y).trans (or_congr_left hrebinds.samePhis.hasPhi_iff)
  refine ⟨ht.position.congr hmerges.setting.current_eq ?_ ?_ id fun heq => ⟨heq, ?_⟩, ?_⟩
  · exact (b'.plain_merges hmerges _).trans (hrebinds.plain_eq _)
  · intro hclosed y hy
    rcases (hphis _ y).1 hy with hy | ⟨hblock, -⟩
    · exact hy
    · obtain ⟨f, hf, heq⟩ := Option.map_eq_some_iff.1 hblock
      exact absurd heq (hclosed.closed f (List.mem_of_mem_head? hf))
  · exact ((b'.skeleton_merges hmerges).prev_eq _ _).trans (hrebinds.skeleton.prev_eq _ _)
  · have hmeaning := Levelled.meaning_assign r.built (Orderly.run hreached).numbered hvalue hmerges
    refine ⟨ht.agrees.taken, ht.agrees.written, ht.agrees.consts, fun y b hy => ?_⟩
    change (U.graph.fate u'.graph w.loops y (u'.graph.meaning w.tail y)).bind q.2.values = some b
    rw [hmeaning]
    by_cases hyx : y = x
    · obtain rfl := hyx
      obtain rfl : a = b := by simpa [Store.set] using hy
      rw [Machine.read, hcopy] at hread
      have hkept : U.graph.fate u'.graph w.loops y o.value = o.value :=
        Graph.fate_eq_self fun f hf hv _ => hown f hf hv
      rw [Function.update_self, hkept]
      exact hread
    · have hsame : ∀ f ∈ w.loops, u'.graph.HasPhi f.test y ↔ t.body.graph.HasPhi f.test y :=
        fun f _ => (hphis f.test y).trans (or_iff_left fun h => hyx h.2)
      rw [Function.update_of_ne hyx, Graph.fate_since hsame]
      exact ht.agrees.vars y b (by simpa [Store.set, hyx] using hy)

namespace Stmt

variable {input : Nat → Int64} {xs : List Var}

/-! ## Simple statements -/

theorem simulates_skip : skip.Simulates options input xs := by
  intro w t r _
  refine ⟨w, t, rfl, .of_adds r (.refl w t) (.refl _) r.built,
    fun _ _ _ _ _ _ _ fuel st st' q _ _ ht hrun => ?_⟩
  cases fuel with
  | zero => cases hrun
  | succ fuel =>
    cases hrun
    exact ⟨q, .refl, ht⟩

theorem simulates_seq {s s' : Stmt} (hs : s.Simulates options input xs)
    (hs' : s'.Simulates options input (xs ++ s.assigned)) (hwithin : s.AssignsWithin xs) :
    (seq s s').Simulates options input xs := by
  intro w t r hreached
  obtain ⟨w₁, t₁, hlower₁, hstays₁, hfollows₁⟩ := hs r hreached
  have hreached₁ := hreached.advance hstays₁.advances
  obtain ⟨w₂, t₂, hlower₂, hstays₂, hfollows₂⟩ := hs' hstays₁.ready hreached₁
  refine ⟨w₂, t₂, ?_, hstays₁.trans hstays₂,
    fun wE tE U c hpasses region htimely fuel st st' q hq hst ht hrun => ?_⟩
  · simp only [lower, hlower₁, hlower₂, bind, Except.bind]
  · cases fuel with
    | zero => cases hrun
    | succ fuel =>
      obtain ⟨st₁, hrun₁, hrun₂⟩ := Option.bind_eq_some_iff.1 hrun
      obtain ⟨q₁, hgoes₁, ht₁⟩ :=
        hfollows₁ c (hpasses.back hreached₁ hstays₂.advances) region (htimely.inner .first) fuel
          st st₁ q hq hst ht hrun₁
      have htimely₂ : s'.Timely U.graph w₁.loops region t₁ := by
        rw [Site.loops_congr hstays₁.frames_eq]
        exact htimely.inner (.second hlower₁)
      obtain ⟨q₂, hgoes₂, ht₂⟩ :=
        hfollows₂ c hpasses region htimely₂ fuel st₁ st' q₁ (c.proper.goes hq hgoes₁)
          (hwithin.defines_run hrun₁ hst) ht₁ hrun₂
      exact ⟨q₂, hgoes₁.trans hgoes₂, ht₂⟩

theorem simulates_write (e : Expr) :
    (write e).Simulates options input xs := by
  intro w t r hreached
  obtain ⟨o, t₁, hl, hadv₁, hadds₁, b₁, ho, hm⟩ := e.exists_lower r.built r.accepts r.clear_current
  have hacc₁ := hadds₁.accepts r.accepts
  have hclear₁ := hadds₁.clear r.clear_current
  have hreached₁ := hreached.advance hadv₁
  have hreads : ∀ o' ∈ (Operation.unary .write o).operands, o' = o := by simp [Operation.operands]
  have hmeans : ∀ o' ∈ (Operation.unary .write o).operands, t₁.body.Means o' := by
    intro o' ho'
    rw [hreads o' ho']
    exact hm
  obtain ⟨t₂, hemit, hadv₂, hadds₂, hreceives⟩ := Script.exists_emit_added b₁
    (.unary .write o) rfl rfl rfl hacc₁
    (fun o' ho' d hd => (ho d (hreads o' ho' ▸ hd)).2) hmeans hclear₁
  have hadv := hadv₁.trans hadv₂
  have hadds := hadds₁.trans hadds₂
  refine ⟨w, t₂, ?_, .of_adds r hadv hadds (Orderly.run (hreached.advance hadv)).built,
    fun wE tE U c hpasses _ _ fuel st st' q hq hst ht hrun => ?_⟩
  · simp only [lower, hl, hemit, bind, Except.bind, pure, Except.pure]
  · cases fuel with
    | zero => cases hrun
    | succ fuel =>
      obtain ⟨⟨a, st₁⟩, heval, heq⟩ := Option.bind_eq_some_iff.1 hrun
      cases heq
      have hpasses₁ := hpasses.back hreached₁ hadv₂
      obtain ⟨q₁, hq₁⟩ :=
        c.computes e hl hreached hpasses₁ r.accepts r.clear_current ht hq heval
      obtain ⟨p', hgoes, htracks⟩ := (c.leads hpasses₁).executes (c.leads hpasses) hreceives
        hadds₂.setting.current_eq rfl rfl hclear₁ hq₁.tracks
        { st₁ with written := a :: st₁.written } { q₁.2 with written := a :: q₁.2.written }
        (fun ins _ hop => by
          have hop : ins.op = .unary .write (o.fated U.graph t₁.body.graph w.loops) := hop
          simp only [Machine.step, hop, hq₁.read_eq, Option.bind_eq_bind, Option.bind_some,
            Option.pure_def])
        (fun _ _ => rfl) hq₁.tracks.agrees.taken
        (congrArg (a :: ·) hq₁.tracks.agrees.written) rfl
      exact ⟨_, hq₁.goes.trans hgoes, htracks⟩

theorem simulates_assign (x : Var) (e : Expr) :
    (assign x e).Simulates options input xs := by
  intro w t r hreached
  obtain ⟨o, t₁, hl, hadv₁, hadds₁, b₁, ho, hm⟩ := e.exists_lower r.built r.accepts r.clear_current
  have hstays₁ := Script.Stays.of_adds r hadv₁ hadds₁ b₁
  have r₁ := hstays₁.ready
  have hreached₁ := hreached.advance hadv₁
  obtain ⟨t₂, hassign, hstays₂⟩ := Script.exists_assign r₁ x ho
  refine ⟨w, t₂, ?_, hstays₁.trans hstays₂,
    fun wE tE U c hpasses region htimely fuel st st' q hq hst ht hrun => ?_⟩
  · simp only [lower, hl, hassign, bind, Except.bind]
  · cases fuel with
    | zero => cases hrun
    | succ fuel =>
      obtain ⟨⟨a, st₁⟩, heval, heq⟩ := Option.bind_eq_some_iff.1 hrun
      cases heq
      have hpasses₁ := hpasses.back hreached₁ hstays₂.advances
      obtain ⟨q₁, hq₁⟩ :=
        c.computes e hl hreached hpasses₁ r.accepts r.clear_current ht hq heval
      have hrenewed := fun f hf => htimely.around f hf _ _ x e o t₁ t₂ .here hl hassign
      refine ⟨q₁, hq₁.goes, tracks_assign r₁ hreached₁ (fun i hi => (ho i hi).1) hassign
        (fun f hf hv => (hrenewed f hf).1 (hv ▸ rfl)) (fun f hf y hy hv hhas => ?_) hq₁.tracks
        hq₁.read_eq⟩
      exact hadds₁.phis.hasPhi_iff.2
        ((hrenewed f hf).2 y (Expr.eq_var_of_lower hl hy) (hv ▸ rfl) hhas)

end Stmt
end StructuredSSA
