import StructuredSSA.Proofs.Body.Phis

/-!
# Branches and edges

A branch is always the last instruction of its block, and the block has a branch edge for it; the
branch is a jump if the block has no other way on.  Branches of closed constructs lead along their
edges.  A block with a branch edge has a branch, unless it still waits for it.

## What is here

* `Graph.BranchAt` — the branches of a block.
* `Graph.KeepsBranches` — changes that leave branches where they are and where they lead.
* `Steered` — the invariant.
* `Steered.step`, `Steered.run` — every step keeps it.
-/

set_option autoImplicit false

namespace StructuredSSA

namespace Graph

/-- The block `b` holds the branch `i` with the condition `c` and the target `t`. -/
def BranchAt (g : Graph) (b : BlockId) (i : InstrId) (c : Cond) (t : Option Target) : Prop :=
  g.home? i = some b ∧ g.op? i = some (.branch c t)

variable {g g' g'' : Graph} {b : BlockId} {i : InstrId} {c : Cond} {t : Option Target}

theorem BranchAt.isBranch (h : g.BranchAt b i c t) : g.isBranch i = true := by
  rw [isBranch_eq, h.2]
  rfl

theorem BranchAt.hasBranch (h : g.BranchAt b i c t) : g.HasBranch b := ⟨i, h.isBranch, h.1⟩

theorem HasBranch.exists_branchAt (h : g.HasBranch b) : ∃ i c t, g.BranchAt b i c t := by
  obtain ⟨i, hi, hhome⟩ := h
  rw [isBranch_eq, Option.any_eq_true] at hi
  obtain ⟨op, hop, hbr⟩ := hi
  cases op with
  | branch c t => exact ⟨i, c, t, hhome, hop⟩
  | _ => cases hbr

/-- From `g` to `g'` instructions and edges stay where they are, no branch comes or goes, and a
branch that leads somewhere still leads there. -/
structure KeepsBranches (g g' : Graph) : Prop where
  skeleton : SameSkeleton g g'
  home?_mono : ∀ i b, g.home? i = some b → g'.home? i = some b
  kept : ∀ b i c t, g.BranchAt b i c t → ∃ t', g'.BranchAt b i c t'
  branch : ∀ b i c t', g'.BranchAt b i c t' → ∃ t, g.BranchAt b i c t ∧
    ∀ s dst, t = some s → g.Names s dst → ∃ s', t' = some s' ∧ g'.Names s' dst
  last : ∀ b i c t is, g.BranchAt b i c t → g.listed b = is ++ [i] → i ∉ is →
    ∃ is', g'.listed b = is' ++ [i] ∧ i ∉ is'

namespace KeepsBranches

theorem trans (h : KeepsBranches g g') (h' : KeepsBranches g' g'') : KeepsBranches g g'' where
  skeleton := h.skeleton.trans h'.skeleton
  home?_mono i b hi := h'.home?_mono i b (h.home?_mono i b hi)
  kept b i c t hi := by
    obtain ⟨t', hi'⟩ := h.kept b i c t hi
    exact h'.kept b i c t' hi'
  branch b i c t'' hi'' := by
    obtain ⟨t', hi', hnames'⟩ := h'.branch b i c t'' hi''
    obtain ⟨t, hi, hnames⟩ := h.branch b i c t' hi'
    refine ⟨t, hi, fun s dst hs hdst => ?_⟩
    obtain ⟨s', hs', hdst'⟩ := hnames s dst hs hdst
    exact hnames' s' dst hs' hdst'
  last b i c t is hi his hnot := by
    obtain ⟨is', his', hnot'⟩ := h.last b i c t is hi his hnot
    obtain ⟨t', hi'⟩ := h.kept b i c t hi
    exact h'.last b i c t' is' hi' his' hnot'

theorem hasBranch_iff (h : KeepsBranches g g') (b : BlockId) : g'.HasBranch b ↔ g.HasBranch b := by
  constructor
  · intro hb
    obtain ⟨i, c, t', hi⟩ := hb.exists_branchAt
    obtain ⟨t, hi', -⟩ := h.branch b i c t' hi
    exact hi'.hasBranch
  · intro hb
    obtain ⟨i, c, t, hi⟩ := hb.exists_branchAt
    obtain ⟨t', hi'⟩ := h.kept b i c t hi
    exact hi'.hasBranch

/-- The same instructions in the same blocks, with the same branches. -/
theorem of_eq (hskel : SameSkeleton g g') (hhome : ∀ i, g'.home? i = g.home? i)
    (hbranch : ∀ i c t, g'.op? i = some (.branch c t) ↔ g.op? i = some (.branch c t))
    (hlisted : ∀ b, g'.listed b = g.listed b) : KeepsBranches g g' where
  skeleton := hskel
  home?_mono i b hi := by rw [hhome, hi]
  kept b i c t hi := ⟨t, by rw [hhome]; exact hi.1, (hbranch i c t).2 hi.2⟩
  branch b i c t' hi := by
    refine ⟨t', ⟨by rw [← hhome]; exact hi.1, (hbranch i c t').1 hi.2⟩,
      fun s dst hs hdst => ⟨s, hs, ?_⟩⟩
    cases s with
    | instr j => exact (hhome j).trans hdst
    | startOf d => exact hdst
  last b i c t is _ his hnot := ⟨is, by rw [hlisted, his], hnot⟩

theorem of_sameShape (h : SameShape g g') : KeepsBranches g g' := by
  refine .of_eq h.skeleton h.home?_eq (fun i c t => ⟨fun hi => ?_, fun hi => ?_⟩) h.listed_eq
  · obtain ⟨op, hop, hsim⟩ := h.op?_similar hi
    rw [(hsim.branch_iff c t).1 rfl] at hop
    exact hop
  · have hsome := h.op?_isSome_eq i
    rw [hi, Option.isSome_some] at hsome
    obtain ⟨op', hop'⟩ := Option.isSome_iff_exists.1 hsome
    obtain ⟨op, hop, hsim⟩ := h.op?_similar hop'
    rw [hi] at hop
    cases hop
    rw [hop', (hsim.branch_iff c t).2 rfl]

theorem of_rebinds (h : Rebinds g b g') : KeepsBranches g g' :=
  .of_eq h.skeleton h.home?_eq (fun i c t => by rw [h.op?_eq]) h.listed_eq

/-- An instruction that is no branch goes to a block without one, or is a phi of a loop header. -/
theorem of_places {op : Operation} (h : Places g b op g') (hop : op.isBranch = false)
    (hb : ¬ g.HasBranch b ∨ op.isPhi = true ∧ g.hasRole b .loopHead = true) :
    KeepsBranches g g' where
  skeleton := h.skeleton
  home?_mono i d hi := by rw [h.home?_eq, if_neg (Nat.ne_of_lt (lt_nextId_of_home? hi)), hi]
  kept d i c t hi := by
    have hne := Nat.ne_of_lt (lt_nextId_of_home? hi.1)
    have hhome : g'.home? i = some d := by rw [h.home?_eq, if_neg hne, hi.1]
    rcases h.op?_old hne with hold | ⟨c', hold, hnew⟩
    · exact ⟨t, hhome, by rw [hold, hi.2]⟩
    · rw [hi.2] at hold
      cases hold
      exact ⟨_, hhome, hnew⟩
  branch d i c t' hi := by
    have hne : i ≠ g.nextId := by
      rintro rfl
      have := hi.2
      rw [h.op?_new] at this
      cases this
      cases hop
    have hhome : g.home? i = some d := by
      have := hi.1
      rwa [h.home?_eq, if_neg hne] at this
    rcases h.op?_old hne with hold | ⟨c', hold, hnew⟩
    · refine ⟨t', ⟨hhome, by rw [← hold]; exact hi.2⟩, fun s dst hs hdst => ⟨s, hs, ?_⟩⟩
      cases s with
      | instr j =>
        rw [Names, h.home?_eq, if_neg (Nat.ne_of_lt (lt_nextId_of_home? hdst))]
        exact hdst
      | startOf e => exact hdst
    · -- the branch waited for the first instruction of the block
      have hop' := hi.2
      rw [hnew] at hop'
      cases hop'
      refine ⟨_, ⟨hhome, hold⟩, fun s dst hs hdst => ⟨_, rfl, ?_⟩⟩
      cases hs
      rw [Names, h.home?_eq, if_pos rfl, show b = dst from hdst]
  last d i c t is hi his hnot := by
    by_cases hd : d = b
    · subst hd
      rcases hb with hb | ⟨hphi, hrole⟩
      · exact absurd hi.hasBranch hb
      · have hi' : g.isPhi i = false := by
          rw [isPhi_eq, hi.2]
          rfl
        rw [h.listed_eq, if_pos rfl, listedWith, hphi, hrole]
        simp only [Bool.and_self, if_true]
        rcases List.eq_nil_or_concat ((g.listed d).dropWhile g.isPhi) with hnil | ⟨ds, j, hds⟩
        · have hmem : i ∈ (g.listed d).takeWhile g.isPhi := by
            have hall := List.takeWhile_append_dropWhile (p := g.isPhi) (l := g.listed d)
            rw [hnil, List.append_nil] at hall
            rw [hall, his]
            simp
          rw [List.all_eq_true.1 List.all_takeWhile i hmem] at hi'
          cases hi'
        · have hall := List.takeWhile_append_dropWhile (p := g.isPhi) (l := g.listed d)
          rw [hds, his, List.concat_eq_append, ← List.append_assoc] at hall
          obtain ⟨hfirst, hlast⟩ := List.append_inj' hall rfl
          obtain rfl : j = i := (List.cons.inj hlast).1
          refine ⟨(g.listed d).takeWhile g.isPhi ++ g.nextId :: ds, ?_, ?_⟩
          · rw [hds, List.concat_eq_append]
            simp
          · rw [← hfirst, ← his, List.mem_append] at hnot
            rw [List.mem_append, List.mem_cons]
            rintro (h' | h' | h')
            · exact hnot (.inl h')
            · exact Nat.ne_of_lt (lt_nextId_of_home? hi.1) h'
            · exact hnot (.inr h')
    · exact ⟨is, by rw [h.listed_eq, if_neg hd, his], hnot⟩

end KeepsBranches
end Graph

/-! ## The invariant -/

/-- **Branches and edges agree**, as far as construction has come. -/
structure Steered (g : Graph) (w : Site) : Prop where
  head_plain : g.next .branch Body.head = none
  edge : ∀ b i c t, g.BranchAt b i c t → (g.next .branch b).isSome = true
  cond : ∀ b i c t, g.BranchAt b i c t → (c = .always ↔ g.next .fall b = none)
  last : ∀ b i c t, g.BranchAt b i c t → ∃ is, g.listed b = is ++ [i] ∧ i ∉ is
  /-- Only the test of a construct and the end of a then side wait for their branches. -/
  branched : ∀ b ∈ w.passed, (g.next .branch b).isSome = true → g.HasBranch b ∨
    ∃ f ∈ w.frames, f.test = b ∨ f.part = .elseSide b
  /-- Only the tests of open constructs may lead elsewhere. -/
  steers : ∀ b, (∀ f ∈ w.frames, f.test ≠ b) → g.Steers b
  /-- Control can fall through the tests of open constructs. -/
  falls : ∀ f ∈ w.frames, (g.next .fall f.test).isSome = true

namespace Steered

variable {g g' : Graph} {w w' : Site} {u u' : Body}

theorem start (options : Options) : Steered (Body.start options).graph .start := by
  have hnone : ∀ {b i c t}, ¬ (Body.start options).graph.BranchAt b i c t := fun ⟨hi, _⟩ => by
    rw [Graph.home?, Body.instr?_start] at hi
    cases hi
  refine ⟨by rw [Body.next_start]; rfl, fun b i c t h => absurd h hnone,
    fun b i c t h => absurd h hnone, fun b i c t h => absurd h hnone, fun b _ hb => ?_,
    fun b _ i c t hi hop => absurd ⟨hi, hop⟩ hnone, fun f hf => by cases hf⟩
  rw [Body.next_start] at hb
  simp at hb

theorem keep (hs : Steered g w) (h : g.KeepsBranches g') : Steered g' w where
  head_plain := by rw [h.skeleton.next_eq, hs.head_plain]
  edge b i c t hi := by
    obtain ⟨t', hi', -⟩ := h.branch b i c t hi
    rw [h.skeleton.next_eq]
    exact hs.edge b i c t' hi'
  cond b i c t hi := by
    obtain ⟨t', hi', -⟩ := h.branch b i c t hi
    rw [h.skeleton.next_eq]
    exact hs.cond b i c t' hi'
  last b i c t hi := by
    obtain ⟨t', hi', -⟩ := h.branch b i c t hi
    obtain ⟨is, his, hnot⟩ := hs.last b i c t' hi'
    exact h.last b i c t' is hi' his hnot
  branched b hb hnext := by
    rw [h.skeleton.next_eq] at hnext
    exact (hs.branched b hb hnext).imp_left (h.hasBranch_iff b).2
  steers b hb i c t hi hop := by
    obtain ⟨t', hi', hnames⟩ := h.branch b i c t ⟨hi, hop⟩
    obtain ⟨dst, s, hdst, hs', hname⟩ := hs.steers b hb i c t' hi'.1 hi'.2
    obtain ⟨s', ht, hname'⟩ := hnames s dst hs' hname
    exact ⟨dst, s', by rw [h.skeleton.next_eq, hdst], ht, hname'⟩
  falls f hf := by
    rw [h.skeleton.next_eq]
    exact hs.falls f hf

/-- The head block never branches. -/
theorem head_clear (hs : Steered g w) : ¬ g.HasBranch Body.head := fun h => by
  obtain ⟨i, c, t, hi⟩ := h.exists_branchAt
  have := hs.edge _ i c t hi
  rw [hs.head_plain] at this
  cases this

/-- **A branch is added** to the end of a block that waits for it. -/
theorem place (hs : Steered g w) (hcontents : g.Contents) {b : BlockId} {c : Cond}
    {t : Option Target} (h : g.Places b (.branch c t) g') (hclear : ¬ g.HasBranch b)
    (hedge : (g.next .branch b).isSome = true) (hcond : c = .always ↔ g.next .fall b = none)
    (hsteers : (∃ f ∈ w.frames, f.test = b) ∨
      ∃ dst s, g.next .branch b = some dst ∧ t = some s ∧ g.Names s dst) : Steered g' w := by
  have hnew : ∀ {d i c' t'}, g'.BranchAt d i c' t' →
      i = g.nextId ∧ d = b ∧ c' = c ∧ t' = t ∨ ∃ s, g.BranchAt d i c' s ∧
        (t' = s ∨ s = some (.startOf b) ∧ t' = some (.instr g.nextId)) := by
    intro d i c' t' hi
    have hhome := hi.1
    rw [h.home?_eq] at hhome
    split at hhome
    · rename_i heq
      subst heq
      have hop := hi.2
      rw [h.op?_new] at hop
      cases hop
      cases hhome
      exact .inl ⟨rfl, rfl, rfl, rfl⟩
    · rename_i hne
      rcases h.op?_old hne with hold | ⟨c'', hold, hpointed⟩
      · exact .inr ⟨t', ⟨hhome, by rw [← hold]; exact hi.2⟩, .inl rfl⟩
      · have hop := hi.2
        rw [hpointed] at hop
        cases hop
        exact .inr ⟨_, ⟨hhome, hold⟩, .inr ⟨rfl, rfl⟩⟩
  have hnames : ∀ {s dst}, g.Names s dst → g'.Names s dst := by
    intro s dst hdst
    cases s with
    | instr j =>
      rw [Graph.Names, h.home?_eq, if_neg (Nat.ne_of_lt (Graph.lt_nextId_of_home? hdst))]
      exact hdst
    | startOf d => exact hdst
  have hbranch : ∀ d, g.HasBranch d → g'.HasBranch d := fun d hd =>
    (Closable.hasBranch_place h d).2 (.inl hd)
  refine ⟨by rw [h.skeleton.next_eq, hs.head_plain], fun d i c' t' hi => ?_, fun d i c' t' hi => ?_,
    fun d i c' t' hi => ?_, fun d hd hnext => ?_, fun d hd i c' t' hi hop => ?_, fun f hf => ?_⟩
  · rw [h.skeleton.next_eq]
    rcases hnew hi with ⟨-, rfl, -, -⟩ | ⟨s, hi', -⟩
    · exact hedge
    · exact hs.edge d i c' s hi'
  · rw [h.skeleton.next_eq]
    rcases hnew hi with ⟨-, rfl, rfl, -⟩ | ⟨s, hi', -⟩
    · exact hcond
    · exact hs.cond d i c' s hi'
  · rw [h.listed_eq]
    rcases hnew hi with ⟨rfl, rfl, -, -⟩ | ⟨s, hi', -⟩
    · refine ⟨g.listed d, by rw [if_pos rfl, Graph.listedWith]; rfl, fun hmem => ?_⟩
      exact Nat.lt_irrefl _ (Graph.lt_nextId_of_home? ((hcontents.mem_listed _ _).1 hmem))
    · have hne : d ≠ b := by
        rintro rfl
        exact hclear hi'.hasBranch
      rw [if_neg hne]
      exact hs.last d i c' s hi'
  · rw [h.skeleton.next_eq] at hnext
    exact (hs.branched d hd hnext).imp_left (hbranch d)
  · rw [h.skeleton.next_eq]
    rcases hnew ⟨hi, hop⟩ with ⟨-, rfl, -, rfl⟩ | ⟨s, hi', hs'⟩
    · rcases hsteers with ⟨f, hf, heq⟩ | ⟨dst, s, hdst, hs', hname⟩
      · exact absurd heq (hd f hf)
      · exact ⟨dst, s, hdst, hs', hnames hname⟩
    · obtain ⟨dst, s', hdst, rfl, hname⟩ := hs.steers d hd i c' s hi'.1 hi'.2
      rcases hs' with rfl | ⟨hwait, rfl⟩
      · exact ⟨dst, s', hdst, rfl, hnames hname⟩
      · cases hwait
        refine ⟨dst, _, hdst, rfl, ?_⟩
        rw [Graph.Names, h.home?_eq, if_pos rfl, show b = dst from hname]
  · rw [h.skeleton.next_eq]
    exact hs.falls f hf

/-- **The branch of a test is aimed.** -/
theorem aim (hs : Steered g w) {b : BlockId} (h : g.Aims b g') : Steered g' w := by
  have hold : ∀ {d i c t}, g'.BranchAt d i c t → ∃ t', g.BranchAt d i c t' ∧ (d ≠ b → t = t') := by
    intro d i c t hi
    have hhome : g.home? i = some d := by rw [← h.home?_eq]; exact hi.1
    obtain ⟨t', hop, heq⟩ := h.branch i c t hi.2
    exact ⟨t', ⟨hhome, hop⟩, fun hne =>
      heq (by rw [hhome]; exact fun h' => hne (Option.some.inj h'))⟩
  refine ⟨by rw [h.skeleton.next_eq, hs.head_plain], fun d i c t hi => ?_, fun d i c t hi => ?_,
    fun d i c t hi => ?_, fun d hd hnext => ?_, fun d hd i c t hi hop => ?_, fun f hf => ?_⟩
  · obtain ⟨t', hi', -⟩ := hold hi
    rw [h.skeleton.next_eq]
    exact hs.edge d i c t' hi'
  · obtain ⟨t', hi', -⟩ := hold hi
    rw [h.skeleton.next_eq]
    exact hs.cond d i c t' hi'
  · obtain ⟨t', hi', -⟩ := hold hi
    rw [h.listed_eq]
    exact hs.last d i c t' hi'
  · rw [h.skeleton.next_eq] at hnext
    exact (hs.branched d hd hnext).imp_left
      (Closable.hasBranch_congr h.isBranch_eq h.home?_eq d).2
  · by_cases hdb : d = b
    · exact hdb ▸ h.steers i c t (hdb ▸ hi) hop
    · obtain ⟨t', hi', heq⟩ := hold ⟨hi, hop⟩
      obtain ⟨dst, s, hdst, hs', hname⟩ := hs.steers d hd i c t' hi'.1 hi'.2
      refine ⟨dst, s, by rw [h.skeleton.next_eq, hdst], (heq hdb).trans hs', ?_⟩
      cases s with
      | instr j => exact (h.home?_eq j).trans hname
      | startOf e => exact hname
  · rw [h.skeleton.next_eq]
    exact hs.falls f hf

/-- **A construct is opened** or turned to its other side: the ways on from blocks with branches
stay, but for the test of an open construct. -/
theorem opened (hs : Steered g w) (h : g.SameStock g')
    (hhead : g'.next .branch Body.head = g.next .branch Body.head)
    (hfall : ∀ b, g.HasBranch b → g'.next .fall b = g.next .fall b)
    (hbranch : ∀ b, g.HasBranch b → g'.next .branch b = g.next .branch b ∨
      (g'.next .branch b).isSome = true ∧ ∃ f ∈ w'.frames, f.test = b)
    (htests : ∀ f ∈ w.frames, ∃ f' ∈ w'.frames, f'.test = f.test)
    (hpassed : ∀ b ∈ w'.passed, (g'.next .branch b).isSome = true → g.HasBranch b ∨
      ∃ f ∈ w'.frames, f.test = b ∨ f.part = .elseSide b)
    (hfalls : ∀ f ∈ w'.frames, (g'.next .fall f.test).isSome = true) : Steered g' w' := by
  have hat : ∀ {b i c t}, g'.BranchAt b i c t ↔ g.BranchAt b i c t := by
    intro b i c t
    rw [Graph.BranchAt, Graph.BranchAt, Graph.home?, Graph.op?, h.instr?_eq, Graph.home?, Graph.op?]
  have hhas := Closable.hasBranch_sameStock h
  refine ⟨by rw [hhead, hs.head_plain], fun b i c t hi => ?_, fun b i c t hi => ?_,
    fun b i c t hi => ?_, fun b hb hnext => ?_, fun b hb i c t hi hop => ?_, hfalls⟩
  · have hi' := hat.1 hi
    rcases hbranch b hi'.hasBranch with heq | ⟨hsome, -⟩
    · rw [heq]
      exact hs.edge b i c t hi'
    · exact hsome
  · have hi' := hat.1 hi
    rw [hfall b hi'.hasBranch]
    exact hs.cond b i c t hi'
  · rw [h.listed_eq]
    exact hs.last b i c t (hat.1 hi)
  · exact (hpassed b hb hnext).imp_left (hhas b).2
  · have hi' := hat.1 ⟨hi, hop⟩
    have hb' : ∀ f ∈ w.frames, f.test ≠ b := fun f hf heq => by
      obtain ⟨f', hf', heq'⟩ := htests f hf
      exact hb f' hf' (heq'.trans heq)
    obtain ⟨dst, s, hdst, hs', hname⟩ := hs.steers b hb' i c t hi'.1 hi'.2
    rcases hbranch b hi'.hasBranch with heq | ⟨-, f, hf, htest⟩
    · refine ⟨dst, s, heq.trans hdst, hs', ?_⟩
      cases s with
      | instr j =>
        rw [Graph.Names, Graph.home?, h.instr?_eq]
        exact hname
      | startOf e => exact hname
    · exact absurd htest (hb f hf)

theorem openIf (hs : Steered g w) (l : Layout g w) (hc : g.Contents) (n : Numbered g w)
    (hclear : ¬ g.HasBranch w.tail) {join side : BlockId} (h : g.OpensIf w.tail join side g')
    (before : Var → Option InstrId) (start : InstrId) :
    Steered g' (w.openIf join side before start) := by
  have hother : ∀ b, g.HasBranch b → ∀ e, g'.next e b = g.next e b := fun b hb e => by
    refine h.next_other e b ?_ fun heq => hclear (heq ▸ hb)
    by_contra hlt
    exact Closable.not_hasBranch_of_size_le hc (Nat.le_of_not_lt hlt) hb
  have hpassed : ∀ b ∈ w.passed, ∀ e, g'.next e b = g.next e b := fun b hb e =>
    h.next_other e b (l.passed_lt hb) fun heq => l.tail_not_passed (heq ▸ hb)
  refine hs.opened h.stock (hpassed _ n.head_passed _) (fun b hb => hother b hb _)
    (fun b hb => .inl (hother b hb _)) (fun f hf => ⟨f, List.mem_cons_of_mem _ hf, rfl⟩)
    (fun b hb hnext => ?_) (List.forall_mem_cons.2 ⟨?_, fun f hf => ?_⟩)
  · rcases List.mem_append.1 hb with hb | hb
    · rw [hpassed b hb] at hnext
      exact (hs.branched b hb hnext).imp_right fun ⟨f, hf, h'⟩ => ⟨f, List.mem_cons_of_mem _ hf, h'⟩
    · exact .inr ⟨_, List.mem_cons_self, .inl (List.mem_singleton.1 hb).symm⟩
  · rw [h.fall_parent]
    rfl
  · rw [hpassed _ (l.behind f hf _ (Layout.test_mem_behind f))]
    exact hs.falls f hf

theorem openElse (hs : Steered g w) (l : Layout g w) (hc : g.Contents) (n : Numbered g w)
    (hclear : ¬ g.HasBranch w.tail) {f : Frame} {fs : List Frame} (hframes : w.frames = f :: fs)
    (hpart : f.part = .thenSide) {side : BlockId} (h : g.OpensElse f.test f.target w.tail side g') :
    Steered g' (w.openElse side) := by
  have hw := Site.openElse_eq hframes side
  have hf : f ∈ w.frames := by simp [hframes]
  have hfall : ∀ b, b < g.blocks.size → b ≠ w.tail → g'.next .fall b = g.next .fall b :=
    fun b hlt hne => by
      by_cases htest : b = f.test
      · rw [htest, h.fall_parent]
      · exact h.next_other .fall b hlt hne htest
  have hbranch : ∀ b, b < g.blocks.size → b ≠ w.tail → g'.next .branch b = g.next .branch b ∨
      b = f.test ∧ g'.next .branch b = some side := fun b hlt hne => by
    by_cases htest : b = f.test
    · exact .inr ⟨htest, htest ▸ h.branch_parent⟩
    · exact .inl (h.next_other .branch b hlt hne htest)
  have hhas : ∀ b, g.HasBranch b → b < g.blocks.size ∧ b ≠ w.tail := fun b hb => by
    refine ⟨?_, fun heq => hclear (heq ▸ hb)⟩
    by_contra hlt
    exact Closable.not_hasBranch_of_size_le hc (Nat.le_of_not_lt hlt) hb
  have hpassed : ∀ b ∈ w.passed, b < g.blocks.size ∧ b ≠ w.tail := fun b hb =>
    ⟨l.passed_lt hb, fun heq => l.tail_not_passed (heq ▸ hb)⟩
  rw [hw]
  refine hs.opened h.stock ?_ (fun b hb => hfall b (hhas b hb).1 (hhas b hb).2) (fun b hb => ?_)
    (fun f' hf' => ?_) (fun b hb hnext => ?_) fun f' hf' => ?_
  · obtain ⟨hlt, hne⟩ := hpassed _ n.head_passed
    exact (hbranch _ hlt hne).resolve_right fun h' => n.test_ne_head f hf h'.1.symm
  · refine (hbranch b (hhas b hb).1 (hhas b hb).2).imp_right fun h' => ⟨?_, ?_⟩
    · rw [h'.2]
      rfl
    · exact ⟨_, List.mem_cons_self, h'.1.symm⟩
  · rw [hframes] at hf'
    rcases List.mem_cons.1 hf' with rfl | hf'
    · exact ⟨_, List.mem_cons_self, rfl⟩
    · exact ⟨f', List.mem_cons_of_mem _ hf', rfl⟩
  · rcases List.mem_append.1 hb with hb | hb
    · rcases hbranch b (hpassed b hb).1 (hpassed b hb).2 with heq | ⟨htest, -⟩
      · rw [heq] at hnext
        rcases hs.branched b hb hnext with h' | ⟨f', hf', h'⟩
        · exact .inl h'
        · rw [hframes] at hf'
          rcases List.mem_cons.1 hf' with rfl | hf'
          · rcases h' with h' | h'
            · exact .inr ⟨_, List.mem_cons_self, .inl h'⟩
            · rw [hpart] at h'
              cases h'
          · exact .inr ⟨f', List.mem_cons_of_mem _ hf', h'⟩
      · exact .inr ⟨_, List.mem_cons_self, .inl htest.symm⟩
    · exact .inr ⟨_, List.mem_cons_self, .inr (by rw [List.mem_singleton.1 hb])⟩
  · have htest : ∃ f₀ ∈ w.frames, f'.test = f₀.test := by
      rcases List.mem_cons.1 hf' with rfl | hf'
      · exact ⟨f, hf, rfl⟩
      · exact ⟨f', by simp [hframes, hf'], rfl⟩
    obtain ⟨f₀, hf₀, heq⟩ := htest
    obtain ⟨hlt, hne⟩ := hpassed _ (l.behind f₀ hf₀ _ (Layout.test_mem_behind f₀))
    rw [heq, hfall _ hlt hne]
    exact hs.falls f₀ hf₀

theorem openLoop (hs : Steered g w) (l : Layout g w) (hc : g.Contents) (n : Numbered g w)
    (hclear : ¬ g.HasBranch w.tail) {head body exit : BlockId}
    (h : g.OpensLoop w.tail head body exit g') (before : Var → Option InstrId) (start : InstrId) :
    Steered g' (w.openLoop head body exit before start) := by
  have hother : ∀ b, g.HasBranch b → ∀ e, g'.next e b = g.next e b := fun b hb e => by
    refine h.next_other e b ?_ fun heq => hclear (heq ▸ hb)
    by_contra hlt
    exact Closable.not_hasBranch_of_size_le hc (Nat.le_of_not_lt hlt) hb
  have hpassed : ∀ b ∈ w.passed, ∀ e, g'.next e b = g.next e b := fun b hb e =>
    h.next_other e b (l.passed_lt hb) fun heq => l.tail_not_passed (heq ▸ hb)
  refine hs.opened h.stock (hpassed _ n.head_passed _) (fun b hb => hother b hb _)
    (fun b hb => .inl (hother b hb _)) (fun f hf => ⟨f, List.mem_cons_of_mem _ hf, rfl⟩)
    (fun b hb hnext => ?_) (List.forall_mem_cons.2 ⟨?_, fun f hf => ?_⟩)
  · rcases List.mem_append.1 hb with hb | hb
    · rw [hpassed b hb] at hnext
      exact (hs.branched b hb hnext).imp_right fun ⟨f, hf, h'⟩ => ⟨f, List.mem_cons_of_mem _ hf, h'⟩
    · by_cases hhead : b = head
      · exact .inr ⟨_, List.mem_cons_self, .inl hhead.symm⟩
      · -- a tail that is not the header falls through into it
        have htail : b = w.tail := by
          split at hb
          · exact List.mem_singleton.1 hb
          · exact (List.mem_pair.1 hb).resolve_right hhead
        rw [htail, h.branch_start fun heq => hhead (htail.trans heq)] at hnext
        cases hnext
  · rw [h.fall_head]
    rfl
  · rw [hpassed _ (l.behind f hf _ (Layout.test_mem_behind f))]
    exact hs.falls f hf

/-- **A construct is left** that has all its branches. -/
theorem pop (hs : Steered g w) (l : Layout g w) {f : Frame} {fs : List Frame}
    (hframes : w.frames = f :: fs) (hfinished : f.Finished g w.tail) : Steered g w.pop := by
  have hpop := Site.pop_eq hframes
  have hsub : ∀ f' ∈ fs, f' ∈ w.frames := fun f' hf' => by simp [hframes, hf']
  rw [hpop]
  refine ⟨hs.head_plain, hs.edge, hs.cond, hs.last, fun b hb hnext => ?_, fun b hb => ?_,
    fun f' hf' => hs.falls f' (hsub f' hf')⟩
  · rcases List.mem_append.1 hb with hb | hb
    · rcases hs.branched b hb hnext with h | ⟨f', hf', h⟩
      · exact .inl h
      · rw [hframes] at hf'
        rcases List.mem_cons.1 hf' with rfl | hf'
        · rcases h with rfl | h
          · exact .inl hfinished.tested
          · exact .inl (hfinished.jumps b (.inl h))
        · exact .inr ⟨f', hf', h⟩
    · rw [List.mem_singleton.1 hb] at hnext ⊢
      rw [l.next_tail_of_cons hframes] at hnext
      cases hpart : f.part with
      | loopBody => exact .inl (hfinished.jumps _ (.inr ⟨hpart, rfl⟩))
      | _ =>
        simp only [Frame.exit, hpart] at hnext
        cases hnext
  · by_cases htest : b = f.test
    · exact htest ▸ hfinished.steers
    · refine hs.steers b fun f' hf' => ?_
      rw [hframes] at hf'
      rcases List.mem_cons.1 hf' with rfl | hf'
      · exact Ne.symm htest
      · exact hb f' hf'

end Steered

/-! ## Steps -/

namespace Built

variable {w : Site} {u u' : Body}

theorem keepsBranches_merges (b : Built w u) {x : Var} {v : Option InstrId}
    (h : u.Merges w x v u') : u.graph.KeepsBranches u'.graph := by
  cases h with
  | outermost => exact .of_sameShape (.refl _)
  | replaced =>
    exact .of_sameShape (Graph.sameShape_mapOp u.graph _ (Operation.similar_setSide _ _))
  | @joined f _ _ _ hframes hpart _ _ hplace =>
    have hclear : ¬ u.graph.HasBranch f.phiBlock := by
      rw [Frame.phiBlock_eq_target hpart]
      exact b.closable.targets_clear _ (List.mem_map_of_mem (by simp [hframes]))
    exact (Graph.KeepsBranches.of_places hplace rfl (.inl hclear)).trans
      (.of_rebinds (Graph.rebinds_bindIn _ _ _ _))
  | @looped f _ _ _ _ hframes hpart hnone _ hplace _ =>
    have hf : f ∈ w.frames := by simp [hframes]
    have hrole : u.graph.hasRole f.phiBlock .loopHead = true := by
      rw [Frame.phiBlock_eq_test hpart]
      exact (b.layout.framed_loopBody hf hpart).1
    have hb := b.withPhi (b.phiBlock_lt hf) hnone hplace
    exact ((Graph.KeepsBranches.of_places hplace rfl (.inr ⟨rfl, hrole⟩)).trans
      (.of_rebinds (Graph.rebinds_bindIn _ _ _ _))).trans
      (.of_sameShape (hb.redirected_redirectFrom _ _ _ _).1.shape)

theorem keepsBranches_carriesEach (b : Built w u) {c : BlockId} {is : List InstrId}
    (h : Body.CarriesEach w c is u u') : u.graph.KeepsBranches u'.graph := by
  induction h with
  | nil => exact .of_sameShape (.refl _)
  | cons _ hmerge _ ih => exact (b.keepsBranches_merges hmerge).trans (ih (b.of_merges hmerge))

theorem keepsBranches_carries (b : Built w u) {c origin : BlockId}
    (h : u.Carries w c origin u') : u.graph.KeepsBranches u'.graph := by
  cases h with
  | outermost => exact .of_rebinds (Graph.rebinds_inheritScope _ _ _)
  | inner _ each => exact b.keepsBranches_carriesEach each

end Built

theorem Body.Emits.keepsBranches {u u' : Body} {op : Operation} {i : InstrId} (h : u.Emits op i u')
    (hop : op.isBranch = false) (hclear : ¬ u.graph.HasBranch u.current) :
    u.graph.KeepsBranches u'.graph := by
  cases h with
  | reused => exact .of_sameShape (.refl _)
  | @retired e _ _ g _ hplace =>
    exact (Graph.KeepsBranches.of_places hplace hop (.inl hclear)).trans
      (.of_sameShape (Graph.sameShape_setStandIn g u.graph.nextId (some e)))
  | placed hplace => exact .of_places hplace hop (.inl hclear)

namespace Steered

variable {w w' : Site} {u u' : Body} {c : Body.Command}

/-- **Every step keeps branches and edges in agreement.** -/
theorem step (hs : Steered u.graph w) (b : Built w u) (n : Numbered u.graph w)
    (h : Step w u c w' u') : Steered u'.graph w' := by
  cases h.change with
  | found => exact hs
  | constant hplace => exact hs.keep (.of_places hplace rfl (.inl hs.head_clear))
  | emit _ hop _ _ hclear hemits => exact hs.keep (hemits.keepsBranches hop hclear)
  | @test f fs rel g hframes hcurrent hclear hplace =>
    have hf : f ∈ w.frames := by simp [hframes]
    have hfall := hs.falls f hf
    refine hs.place b.contents hplace hclear ?_ ?_ (.inl ⟨f, hf, hcurrent.symm⟩)
    · rw [hcurrent]
      exact b.layout.branch_test hf
    · rw [hcurrent]
      exact iff_of_false (by simp) fun hnone => by rw [hnone] at hfall; cases hfall
  | @assign _ x v _ hv _ hmerges =>
    exact (hs.keep (.of_rebinds (Graph.rebinds_bindIn u.graph w.tail x v))).keep
      ((b.withBinding x hv).keepsBranches_merges hmerges)
  | moveTo => exact hs
  | joinAhead => exact hs
  | openIf _ hclear hopens => exact hs.openIf b.layout b.contents n hclear hopens _ _
  | openElse hframes hpart _ hclear hopens =>
    exact hs.openElse b.layout b.contents n hclear hframes hpart hopens
  | openLoop _ hclear hopens => exact hs.openLoop b.layout b.contents n hclear hopens _ _
  | aimBranch _ _ haims => exact hs.aim haims
  | @emitJump f fs c dst t g₁ g hframes hc hnext hnames hclear hshape hop hstand hplace =>
    have hkeep := Graph.KeepsBranches.of_sameShape hshape
    have hskel := hshape.skeleton
    refine (hs.keep hkeep).place (b.contents.of_sameShape hshape) hplace
      (mt (hkeep.hasBranch_iff c).1 hclear) ?_ ?_
      (.inr ⟨dst, t, by rw [hskel.next_eq, hnext], rfl, ?_⟩)
    · rw [hskel.next_eq, hnext]
      rfl
    · refine iff_of_true rfl ?_
      rw [hskel.next_eq]
      rcases hc with hpart | ⟨hpart, rfl⟩
      · exact (b.layout.framed_elseSide (by simp [hframes]) hpart).2.2.1
      · exact (b.layout.next_tail_loopBody hframes hpart).1
    · cases t with
      | instr j => exact (hshape.home?_eq j).trans hnames
      | startOf d => exact hnames
  | closeIf hframes _ _ hfinished hleft hcarries =>
    exact (hs.pop b.layout hframes hfinished).keep (hleft.keepsBranches_carries hcarries)
  | closeLoop hframes _ _ hfinished hleft hcarries =>
    exact (hs.pop b.layout hframes hfinished).keep (hleft.keepsBranches_carries hcarries)

/-- Branches and edges agree in every state of a construction. -/
theorem run {cs : List Body.Command} (h : Run w u cs w' u') (b : Built w u)
    (n : Numbered u.graph w) (hs : Steered u.graph w) : Steered u'.graph w' := by
  refine (h.preserves_along (P := fun w u => Numbered u.graph w ∧ Steered u.graph w) b ⟨n, hs⟩ ?_).2
  intro _ _ _ _ _ _ _ _ _ hb hp hstep
  exact ⟨hp.1.shift hb (hstep.shift hb), hp.2.step hb hp.1 hstep⟩

end Steered
end StructuredSSA
