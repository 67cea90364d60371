import StructuredSSA.Proofs.Source.Reach

/-!
# Loops that renew their variables in time

A loop renews a variable when it gets a phi of it.  The reads that come to read this phi are those
that were added before and read what the variable meant before the loop; they are found by their
value.  So nothing can go wrong unless an assignment in the loop brings such a value back: then a
read of what has been assigned may be taken for a read of what was there before the loop.  And even
then nothing goes wrong if the loop has its phi by the time, since later reads are not redirected,
or if it never gets one.

This is what the condition on programs says, of every loop and every assignment inside of it.  An
assignment is about two variables at most, the one that is assigned and the one that is copied to
it, so that others may have had the same value before the loop, such as a constant that several
counters begin with.

## What is here

* `Stmt.InTime` — assignments that are in time for a loop around them.
* `Stmt.Renews` — loops renew their variables in time.
* `Stmt.Timely` — the same of a statement on the way to a finished graph, when some loops are open
  already; `Timely.inner` and `Timely.loop` take it to the parts of the statement.

The condition is sufficient, not necessary: a loop may renew a variable too late for a read that
nothing depends on.
-/

set_option autoImplicit false

namespace StructuredSSA
namespace Stmt

/-- The assignments in `s`, which is lowered from `t` in the region `r`, are **in time** for a loop
around it that has the header `head`, and before which the variables had the values `before`.  If
one of them brings back the value that its variable had, the header has a phi of the variable
afterwards; and if it brings back the value of the variable that it copies, and this is one that the
loop renews at all, the header has a phi of that variable already. -/
def InTime (head : BlockId) (before : Var → Except Fault (Option InstrId)) (renewed : Var → Prop)
    (r : Region) (t : Script) (s : Stmt) : Prop :=
  ∀ r₁ t₁ x e o t₂ t₃, Reaches r t s r₁ t₁ (.assign x e) → e.lower t₁ = .ok (o, t₂) →
    t₂.assign x o.value = .ok t₃ →
    (before x = .ok o.value → t₃.body.graph.HasPhi head x) ∧
    ∀ y, e = .var y → before y = .ok o.value → renewed y → t₁.body.graph.HasPhi head y

/-- The loops in `s`, which is lowered from `t` in the region `r`, renew their variables in time. -/
def RenewsFrom (r : Region) (t : Script) (s : Stmt) : Prop :=
  ∀ r₁ t₁ c body head t₂, Reaches r t s r₁ t₁ (.loop c body) → t₁.enterLoop c = .ok (head, t₂) →
    body.InTime head t₁.body.valueOf (· ∈ body.assigned) (.loopBody head) t₂

/-- **The loops of the program renew their variables in time.** -/
def Renews (options : Options) (s : Stmt) : Prop :=
  s.RenewsFrom .outermost { body := .start options }

/-- In the statement `s` and the loops `fs` around it variables are renewed in time, if `g` is what
the construction comes to. -/
structure Timely (g : Graph) (fs : List Frame) (r : Region) (t : Script) (s : Stmt) : Prop where
  inside : s.RenewsFrom r t
  around : ∀ f ∈ fs, s.InTime f.test (fun x => .ok (f.before x)) (g.HasPhi f.test) r t

namespace Timely

variable {g : Graph} {fs : List Frame} {r r' : Region} {t t' : Script} {s s' : Stmt}

/-- A part of the statement. -/
theorem inner (h : s.Timely g fs r t)
    (hpart : ∀ {r₁ t₁ u}, Reaches r' t' s' r₁ t₁ u → Reaches r t s r₁ t₁ u) :
    s'.Timely g fs r' t' where
  inside _ _ _ _ _ _ hreach := h.inside _ _ _ _ _ _ (hpart hreach)
  around f hf _ _ _ _ _ _ _ hreach := h.around f hf _ _ _ _ _ _ _ (hpart hreach)

/-- The body of a loop, which is one more loop around it. -/
theorem loop {c : Test} {f : Frame} (h : (Stmt.loop c s).Timely g fs r t)
    (enter : t.enterLoop c = .ok (f.test, t'))
    (hbefore : ∀ x, t.body.valueOf x = .ok (f.before x))
    (hphis : ∀ x, g.HasPhi f.test x → x ∈ s.assigned) :
    s.Timely g (f :: fs) (.loopBody f.test) t' where
  inside := (h.inner (.loopBody enter)).inside
  around f' hf' := by
    rcases List.mem_cons.1 hf' with rfl | hf'
    · intro _ _ x e o _ _ hreach hlower hassign
      obtain ⟨hown, hcopied⟩ :=
        h.inside _ _ _ _ _ _ .here enter _ _ x e o _ _ hreach hlower hassign
      refine ⟨fun hx => hown ((hbefore x).trans hx), fun y he hy hrenewed => ?_⟩
      exact hcopied y he ((hbefore y).trans hy) (hphis y hrenewed)
    · exact (h.inner (.loopBody enter)).around f' hf'

end Timely
end Stmt
end StructuredSSA
