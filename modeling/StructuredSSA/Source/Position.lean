import StructuredSSA.Source.Lower

/-!
# Positions in a structured program

While a program is lowered, construction comes to each of its statements in turn.  A position is
described by the side of the innermost construct that it is in, the construction so far, and the
statement that comes next.
-/

set_option autoImplicit false

namespace StructuredSSA

/-- `Reaches r t s r' t' u`: lowering the statement `s` from `t`, in the region `r`, comes to the
statement `u` with `t'` built so far, in the region `r'`. -/
inductive Stmt.Reaches : Region → Script → Stmt → Region → Script → Stmt → Prop where
  | here {r : Region} {t : Script} {s : Stmt} : Reaches r t s r t s
  | first {r r' : Region} {t t' : Script} {s₁ s₂ u : Stmt}
      (inner : Reaches r t s₁ r' t' u) : Reaches r t (.seq s₁ s₂) r' t' u
  | second {r r' : Region} {t t₁ t' : Script} {s₁ s₂ u : Stmt} (before : s₁.lower t = .ok t₁)
      (inner : Reaches r t₁ s₂ r' t' u) : Reaches r t (.seq s₁ s₂) r' t' u
  | thenOnly {r r' : Region} {t t₁ t' : Script} {c : Test} {s u : Stmt} {parent join : BlockId}
      (enter : t.enterIf c = .ok (parent, join, t₁))
      (inner : Reaches (.thenSide join) t₁ s r' t' u) : Reaches r t (.ifThen c s) r' t' u
  | thenSide {r r' : Region} {t t₁ t' : Script} {c : Test} {s₁ s₂ u : Stmt}
      {parent join : BlockId} (enter : t.enterIf c = .ok (parent, join, t₁))
      (inner : Reaches (.thenSide join) t₁ s₁ r' t' u) : Reaches r t (.ifElse c s₁ s₂) r' t' u
  | elseSide {r r' : Region} {t t₁ t₂ t₃ t' : Script} {c : Test} {s₁ s₂ u : Stmt}
      {parent join : BlockId} (enter : t.enterIf c = .ok (parent, join, t₁))
      (before : s₁.lower t₁ = .ok t₂) (turn : t₂.enterElse parent = .ok t₃)
      (inner : Reaches (.elseSide join) t₃ s₂ r' t' u) : Reaches r t (.ifElse c s₁ s₂) r' t' u
  | loopBody {r r' : Region} {t t₁ t' : Script} {c : Test} {s u : Stmt} {head : BlockId}
      (enter : t.enterLoop c = .ok (head, t₁))
      (inner : Reaches (.loopBody head) t₁ s r' t' u) : Reaches r t (.loop c s) r' t' u

end StructuredSSA
