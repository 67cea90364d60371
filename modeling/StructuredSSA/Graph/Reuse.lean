import StructuredSSA.Graph.Basic

/-!
# Finding a result to share

An arithmetic operation is looked for among the available instructions with its opcode, the most
recent first: an identical one is taken before one that merely computes the same value.
-/

set_option autoImplicit false

namespace StructuredSSA
namespace Graph

/-- The first of the instructions whose operation satisfies `p`. -/
def firstWhose (g : Graph) (p : Operation → Bool) : List InstrId → Except Fault (Option InstrId)
  | [] => .ok none
  | i :: rest => do
    let ins ← g.instr i
    if p ins.op then return some i else g.firstWhose p rest

/-- The available instruction that answers for `op`, if `op` is arithmetic and there is one. -/
def match? (g : Graph) (a : Available) (op : Operation) : Except Fault (Option Match) :=
  match op.arith? with
  | none => .ok none
  | some k => do
    match ← g.firstWhose (fun o => o = op) (a.candidates k) with
    | some i => return some (.identical i)
    | none =>
      let i ← g.firstWhose (fun o => o.sameValue op) (a.candidates k)
      return i.map .equivalent

end Graph
end StructuredSSA
