import StructuredSSA.Graph.Basic

/-!
# The listing of graphs

A block is listed as a head line with its number and its roles, a line for each edge out of it,
and a line for each of its instructions.
-/

set_option autoImplicit false

namespace StructuredSSA

/-- The role in a listing. -/
def Role.name : Role → String
  | .plain => "Basic"
  | .ifHead => "If"
  | .thenSide => "IfThen"
  | .elseSide => "IfElse"
  | .join => "IfJoin"
  | .loopHead => "While"
  | .loopBody => "WhileBody"
  | .loopExit => "WhileFollow"

/-- A line that names where an edge leads, or nothing. -/
def edgeLine (kind : String) (dst : Option BlockId) : String :=
  match dst with
  | some b => "  " ++ kind ++ " -> " ++ BlockId.text b ++ "\n"
  | none => ""

/-- The head line of a block and the lines of its edges. -/
def Block.text (blk : Block) : String :=
  BlockId.text blk.id ++ " [" ++ commaSeparated (blk.listedRoles.map Role.name) ++ "]\n"
    ++ edgeLine "fallthrough" blk.fallTo ++ edgeLine "branch" blk.branchTo

namespace Graph

/-- A block with its instructions, one a line. -/
def blockText (g : Graph) (blk : Block) : String :=
  blk.text ++ String.join ((blk.instrs.filterMap g.instr?).map fun ins => "  " ++ ins.text ++ "\n")

/-- The listing of a whole graph. -/
def text (g : Graph) : String := String.join (g.blocks.toList.map g.blockText)

end Graph

end StructuredSSA
