import StructuredSSA.Graph.Listing
import StructuredSSA.Program.Basic

/-!
# The listing of programs

The functions come first, each under a line with its name and parameters and followed by an empty
line, and the main body last.
-/

set_option autoImplicit false

namespace StructuredSSA

/-- The listing of a body. -/
def Body.text (s : Body) : String := s.graph.text

/-- The head line of a function. -/
def Definition.headText (d : Definition) : String :=
  match d.ident with
  | some f => s!"function {f}(" ++ commaSeparated (d.params.map fun x => s!"{x}") ++ ")\n"
  | none => "function <unnamed>\n"

/-- The listing of a function. -/
def Definition.text (d : Definition) : String := d.headText ++ d.body.text ++ "\n"

/-- The listing of a program. -/
def Program.text (p : Program) : String :=
  String.join (p.functions.map Definition.text) ++ "main\n" ++ p.main.text

end StructuredSSA
