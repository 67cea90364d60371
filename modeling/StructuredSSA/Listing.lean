import StructuredSSA.Instr

/-!
# The listing of instructions

Every instruction is listed on one line as `%id = ` and its operation.  Values are written `%id`,
a missing value `undef`, a register `rN`, and a branch without a target has a question mark in
its place.  A retired instruction names its stand-in at the end of the line.
-/

set_option autoImplicit false

namespace StructuredSSA

/-- A value in a listing. -/
def InstrId.text (i : InstrId) : String := s!"%{i}"

/-- A block in a listing. -/
def BlockId.text (b : BlockId) : String := s!"block {b}"

/-- The parts with a comma and a blank between them. -/
def commaSeparated (parts : List String) : String := ", ".intercalate parts

/-- The value that an operand reads; the variable is not shown. -/
def Operand.text (o : Operand) : String :=
  match o.value with
  | some i => InstrId.text i
  | none => "undef"

/-- The opcode in a listing. -/
def UnaryOp.name : UnaryOp → String
  | .neg => "Neg"
  | .load => "Load"
  | .write => "Write"
  | .ret => "Return"

/-- The opcode in a listing. -/
def ArithOp.name : ArithOp → String
  | .add => "Add"
  | .sub => "Sub"
  | .mul => "Mul"
  | .div => "Div"

/-- The opcode in a listing. -/
def BinaryOp.name : BinaryOp → String
  | .arith op => op.name
  | .cmp => "Cmp"
  | .phi => "Phi"

/-- The opcode of a branch in a listing. -/
def Cond.name : Cond → String
  | .always => "Bra"
  | .whenever .eq => "Beq"
  | .whenever .ne => "Bne"
  | .whenever .le => "Ble"
  | .whenever .lt => "Blt"
  | .whenever .ge => "Bge"
  | .whenever .gt => "Bgt"

/-- The target of a branch in a listing. -/
def Target.text : Target → String
  | .instr i => InstrId.text i
  | .startOf b => "<start of " ++ BlockId.text b ++ ">"

/-- An operation in a listing. -/
def Operation.text : Operation → String
  | .const value => "const #" ++ toString value.toInt
  | .unary op arg => op.name ++ " " ++ arg.text
  | .branch cond target => cond.name ++ " " ++ (target.map Target.text).getD "?"
  | .binary op lhs rhs => op.name ++ " " ++ lhs.text ++ " " ++ rhs.text
  | .move src register => "Move " ++ src.text ++ s!" -> r{register}"
  | .read => "Read"
  | .newline => "WriteNewLine"
  | .call _ name args => "Call " ++ name ++ "(" ++ commaSeparated (args.map InstrId.text) ++ ")"
  | .argument slot => s!"Arg r{slot}"
  | .halt => "End"

/-- The line of an instruction. -/
def Instr.text (ins : Instr) : String :=
  let note := match ins.standIn with
    | some e => " (eliminated by " ++ InstrId.text e ++ ")"
    | none => ""
  InstrId.text ins.id ++ " = " ++ ins.op.text ++ note

end StructuredSSA
