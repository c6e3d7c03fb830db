import Wiring.Json.Value
import Wiring.Program.Basic

/-!
# Saving programs

Programs as JSON values. Every field is written, also an absent one; types, functions and globals
come in ascending order of their names.
-/

namespace Wiring.Program

/-- A value under its tag. -/
def tagged (tag : String) (content : Json) : Json := .object [(tag, content)]

namespace Constant

/-- Constants are JSON scalars. -/
def toJson : Constant → Json
  | bool b => .bool b
  | int i => .int i.toInt
  | string s => .string s
  | nil => .null

end Constant

/-- A value by its number. -/
def ValueId.toJson (id : ValueId) : Json := .nat id.number.toNat

/-- A position by its number. -/
def position (n : UInt64) : Json := .nat n.toNat

namespace Operand

/-- An operand under the tag of its kind. -/
def toJson : Operand → Json
  | param index => tagged "Param" (position index)
  | value id => tagged "Value" id.toJson
  | const c => tagged "Const" c.toJson
  | global name => tagged "Global" (.string name)
  | function name => tagged "Function" (.string name)

end Operand

/-- A list of operands. -/
def operands (l : List Operand) : Json := .array (l.map Operand.toJson)

namespace Callee

/-- The target of a call under the tag of its kind. -/
def toJson : Callee → Json
  | static function typeArgs =>
    tagged "Static" (.object [("function", .string function), ("type_args", .strings typeArgs)])
  | invoke receiver method =>
    tagged "Invoke" (.object [("receiver", receiver.toJson), ("method", .string method)])
  | dynamic value => tagged "Dynamic" (.object [("value", value.toJson)])

end Callee

namespace BinaryOp

/-- The tag of an operator. -/
def tag : BinaryOp → String
  | add => "Add"
  | sub => "Sub"
  | mul => "Mul"
  | eq => "Eq"
  | ne => "Ne"
  | lt => "Lt"
  | le => "Le"
  | gt => "Gt"
  | ge => "Ge"

end BinaryOp

namespace Instruction

/-- An instruction under its tag, as a record of its fields. -/
def toJson : Instruction → Json
  | call dest callee args => tagged "Call" (.object
      [("dest", (dest.map ValueId.toJson).getD .null), ("callee", callee.toJson),
        ("args", operands args)])
  | makeInterface dest value typeName => tagged "MakeInterface" (.object
      [("dest", dest.toJson), ("value", value.toJson), ("ty", .string typeName)])
  | changeInterface dest value => tagged "ChangeInterface" (.object
      [("dest", dest.toJson), ("value", value.toJson)])
  | extract dest tuple index => tagged "Extract" (.object
      [("dest", dest.toJson), ("tuple", tuple.toJson), ("index", position index)])
  | alloc dest typeName => tagged "Alloc" (.object
      [("dest", dest.toJson), ("ty", .string typeName)])
  | store addr value => tagged "Store" (.object
      [("addr", addr.toJson), ("value", value.toJson)])
  | load dest addr => tagged "Load" (.object [("dest", dest.toJson), ("addr", addr.toJson)])
  | binOp dest op lhs rhs => tagged "BinOp" (.object
      [("dest", dest.toJson), ("op", .string op.tag), ("lhs", lhs.toJson), ("rhs", rhs.toJson)])
  | not dest value => tagged "Not" (.object [("dest", dest.toJson), ("value", value.toJson)])
  | phi dest edges => tagged "Phi" (.object [("dest", dest.toJson), ("edges", operands edges)])
  | slice dest elements => tagged "Slice" (.object
      [("dest", dest.toJson), ("elements", operands elements)])
  | opaqueValue dest description => tagged "Opaque" (.object
      [("dest", dest.toJson), ("description", .string description)])

end Instruction

namespace Terminator

/-- The end of a block under its tag; a panic is its tag alone. -/
def toJson : Terminator → Json
  | jump target => tagged "Jump" (position target)
  | branch cond thenBlock elseBlock => tagged "If" (.object
      [("cond", cond.toJson), ("then_block", position thenBlock),
        ("else_block", position elseBlock)])
  | ret results => tagged "Return" (operands results)
  | panic => .string "Panic"

end Terminator

/-- A parameter as a record. -/
def Param.toJson (p : Param) : Json :=
  .object [("name", .string p.name), ("type", .string p.typeName)]

/-- A block as a record. -/
def Block.toJson (b : Block) : Json :=
  .object [("instructions", .array (b.instructions.map Instruction.toJson)),
    ("terminator", b.terminator.toJson)]

/-- A function as a record. -/
def Function.toJson (f : Function) : Json :=
  .object [("name", .string f.name), ("params", .array (f.params.map Param.toJson)),
    ("blocks", .array (f.blocks.map Block.toJson))]

/-- A named type as a record, its methods as an object. -/
def NamedType.toJson (t : NamedType) : Json :=
  .object [("name", .string t.name), ("implements", .strings t.interfaces),
    ("methods", .object (t.methods.toList.map fun m ↦ (m.name, .string m.function)))]

/-- A global variable as a record. -/
def Global.toJson (g : Global) : Json :=
  .object [("name", .string g.name), ("value", g.value.toJson)]

/-- The whole program. -/
def toJson (p : Program) : Json :=
  .object [("types", .array (p.types.toList.map NamedType.toJson)),
    ("functions", .array (p.functions.toList.map Function.toJson)),
    ("globals", .array (p.globals.toList.map Global.toJson))]

/-- The text in which the program is saved. -/
def save (p : Program) : String := p.toJson.text

end Wiring.Program
