import Wiring.Json.Decoder
import Wiring.Program.Encoding

/-!
# Loading programs

Programs from JSON text. Lists that are empty and an absent destination may be left out, and so
may the description of an opaque value. Of several types, functions or globals of one name the
last one stays.
-/

namespace Wiring.Program

open Wiring.Json (Node Decoded Refusal required Content)

/-- A constant inside some containers. It is read for whatever it is before it is judged. -/
def decodeConstant (depth : Nat) (n : Node) : Decoded Constant := do
  Decoded.ofText (n.read depth)
  match n with
  | .null => return .nil
  | .bool b => return .bool b
  | .number t => required (t.integer?.bind Constant.ofInt?)
  | .string _ => return .string (← n.asString)
  | _ => .error .shape

/-- A position of 64 bits. -/
def decodePosition (n : Node) : Decoded UInt64 := UInt64.ofNat <$> n.asNat UInt64.size

/-- The number of a value, of 32 bits. -/
def decodeValueId (n : Node) : Decoded ValueId := (⟨UInt32.ofNat ·⟩) <$> n.asNat UInt32.size

/-- A destination that may be absent. -/
def decodeDest : Node → Decoded (Option ValueId)
  | .null => .ok none
  | n => some <$> decodeValueId n

/-- An operand inside some containers. -/
def decodeOperand (depth : Nat) : Node → Decoded Operand :=
  Node.tagged [
    ("Param", .decoded fun n ↦ .param <$> decodePosition n),
    ("Value", .decoded fun n ↦ .value <$> decodeValueId n),
    ("Const", .decoded fun n ↦ .const <$> decodeConstant (depth + 1) n),
    ("Global", .decoded fun n ↦ .global <$> n.asString),
    ("Function", .decoded fun n ↦ .function <$> n.asString)]

/-- A list of operands. -/
def decodeOperands (depth : Nat) : Node → Decoded (List Operand) :=
  Node.asList (decodeOperand (depth + 1))

/-- A list of strings. -/
def decodeStrings : Node → Decoded (List String) := Node.asList Node.asString

/-- The target of a call inside some containers. -/
def decodeCallee (depth : Nat) : Node → Decoded Callee :=
  Node.tagged [
    ("Static", .decoded fun n ↦ do
      let (function, typeArgs) ←
        n.record₂ ("function", Node.asString) ("type_args", decodeStrings)
      return .static (← required function) (typeArgs.getD [])),
    ("Invoke", .decoded fun n ↦ do
      let (receiver, method) ←
        n.record₂ ("receiver", decodeOperand (depth + 2)) ("method", Node.asString)
      return .invoke (← required receiver) (← required method)),
    ("Dynamic", .decoded fun n ↦ do
      let value ← n.record₁ ("value", decodeOperand (depth + 2))
      return .dynamic (← required value))]

/-- An operator, by its tag. -/
def decodeOp : Node → Decoded BinaryOp :=
  Node.tagged (BinaryOp.all.map fun op ↦ (op.tag, .empty op))

/-- An instruction inside some containers. A call may leave out its destination and arguments, a
slice its elements, an opaque value its description. -/
def decodeInstruction (depth : Nat) : Node → Decoded Instruction :=
  let dest := ("dest", decodeValueId)
  let operand (name : String) := (name, decodeOperand (depth + 2))
  let operands (name : String) := (name, decodeOperands (depth + 2))
  let string (name : String) := (name, Node.asString)
  Node.tagged [
    ("Call", .decoded fun n ↦ do
      let (dest, callee, args) ←
        n.record₃ ("dest", decodeDest) ("callee", decodeCallee (depth + 2)) (operands "args")
      return .call (dest.getD none) (← required callee) (args.getD [])),
    ("MakeInterface", .decoded fun n ↦ do
      let (dest, value, typeName) ← n.record₃ dest (operand "value") (string "ty")
      return .makeInterface (← required dest) (← required value) (← required typeName)),
    ("ChangeInterface", .decoded fun n ↦ do
      let (dest, value) ← n.record₂ dest (operand "value")
      return .changeInterface (← required dest) (← required value)),
    ("Extract", .decoded fun n ↦ do
      let (dest, tuple, index) ← n.record₃ dest (operand "tuple") ("index", decodePosition)
      return .extract (← required dest) (← required tuple) (← required index)),
    ("Alloc", .decoded fun n ↦ do
      let (dest, typeName) ← n.record₂ dest (string "ty")
      return .alloc (← required dest) (← required typeName)),
    ("Store", .decoded fun n ↦ do
      let (addr, value) ← n.record₂ (operand "addr") (operand "value")
      return .store (← required addr) (← required value)),
    ("Load", .decoded fun n ↦ do
      let (dest, addr) ← n.record₂ dest (operand "addr")
      return .load (← required dest) (← required addr)),
    ("BinOp", .decoded fun n ↦ do
      let (dest, op, lhs, rhs) ← n.record₄ dest ("op", decodeOp) (operand "lhs") (operand "rhs")
      return .binOp (← required dest) (← required op) (← required lhs) (← required rhs)),
    ("Not", .decoded fun n ↦ do
      let (dest, value) ← n.record₂ dest (operand "value")
      return .not (← required dest) (← required value)),
    ("Phi", .decoded fun n ↦ do
      let (dest, edges) ← n.record₂ dest (operands "edges")
      return .phi (← required dest) (← required edges)),
    ("Slice", .decoded fun n ↦ do
      let (dest, elements) ← n.record₂ dest (operands "elements")
      return .slice (← required dest) (elements.getD [])),
    ("Opaque", .decoded fun n ↦ do
      let (dest, description) ← n.record₂ dest (string "description")
      return .opaqueValue (← required dest) (description.getD ""))]

/-- How a block ends, inside some containers. -/
def decodeTerminator (depth : Nat) : Node → Decoded Terminator :=
  Node.tagged [
    ("Jump", .decoded fun n ↦ .jump <$> decodePosition n),
    ("If", .decoded fun n ↦ do
      let (cond, thenBlock, elseBlock) ←
        n.record₃ ("cond", decodeOperand (depth + 2)) ("then_block", decodePosition)
          ("else_block", decodePosition)
      return .branch (← required cond) (← required thenBlock) (← required elseBlock)),
    ("Return", .decoded fun n ↦ .ret <$> decodeOperands (depth + 1) n),
    ("Panic", .empty .panic)]

/-- A parameter. -/
def decodeParam (n : Node) : Decoded Param := do
  let (name, typeName) ← n.record₂ ("name", Node.asString) ("type", Node.asString)
  return ⟨← required name, ← required typeName⟩

/-- A block inside some containers; it may leave out its instructions. -/
def decodeBlock (depth : Nat) (n : Node) : Decoded Block := do
  let (instructions, terminator) ←
    n.record₂ ("instructions", Node.asList (decodeInstruction (depth + 2)))
      ("terminator", decodeTerminator (depth + 1))
  return ⟨instructions.getD [], ← required terminator⟩

/-- A function inside some containers; it may leave out its parameters and blocks. -/
def decodeFunction (depth : Nat) (n : Node) : Decoded Function := do
  let (name, params, blocks) ←
    n.record₃ ("name", Node.asString) ("params", Node.asList decodeParam)
      ("blocks", Node.asList (decodeBlock (depth + 2)))
  return ⟨← required name, params.getD [], blocks.getD []⟩

/-- Methods by name; of several of one name the last one stays. -/
def decodeMethods (n : Node) : Decoded (Catalogue Method) := do
  return .ofList ((← n.asMap Node.asString).map fun (name, function) ↦ ⟨name, function⟩)

/-- A named type; it may leave out its interfaces and methods. -/
def decodeNamedType (n : Node) : Decoded NamedType := do
  let (name, interfaces, methods) ←
    n.record₃ ("name", Node.asString) ("implements", decodeStrings) ("methods", decodeMethods)
  return ⟨← required name, interfaces.getD [], methods.getD .empty⟩

/-- A global variable inside some containers. -/
def decodeGlobal (depth : Nat) (n : Node) : Decoded Global := do
  let (name, value) ← n.record₂ ("name", Node.asString) ("value", decodeConstant (depth + 1))
  return ⟨← required name, ← required value⟩

/-- A whole program. -/
def decode (n : Node) : Decoded Program := do
  let (types, functions, globals) ←
    n.record₃ ("types", Node.asList decodeNamedType)
      ("functions", Node.asList (decodeFunction 2)) ("globals", Node.asList (decodeGlobal 2))
  return .ofLists (types.getD []) (functions.getD []) (globals.getD [])

/-- The program that a text is the saved form of, whether or not it passes the check. -/
def parse (text : String) : Decoded Program := do
  let (n, trailing) := Json.readText text
  let p ← decode n
  match trailing with
  | none => return p
  | some f => .error (.text f)

/-- Why a program cannot be loaded. -/
inductive LoadError where
  /-- The text is not the saved form of a program. -/
  | refused (r : Refusal)
  /-- The program has a branch to a block that does not exist. -/
  | dangling (b : DanglingBranch)
  deriving DecidableEq, Repr

/-- Load a program and check it. -/
def load (text : String) : Except LoadError Program := do
  let p ← (parse text).mapError .refused
  p.check.mapError .dangling
  return p

end Wiring.Program
