import Wiring.Program.Function

/-!
# Drafts of functions

A function is drafted by adding parameters and blocks, by appending instructions to blocks and by
ending blocks. The draft numbers the values, so every operation gets a value of its own. A block
that has not been ended returns nothing.
-/

namespace Wiring.Program

/-- An instruction that defines a value, before the value is numbered. -/
inductive Operation where
  | call (callee : Callee) (args : List Operand)
  | makeInterface (value : Operand) (typeName : String)
  | changeInterface (value : Operand)
  | extract (tuple : Operand) (index : UInt64)
  | alloc (typeName : String)
  | load (addr : Operand)
  | binOp (op : BinaryOp) (lhs rhs : Operand)
  | not (value : Operand)
  | phi (edges : List Operand)
  | slice (elements : List Operand)
  | opaqueValue (description : String)
  deriving DecidableEq, Repr

/-- The instruction that defines a value by the operation. -/
def Operation.defining (dest : ValueId) : Operation → Instruction
  | call callee args => .call (some dest) callee args
  | makeInterface value typeName => .makeInterface dest value typeName
  | changeInterface value => .changeInterface dest value
  | extract tuple index => .extract dest tuple index
  | alloc typeName => .alloc dest typeName
  | load addr => .load dest addr
  | binOp op lhs rhs => .binOp dest op lhs rhs
  | not value => .not dest value
  | phi edges => .phi dest edges
  | slice elements => .slice dest elements
  | opaqueValue description => .opaqueValue dest description

/-- The instruction of an operation defines the value it is given. -/
theorem Operation.dest_defining (dest : ValueId) (op : Operation) :
    (op.defining dest).dest = some dest := by
  cases op <;> rfl

/-- One step of drafting a function. -/
inductive FunctionStep where
  | param (name typeName : String)
  | block
  | define (block : BlockId) (op : Operation)
  | store (block : BlockId) (addr value : Operand)
  | terminate (block : BlockId) (t : Terminator)
  deriving DecidableEq, Repr

/-- What a step yields for use in later steps. -/
inductive StepResult where
  | operand (o : Operand)
  | block (id : BlockId)
  | nothing
  deriving DecidableEq, Repr

/-- A step names a block that the draft does not have. -/
structure NoSuchBlock where
  block : BlockId
  deriving DecidableEq, Repr

/-- A function under construction, and the number of its next value. -/
structure FunctionDraft where
  function : Function
  nextValue : UInt32 := 0
  deriving DecidableEq, Repr

namespace FunctionDraft

/-- A function of the name, without parameters and blocks. -/
def new (name : String) : FunctionDraft := { function := { name } }

/-- Change a block. -/
def modifyBlock (d : FunctionDraft) (block : BlockId) (f : Block → Block) :
    Except NoSuchBlock FunctionDraft :=
  if block.toNat < d.function.blocks.length then
    .ok { d with function := { d.function with
      blocks := d.function.blocks.modify block.toNat f } }
  else .error ⟨block⟩

/-- Append an instruction to a block. -/
def append (d : FunctionDraft) (block : BlockId) (i : Instruction) :
    Except NoSuchBlock FunctionDraft :=
  d.modifyBlock block fun b ↦ { b with instructions := b.instructions ++ [i] }

/-- The draft after a step, and what the step yields. -/
def apply (d : FunctionDraft) : FunctionStep → Except NoSuchBlock (FunctionDraft × StepResult)
  | .param name typeName =>
    let params := d.function.params ++ [⟨name, typeName⟩]
    .ok ({ d with function := { d.function with params } },
      .operand (.param (UInt64.ofNat d.function.params.length)))
  | .block =>
    let blocks := d.function.blocks ++ [{ terminator := .ret [] }]
    .ok ({ d with function := { d.function with blocks } },
      .block (UInt64.ofNat d.function.blocks.length))
  | .define block op => do
    let id : ValueId := ⟨d.nextValue⟩
    let d ← ({ d with nextValue := d.nextValue + 1 } : FunctionDraft).append block (op.defining id)
    return (d, .operand (.value id))
  | .store block addr value => do return (← d.append block (.store addr value), .nothing)
  | .terminate block t => do
    return (← d.modifyBlock block fun b ↦ { b with terminator := t }, .nothing)

/-- The draft after some steps and what each of them yields, up to the first that fails. -/
def run (d : FunctionDraft) : List FunctionStep → List StepResult × Except NoSuchBlock FunctionDraft
  | [] => ([], .ok d)
  | s :: rest =>
    match d.apply s with
    | .error e => ([], .error e)
    | .ok (d, r) => let (rs, out) := d.run rest; (r :: rs, out)

end FunctionDraft
end Wiring.Program
