import Wiring.Program.Constant

/-!
# Instructions

The instructions of a function in single-assignment form: operands, calls, and the operations
that move values around. What the form does not describe is an opaque value.
-/

namespace Wiring.Program

/-- A value that an instruction of a function defines. -/
structure ValueId where
  number : UInt32
  deriving DecidableEq, Repr

/-- The value's number after a `t`. -/
def ValueId.text (id : ValueId) : String := "t" ++ toString id.number.toNat

/-- A block of a function, by its position; the first block is the entry. -/
abbrev BlockId := UInt64

/-- The block's number after a `b`. -/
def blockText (block : Nat) : String := "b" ++ toString block

/-- What an instruction works on. -/
inductive Operand where
  /-- The parameter at a position; the receiver of a method has the first. -/
  | param (index : UInt64)
  /-- The value that an instruction of the function defines. -/
  | value (id : ValueId)
  | const (c : Constant)
  /-- The address of a global variable. -/
  | global (name : String)
  /-- A function by its qualified name. -/
  | function (name : String)
  deriving DecidableEq, Repr

/-- The operand as it is shown. -/
def Operand.text : Operand → String
  | param index => "p" ++ toString index.toNat
  | value id => id.text
  | const c => c.text
  | global name => "&" ++ name
  | function name => name

/-- The target of a call. -/
inductive Callee where
  /-- A function by its qualified name, with the type arguments of a generic one. -/
  | static (function : String) (typeArgs : List String)
  /-- A method of an interface value. -/
  | invoke (receiver : Operand) (method : String)
  /-- A function value. -/
  | dynamic (value : Operand)
  deriving DecidableEq, Repr

/-- An instruction inside a block. -/
inductive Instruction where
  | call (dest : Option ValueId) (callee : Callee) (args : List Operand)
  /-- Put a value of a concrete type into an interface. -/
  | makeInterface (dest : ValueId) (value : Operand) (typeName : String)
  /-- Turn an interface value into one of another interface. -/
  | changeInterface (dest : ValueId) (value : Operand)
  /-- Take one result of a call that has several. -/
  | extract (dest : ValueId) (tuple : Operand) (index : UInt64)
  /-- A fresh local variable, by its address. -/
  | alloc (dest : ValueId) (typeName : String)
  | store (addr value : Operand)
  | load (dest : ValueId) (addr : Operand)
  | binOp (dest : ValueId) (op : BinaryOp) (lhs rhs : Operand)
  | not (dest : ValueId) (value : Operand)
  /-- Merge the values that come along the edges into a block. -/
  | phi (dest : ValueId) (edges : List Operand)
  /-- The slice of the variadic arguments of a call. -/
  | slice (dest : ValueId) (elements : List Operand)
  /-- A value of which only a description is known. -/
  | opaqueValue (dest : ValueId) (description : String)
  deriving DecidableEq, Repr

/-- The value that an instruction defines. -/
def Instruction.dest : Instruction → Option ValueId
  | call dest _ _ => dest
  | store _ _ => none
  | makeInterface dest _ _ | changeInterface dest _ | extract dest _ _ | alloc dest _
  | load dest _ | binOp dest _ _ _ | not dest _ | phi dest _ | slice dest _
  | opaqueValue dest _ => some dest

/-- How a block ends. -/
inductive Terminator where
  | jump (target : BlockId)
  | branch (cond : Operand) (thenBlock elseBlock : BlockId)
  | ret (results : List Operand)
  /-- The function ends in a panic. -/
  | panic
  deriving DecidableEq, Repr

/-- The blocks that may come next, whatever a condition says. -/
def Terminator.successors : Terminator → List BlockId
  | jump target => [target]
  | branch _ thenBlock elseBlock => [thenBlock, elseBlock]
  | ret _ | panic => []

end Wiring.Program
