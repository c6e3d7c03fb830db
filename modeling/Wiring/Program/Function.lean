import Wiring.Catalogue
import Wiring.Program.Instruction

/-!
# Functions

A function is its blocks, the first of which is the entry. A function without blocks is external:
its body is not known.
-/

namespace Wiring.Program

/-- A named parameter. -/
structure Param where
  name : String
  typeName : String
  deriving DecidableEq, Repr

/-- Instructions that run one after another, and what happens then. -/
structure Block where
  instructions : List Instruction := []
  terminator : Terminator
  deriving DecidableEq, Repr

/-- A function or a method. -/
structure Function where
  name : String
  params : List Param := []
  blocks : List Block := []
  deriving DecidableEq, Repr

/-- Functions are told apart by name. -/
instance : Keyed Function String := ⟨Function.name⟩

namespace Function

/-- The body is not known. -/
def isExternal (f : Function) : Bool := f.blocks.isEmpty

/-- All instructions, block after block. -/
def instructions (f : Function) : List Instruction := f.blocks.flatMap Block.instructions

/-- The first instruction that defines a value. -/
def definition (f : Function) (id : ValueId) : Option Instruction :=
  f.instructions.find? fun i ↦ i.dest = some id

/-- The values that instructions define. -/
def definedValues (f : Function) : List ValueId := f.instructions.filterMap Instruction.dest

/-- The block at a position. -/
def block? (f : Function) (block : BlockId) : Option Block := f.blocks[block.toNat]?

/-- A value with a definition is among the defined values. -/
theorem mem_definedValues_of_definition {f : Function} {id : ValueId} {i : Instruction}
    (h : f.definition id = some i) : id ∈ f.definedValues := by
  have hd : i.dest = some id := by simpa using List.find?_some h
  exact List.mem_filterMap.mpr ⟨i, List.mem_of_find?_eq_some h, hd⟩

end Function
end Wiring.Program
