import Wiring.Program.Function

/-!
# Programs

A whole program by names: its types with their methods, its functions, and the constants that
its global variables hold.
-/

namespace Wiring.Program

/-- A method and the function that implements it. -/
structure Method where
  name : String
  function : String
  deriving DecidableEq, Repr

instance : Keyed Method String := ⟨Method.name⟩

/-- A named type, the interfaces it implements, and its methods. -/
structure NamedType where
  name : String
  interfaces : List String := []
  methods : Catalogue Method := .empty
  deriving DecidableEq, Repr

instance : Keyed NamedType String := ⟨NamedType.name⟩

/-- A global variable that holds one constant throughout. -/
structure Global where
  name : String
  value : Constant
  deriving DecidableEq, Repr

instance : Keyed Global String := ⟨Global.name⟩

namespace NamedType

/-- The type implements the interface. -/
def implements (t : NamedType) (interface : String) : Bool := t.interfaces.contains interface

/-- The part of the type's name before its last dot; empty if there is none. -/
def package (t : NamedType) : String :=
  String.ofList ((t.name.toList.reverse.dropWhile (· ≠ '.')).drop 1).reverse

/-- The function that implements a method, by name. -/
def method? (t : NamedType) (name : String) : Option String :=
  (t.methods.find? name).map Method.function

end NamedType
end Wiring.Program

namespace Wiring

open Wiring.Program

/-- A program, its parts in ascending order of their names. -/
structure Program where
  types : Catalogue NamedType := .empty
  functions : Catalogue Function := .empty
  globals : Catalogue Global := .empty
  deriving DecidableEq, Repr

namespace Program

/-- Add a type, in place of one of the same name. -/
def addType (p : Program) (t : NamedType) : Program := { p with types := p.types.file t }

/-- Add a function, in place of one of the same name. -/
def addFunction (p : Program) (f : Function) : Program :=
  { p with functions := p.functions.file f }

/-- Add a global variable, in place of one of the same name. -/
def addGlobal (p : Program) (g : Global) : Program := { p with globals := p.globals.file g }

/-- The program of some types, functions and globals; of equal names the last one stays. -/
def ofLists (types : List NamedType) (functions : List Function) (globals : List Global) :
    Program :=
  ⟨.ofList types, .ofList functions, .ofList globals⟩

/-- The name of the type that a pointer type, written with a star, points to. -/
def pointee (typeName : String) : String :=
  match typeName.toList with
  | '*' :: rest => String.ofList rest
  | _ => typeName

/-- The type of a name; for a pointer type, the type it points to. -/
def namedType? (p : Program) (name : String) : Option NamedType := p.types.find? (pointee name)

/-- The function of a name. -/
def function? (p : Program) (name : String) : Option Function := p.functions.find? name

/-- The constant that a global variable holds. -/
def global? (p : Program) (name : String) : Option Constant :=
  (p.globals.find? name).map Global.value

/-- The function that implements a method of a type. -/
def method? (p : Program) (typeName method : String) : Option Function := do
  p.function? (← (← p.namedType? typeName).method? method)

/-- A branch to a block that its function does not have. -/
structure DanglingBranch where
  function : String
  block : Nat
  target : BlockId
  deriving DecidableEq, Repr

/-- The fault in words. -/
def DanglingBranch.text (b : DanglingBranch) : String :=
  b.function ++ ": block " ++ blockText b.block ++ " branches to " ++ blockText b.target.toNat ++
    ", which does not exist"

/-- The dangling branches of a function, in order. -/
def danglingBranches (f : Function) : List DanglingBranch :=
  f.blocks.zipIdx.flatMap fun (b, i) ↦
    (b.terminator.successors.filter fun t ↦ f.blocks.length ≤ t.toNat).map (⟨f.name, i, ·⟩)

/-- The program has no dangling branch; else the first one. -/
def check (p : Program) : Except DanglingBranch Unit :=
  match p.functions.toList.flatMap danglingBranches with
  | [] => .ok ()
  | b :: _ => .error b

end Program
end Wiring
