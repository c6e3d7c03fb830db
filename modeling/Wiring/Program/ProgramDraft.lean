import Wiring.Program.Basic

/-!
# Drafts of programs

A program is drafted by declaring types, methods, functions and global variables in any order.
Methods are attached when the draft is completed, and then their types must have been declared.
-/

namespace Wiring.Program

/-- A method of a type, and the function that implements it. -/
structure MethodDeclaration where
  typeName : String
  method : String
  function : String
  deriving DecidableEq, Repr

/-- A method was declared of a type that was not. -/
structure UndeclaredType where
  declaration : MethodDeclaration
  deriving DecidableEq, Repr

/-- The fault in words. -/
def UndeclaredType.text (u : UndeclaredType) : String :=
  "method " ++ u.declaration.method ++ " added to undeclared type " ++ u.declaration.typeName

/-- One step of drafting a program. -/
inductive ProgramStep where
  | namedType (name : String) (interfaces : List String)
  | method (declaration : MethodDeclaration)
  | function (f : Function)
  /-- Declare a function without a body. -/
  | external (name : String)
  | global (g : Global)
  deriving DecidableEq, Repr

/-- A program under construction, with the types and methods that are still to be added. -/
structure ProgramDraft where
  program : Program := {}
  types : List NamedType := []
  methods : List MethodDeclaration := []
  deriving DecidableEq, Repr

namespace ProgramDraft

/-- The draft after a step. -/
def apply (d : ProgramDraft) : ProgramStep → ProgramDraft
  | .namedType name interfaces => { d with types := d.types ++ [{ name, interfaces }] }
  | .method declaration => { d with methods := d.methods ++ [declaration] }
  | .function f => { d with program := d.program.addFunction f }
  | .external name => { d with program := d.program.addFunction { name } }
  | .global g => { d with program := d.program.addGlobal g }

/-- Attach a method to the first type of its name. -/
def attach (types : List NamedType) (m : MethodDeclaration) :
    Except UndeclaredType (List NamedType) :=
  match types with
  | [] => .error ⟨m⟩
  | t :: rest =>
    if t.name = m.typeName then
      .ok ({ t with methods := t.methods.file ⟨m.method, m.function⟩ } :: rest)
    else (attach rest m).map (t :: ·)

/-- Attach the methods, then add the types in the order of their declaration. -/
def complete (d : ProgramDraft) : Except UndeclaredType Program := do
  let types ← d.methods.foldlM attach d.types
  return types.foldl Program.addType d.program

end ProgramDraft

/-- The program that the steps draft. -/
def ofSteps (steps : List ProgramStep) : Except UndeclaredType Program :=
  (steps.foldl ProgramDraft.apply {}).complete

end Wiring.Program
