import Wiring.Program.Basic
import Wiring.Proofs.Catalogue
import Wiring.Proofs.Program.Blocks

/-!
# Names that a program mentions

The names of types, functions and global variables that are written somewhere in a program, and what
becomes of a program when parts are added to it of which none of these is the name: whatever goes by
a mentioned name is what it was, and so is whatever there was before.
-/

namespace Wiring.Program

/-- A name, and what it is a name of. -/
inductive Mention where
  | type (name : String)
  | function (name : String)
  | global (name : String)
  deriving DecidableEq, Repr

/-- What is mentioned by the name of a type or of a pointer to it. -/
def mentionedType (typeName : String) : Mention := .type (pointee typeName)

/-- What an operand mentions. -/
def Operand.mentions : Operand → List Mention
  | global name => [.global name]
  | function name => [.function name]
  | param _ | value _ | const _ => []

/-- What an instruction mentions: in its operands, as the target of a call or its type arguments, or
as the type of an interface value. -/
def Instruction.mentions (i : Instruction) : List Mention :=
  i.operands.flatMap Operand.mentions ++
    match i with
    | call _ (.static function typeArgs) _ => .function function :: typeArgs.map mentionedType
    | makeInterface _ _ typeName => [mentionedType typeName]
    | _ => []

/-- What a function mentions. -/
def Function.mentions (f : Function) : List Mention :=
  f.instructions.flatMap Instruction.mentions ++
    f.blocks.flatMap fun b ↦ b.terminator.operands.flatMap Operand.mentions

/-- What a type mentions: itself, and the functions that implement its methods. -/
def NamedType.mentions (t : NamedType) : List Mention :=
  mentionedType t.name :: t.methods.toList.map fun m ↦ .function m.function

/-- What a program mentions. -/
def mentions (p : Program) : List Mention :=
  p.types.toList.flatMap NamedType.mentions ++ p.functions.toList.flatMap Function.mentions

/-- The program with types, functions and global variables added one after another. -/
def adding (p : Program) (types : List NamedType) (functions : List Function)
    (globals : List Global) : Program :=
  globals.foldl addGlobal (functions.foldl addFunction (types.foldl addType p))

/-- The names are new to the program, and nothing in it mentions them. -/
structure Unmentioned (p : Program) (types : List NamedType) (functions : List Function)
    (globals : List Global) : Prop where
  types : ∀ t ∈ types, p.types.find? t.name = none ∧ .type t.name ∉ p.mentions
  functions : ∀ f ∈ functions, p.function? f.name = none ∧ .function f.name ∉ p.mentions
  globals : ∀ g ∈ globals, p.global? g.name = none ∧ .global g.name ∉ p.mentions

/-- Parts are added to each catalogue on its own. -/
theorem adding_eq (p : Program) (types : List NamedType) (functions : List Function)
    (globals : List Global) : p.adding types functions globals =
      ⟨types.foldl .file p.types, functions.foldl .file p.functions,
        globals.foldl .file p.globals⟩ := by
  have htypes : types.foldl addType p = { p with types := types.foldl .file p.types } :=
    List.foldl_hom (fun c ↦ { p with types := c }) fun _ _ ↦ rfl
  have hfunctions (q : Program) : functions.foldl addFunction q =
      { q with functions := functions.foldl .file q.functions } :=
    List.foldl_hom (fun c ↦ { q with functions := c }) fun _ _ ↦ rfl
  have hglobals (q : Program) : globals.foldl addGlobal q =
      { q with globals := globals.foldl .file q.globals } :=
    List.foldl_hom (fun c ↦ { q with globals := c }) fun _ _ ↦ rfl
  rw [adding, htypes, hfunctions, hglobals]

namespace Unmentioned

variable {p : Program} {types : List NamedType} {functions : List Function}
  {globals : List Global} (h : p.Unmentioned types functions globals)
include h

/-- The function of a mentioned name is the one that it was. -/
theorem function?_of_mem {name : String} (hname : .function name ∈ p.mentions) :
    (p.adding types functions globals).function? name = p.function? name := by
  rw [adding_eq]
  refine Catalogue.find?_foldl_file (fun f hf heq ↦ (h.functions f hf).2 ?_) _
  rwa [show f.name = name from heq]

/-- The functions that there were are there. -/
theorem function?_of_some {name : String} {f : Function} (hf : p.function? name = some f) :
    (p.adding types functions globals).function? name = some f := by
  rw [adding_eq, ← hf]
  refine Catalogue.find?_foldl_file (fun g hg heq ↦ ?_) _
  have hnone := (h.functions g hg).1
  rw [show g.name = name from heq, hf] at hnone
  cases hnone

/-- The global variable of a mentioned name is the one that it was. -/
theorem global?_of_mem {name : String} (hname : .global name ∈ p.mentions) :
    (p.adding types functions globals).global? name = p.global? name := by
  rw [adding_eq]
  refine congrArg (Option.map Global.value)
    (Catalogue.find?_foldl_file (fun g hg heq ↦ (h.globals g hg).2 ?_) _)
  rwa [show g.name = name from heq]

/-- The type of a mentioned name is the one that it was. -/
theorem namedType?_of_mem {name : String} (hname : mentionedType name ∈ p.mentions) :
    (p.adding types functions globals).namedType? name = p.namedType? name := by
  rw [adding_eq]
  refine Catalogue.find?_foldl_file (fun t ht heq ↦ (h.types t ht).2 ?_) _
  rwa [show t.name = pointee name from heq]

/-- The types that pass a test are those that passed it, if it is not passed by what is added. -/
theorem filter_types {q : NamedType → Bool} (hq : ∀ t ∈ types, q t = false) :
    (p.adding types functions globals).types.toList.filter q = p.types.toList.filter q := by
  rw [adding_eq]
  refine Catalogue.filter_foldl_file hq fun t ht b hb hkey ↦ ?_
  have hne := List.find?_eq_none.mp (h.types t ht).1 b hb
  exact absurd (decide_eq_true hkey) hne

end Unmentioned

/-- The functions of methods are mentioned. -/
theorem function_mem_mentions {p : Program} {typeName method : String} {t : NamedType}
    {function : String} (ht : p.namedType? typeName = some t)
    (hm : t.method? method = some function) : .function function ∈ p.mentions := by
  obtain ⟨m, hfind, rfl⟩ := Option.map_eq_some_iff.mp hm
  refine List.mem_append_left _ (List.mem_flatMap.mpr ⟨t, List.mem_of_find?_eq_some ht, ?_⟩)
  exact List.mem_cons_of_mem _
    (List.mem_map.mpr ⟨m, List.mem_of_find?_eq_some hfind, rfl⟩)

/-- What an instruction of a function of the program mentions, the program does. -/
theorem mem_mentions {p : Program} {name : String} {f : Function} {i : Instruction} {m : Mention}
    (hf : p.function? name = some f) (hi : i ∈ f.instructions) (hm : m ∈ i.mentions) :
    m ∈ p.mentions := by
  refine List.mem_append_right _ (List.mem_flatMap.mpr ⟨f, List.mem_of_find?_eq_some hf, ?_⟩)
  exact List.mem_append_left _ (List.mem_flatMap.mpr ⟨i, hi, hm⟩)

end Wiring.Program
