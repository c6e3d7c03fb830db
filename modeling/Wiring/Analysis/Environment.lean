import Wiring.Analysis.Vocabulary

/-!
# Environments

What an analysis is about: a program, the names to recognize in it, and how deep calls are
followed. Calls are followed into functions of the program, never into one that is already being
followed, and only so deep.
-/

namespace Wiring.Analysis

open Wiring.Program (Callee Function)

/-- A program under analysis. -/
structure Environment where
  program : Program
  vocabulary : Vocabulary := {}
  maxCallDepth : Nat := 32
  deriving DecidableEq, Repr

namespace Environment

/-- The names of the program's functions. -/
def functionNames (env : Environment) : List String :=
  env.program.functions.toList.map Function.name

/-- The functions that are not being followed. -/
def remaining (env : Environment) (stack : List String) : List String :=
  env.functionNames.filter fun name ↦ name ∉ stack

/-- The function of the name may be followed while those on the stack are. -/
def MayEnter (env : Environment) (stack : List String) (name : String) : Prop :=
  name ∈ env.functionNames ∧ name ∉ stack ∧ stack.length < env.maxCallDepth

instance (env : Environment) (stack : List String) (name : String) :
    Decidable (env.MayEnter stack name) :=
  inferInstanceAs (Decidable (_ ∧ _ ∧ _))

/-- Entering a function leaves fewer to enter: that is why following calls ends. -/
theorem remaining_lt {env : Environment} {stack : List String} {name : String}
    (h : env.MayEnter stack name) :
    (env.remaining (name :: stack)).length < (env.remaining stack).length := by
  have hsub : env.remaining (name :: stack) = (env.remaining stack).filter (· ≠ name) := by
    simp [remaining, List.filter_filter, not_or]
  rw [hsub]
  refine List.length_filter_lt_length_iff_exists.mpr ⟨name, ?_, by simp⟩
  simpa [remaining] using ⟨h.1, h.2.1⟩

/-- The function that a call runs, if it can be told. -/
def staticCallee (env : Environment) : Callee → Option Function
  | .static function _ => env.program.function? function
  | .dynamic (.function function) => env.program.function? function
  | .dynamic _ | .invoke _ _ => none

/-- The function that a call runs, if it can be told and its body is known. -/
def followed (env : Environment) (callee : Callee) : Option Function :=
  (env.staticCallee callee).filter fun f ↦ !f.isExternal

end Environment
end Wiring.Analysis
