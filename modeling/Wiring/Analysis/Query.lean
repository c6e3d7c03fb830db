import Wiring.Analysis.ConfigurerCalls

/-!
# Queries

The questions that can be asked about a program, while some functions are being followed. No flow
graph is being built when a question is asked.
-/

namespace Wiring.Analysis.Query

open Wiring.Program (Operand Instruction)

/-- What is known of an operand. -/
def resolve (env : Environment) (stack : List String) (frame : Frame) : Resolver Memoized :=
  resolveIn env (resultOf env stack) [] frame

/-- The truth value of an operand. -/
def resolveBool (env : Environment) (stack : List String) (frame : Frame) (o : Operand) :
    Memoized (Option Bool) :=
  resolveAs StaticValue.bool? (resolve env stack frame) o

/-- The text of an operand. -/
def resolveString (env : Environment) (stack : List String) (frame : Frame) (o : Operand) :
    Memoized (Option String) :=
  resolveAs StaticValue.string? (resolve env stack frame) o

/-- The concrete type of the value in an interface value. -/
def concreteType (env : Environment) (stack : List String) (frame : Frame) (o : Operand) :
    Memoized (Option String) :=
  resolveAs StaticValue.concreteType? (resolve env stack frame) o

/-- The elements of an operand that is a slice literal. -/
def sliceElements (frame : Frame) : Operand → Option (List Operand)
  | .value id =>
    match frame.function.definition id with
    | some (.slice _ elements) => some elements
    | _ => none
  | _ => none

/-- The flow graph of a frame. -/
def flow (env : Environment) (stack : List String) (frame : Frame) : Memoized FlowGraph :=
  flowOf env (resultOf env stack) [] frame

/-- The flow graph of a frame, built afresh. Its conditions are resolved as if for other purposes,
so a remembered graph of the same frame may be used for them. -/
def buildFlow (env : Environment) (stack : List String) (frame : Frame) : Memoized FlowGraph :=
  FlowGraph.build (m := Memoized) (resolveBool env stack frame) frame.function

/-- The calls on the configurer that the frame's function receives as one of its parameters. -/
def configurerCalls (env : Environment) (stack : List String) (frame : Frame)
    (configurer : Nat) : Memoized ConfigurerCalls :=
  findConfigurerCalls env stack frame configurer

end Wiring.Analysis.Query
