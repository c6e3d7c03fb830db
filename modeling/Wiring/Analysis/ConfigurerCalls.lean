import Wiring.Analysis.Resolve
import Wiring.Analysis.Taint
import Wiring.Fidelity

/-!
# Calls on a configurer

The calls that a function makes on the configurer it is given, itself or through the functions
that it passes the configurer on to. The calls come in the order of the blocks and instructions
that make them, those of a followed function in the place of the call that follows it.
-/

namespace Wiring.Analysis

open Wiring.Program (Operand Instruction Function Block)

/-- A method call on the configurer, in the frame that makes it. -/
structure ConfigurerCall where
  method : String
  args : List Operand
  frame : Frame
  /-- Speculative if the call, or a call that leads to it, is not made in every run. -/
  fidelity : Fidelity
  deriving DecidableEq, Repr

/-- The calls on a configurer; incomplete if there may be others. -/
structure ConfigurerCalls where
  calls : List ConfigurerCall := []
  fidelity : Fidelity := {}
  deriving DecidableEq, Repr

namespace ConfigurerCalls

/-- No call, and none that might be missing. -/
def none : ConfigurerCalls := {}

/-- No call, but there may be some. -/
def unknown : ConfigurerCalls := { fidelity := .onlyIncomplete }

/-- The calls of both, in order. -/
def append (a b : ConfigurerCalls) : ConfigurerCalls :=
  ⟨a.calls ++ b.calls, max a.fidelity b.fidelity⟩

instance : Append ConfigurerCalls := ⟨append⟩

/-- All calls, in order. -/
def concat (l : List ConfigurerCalls) : ConfigurerCalls := l.foldr append none

end ConfigurerCalls

/-- A call that passes the configurer on: what is called and with what, and at which of the
arguments the configurer is passed. -/
structure Handover where
  callee : Program.Callee
  args : List Operand
  positions : List Nat
  deriving DecidableEq, Repr

/-- What an instruction does with the configurer. -/
inductive Encounter where
  /-- It calls a method of the configurer. -/
  | call (method : String) (args : List Operand)
  /-- It passes the configurer on. -/
  | handover (h : Handover)
  deriving DecidableEq, Repr

namespace Taint

/-- What is found in a function, by what is found of its encounters. Calls may be missing if the
configurer escapes the function. -/
def gather (t : Taint) (f : Function) (found : List ConfigurerCalls) : ConfigurerCalls :=
  let lost : ConfigurerCalls := if t.escapes f then .unknown else .none
  lost ++ .concat found

/-- The positions of arguments that may be the configurer. -/
def positions (t : Taint) (args : List Operand) : List Nat :=
  (args.zipIdx.filter fun (a, _) ↦ t.contains a).map Prod.snd

/-- What an instruction does with the configurer, if anything. -/
def encounter (t : Taint) : Instruction → Option Encounter
  | .call _ callee args =>
    let passedOn : Option Encounter :=
      match t.positions args with
      | [] => none
      | positions => some (.handover ⟨callee, args, positions⟩)
    match callee with
    | .invoke receiver method => if t.contains receiver then some (.call method args) else passedOn
    | .static _ _ | .dynamic _ => passedOn
  | _ => none

/-- The encounters of the reachable blocks, in order, each with whether its block runs in every
run. -/
def encounters (t : Taint) (f : Function) (g : FlowGraph) : List (Encounter × Bool) :=
  g.blocks.flatMap fun b ↦
    ((f.blocks[b]?.map Block.instructions).getD []).filterMap fun i ↦
      (t.encounter i).map (·, g.isUnconditional b)

end Taint

section Encounters

variable {m : Type → Type} [Monad m]

/-- The arguments of a followed call: those that are the configurer are unknown, the others are
resolved in the calling frame. -/
def boundArgs (resolve : Resolver m) (h : Handover) : m (List (Option StaticValue)) :=
  h.args.zipIdx.mapM fun (a, i) ↦ if i ∈ h.positions then return none else resolve a

/-- The calls to which an encounter leads. It has the doubts of the frame, and another one unless
its block runs in every run. A handover leads to what is found in the function that is called, if
that can be followed. -/
def pursue (env : Environment) (frame : Frame) (inherited : Fidelity)
    (follow : Function → Handover → Fidelity → m ConfigurerCalls) (e : Encounter × Bool) :
    m ConfigurerCalls :=
  let fidelity := if e.2 then inherited else max inherited .onlySpeculative
  match e.1 with
  | .call method args => return { calls := [⟨method, args, frame, fidelity⟩] }
  | .handover h =>
    match env.followed h.callee with
    | none => return .unknown
    | some f => follow f h fidelity

end Encounters

/-- The calls on the configurer in a frame whose function is on top of the stack. The configurer is
passed to some of its parameters; doubts about the frame itself are inherited. -/
def walk (env : Environment) (stack : List String) (frame : Frame) (params : List Nat)
    (inherited : Fidelity) : Memoized ConfigurerCalls := do
  let taint := Taint.ofParams frame.function params
  let g ← flowOf env (resultOf env stack) [] frame
  let found ← (taint.encounters frame.function g).mapM <|
    pursue env frame inherited fun f h fidelity ↦ do
      if hf : env.MayEnter stack f.name then
        have := Environment.remaining_lt hf
        let results := resultOf env (f.name :: stack)
        let args ← boundArgs (resolveIn env results [] frame) h
        walk env (f.name :: stack) ⟨f, args⟩ h.positions fidelity
      else
        Memoized.cutOff
        return .unknown
  return taint.gather frame.function found
termination_by (env.remaining stack).length

/-- The calls on the configurer that a frame's function receives as one of its parameters. -/
def findConfigurerCalls (env : Environment) (stack : List String) (frame : Frame)
    (configurer : Nat) : Memoized ConfigurerCalls := do
  if env.MayEnter stack frame.name then
    walk env (frame.name :: stack) frame [configurer] .immaculate
  else
    Memoized.cutOff
    return .unknown

end Wiring.Analysis
