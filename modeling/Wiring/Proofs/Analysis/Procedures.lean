import Wiring.Proofs.Analysis.Moment

/-!
# The procedures of the analysis

The analysis once more, as mutually recursive procedures that nothing but the tests for what is
under way keeps from calling each other without end. No procedure calls another directly: the
procedures to be called are a parameter, so that it can be said how deep calls may be nested.

The procedures are there for every kind of computation that remembers and that knows what is under
way. The loops within a procedure are those that build and read flow graphs. They are written so
that they fail where a round would bring them no nearer to their end, and there is no end if one of
the loops fails.
-/

namespace Wiring.Analysis

open Wiring.Program (Operand ValueId)

/-- What is under way: the functions that are being followed and those whose flow graphs are being
built, the innermost first. -/
structure UnderWay where
  stack : List String := []
  building : List String := []
  deriving DecidableEq, Repr

namespace UnderWay

/-- A function comes to be followed. -/
def enter (u : UnderWay) (name : String) : UnderWay := { u with stack := name :: u.stack }

/-- A flow graph comes to be built. -/
def build (u : UnderWay) (name : String) : UnderWay := { u with building := name :: u.building }

end UnderWay

/-- The function is not being followed, and not too many are. -/
def Environment.Open (env : Environment) (stack : List String) (name : String) : Prop :=
  name ∉ stack ∧ stack.length < env.maxCallDepth

instance (env : Environment) (stack : List String) (name : String) :
    Decidable (env.Open stack name) :=
  inferInstanceAs (Decidable (_ ∧ _))

/-- Computations that know what is under way, and that need not come to an end. -/
class Tracking (m : Type → Type) where
  /-- An answer that is found while a function is being followed. If that may not be done, the
  other answer is given, and it is noted that an answer is cut short. -/
  following {α : Type} (env : Environment) (name : String) (compute : m α) (otherwise : α) : m α
  /-- An answer that is found while a flow graph of the function is being built. -/
  building {α : Type} (name : String) (compute : m α) : m α
  /-- Whether a flow graph of the function is being built. -/
  isBuilding (name : String) : m Bool
  /-- Go on with what has been found; without it there is no end. -/
  ofOption {α : Type} (a : Option α) : m α

/-- The procedures of the analysis. -/
structure Procedures (m : Type → Type) where
  /-- Resolve an operand within a frame while some values are being followed. -/
  operand (frame : Frame) (visiting : List ValueId) (o : Operand) : m (Option StaticValue)
  /-- Find a result of a call. -/
  result (frame : Frame) (index : Nat) : m (Option StaticValue)
  /-- Find the flow graph of a frame. -/
  flow (frame : Frame) : m FlowGraph
  /-- Walk through a frame whose function is being followed. -/
  walk (frame : Frame) (params : List Nat) (inherited : Fidelity) : m ConfigurerCalls
  /-- Find the calls on a configurer. -/
  calls (frame : Frame) (configurer : Nat) : m ConfigurerCalls

namespace Procedures

open Tracking

variable {m : Type → Type} [Monad m] [MonadStateOf Memo m] [Tracking m] (env : Environment)

section Body

variable (p : Procedures m)

/-- The flow graph of a frame, unless one of its function is being built. -/
def available (frame : Frame) : m (Option FlowGraph) := do
  if ← isBuilding frame.name then
    Memoized.cutOff
    return none
  else some <$> p.flow frame

/-- Pass the configurer on to a function, unless that may not be followed. -/
def follow (frame : Frame) (f : Program.Function) (h : Handover) (fidelity : Fidelity) :
    m ConfigurerCalls :=
  let found : m ConfigurerCalls := do
    let args ← boundArgs (p.operand frame []) h
    p.walk ⟨f, args⟩ h.positions fidelity
  following env f.name found .unknown

/-- The procedures, given the procedures that they call. -/
def body : Procedures m where
  operand frame visiting := resolveBy frame visiting fun id i _ _ ↦
    let src : Sources m := { result := p.result, flow := p.available frame }
    resolveInstruction env src frame.function (p.operand frame (id :: visiting)) i
  result frame index :=
    Memoized.rememberedResult frame.key index <| following env frame.name
      (agreedReturn (p.flow frame) (p.operand frame []) frame.function index) none
  flow frame :=
    Memoized.rememberedFlow frame.key <| building frame.name <|
      FlowGraph.build? (resolveAs StaticValue.bool? (p.operand frame [])) frame.function >>=
        ofOption
  walk frame params inherited := do
    let taint := Taint.ofParams frame.function params
    let g ← p.flow frame
    let encounters ← ofOption (taint.encounters? frame.function g)
    let found ← encounters.mapM (pursue env frame inherited (p.follow env frame))
    return taint.gather frame.function found
  calls frame configurer :=
    following env frame.name (p.walk frame [configurer] .immaculate) .unknown

end Body

/-- The procedures with calls nested so deep at most; there is no end to a call that is nested
deeper. -/
def nested : Nat → Procedures m
  | 0 => ⟨fun _ _ _ ↦ ofOption none, fun _ _ ↦ ofOption none, fun _ ↦ ofOption none,
      fun _ _ _ ↦ ofOption none, fun _ _ ↦ ofOption none⟩
  | depth + 1 => (nested depth).body env

end Procedures
end Wiring.Analysis
