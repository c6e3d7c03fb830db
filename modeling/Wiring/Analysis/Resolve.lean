import Wiring.Analysis.Environment
import Wiring.Analysis.Memo

/-!
# Resolving operands

What an operand is known to be within a frame. Resolution follows definitions, locals, branches
and calls; whatever it cannot follow is unknown.

It is built in layers, each of which ends for a reason of its own. Within a frame no value is
followed into itself. The flow graph that tells which stores to a local count is not asked for
while it is being built. And no function is followed into itself.

What an instruction defines and what returns agree on is found in the same way however the values
they take are: that may be any kind of computation.
-/

namespace Wiring.Analysis

open Wiring.Program (Operand ValueId Instruction Callee Function Block)

/-- What resolution within a frame draws on. -/
structure Sources (m : Type → Type) where
  /-- A result of a call, given the frame of the call. -/
  result : Frame → Nat → m (Option StaticValue)
  /-- The flow graph of the frame itself, if it is available. -/
  flow : m (Option FlowGraph)

/-- How an operand is resolved. -/
abbrev Resolver (m : Type → Type) := Operand → m (Option StaticValue)

section Instructions

variable {m : Type → Type} [Monad m]

/-- A result of a call. A route constructor is not followed: its only result is the route. -/
def resolveCall (env : Environment) (src : Sources m) (resolve : Resolver m) (callee : Callee)
    (args : List Operand) (index : Nat) : m (Option StaticValue) :=
  let follow : m (Option StaticValue) :=
    match env.followed callee with
    | none => return none
    | some f => do src.result ⟨f, ← args.mapM resolve⟩ index
  match callee with
  | .static function typeArgs =>
    if (env.vocabulary.routeType? function).isSome then
      return if index = 0 then some (.constructed function typeArgs) else none
    else follow
  | .dynamic _ | .invoke _ _ => follow

/-- The values stored to an address in those blocks that can be reached; without a flow graph, in
all blocks. -/
def storedTo (f : Function) (flow : Option FlowGraph) (addr : Operand) : List Operand :=
  f.blocks.zipIdx.flatMap fun (block, b) ↦
    if flow.all fun g ↦ g.isReachable b then
      block.instructions.filterMap fun i ↦ match i with
        | .store a value => if a = addr then some value else none
        | _ => none
    else []

/-- The value in a local: what all stores to it agree on. -/
def loadLocal (src : Sources m) (f : Function) (resolve : Resolver m) (id : ValueId) :
    m (Option StaticValue) := do
  let stored := storedTo f (← src.flow) (.value id)
  return (← Memoized.all resolve stored).bind StaticValue.agreement

/-- The value at an address: that of a global variable, or the value in a local. -/
def resolveLoad (env : Environment) (src : Sources m) (f : Function) (resolve : Resolver m) :
    Operand → m (Option StaticValue)
  | .global name => return (env.program.global? name).map .const
  | .value id =>
    match f.definition id with
    | some (.alloc _ _) => loadLocal src f resolve id
    | _ => return none
  | .param _ | .const _ | .function _ => return none

/-- The value that an instruction defines. -/
def resolveInstruction (env : Environment) (src : Sources m) (f : Function)
    (resolve : Resolver m) : Instruction → m (Option StaticValue)
  | .makeInterface _ value typeName => return some (.box typeName (← resolve value))
  | .changeInterface _ value => resolve value
  | .call _ callee args => resolveCall env src resolve callee args 0
  | .extract _ (.value tuple) index =>
    match f.definition tuple with
    | some (.call _ callee args) => resolveCall env src resolve callee args index.toNat
    | _ => return none
  | .extract _ _ _ => return none
  | .load _ addr => resolveLoad env src f resolve addr
  | .binOp _ op lhs rhs => do
    match ← resolve lhs with
    | none => return none
    | some a => return (← resolve rhs).bind (StaticValue.fold op a)
  | .not _ value => return (← resolve value).bind StaticValue.negation
  | .phi _ edges => return (← Memoized.all resolve edges).bind StaticValue.agreement
  | .alloc _ _ | .store _ _ | .slice _ _ | .opaqueValue _ _ => return none

/-- What is known of an operand, read as a value of some kind. -/
def resolveAs {α : Type} (read : StaticValue → Option α) (resolve : Resolver m) (o : Operand) :
    m (Option α) :=
  return (← resolve o).bind read

/-- The operands that a function returns as one of its results, block by block; none where a block
returns too few. -/
def returned (f : Function) (g : FlowGraph) (index : Nat) : List (Option Operand) :=
  g.returning.filterMap fun b ↦ match f.blocks[b]?.map Block.terminator with
    | some (.ret results) => some results[index]?
    | _ => none

/-- A result of a function: what all its reachable returns agree on. -/
def agreedReturn (flow : m FlowGraph) (resolve : Resolver m) (f : Function) (index : Nat) :
    m (Option StaticValue) := do
  let g ← flow
  let values ← Memoized.all
    (fun o ↦ match o with
      | some operand => resolve operand
      | none => return none)
    (returned f g index)
  return values.bind StaticValue.agreement

end Instructions

/-- The values of a function that are not being followed. -/
def unvisited (f : Function) (visiting : List ValueId) : List ValueId :=
  f.definedValues.filter fun id ↦ id ∉ visiting

/-- Following a value leaves fewer to follow. -/
theorem unvisited_lt {f : Function} {visiting : List ValueId} {id : ValueId} {i : Instruction}
    (hv : id ∉ visiting) (hd : f.definition id = some i) :
    (unvisited f (id :: visiting)).length < (unvisited f visiting).length := by
  have hsub : unvisited f (id :: visiting) = (unvisited f visiting).filter (· ≠ id) := by
    simp [unvisited, List.filter_filter, not_or]
  rw [hsub]
  refine List.length_filter_lt_length_iff_exists.mpr ⟨id, ?_, by simp⟩
  simpa [unvisited] using ⟨Function.mem_definedValues_of_definition hd, hv⟩

/-- An operand within a frame, while some values are being followed; it is for the definition of a
value that is not to tell what the value is. -/
def resolveBy {m : Type → Type} [Monad m] (frame : Frame) (visiting : List ValueId)
    (define : ∀ id i, id ∉ visiting → frame.function.definition id = some i →
      m (Option StaticValue)) : Resolver m
  | .const c => return some (.const c)
  | .param index => return frame.arg index.toNat
  | .value id =>
    if hv : id ∈ visiting then return none
    else match hd : frame.function.definition id with
      | none => return none
      | some i => define id i hv hd
  | .global _ | .function _ => return none

/-- An operand within a frame, while some values are being followed. -/
def resolveOperand {m : Type → Type} [Monad m] (env : Environment) (src : Sources m)
    (frame : Frame) (visiting : List ValueId) : Resolver m :=
  resolveBy frame visiting fun id i hv hd ↦
    have := unvisited_lt hv hd
    resolveInstruction env src frame.function
      (fun o ↦ resolveOperand env src frame (id :: visiting) o) i
termination_by (unvisited frame.function visiting).length

/-- Results of calls, given the functions whose flow graphs are being built. -/
abbrev Results := (building : List String) → Frame → Nat → Memoized (Option StaticValue)

/-- While a flow graph is being built it is not available, and what depends on it is cut short. -/
def unavailable : Memoized (Option FlowGraph) := do
  Memoized.cutOff
  return none

/-- The flow graph of a frame, built by resolving the conditions of its branches. -/
def builtFlow (env : Environment) (results : Results) (building : List String) (frame : Frame) :
    Memoized FlowGraph :=
  let src : Sources Memoized := { result := results (frame.name :: building), flow := unavailable }
  FlowGraph.build (resolveAs StaticValue.bool? (resolveOperand env src frame [])) frame.function

/-- The flow graph of a frame, built unless it is remembered. -/
def flowOf (env : Environment) (results : Results) (building : List String) (frame : Frame) :
    Memoized FlowGraph :=
  Memoized.rememberedFlow frame.key (builtFlow env results building frame)

/-- What resolution within a frame draws on, given the functions whose flow graphs are being
built. -/
def sources (env : Environment) (results : Results) (building : List String) (frame : Frame) :
    Sources Memoized where
  result := results building
  flow :=
    if frame.name ∈ building then unavailable
    else some <$> flowOf env results building frame

/-- An operand within a frame. -/
def resolveIn (env : Environment) (results : Results) (building : List String) (frame : Frame) :
    Resolver Memoized :=
  resolveOperand env (sources env results building frame) frame []

/-- A result of a function in a frame. -/
def agreedResult (env : Environment) (results : Results) (building : List String) (frame : Frame)
    (index : Nat) : Memoized (Option StaticValue) :=
  agreedReturn (flowOf env results building frame) (resolveIn env results building frame)
    frame.function index

/-- A result of a call that is made while the functions on the stack are being followed. A call
that may not be followed cuts the answer short. -/
def resultOf (env : Environment) (stack building : List String) (frame : Frame) (index : Nat) :
    Memoized (Option StaticValue) :=
  Memoized.rememberedResult frame.key index <|
    if h : env.MayEnter stack frame.name then
      have := Environment.remaining_lt h
      agreedResult env
        (fun building callee index ↦ resultOf env (frame.name :: stack) building callee index)
        building frame index
    else do
      Memoized.cutOff
      return none
termination_by (env.remaining stack).length

end Wiring.Analysis
