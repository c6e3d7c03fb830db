import Wiring.Analysis.StaticValue
import Wiring.Flow.Graph

/-!
# Frames and what is remembered of them

A frame is a call of a function with what is known of its arguments. Flow graphs and results of
calls are remembered by frame. Not every answer may be remembered: one that was cut short, because
a call could not be followed at that time, might come out better at another time. Cut-offs are
counted for that; an answer is kept only if none happened while it was computed.
-/

namespace Wiring.Analysis

open Wiring.Program (Function)

/-- A function under some arguments. An argument may be unknown, and there may be fewer arguments
than parameters. -/
structure Frame where
  function : Function
  args : List (Option StaticValue) := []
  deriving DecidableEq, Repr

namespace Frame

/-- What is known of an argument. -/
def arg (f : Frame) (index : Nat) : Option StaticValue := (f.args[index]?).join

/-- The name of the function. -/
def name (f : Frame) : String := f.function.name

/-- What a frame is remembered by. -/
abbrev Key := String × List (Option StaticValue)

/-- The key of a frame. -/
def key (f : Frame) : Key := (f.name, f.args)

end Frame

/-- What is remembered, and how often an answer has been cut short. -/
structure Memo where
  cutoffs : Nat := 0
  flows : List (Frame.Key × FlowGraph) := []
  results : List ((Frame.Key × Nat) × Option StaticValue) := []
  deriving DecidableEq, Repr

/-- One more answer is cut short. -/
def Memo.cutShort (memo : Memo) : Memo := { memo with cutoffs := memo.cutoffs + 1 }

/-- A computation that remembers. -/
abbrev Memoized := StateM Memo

/-! The operations of such a computation are those of every kind of computation that has a memo among
what it keeps. -/

namespace Memoized

variable {m : Type → Type} [Monad m]

/-- The values of all items, or nothing if one has none; the items after it are not looked at. -/
def all {α β : Type} (f : α → m (Option β)) : List α → m (Option (List β))
  | [] => return some []
  | a :: rest => do
    match ← f a with
    | none => return none
    | some b => return (← all f rest).map (b :: ·)

variable [MonadStateOf Memo m]

/-- Note that an answer is being cut short. -/
def cutOff : m Unit := modifyThe Memo Memo.cutShort

/-- The remembered answer, or else the computed one; that is remembered in turn, unless it was cut
short. -/
def remembered {α : Type} (find? : Memo → Option α) (keep : α → Memo → Memo) (compute : m α) :
    m α := do
  let before ← getThe Memo
  match find? before with
  | some a => return a
  | none =>
    let a ← compute
    if (← getThe Memo).cutoffs = before.cutoffs then modifyThe Memo (keep a)
    return a

/-- Remember the flow graph of a frame. -/
def rememberedFlow (key : Frame.Key) : m FlowGraph → m FlowGraph :=
  remembered (fun memo ↦ memo.flows.lookup key)
    (fun g memo ↦ { memo with flows := (key, g) :: memo.flows })

/-- Remember a result of a call. -/
def rememberedResult (key : Frame.Key) (index : Nat) :
    m (Option StaticValue) → m (Option StaticValue) :=
  remembered (fun memo ↦ memo.results.lookup (key, index))
    (fun v memo ↦ { memo with results := ((key, index), v) :: memo.results })

end Memoized
end Wiring.Analysis
