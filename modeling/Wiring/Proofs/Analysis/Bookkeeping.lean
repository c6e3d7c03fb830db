import Wiring.Proofs.Analysis.Procedures

/-!
# Keeping the books

Computations with one call stack for all of an analysis. What is under way is not handed down from
call to call but kept in a record: a function that comes to be followed is put on the stack, and
whoever put it there takes it off. So it is not plain from how the procedures are written that what
is under way is the same after a call as before it, whichever way the call comes to its end.

The record also has all that has been under way before.
-/

namespace Wiring.Analysis

namespace UnderWay

/-- The innermost function is not followed any longer. -/
def leave (u : UnderWay) : UnderWay := { u with stack := u.stack.tail }

/-- The innermost flow graph is not being built any longer. -/
def built (u : UnderWay) : UnderWay := { u with building := u.building.tail }

end UnderWay

/-- What is under way, what was at the moments before, the latest first, and what is remembered. -/
structure Record where
  now : UnderWay := {}
  past : List UnderWay := []
  memo : Memo := {}
  deriving DecidableEq, Repr

/-- A computation that keeps a record, and that need not come to an end. -/
abbrev Recorded := StateT Record Option

namespace Recorded

/-- What is remembered is part of the record. -/
instance : MonadStateOf Memo Recorded where
  get := return (← getThe Record).memo
  set memo := modifyThe Record fun r ↦ { r with memo }
  modifyGet f := modifyGetThe Record fun r ↦ ((f r.memo).1, { r with memo := (f r.memo).2 })

/-- Something else comes to be under way. -/
def change (f : UnderWay → UnderWay) : Recorded Unit :=
  modifyThe Record fun r ↦ { r with now := f r.now, past := r.now :: r.past }

/-- Start to follow a function, if that may be done; if not, an answer is being cut short. -/
def enter (env : Environment) (name : String) : Recorded Bool := do
  if env.Open (← getThe Record).now.stack name then
    change fun u ↦ u.enter name
    return true
  else
    Memoized.cutOff
    return false

/-- Stop following the innermost function. -/
def leave : Recorded Unit := change UnderWay.leave

instance : Tracking Recorded where
  following env name compute otherwise := do
    if ← enter env name then
      let a ← compute
      leave
      return a
    else return otherwise
  building name compute := do
    change fun u ↦ u.build name
    let a ← compute
    change UnderWay.built
    return a
  isBuilding name := return name ∈ (← getThe Record).now.building
  ofOption a := fun r ↦ a.map (·, r)

variable {env : Environment} {name : String} {r : Record} {α : Type} {c : Recorded α} {a : α}

theorem enter_of_open (h : env.Open r.now.stack name) : enter env name r =
    some (true, { r with now := r.now.enter name, past := r.now :: r.past }) :=
  congrFun (if_pos h) r

theorem enter_of_not_open (h : ¬ env.Open r.now.stack name) : enter env name r =
    some (false, { r with memo := r.memo.cutShort }) :=
  congrFun (if_neg h) r

theorem following_of_open (h : env.Open r.now.stack name) :
    Tracking.following env name c a r =
      (do change fun u ↦ u.enter name; let b ← c; leave; return b : Recorded α) r := by
  change (enter env name r).bind _ = _
  rw [enter_of_open h]
  rfl

theorem following_of_not_open (h : ¬ env.Open r.now.stack name) :
    Tracking.following env name c a r = some (a, { r with memo := r.memo.cutShort }) := by
  change (enter env name r).bind _ = _
  rw [enter_of_not_open h]
  rfl

end Recorded
end Wiring.Analysis
