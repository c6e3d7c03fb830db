import Wiring.Proofs.Analysis.Procedures

/-!
# Attempts

Computations that are told what is under way: whoever has a function followed, or a flow graph
built, tells the computation that is to be made meanwhile.
-/

namespace Wiring.Analysis

/-- A computation that remembers, that is told what is under way, and that need not come to an
end. -/
abbrev Attempt := ReaderT UnderWay (StateT Memo Option)

namespace Attempt

instance : Tracking Attempt where
  following env name compute otherwise := do
    if env.Open (← read).stack name then
      withReader (fun u ↦ u.enter name) compute
    else
      Memoized.cutOff
      return otherwise
  building name compute := withReader (fun u ↦ u.build name) compute
  isBuilding name := return name ∈ (← read).building
  ofOption a := fun _ memo ↦ a.map (·, memo)

variable {env : Environment} {name : String} {u : UnderWay} {α : Type} {c : Attempt α} {a : α}

theorem following_of_open (h : env.Open u.stack name) :
    Tracking.following env name c a u = c (u.enter name) := by
  change (if env.Open u.stack name then withReader (fun u ↦ u.enter name) c
    else do Memoized.cutOff; return a : Attempt α) u = _
  rw [if_pos h]
  rfl

theorem following_of_not_open (h : ¬ env.Open u.stack name) :
    Tracking.following env name c a u = fun memo ↦ some (a, memo.cutShort) := by
  change (if env.Open u.stack name then withReader (fun u ↦ u.enter name) c
    else do Memoized.cutOff; return a : Attempt α) u = _
  rw [if_neg h]
  rfl

/-- An answer that is not remembered is attempted, and kept if it is not cut short. -/
theorem remembered_eq (find? : Memo → Option α) (keep : α → Memo → Memo) (c : Attempt α)
    (memo : Memo) : Memoized.remembered find? keep c u memo = match find? memo with
      | some a => some (a, memo)
      | none => (c u memo).map fun r ↦
          (r.1, if r.2.cutoffs = memo.cutoffs then keep r.1 r.2 else r.2) := by
  have hrun : Memoized.remembered find? keep c u memo = (match find? memo with
      | some a => return a
      | none => do
        let a ← c
        if (← getThe Memo).cutoffs = memo.cutoffs then modifyThe Memo (keep a)
        return a : Attempt α) u memo := rfl
  rw [hrun]
  cases find? memo with
  | some a => rfl
  | none =>
    change (c u memo).bind (fun r ↦ (if r.2.cutoffs = memo.cutoffs then (do
      modifyThe Memo (keep r.1)
      return r.1) else return r.1 : Attempt α) u r.2) = _
    cases c u memo with
    | none => rfl
    | some r =>
      dsimp only [Option.bind_some, Option.map_some]
      split <;> rfl

end Attempt
end Wiring.Analysis
