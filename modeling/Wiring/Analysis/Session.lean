import Wiring.Analysis.Query

/-!
# Sessions

A series of questions about one program. Between the questions functions may be entered and left;
what has been remembered for one question serves the next.
-/

namespace Wiring.Analysis

/-- The functions that are being followed, the innermost first, and what has been remembered. -/
structure Session where
  stack : List String := []
  memo : Memo := {}
  deriving DecidableEq, Repr

namespace Session

/-- Nothing is being followed and nothing has been remembered. -/
def fresh : Session := {}

/-- How many functions are being followed. -/
def depth (s : Session) : Nat := s.stack.length

/-- Start to follow a function, if it may be followed. -/
def enter (env : Environment) (name : String) (s : Session) : Bool × Session :=
  if env.MayEnter s.stack name then (true, { s with stack := name :: s.stack })
  else (false, { s with memo := s.memo.cutShort })

/-- Stop following the innermost function, if any. -/
def leave (s : Session) : Session := { s with stack := s.stack.tail }

/-- Ask a question. -/
def ask {α : Type} (question : List String → Memoized α) (s : Session) : α × Session :=
  let (a, memo) := question s.stack s.memo
  (a, { s with memo })

end Session
end Wiring.Analysis
