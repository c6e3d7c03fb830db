import Wiring.Proofs.Analysis.Remembering

/-!
# Questions one after another

All questions about a program share what is remembered. A question that is not cut short gets the
same answer ever after, whatever is asked in between. One that is cut short need not: what is
remembered may spare it the call that it was not allowed to follow.
-/

namespace Wiring.Analysis

open Wiring.Program (Operand)
open Memoized

/-- A question about a program. -/
inductive Question where
  | resolve (frame : Frame) (o : Operand)
  | resolveBool (frame : Frame) (o : Operand)
  | resolveString (frame : Frame) (o : Operand)
  | concreteType (frame : Frame) (o : Operand)
  | flow (frame : Frame)
  | configurerCalls (frame : Frame) (configurer : Nat)

namespace Question

/-- The frame that a question is about. -/
def frame : Question → Frame
  | resolve frame _ | resolveBool frame _ | resolveString frame _ | concreteType frame _
  | flow frame | configurerCalls frame _ => frame

/-- What answers a question. -/
def Answer : Question → Type
  | resolve _ _ => Option StaticValue
  | resolveBool _ _ => Option Bool
  | resolveString _ _ | concreteType _ _ => Option String
  | flow _ => FlowGraph
  | configurerCalls _ _ => ConfigurerCalls

/-- Ask a question while no function is being followed. -/
def ask (env : Environment) : (q : Question) → Memoized q.Answer
  | resolve frame o => Query.resolve env [] frame o
  | resolveBool frame o => Query.resolveBool env [] frame o
  | resolveString frame o => Query.resolveString env [] frame o
  | concreteType frame o => Query.concreteType env [] frame o
  | flow frame => Query.flow env [] frame
  | configurerCalls frame configurer => Query.configurerCalls env [] frame configurer

end Question

/-- What is remembered once some questions have been asked, one after another. -/
def rememberedAfter (env : Environment) (history : List Question) : Memo :=
  history.foldl (fun m q ↦ (q.ask env m).2) {}

variable {env : Environment} {history earlier later : List Question} {q : Question}

/-- Every question is steady. -/
theorem steady_ask (hframe : env.Has q.frame) : Steady env (q.ask env) := by
  have hresolve (frame : Frame) (hframe : env.Has frame) (o : Operand) :
      Steady env (Query.resolve env [] frame o) :=
    (remembering_steady env).resolveIn_self [] frame hframe o
  cases q with
  | resolve frame o => exact hresolve frame hframe o
  | resolveBool frame o => exact (hresolve frame hframe o).bind fun _ ↦ .pure _
  | resolveString frame o => exact (hresolve frame hframe o).bind fun _ ↦ .pure _
  | concreteType frame o => exact (hresolve frame hframe o).bind fun _ ↦ .pure _
  | flow frame => exact (remembering_steady env).flowOf_self [] [] frame hframe
  | configurerCalls frame configurer =>
    exact (remembering_steady env).findConfigurerCalls_self [] frame configurer hframe

/-- Asking questions keeps what is remembered good, and forgets nothing. -/
private theorem good_foldl (history : List Question) : ∀ m, Good env m →
    (∀ r ∈ history, env.Has r.frame) →
      Good env (history.foldl (fun m q ↦ (q.ask env m).2) m) ∧
        m.Within (history.foldl (fun m q ↦ (q.ask env m).2) m) := by
  induction history with
  | nil => exact fun m hm _ ↦ ⟨hm, .refl m⟩
  | cons r history ih =>
    intro m hm hframes
    have hsteady := steady_ask (hframes r (by simp))
    obtain ⟨hgood, hwithin⟩ := ih (r.ask env m).2 (hsteady.good m hm) fun s hs ↦
      hframes s (List.mem_cons_of_mem _ hs)
    exact ⟨hgood, (hsteady.grows m).2.trans hwithin⟩

/-- A question that is not cut short, once some others have been asked, is not cut short later
either, and the answer stays the same. In particular, the answer to a question that is not cut short
when nothing is remembered is the answer ever after. -/
theorem ask_append (hframes : ∀ r ∈ q :: (earlier ++ later), env.Has r.frame)
    (huncut : Uncut (q.ask env) (rememberedAfter env earlier)) :
    Uncut (q.ask env) (rememberedAfter env (earlier ++ later)) ∧
      (q.ask env (rememberedAfter env (earlier ++ later))).1 =
        (q.ask env (rememberedAfter env earlier)).1 := by
  have hearlier := good_foldl earlier {} good_empty fun r hr ↦ hframes r (by simp [hr])
  have hlater := good_foldl later _ hearlier.1 fun r hr ↦ hframes r (by simp [hr])
  have hq := steady_ask (hframes q (by simp))
  have hmemo : rememberedAfter env (earlier ++ later) =
      later.foldl (fun m q ↦ (q.ask env m).2) (rememberedAfter env earlier) := List.foldl_append
  rw [hmemo]
  obtain ⟨huncut', heq, -⟩ := hq.transfers _ _ hearlier.1 hlater.1 hlater.2 huncut
  exact ⟨huncut', heq⟩

namespace Shallow

/-- A function that returns a text. -/
def inner : Program.Function := ⟨"inner", [], [⟨[], .ret [.const (.string "x")]⟩]⟩

/-- A function that returns what the inner one returns. -/
def middle : Program.Function :=
  ⟨"middle", [], [⟨[.call (some ⟨0⟩) (.static "inner" []) []], .ret [.value ⟨0⟩]⟩]⟩

/-- A function that calls both. -/
def outer : Program.Function :=
  ⟨"outer", [], [⟨[.call (some ⟨0⟩) (.static "inner" []) [],
    .call (some ⟨1⟩) (.static "middle" []) []], .ret []⟩]⟩

/-- The program, in which calls are followed one deep. -/
def limited : Environment where
  program := .ofLists [] [inner, middle, outer] []
  maxCallDepth := 1

/-- The question about the call of the inner function. -/
def innerCall : Question := .resolve ⟨outer, []⟩ (.value ⟨0⟩)

/-- The question about the call of the middle function, which needs two calls to be followed. -/
def middleCall : Question := .resolve ⟨outer, []⟩ (.value ⟨1⟩)

end Shallow

open Shallow in
/-- Once the inner call has been asked about, the middle one need not be cut short, and is the same
from then on. -/
theorem ask_append_middleCall :
    (∀ r ∈ middleCall :: ([innerCall] ++ [.flow ⟨outer, []⟩]), limited.Has r.frame) ∧
      Uncut (middleCall.ask limited) (rememberedAfter limited [innerCall]) ∧
      (middleCall.ask limited
          (rememberedAfter limited ([innerCall] ++ [.flow ⟨outer, []⟩]))).1 =
        (middleCall.ask limited (rememberedAfter limited [innerCall])).1 := by
  have hframes : ∀ r ∈ middleCall :: ([innerCall] ++ [.flow ⟨outer, []⟩]),
      limited.Has r.frame := by
    have houter : limited.Has ⟨outer, []⟩ := by
      unfold Environment.Has
      decide +kernel
    simpa [middleCall, innerCall, Question.frame] using houter
  have huncut : Uncut (middleCall.ask limited) (rememberedAfter limited [innerCall]) := by
    unfold Uncut
    decide +kernel
  exact ⟨hframes, huncut, (ask_append hframes huncut).2⟩

open Shallow in
/-- If nothing has been asked about, the middle call is cut short, so its answer can come to
change. -/
theorem ask_middleCall_ne : limited.Has middleCall.frame ∧ limited.Has innerCall.frame ∧
    (middleCall.ask limited (rememberedAfter limited [innerCall])).1 ≠
      (middleCall.ask limited (rememberedAfter limited [])).1 := by
  have houter : limited.Has ⟨outer, []⟩ := by
    unfold Environment.Has
    decide +kernel
  refine ⟨houter, houter, ?_⟩
  change (Query.resolve limited [] ⟨outer, []⟩ (.value ⟨1⟩)
      (Query.resolve limited [] ⟨outer, []⟩ (.value ⟨0⟩) {}).2).1 ≠
    (Query.resolve limited [] ⟨outer, []⟩ (.value ⟨1⟩) {}).1
  decide +kernel

end Wiring.Analysis
