import Wiring.Proofs.Analysis.Bookkeeping
import Wiring.Proofs.Analysis.History
import Wiring.Proofs.Analysis.Termination

/-!
# The call stack

Whatever comes to be under way in the course of an analysis is over when its turn is: the procedures
end with what was under way when they were called, on every way to their end, if they keep a record
of it. So they find what they find when they are told what is under way, and that is what the
analysis does. At no moment is a function being followed twice, and at none are too many.
-/

namespace Wiring.Analysis

open Wiring.Program (Operand)

/-- The functions that are being followed are different ones, and not too many. -/
structure UnderWay.Orderly (env : Environment) (u : UnderWay) : Prop where
  nodup : u.stack.Nodup
  length_le : u.stack.length ≤ env.maxCallDepth

namespace UnderWay.Orderly

variable {env : Environment} {u : UnderWay} {name : String}

theorem start : UnderWay.Orderly env {} := ⟨.nil, Nat.zero_le _⟩

/-- A function that is open can be entered. -/
theorem enter (h : u.Orderly env) (hopen : env.Open u.stack name) : (u.enter name).Orderly env :=
  ⟨List.nodup_cons.mpr ⟨hopen.1, h.nodup⟩, hopen.2⟩

theorem build (h : u.Orderly env) : (u.build name).Orderly env := ⟨h.nodup, h.length_le⟩

theorem leave (h : u.Orderly env) : u.leave.Orderly env := by
  refine ⟨h.nodup.tail, ?_⟩
  have hle := h.length_le
  have hlength : u.leave.stack.length = u.stack.length - 1 := List.length_tail
  omega

end UnderWay.Orderly

/-- Whenever the attempt comes to an end while so much is under way, the computation does so with
the same answer and the same memory. What is under way is then as it was, and has been orderly all
the time. -/
def Balanced (env : Environment) (u : UnderWay) {α : Type} (c : Recorded α) (d : Attempt α) :
    Prop :=
  u.Orderly env → ∀ past m a m', d u m = some (a, m') → ∃ seen,
    c ⟨u, past, m⟩ = some (a, ⟨u, seen ++ past, m'⟩) ∧ ∀ v ∈ seen, v.Orderly env

namespace Balanced

variable {env : Environment} {u : UnderWay} {name : String} {α β : Type}

/-- A computation that changes only what is remembered. -/
theorem of_eq {c : Recorded α} {d : Attempt α}
    (h : ∀ past m, c ⟨u, past, m⟩ = (d u m).map fun x ↦ (x.1, ⟨u, past, x.2⟩)) :
    Balanced env u c d := by
  intro _ past m a m' hd
  refine ⟨[], ?_, by simp⟩
  rw [h, hd]
  rfl

theorem pure (a : α) : Balanced env u (pure a) (pure a) := of_eq fun _ _ ↦ rfl

/-- One computation after another. -/
theorem bind {c : Recorded α} {d : Attempt α} {f : α → Recorded β} {g : α → Attempt β}
    (hc : Balanced env u c d) (hf : ∀ a, Balanced env u (f a) (g a)) :
    Balanced env u (c >>= f) (d >>= g) := by
  intro hu past m b m'' h
  obtain ⟨⟨a, m'⟩, hd, hg⟩ := Option.bind_eq_some_iff.mp h
  obtain ⟨seen, hcm, hseen⟩ := hc hu past m a m' hd
  obtain ⟨seen', hfm, hseen'⟩ := hf a hu (seen ++ past) m' b m'' hg
  refine ⟨seen' ++ seen, ?_, List.forall_mem_append.mpr ⟨hseen', hseen⟩⟩
  change (c ⟨u, past, m⟩).bind (fun x ↦ f x.1 x.2) = _
  rw [hcm, List.append_assoc]
  exact hfm

theorem lockstep : Lockstep (m := Recorded) (n := Attempt) fun _ ↦ Balanced env u := ⟨pure, bind⟩

/-- Cutting an answer short. -/
theorem cut (a : α) :
    Balanced env u (do Memoized.cutOff; return a) (do Memoized.cutOff; return a) :=
  of_eq fun _ _ ↦ rfl

theorem ofOption (a : Option α) : Balanced env u (Tracking.ofOption a) (Tracking.ofOption a) :=
  of_eq fun _ _ ↦ by cases a <;> rfl

/-- What comes to be under way for a computation, and is no longer after it. -/
theorem meanwhile (into back : UnderWay → UnderWay) {c : Recorded α} {d : Attempt α}
    (h : Balanced env (into u) c d) (hinto : u.Orderly env → (into u).Orderly env)
    (hback : back (into u) = u) : Balanced env u
      (do Recorded.change into; let a ← c; Recorded.change back; return a) (withReader into d) := by
  intro hu past m a m' hd
  obtain ⟨seen, hcm, hseen⟩ := h (hinto hu) (u :: past) m a m' hd
  refine ⟨into u :: (seen ++ [u]), ?_, ?_⟩
  · change (c ⟨into u, u :: past, m⟩).bind (fun x ↦
      some (x.1, { x.2 with now := back x.2.now, past := x.2.now :: x.2.past })) = _
    rw [hcm, Option.bind_some, hback]
    simp
  · rw [List.forall_mem_cons, List.forall_mem_append]
    exact ⟨hinto hu, hseen, by simpa using hu⟩

/-- What is found while a function is being followed; it may not be open. -/
theorem following {c : Recorded α} {d : Attempt α} (a : α) (h : Balanced env (u.enter name) c d) :
    Balanced env u (Tracking.following env name c a) (Tracking.following env name d a) := by
  by_cases hopen : env.Open u.stack name
  · intro hu past m b m' hd
    rw [Attempt.following_of_open hopen] at hd
    rw [Recorded.following_of_open hopen]
    exact meanwhile (fun u ↦ u.enter name) UnderWay.leave h (fun hu ↦ hu.enter hopen) rfl hu past m
      b m' hd
  · refine of_eq fun past m ↦ ?_
    rw [Attempt.following_of_not_open hopen, Recorded.following_of_not_open hopen]
    rfl

/-- What is found while a flow graph is being built. -/
theorem building {c : Recorded α} {d : Attempt α} (h : Balanced env (u.build name) c d) :
    Balanced env u (Tracking.building name c) (Tracking.building name d) :=
  meanwhile (fun u ↦ u.build name) UnderWay.built h (fun hu ↦ hu.build) rfl

/-- Whether a flow graph is being built is looked up in the record. -/
theorem isBuilding : Balanced env u (Tracking.isBuilding name) (Tracking.isBuilding name) :=
  of_eq fun _ _ ↦ rfl

/-- A remembered answer. -/
theorem remembered {c : Recorded α} {d : Attempt α} (hc : Balanced env u c d)
    (find? : Memo → Option α) (keep : α → Memo → Memo) :
    Balanced env u (Memoized.remembered find? keep c) (Memoized.remembered find? keep d) :=
  lockstep.remembered (of_eq fun _ _ ↦ rfl) (fun _ ↦ of_eq fun _ _ ↦ rfl) hc find? keep

end Balanced

/-- The procedures that keep a record are balanced with those that are told what is under way. -/
structure Procedures.Follows (env : Environment) (s : Procedures Recorded)
    (p : Procedures Attempt) : Prop where
  operand : ∀ u frame visiting o,
    Balanced env u (s.operand frame visiting o) (p.operand frame visiting o)
  result : ∀ u frame index, Balanced env u (s.result frame index) (p.result frame index)
  flow : ∀ u frame, Balanced env u (s.flow frame) (p.flow frame)
  walk : ∀ u frame params inherited,
    Balanced env u (s.walk frame params inherited) (p.walk frame params inherited)
  calls : ∀ u frame configurer,
    Balanced env u (s.calls frame configurer) (p.calls frame configurer)

namespace Procedures.Follows

variable {env : Environment} {s : Procedures Recorded} {p : Procedures Attempt}
  (h : s.Follows env p)
include h

theorem available (u : UnderWay) (frame : Frame) :
    Balanced env u (s.available frame) (p.available frame) := by
  apply Balanced.isBuilding.bind
  intro b
  cases b with
  | true => exact .cut none
  | false => exact Balanced.lockstep.map (h.flow u frame) some

theorem follow (u : UnderWay) (frame : Frame) (f : Program.Function) (handover : Handover)
    (fidelity : Fidelity) : Balanced env u (s.follow env frame f handover fidelity)
      (p.follow env frame f handover fidelity) := by
  apply Balanced.following
  have hargs := Balanced.lockstep.boundArgs
    (fun o _ ↦ h.operand (u.enter f.name) frame [] o) handover fun _ _ ↦ trivial
  exact Balanced.bind hargs fun args ↦ h.walk _ _ _ _

/-- Procedures that call balanced ones are balanced: each takes off the stack what it puts there. -/
theorem body : (s.body env).Follows env (p.body env) where
  operand u frame visiting o := by
    refine Balanced.lockstep.resolveBy (fun id i _ _ ↦ ?_) o
    exact Balanced.lockstep.resolveInstruction_same (.refl env)
      (fun _ g _ args index ↦ h.result u ⟨g, args⟩ index) (h.available u frame)
      (fun o ↦ h.operand u frame _ o) i
  result u frame index :=
    .remembered (.following none (Balanced.lockstep.agreedReturn
      (h.flow (u.enter frame.name) frame) (h.operand (u.enter frame.name) frame []) _ _)) _ _
  flow u frame := by
    have hdecide (cond : Operand) :=
      Balanced.lockstep.resolveAs (h.operand (u.build frame.name) frame [] cond) StaticValue.bool?
    have hbuilt := Balanced.bind
      (FlowGraph.build?_lockstep Balanced.lockstep hdecide frame.function) .ofOption
    exact .remembered hbuilt.building _ _
  walk u frame params inherited := by
    apply (h.flow u frame).bind
    intro g
    apply (Balanced.ofOption _).bind
    intro encounters
    refine Balanced.bind (Balanced.lockstep.mapM encounters fun e _ ↦ ?_) fun _ ↦ .pure _
    exact Balanced.lockstep.pursue e (fun handover f _ ↦ h.follow u frame f handover) inherited
  calls u frame configurer :=
    .following _ (h.walk (u.enter frame.name) frame [configurer] .immaculate)

end Procedures.Follows

/-- However deep calls are nested, the procedures that keep a record follow those that are told. -/
theorem Procedures.follows_nested (env : Environment) (depth : Nat) :
    Procedures.Follows env (nested env depth) (nested env depth) := by
  induction depth with
  | zero => constructor <;> intros <;> exact .ofOption none
  | succ depth ih => exact ih.body

namespace Question

/-- Ask a question while some functions are being followed. -/
def within (env : Environment) (stack : List String) : (q : Question) → Memoized q.Answer
  | resolve frame o => Query.resolve env stack frame o
  | resolveBool frame o => Query.resolveBool env stack frame o
  | resolveString frame o => Query.resolveString env stack frame o
  | concreteType frame o => Query.concreteType env stack frame o
  | flow frame => Query.flow env stack frame
  | configurerCalls frame configurer => Query.configurerCalls env stack frame configurer

/-- Put a question to the procedures. -/
def put (s : Procedures Recorded) : (q : Question) → Recorded q.Answer
  | resolve frame o => s.operand frame [] o
  | resolveBool frame o => resolveAs StaticValue.bool? (s.operand frame []) o
  | resolveString frame o => resolveAs StaticValue.string? (s.operand frame []) o
  | concreteType frame o => resolveAs StaticValue.concreteType? (s.operand frame []) o
  | flow frame => s.flow frame
  | configurerCalls frame configurer => s.calls frame configurer

end Question

/-- Calls need not be nested deeper to come to an end, whatever functions are being followed. -/
def Environment.enoughDepth (env : Environment) : Nat :=
  ((env.remaining []).length + 1) * (2 * env.maxValues + 4)

section Questions

variable {env : Environment} {depth : Nat} {r : Record}

theorem stackHeight_le_enoughDepth (stack : List String) :
    stackHeight env stack + 2 * env.maxValues + 4 ≤ env.enoughDepth := by
  have hle : (env.remaining stack).length ≤ (env.remaining []).length := by
    have hall : env.remaining [] = env.functionNames := by simp [Environment.remaining]
    rw [hall]
    exact List.length_filter_le _ _
  have hmul := Nat.mul_le_mul_right (2 * env.maxValues + 4) hle
  unfold Environment.enoughDepth stackHeight
  rw [Nat.add_one_mul (env.remaining []).length]
  omega

/-- With enough depth, a question that is put goes as an attempt goes, and that ends with the answer
of the analysis. -/
theorem Question.exists_attempt (hdepth : env.enoughDepth ≤ depth) (stack : List String)
    (q : Question) (hframe : env.Has q.frame) : ∃ d,
      Balanced env ⟨stack, []⟩ (q.put (Procedures.nested env depth)) d ∧
        Finishes env ⟨stack, []⟩ d (q.within env stack) := by
  have hs := Procedures.follows_nested env depth
  have hp := Procedures.finishesBelow_nested env depth
  have hheight := Nat.le_trans (stackHeight_le_enoughDepth stack) hdepth
  have hoperand (frame : Frame) (hframe : env.Has frame) (o : Operand) :
      Finishes env ⟨stack, []⟩ ((Procedures.nested env depth).operand frame [] o)
        (Query.resolve env stack frame o) := by
    apply hp.operand ⟨stack, []⟩ frame [] o hframe
    have hle := operandHeight_le ⟨stack, []⟩ [] hframe
    dsimp only at hle
    omega
  cases q with
  | resolve frame o => exact ⟨_, hs.operand ⟨stack, []⟩ frame [] o, hoperand frame hframe o⟩
  | resolveBool frame o | resolveString frame o | concreteType frame o =>
    exact ⟨_, Balanced.lockstep.resolveAs (hs.operand ⟨stack, []⟩ frame [] o) _,
      Finishes.lockstep.resolveAs (hoperand frame hframe o) _⟩
  | flow frame =>
    refine ⟨_, hs.flow ⟨stack, []⟩ frame, hp.flow ⟨stack, []⟩ frame hframe ?_⟩
    unfold flowHeight
    dsimp only
    omega
  | configurerCalls frame configurer =>
    refine ⟨_, hs.calls ⟨stack, []⟩ frame configurer, hp.calls stack frame configurer hframe ?_⟩
    omega

/-- The records that come about when questions are put one after another. Between the questions,
functions may be entered and left. -/
inductive Record.Reached (env : Environment) (s : Procedures Recorded) : Record → Prop
  | start : Record.Reached env s {}
  | put {r r' : Record} {q : Question} {a : q.Answer} (h : Record.Reached env s r)
      (hframe : env.Has q.frame) (hput : q.put s r = some (a, r')) : Record.Reached env s r'
  | enter {r r' : Record} {name : String} {entered : Bool} (h : Record.Reached env s r)
      (henter : Recorded.enter env name r = some (entered, r')) : Record.Reached env s r'
  | leave {r r' : Record} (h : Record.Reached env s r)
      (hleave : Recorded.leave r = some ((), r')) : Record.Reached env s r'

/-- What is the case between questions. -/
structure Record.Settled (env : Environment) (r : Record) : Prop where
  building : r.now.building = []
  moment : Moment env r.memo
  now : r.now.Orderly env
  past : ∀ u ∈ r.past, u.Orderly env

/-- With enough depth, a question that is put when the record is settled is given the answer of the
analysis, and the record is settled again, with as much under way as before. -/
theorem Record.Settled.put (hdepth : env.enoughDepth ≤ depth) (hr : r.Settled env) (q : Question)
    (hframe : env.Has q.frame) : ∃ seen,
      q.put (Procedures.nested env depth) r = some ((q.within env r.now.stack r.memo).1,
        ⟨r.now, seen ++ r.past, (q.within env r.now.stack r.memo).2⟩) ∧
      Record.Settled env ⟨r.now, seen ++ r.past, (q.within env r.now.stack r.memo).2⟩ := by
  obtain ⟨d, hbalanced, hfinishes⟩ := q.exists_attempt hdepth r.now.stack hframe
  have hnow : r.now = ⟨r.now.stack, []⟩ := by rw [← hr.building]
  rw [← hnow] at hbalanced hfinishes
  obtain ⟨hd, hmoment⟩ := hfinishes r.memo hr.moment
  obtain ⟨seen, hput, hseen⟩ := hbalanced hr.now r.past r.memo _ _ hd
  exact ⟨seen, hput,
    ⟨hr.building, hmoment, hr.now, List.forall_mem_append.mpr ⟨hseen, hr.past⟩⟩⟩

/-- Every record that comes about is settled between the questions. -/
theorem Record.Reached.settled (hdepth : env.enoughDepth ≤ depth)
    (hr : r.Reached env (Procedures.nested env depth)) : r.Settled env := by
  induction hr with
  | start => exact ⟨rfl, .start, .start, by simp⟩
  | put h hframe hput ih =>
    obtain ⟨seen, hput', hsettled⟩ := ih.put hdepth _ hframe
    rw [hput, Option.some.injEq, Prod.mk.injEq] at hput'
    rwa [hput'.2]
  | @enter r r' name entered h henter ih =>
    by_cases hopen : env.Open r.now.stack name
    · cases (Recorded.enter_of_open hopen).symm.trans henter
      exact ⟨ih.building, ih.moment, ih.now.enter hopen, List.forall_mem_cons.mpr ⟨ih.now, ih.past⟩⟩
    · cases (Recorded.enter_of_not_open hopen).symm.trans henter
      exact ⟨ih.building, ih.moment.cutOff, ih.now, ih.past⟩
  | leave h hleave ih =>
    cases hleave
    exact ⟨ih.building, ih.moment, ih.now.leave, List.forall_mem_cons.mpr ⟨ih.now, ih.past⟩⟩

/-- Whatever questions have been put one after another, with functions entered and left in between,
the functions on the call stack have been different ones at every moment, and not too many. And
whatever question is put next is given the answer of the analysis, and ends with what was under way
before it; the stack has been orderly all the time. -/
theorem callStack_kept (hdepth : env.enoughDepth ≤ depth)
    (hr : r.Reached env (Procedures.nested env depth)) :
    (∀ u ∈ r.now :: r.past, u.stack.Nodup ∧ u.stack.length ≤ env.maxCallDepth) ∧
    ∀ q : Question, env.Has q.frame → ∃ seen,
      q.put (Procedures.nested env depth) r = some ((q.within env r.now.stack r.memo).1,
        ⟨r.now, seen ++ r.past, (q.within env r.now.stack r.memo).2⟩) ∧
      ∀ u ∈ seen, u.stack.Nodup ∧ u.stack.length ≤ env.maxCallDepth := by
  have hsettled := hr.settled hdepth
  have horderly : ∀ u : UnderWay, u.Orderly env →
      u.stack.Nodup ∧ u.stack.length ≤ env.maxCallDepth := fun u hu ↦ ⟨hu.nodup, hu.length_le⟩
  constructor
  · exact List.forall_mem_cons.mpr
      ⟨horderly _ hsettled.now, fun u hu ↦ horderly u (hsettled.past u hu)⟩
  · intro q hframe
    obtain ⟨seen, hput, hnext⟩ := hsettled.put hdepth q hframe
    exact ⟨seen, hput, fun u hu ↦ horderly u (hnext.past u (List.mem_append_left _ hu))⟩

end Questions

open Tangle in
/-- While one function is being followed, the calls of the other are asked for, and after that its
flow graph. Only the one is being followed in the end. -/
theorem callStack_kept_tangle : program.Has frame ∧ program.enoughDepth = 36 ∧ ∃ r r' : Record,
    r.Reached program (Procedures.nested program 36) ∧
    (Question.flow frame).put (Procedures.nested program 36) r =
      some (((Question.flow frame).within program ["pong"] r.memo).1, r') ∧
    r'.now = ⟨["pong"], []⟩ ∧ ∀ u ∈ r'.past, u.stack.Nodup ∧ u.stack.length ≤ 32 := by
  have hframe : program.Has frame := by
    unfold Environment.Has
    decide +kernel
  have hdepth : program.enoughDepth = 36 := by decide +kernel
  have henter : Recorded.enter program "pong" {} = some (true, ⟨⟨["pong"], []⟩, [{}], {}⟩) := rfl
  have hentered := (Record.Reached.start (s := Procedures.nested program 36)).enter henter
  obtain ⟨seen, hcalls, -⟩ := (callStack_kept (Nat.le_of_eq hdepth) hentered).2
    (.configurerCalls frame 0) hframe
  have hreached := hentered.put (q := .configurerCalls frame 0) hframe hcalls
  obtain ⟨hpast, hquestion⟩ := callStack_kept (Nat.le_of_eq hdepth) hreached
  obtain ⟨seen', hflow, hseen'⟩ := hquestion (.flow frame) hframe
  refine ⟨hframe, hdepth, _, _, hreached, hflow, rfl, ?_⟩
  exact List.forall_mem_append.mpr ⟨hseen', fun u hu ↦ hpast u (List.mem_cons_of_mem _ hu)⟩

-- The second function is entered twice: for a condition of the first one's flow graph, and to be
-- walked through, since the configurer is passed on to it.
open Tangle in
example : ((Question.configurerCalls frame 0).put (.nested program 12) {}).map
    (fun x ↦ x.2.past.reverse) = some [
    ⟨[], []⟩, ⟨["ping"], []⟩, ⟨["ping"], ["ping"]⟩, ⟨["pong", "ping"], ["ping"]⟩,
    ⟨["pong", "ping"], ["pong", "ping"]⟩, ⟨["pong", "ping"], ["ping"]⟩, ⟨["ping"], ["ping"]⟩,
    ⟨["ping"], []⟩, ⟨["pong", "ping"], []⟩, ⟨["pong", "ping"], ["pong"]⟩, ⟨["pong", "ping"], []⟩,
    ⟨["ping"], []⟩] := by
  decide +kernel

end Wiring.Analysis
