import Wiring.Proofs.Analysis.Attempts
import Wiring.Proofs.Analysis.Remembering
import Wiring.Proofs.Analysis.Walk
import Mathlib.Data.List.MinMax

/-!
# The analysis comes to an end

Calls of the procedures cannot be nested without end. A call goes down in height: a measure of the
functions that are not being followed, of whether the flow graph is being built, and of the values
that are not being followed. So the procedures come to an end, with the answers of the analysis.
-/

namespace Wiring.Analysis

open Wiring.Program (Operand ValueId Instruction Callee Function Block Terminator)

/-- At every moment of an analysis the attempt that is told what is under way comes to an end with
the answer of the computation, which leads to another moment. -/
def Finishes (env : Environment) (u : UnderWay) {α : Type} (c : Attempt α) (d : Memoized α) :
    Prop :=
  ∀ m, Moment env m → c u m = some (d m) ∧ Moment env (d m).2

namespace Finishes

variable {env : Environment} {u : UnderWay} {α β : Type}

theorem pure (a : α) : Finishes env u (pure a) (pure a) := fun _ hm ↦ ⟨rfl, hm⟩

/-- One attempt after another; the second may rely on what the first finds at a moment. -/
theorem bind_at {c : Attempt α} {d : Memoized α} {f : α → Attempt β} {g : α → Memoized β}
    (hc : Finishes env u c d) (hf : ∀ m, Moment env m → Finishes env u (f (d m).1) (g (d m).1)) :
    Finishes env u (c >>= f) (d >>= g) := by
  intro m hm
  obtain ⟨hcm, hm'⟩ := hc m hm
  obtain ⟨hfm, hm''⟩ := hf m hm _ hm'
  refine ⟨?_, hm''⟩
  change (c u m).bind (fun r ↦ f r.1 u r.2) = _
  rw [hcm]
  exact hfm

/-- One attempt after another. -/
theorem bind {c : Attempt α} {d : Memoized α} {f : α → Attempt β} {g : α → Memoized β}
    (hc : Finishes env u c d) (hf : ∀ a, Finishes env u (f a) (g a)) :
    Finishes env u (c >>= f) (d >>= g) :=
  hc.bind_at fun m _ ↦ hf (d m).1

theorem lockstep : Lockstep (m := Attempt) (n := Memoized) fun _ ↦ Finishes env u := ⟨pure, bind⟩

/-- Cutting an answer short. -/
theorem cut (a : α) :
    Finishes env u (do Memoized.cutOff; return a) (do Memoized.cutOff; return a) :=
  fun _ hm ↦ ⟨rfl, hm.cutOff⟩

/-- What never fails to be found. -/
theorem ofOption {c : Attempt (Option α)} {d : Memoized α} (hc : Finishes env u c (some <$> d)) :
    Finishes env u (c >>= Tracking.ofOption) d := by
  intro m hm
  obtain ⟨hcm, hm'⟩ := hc m hm
  refine ⟨?_, hm'⟩
  change (c u m).bind (fun r ↦ (Tracking.ofOption r.1 : Attempt α) u r.2) = _
  rw [hcm]
  rfl

/-- What is found while a function of the program is being followed; it may not be open. -/
theorem following {frame : Frame} {c : Attempt α} {d : Memoized α} (a : α)
    (hframe : env.Has frame)
    (h : env.MayEnter u.stack frame.name → Finishes env (u.enter frame.name) c d) :
    Finishes env u (Tracking.following env frame.name c a)
      (if env.MayEnter u.stack frame.name then d else do Memoized.cutOff; return a) := by
  have hiff : env.MayEnter u.stack frame.name ↔ env.Open u.stack frame.name :=
    and_iff_right (Environment.mem_functionNames hframe)
  intro m hm
  by_cases henter : env.MayEnter u.stack frame.name
  · rw [Attempt.following_of_open (hiff.mp henter), if_pos henter]
    exact h henter m hm
  · rw [Attempt.following_of_not_open (mt hiff.mpr henter), if_neg henter]
    exact ⟨rfl, hm.cutOff⟩

/-- What is found while a flow graph is being built. -/
theorem building {name : String} {c : Attempt α} {d : Memoized α}
    (h : Finishes env (u.build name) c d) : Finishes env u (Tracking.building name c) d := h

/-- A remembered answer, if remembering leads to a moment. -/
theorem remembered {c : Attempt α} {d : Memoized α} {find? : Memo → Option α}
    {keep : α → Memo → Memo} (hc : Finishes env u c d)
    (hkeep : ∀ m, Moment env m → Moment env (Memoized.remembered find? keep d m).2) :
    Finishes env u (Memoized.remembered find? keep c) (Memoized.remembered find? keep d) := by
  refine fun m hm ↦ ⟨?_, hkeep m hm⟩
  rw [Attempt.remembered_eq]
  cases h : find? m with
  | some a => rw [Memoized.remembered_of_some h]
  | none =>
    rw [Memoized.remembered_of_none h, (hc m hm).1]
    rfl

/-- The flow graph of a function is built if the decisions come to an end. -/
theorem build? {decide : Operand → Attempt (Option Bool)}
    {decide' : Operand → Memoized (Option Bool)}
    (hdecide : ∀ cond, Finishes env u (decide cond) (decide' cond)) (f : Function) :
    Finishes env u (FlowGraph.build? decide f >>= Tracking.ofOption)
      (FlowGraph.build decide' f) := by
  apply ofOption
  rw [← FlowGraph.build?_eq]
  exact FlowGraph.build?_lockstep lockstep hdecide f

end Finishes

/-- No function of the program defines more values. -/
def Environment.maxValues (env : Environment) : Nat :=
  (env.program.functions.toList.map fun f ↦ f.definedValues.length).foldr max 0

/-- How deep calls may come to be nested in following a function, by what is not being followed: as
often as there are such functions, what comes to be nested within one of them. -/
def stackHeight (env : Environment) (stack : List String) : Nat :=
  (env.remaining stack).length * (2 * env.maxValues + 4)

/-- How deep calls may come to be nested in finding a flow graph. -/
def flowHeight (env : Environment) (stack : List String) : Nat :=
  stackHeight env stack + env.maxValues + 2

/-- How deep calls may come to be nested in resolving an operand, by the functions that are not
being followed, whether the flow graph is being built, and the values that are not being
followed. -/
def operandHeight (env : Environment) (u : UnderWay) (frame : Frame) (visiting : List ValueId) :
    Nat :=
  stackHeight env u.stack + (if frame.name ∈ u.building then 0 else env.maxValues + 2) +
    (unvisited frame.function visiting).length + 1

/-- How deep calls may come to be nested in a walk through a frame. -/
def walkHeight (env : Environment) (stack : List String) : Nat := flowHeight env stack + 1

section Heights

variable {env : Environment} {u : UnderWay} {frame : Frame} {stack : List String} {name : String}
  {visiting : List ValueId}

theorem length_definedValues_le (hframe : env.Has frame) :
    frame.function.definedValues.length ≤ env.maxValues :=
  List.le_max_of_le' 0 (List.mem_map.mpr ⟨_, List.mem_of_find?_eq_some hframe, rfl⟩) (Nat.le_refl _)

/-- However little is under way within a frame, its operands are lower than entering another
function. -/
theorem operandHeight_le (u : UnderWay) (visiting : List ValueId) (hframe : env.Has frame) :
    operandHeight env u frame visiting ≤ stackHeight env u.stack + 2 * env.maxValues + 3 := by
  have hvalues := length_definedValues_le hframe
  have hunvisited := List.length_filter_le (fun id ↦ id ∉ visiting) frame.function.definedValues
  unfold operandHeight unvisited
  split <;> omega

/-- Entering a function leads down, by more than what can come to be nested within it. -/
theorem stackHeight_cons_add_le (h : env.MayEnter stack name) :
    stackHeight env (name :: stack) + 2 * env.maxValues + 4 ≤ stackHeight env stack := by
  have hle := Nat.mul_le_mul_right (2 * env.maxValues + 4) (Environment.remaining_lt h)
  rw [Nat.succ_mul] at hle
  unfold stackHeight
  omega

/-- While a flow graph is being built, no operand within the frame is as high as the graph. -/
theorem operandHeight_build_lt (hframe : env.Has frame) :
    operandHeight env (u.build frame.name) frame visiting < flowHeight env u.stack := by
  have hvalues := length_definedValues_le hframe
  have hunvisited := List.length_filter_le (fun id ↦ id ∉ visiting) frame.function.definedValues
  unfold operandHeight flowHeight unvisited
  rw [if_pos (by simp [UnderWay.build])]
  simp only [UnderWay.build]
  omega

/-- If no flow graph of the function is being built, operands are higher than the graph. -/
theorem flowHeight_lt (h : frame.name ∉ u.building) :
    flowHeight env u.stack < operandHeight env u frame visiting := by
  unfold operandHeight flowHeight
  rw [if_neg h]
  omega

/-- Following a value leads down. -/
theorem operandHeight_cons_lt {id : ValueId} {i : Instruction} (hv : id ∉ visiting)
    (hd : frame.function.definition id = some i) :
    operandHeight env u frame (id :: visiting) < operandHeight env u frame visiting := by
  have hlt := unvisited_lt hv hd
  unfold operandHeight
  omega

end Heights

/-- Where they start from less than a height, the procedures come to an end with the answers of the
analysis. No flow graph is being built when the calls on a configurer are asked for. -/
structure Procedures.FinishesBelow (env : Environment) (p : Procedures Attempt) (height : Nat) :
    Prop where
  operand : ∀ u frame visiting o, env.Has frame → operandHeight env u frame visiting < height →
    Finishes env u (p.operand frame visiting o)
      (resolveOperand env (sources env (resultOf env u.stack) u.building frame) frame visiting o)
  result : ∀ u frame index, env.Has frame → stackHeight env u.stack < height →
    Finishes env u (p.result frame index) (resultOf env u.stack u.building frame index)
  flow : ∀ u frame, env.Has frame → flowHeight env u.stack < height →
    Finishes env u (p.flow frame) (flowOf env (resultOf env u.stack) u.building frame)
  walk : ∀ stack frame params inherited, env.Has frame → walkHeight env stack < height →
    Finishes env ⟨stack, []⟩ (p.walk frame params inherited)
      (Analysis.walk env stack frame params inherited)
  calls : ∀ stack frame configurer, env.Has frame → stackHeight env stack < height →
    Finishes env ⟨stack, []⟩ (p.calls frame configurer)
      (findConfigurerCalls env stack frame configurer)

namespace Procedures.FinishesBelow

variable {env : Environment} {p : Procedures Attempt} {height : Nat}
  (hp : p.FinishesBelow env height) {u : UnderWay} {frame : Frame} {visiting : List ValueId}
include hp

/-- The flow graph is available to operands whose height is reached, unless it is being built. -/
theorem available (hframe : env.Has frame) (hheight : operandHeight env u frame visiting ≤ height) :
    Finishes env u (p.available frame)
      (sources env (resultOf env u.stack) u.building frame).flow := by
  have hread : p.available frame u = (if frame.name ∈ u.building then do
      Memoized.cutOff
      return none else some <$> p.flow frame : Attempt (Option FlowGraph)) u := by
    change (if decide (frame.name ∈ u.building) then _ else _ : Attempt (Option FlowGraph)) u = _
    simp only [decide_eq_true_eq]
  intro m hm
  rw [hread]
  unfold sources
  dsimp only
  by_cases hb : frame.name ∈ u.building
  · rw [if_pos hb, if_pos hb]
    exact Finishes.cut none m hm
  · rw [if_neg hb, if_neg hb]
    exact Finishes.lockstep.map
      (hp.flow _ _ hframe (Nat.lt_of_lt_of_le (flowHeight_lt hb) hheight)) some m hm

/-- Of an operand whose height is reached, the procedures that are called come to an end. -/
theorem body_operand (o : Operand) (hframe : env.Has frame)
    (hheight : operandHeight env u frame visiting ≤ height) :
    Finishes env u ((p.body env).operand frame visiting o)
      (resolveOperand env (sources env (resultOf env u.stack) u.building frame) frame
        visiting o) := by
  have hstack : stackHeight env u.stack < height := by
    refine Nat.lt_of_lt_of_le ?_ hheight
    unfold operandHeight
    omega
  rw [resolveOperand]
  refine Finishes.lockstep.resolveBy (fun id i hv hd ↦ ?_) o
  have hlt := Nat.lt_of_lt_of_le (operandHeight_cons_lt hv hd) hheight
  refine Finishes.lockstep.resolveInstruction_same (.refl env)
    (fun _ g hg args index ↦ ?_) ?_ (fun o ↦ hp.operand u frame _ o hframe hlt) i
  · exact hp.result u ⟨g, args⟩ index (Environment.has_of_followed hg args) hstack
  · exact hp.available hframe hheight

/-- Of a flow graph whose height is reached, the procedures that are called come to an end. -/
theorem body_flow (hframe : env.Has frame) (hheight : flowHeight env u.stack ≤ height) :
    Finishes env u ((p.body env).flow frame)
      (flowOf env (resultOf env u.stack) u.building frame) := by
  have hsources : sources env (resultOf env u.stack) (frame.name :: u.building) frame =
      { result := resultOf env u.stack (frame.name :: u.building), flow := unavailable } := by
    simp [sources]
  have hcond (cond : Operand) := hp.operand (u.build frame.name) frame [] cond hframe
    (Nat.lt_of_lt_of_le (operandHeight_build_lt hframe) hheight)
  have hbuilt : Finishes env (u.build frame.name)
      (FlowGraph.build? (resolveAs StaticValue.bool? (p.operand frame [])) frame.function >>=
        Tracking.ofOption)
      (builtFlow env (resultOf env u.stack) u.building frame) :=
    .build? (fun cond ↦ Finishes.lockstep.resolveAs (hsources ▸ hcond cond) _) _
  exact .remembered hbuilt.building fun m hm ↦ hm.flow u.stack u.building hframe

/-- Of a result of a call whose height is reached, the procedures that are called come to an
end. -/
theorem body_result (index : Nat) (hframe : env.Has frame)
    (hheight : stackHeight env u.stack ≤ height) :
    Finishes env u ((p.body env).result frame index)
      (resultOf env u.stack u.building frame index) := by
  have hmoment : ∀ m, Moment env m → Moment env (resultOf env u.stack u.building frame index m).2 :=
    fun m hm ↦ hm.result u.stack u.building hframe index
  rw [resultOf_eq] at hmoment ⊢
  refine .remembered (.following none hframe fun henter ↦ ?_) hmoment
  have hle := stackHeight_cons_add_le henter
  have hle' := operandHeight_le (u.enter frame.name) [] hframe
  refine Finishes.lockstep.agreedReturn (hp.flow _ frame hframe ?_)
    (fun o ↦ hp.operand _ frame [] o hframe ?_) frame.function index
  · simp only [flowHeight, UnderWay.enter]
    omega
  · simp only [UnderWay.enter] at hle' ⊢
    omega

/-- Passing the configurer on in a walk whose height is reached comes to an end. -/
theorem follow (stack : List String) {f : Function} {h : Handover}
    (hf : env.followed h.callee = some f) (fidelity : Fidelity) (hframe : env.Has frame)
    (hheight : stackHeight env stack ≤ height) :
    Finishes env ⟨stack, []⟩ (p.follow env frame f h fidelity)
      (if env.MayEnter stack f.name then do
        let args ← boundArgs (resolveIn env (resultOf env (f.name :: stack)) [] frame) h
        Analysis.walk env (f.name :: stack) ⟨f, args⟩ h.positions fidelity
      else do
        Memoized.cutOff
        return .unknown) := by
  have hcallee := Environment.has_of_followed hf
  refine .following ConfigurerCalls.unknown (hcallee []) fun henter ↦ ?_
  have hle := stackHeight_cons_add_le henter
  have hle' := operandHeight_le ⟨f.name :: stack, []⟩ [] hframe
  dsimp only [Frame.name] at hle hle'
  have hargs : Finishes env ⟨f.name :: stack, []⟩ (boundArgs (p.operand frame []) h)
      (boundArgs (resolveIn env (resultOf env (f.name :: stack)) [] frame) h) :=
    Finishes.lockstep.boundArgs
      (fun o _ ↦ hp.operand ⟨f.name :: stack, []⟩ frame [] o hframe (by omega)) h fun _ _ ↦ trivial
  refine hargs.bind fun args ↦ hp.walk _ _ _ _ (hcallee args) ?_
  unfold walkHeight flowHeight
  omega

/-- Of a walk whose height is reached, the procedures that are called come to an end. -/
theorem body_walk {stack : List String} (params : List Nat) (inherited : Fidelity)
    (hframe : env.Has frame) (hheight : walkHeight env stack ≤ height) :
    Finishes env ⟨stack, []⟩ ((p.body env).walk frame params inherited)
      (Analysis.walk env stack frame params inherited) := by
  unfold walkHeight at hheight
  have hstack : stackHeight env stack ≤ height := by
    unfold flowHeight at hheight
    omega
  rw [walk_eq]
  refine (hp.flow ⟨stack, []⟩ frame hframe hheight).bind_at fun m hm ↦ ?_
  -- the flow graph is read by what is found of it at a moment
  obtain ⟨D, x, unfound, hexploring, hg⟩ := hm.explored stack [] hframe
  have hencounters := Taint.encounters?_eq hexploring (.ofParams frame.function params)
  dsimp only
  rw [hg, hencounters]
  refine Finishes.bind (Finishes.lockstep.mapM _ fun e _ ↦ ?_) fun found ↦ .pure _
  exact Finishes.lockstep.pursue e
    (fun h f hf fidelity ↦ hp.follow stack hf fidelity hframe hstack) inherited

/-- Of the calls on a configurer, the procedures that are called come to an end. -/
theorem body_calls {stack : List String} (configurer : Nat) (hframe : env.Has frame)
    (hheight : stackHeight env stack ≤ height) :
    Finishes env ⟨stack, []⟩ ((p.body env).calls frame configurer)
      (findConfigurerCalls env stack frame configurer) := by
  refine .following ConfigurerCalls.unknown hframe fun henter ↦ ?_
  have hle := stackHeight_cons_add_le henter
  refine hp.walk (frame.name :: stack) _ _ _ hframe ?_
  unfold walkHeight flowHeight
  dsimp only at hle
  omega

end Procedures.FinishesBelow

/-- If the procedures that are called come to an end below a height, those that call them do so
where they start from that height: every call leads down. -/
theorem Procedures.FinishesBelow.body {env : Environment} {p : Procedures Attempt} {height : Nat}
    (hp : p.FinishesBelow env height) : (p.body env).FinishesBelow env (height + 1) where
  operand _ _ _ o hframe hlt := hp.body_operand o hframe (Nat.le_of_lt_succ hlt)
  result _ _ index hframe hlt := hp.body_result index hframe (Nat.le_of_lt_succ hlt)
  flow _ _ hframe hlt := hp.body_flow hframe (Nat.le_of_lt_succ hlt)
  walk _ _ params inherited hframe hlt :=
    hp.body_walk params inherited hframe (Nat.le_of_lt_succ hlt)
  calls _ _ configurer hframe hlt := hp.body_calls configurer hframe (Nat.le_of_lt_succ hlt)

/-- Calls that may be nested as deep as the height come to an end. -/
theorem Procedures.finishesBelow_nested (env : Environment) (depth : Nat) :
    (nested env depth).FinishesBelow env depth := by
  induction depth with
  | zero => constructor <;> intros <;> omega
  | succ depth ih => exact ih.body

/-- Whatever the program is and however deep calls may be followed, the analysis comes to an end, at
every moment: each call of a procedure leads down, so there is a depth that nested calls never
exceed, and the answers of the procedures are those of the analysis. -/
theorem analysis_finishes (env : Environment) :
    (∀ (p : Procedures Attempt) (height : Nat), p.FinishesBelow env height →
      (p.body env).FinishesBelow env (height + 1)) ∧
    ∀ (stack : List String) (frame : Frame) (m : Memo), env.Has frame → Moment env m →
      ∀ depth, ((env.remaining stack).length + 1) * (2 * env.maxValues + 4) ≤ depth →
        let p : Procedures Attempt := .nested env depth
        let u : UnderWay := ⟨stack, []⟩
        (∀ o, p.operand frame [] o u m = some (Query.resolve env stack frame o m)) ∧
        p.flow frame u m = some (Query.flow env stack frame m) ∧
        ∀ configurer, p.calls frame configurer u m =
          some (Query.configurerCalls env stack frame configurer m) := by
  refine ⟨fun p height hp ↦ hp.body, fun stack frame m hframe hm depth hdepth ↦ ?_⟩
  have hp := Procedures.finishesBelow_nested env depth
  have hheight : stackHeight env stack + 2 * env.maxValues + 4 ≤ depth := by
    rw [Nat.succ_mul] at hdepth
    exact hdepth
  refine ⟨fun o ↦ (hp.operand ⟨stack, []⟩ frame [] o hframe ?_ m hm).1,
    (hp.flow ⟨stack, []⟩ frame hframe ?_ m hm).1,
    fun configurer ↦ (hp.calls stack frame configurer hframe ?_ m hm).1⟩
  · have hle := operandHeight_le ⟨stack, []⟩ [] hframe
    dsimp only at hle
    omega
  · unfold flowHeight
    dsimp only
    omega
  · omega

namespace Tangle

/-- A function that branches on a local which it stores to after the branch, and returns a value
that is merged from itself. -/
def ping : Function := ⟨"ping", [],
  [⟨[.alloc ⟨0⟩ "bool", .load ⟨1⟩ (.value ⟨0⟩)], .branch (.value ⟨1⟩) ⟨1⟩ ⟨2⟩⟩,
   ⟨[.call (some ⟨2⟩) (.static "pong" []) [.param 0], .store (.value ⟨0⟩) (.value ⟨2⟩)], .jump ⟨0⟩⟩,
   ⟨[.phi ⟨3⟩ [.value ⟨3⟩, .value ⟨2⟩]], .ret [.value ⟨3⟩]⟩]⟩

/-- A function that branches on what the other returns. -/
def pong : Function := ⟨"pong", [],
  [⟨[.call (some ⟨0⟩) (.static "ping" []) [.param 0]], .branch (.value ⟨0⟩) ⟨0⟩ ⟨1⟩⟩,
   ⟨[], .ret [.value ⟨0⟩]⟩]⟩

/-- The program of both. -/
def program : Environment where
  program := .ofLists [] [ping, pong] []

/-- The frame of the first. -/
def frame : Frame := ⟨ping, []⟩

end Tangle

open Tangle in
/-- Calls nested at most thirty-six deep will do; three deep, there is no end. -/
theorem analysis_finishes_tangle :
    let p : Nat → Procedures Attempt := .nested program
    program.Has frame ∧ ((program.remaining []).length + 1) * (2 * program.maxValues + 4) = 36 ∧
    (p 36).operand frame [] (.value ⟨3⟩) {} {} =
      some (Query.resolve program [] frame (.value ⟨3⟩) {}) ∧
    (p 36).flow frame {} {} = some (Query.flow program [] frame {}) ∧
    (p 36).calls frame 0 {} {} = some (Query.configurerCalls program [] frame 0 {}) ∧
    (p 3).calls frame 0 {} {} = none := by
  have hframe : program.Has frame := by
    unfold Environment.Has
    decide +kernel
  have hdepth : ((program.remaining []).length + 1) * (2 * program.maxValues + 4) = 36 := by
    decide +kernel
  obtain ⟨hresolve, hflow, hcalls⟩ :=
    (analysis_finishes program).2 [] frame {} hframe .start 36 (Nat.le_of_eq hdepth)
  exact ⟨hframe, hdepth, hresolve _, hflow, hcalls 0, by decide +kernel⟩

end Wiring.Analysis
