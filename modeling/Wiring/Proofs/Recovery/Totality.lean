import Wiring.Proofs.Analysis.Moment
import Wiring.Proofs.Analysis.Walk
import Wiring.Proofs.Recovery.Applications

/-!
# Recovery never fails

Whatever the program is, its applications are recovered: no draft has a gap, and no look-up by block
number fails, be it when a flow graph is built or, at any moment of the analysis, when one is read.
-/

namespace Wiring.Analysis

open Wiring.Program (Operand Function)

/-- Computations lead from moment to moment of an analysis; their answers have a property. -/
abbrev Passes (env : Environment) {α : Type} (Q : α → Prop) (c : Memoized α) : Prop :=
  Yields (Moment env) Q c

namespace Passes

variable {env : Environment} {α β : Type}

theorem done (a : α) : Passes env (fun _ ↦ True) (pure a) := .pure trivial

theorem seq {c : Memoized α} {f : α → Memoized β} (hc : Passes env (fun _ ↦ True) c)
    (hf : ∀ a, Passes env (fun _ ↦ True) (f a)) : Passes env (fun _ ↦ True) (c >>= f) :=
  Yields.bind hc fun a _ ↦ hf a

end Passes

/-- The calls are made in functions of the program. -/
def ConfigurerCalls.Framed (env : Environment) (r : ConfigurerCalls) : Prop :=
  ∀ call ∈ r.calls, env.Has call.frame

variable {env : Environment} {call : ConfigurerCall} {frame : Frame}

theorem resolve_passes (stack : List String) (hframe : env.Has frame) (o : Operand) :
    Passes env (fun _ ↦ True) (Query.resolve env stack frame o) :=
  fun m hm ↦ ⟨trivial, (remembering_moment env).resolveIn_self stack frame hframe o m hm⟩

/-- The arguments of a call to which the configurer is handed over are found from moment to moment,
and the call is one of a function of the program. -/
theorem boundArgs_passes (stack : List String) (hframe : env.Has frame) {h : Handover}
    {f : Function} (hf : env.followed h.callee = some f) : Passes env (fun args ↦ env.Has ⟨f, args⟩)
      (boundArgs (resolveIn env (resultOf env stack) [] frame) h) := by
  refine (Yields.mapM (S := fun _ _ ↦ True) fun p _ ↦ ?_).mono
    fun args _ ↦ Environment.has_of_followed hf args
  dsimp only
  split
  · exact .pure trivial
  · exact resolve_passes _ hframe _

/-- The calls on a configurer that are found are made in functions of the program. -/
theorem findConfigurerCalls_passes (stack : List String) (hframe : env.Has frame)
    (configurer : Nat) : Passes env (ConfigurerCalls.Framed env)
      (findConfigurerCalls env stack frame configurer) :=
  findConfigurerCalls_yields (I := Moment env) (P := env.Has) (fun _ hm ↦ hm.cutOff)
    (fun stack _ hframe _ hm ↦ ⟨trivial, hm.flow stack [] hframe⟩)
    (fun stack _ _ _ hframe hf ↦ boundArgs_passes stack hframe hf) hframe configurer

section Steps

variable (hcall : env.Has call.frame)
include hcall

theorem argString_passes (index : Nat) :
    Passes env (fun _ ↦ True) (argString env call index) := by
  unfold argString
  split
  · exact (resolve_passes [] hcall _).seq fun _ ↦ .done _
  · exact .done _

theorem identitySteps_passes : Passes env (fun _ ↦ True) (identitySteps env call) :=
  (argString_passes hcall 0).seq fun _ ↦ (argString_passes hcall 1).seq fun _ ↦ .done _

theorem routesSteps_passes : Passes env (fun _ ↦ True) (routesSteps env call) := by
  unfold routesSteps
  split
  · have hroute (e : Operand) : Passes env (fun _ ↦ True) (routeSteps env call e) :=
      (resolve_passes [] hcall e).seq fun _ ↦ .done _
    exact (Yields.mapM (S := fun _ _ ↦ True) fun e _ ↦ (hroute e).map fun _ h ↦ h).mono
      fun _ _ ↦ trivial
  · exact .done _

/-- What a call says, of an identity, of routes or to a handler, is found from moment to moment. -/
theorem handlerCallSteps_passes : Passes env (fun _ ↦ True) (handlerCallSteps env call) := by
  unfold handlerCallSteps
  split
  · exact (identitySteps_passes hcall).seq fun _ ↦ .done _
  · split
    · exact routesSteps_passes hcall
    · split <;> exact .done _

end Steps

/-- The function that configures a type is one of the program. -/
theorem has_of_configure? {typeName : String} {f : Function}
    (h : env.configure? typeName = some f) : env.Has { function := f } := by
  obtain ⟨hf, -⟩ := Option.filter_eq_some_iff.mp h
  exact Environment.has_of_method? hf []

/-- What configures a type is found from moment to moment. -/
theorem configureSteps_passes {σ : Type} {typeName : String} {updateFidelity : Fidelity → σ}
    {steps : ConfigurerCall → Memoized (List σ)}
    (hsteps : ∀ call, env.Has call.frame → Passes env (fun _ ↦ True) (steps call)) :
    Passes env (fun _ ↦ True) (configureSteps env typeName updateFidelity steps) := by
  cases hf : env.configure? typeName with
  | none =>
    rw [configureSteps_of_none hf]
    exact .done _
  | some f =>
    rw [configureSteps_of_some hf]
    refine Yields.bind (findConfigurerCalls_passes [] (has_of_configure? hf) configurerPosition)
      fun found hfound ↦ ?_
    exact Yields.bind (Yields.mapM (S := fun _ _ ↦ True) fun call hcall ↦
      hsteps call (hfound call hcall)) fun _ _ ↦ .pure trivial

/-- What is found of a handler once its type has been looked for is found from moment to moment. -/
theorem typedSteps_passes (typeName : Option String) :
    Passes env (fun _ ↦ True) (typedSteps env call typeName) := by
  cases typeName with
  | none => exact .done _
  | some typeName =>
    exact (configureSteps_passes fun _ h ↦ handlerCallSteps_passes h).seq fun _ ↦ .done _

/-- The handler that a call registers is found from moment to moment. -/
theorem handlerSteps_passes (hcall : env.Has call.frame) :
    Passes env (fun _ ↦ True) (handlerSteps env call) := by
  rw [handlerSteps_eq]
  refine Passes.seq ?_ typedSteps_passes
  unfold givenType
  split
  · exact (resolve_passes [] hcall _).seq fun _ ↦ .done _
  · exact .done _

/-- An application is recovered from moment to moment. -/
theorem applicationSteps_passes (typeName : String) :
    Passes env (fun _ ↦ True) (applicationSteps env typeName) := by
  refine (configureSteps_passes fun call hcall ↦ ?_).seq fun _ ↦ .done _
  unfold applicationCallSteps
  split
  · exact (identitySteps_passes hcall).seq fun _ ↦ .done _
  · split
    · exact (handlerSteps_passes hcall).seq fun _ ↦ .done _
    · exact .done _

/-- Whatever the program is, its applications are recovered: no draft of theirs has a gap. In
building a flow graph no look-up fails, however the conditions are decided. Recovering an
application leads from moment to moment, and at every moment no look-up fails in reading the flow
graph of a frame. -/
theorem recovery_never_fails (env : Environment) :
    (∃ applications, recoverApplications env = .ok applications) ∧
    (∀ {σ : Type} (decide : Operand → StateM σ (Option Bool)) (f : Function),
      FlowGraph.build? decide f = some <$> FlowGraph.build decide f) ∧
    (∀ typeName m, Moment env m → Moment env (applicationSteps env typeName m).2) ∧
    ∀ m, Moment env m → ∀ (stack building : List String) (frame : Frame), env.Has frame →
      let g := (flowOf env (resultOf env stack) building frame m).1
      (∀ index, returned? frame.function g index = some (returned frame.function g index)) ∧
      ∀ t : Taint, t.encounters? frame.function g = some (t.encounters frame.function g) := by
  refine ⟨⟨_, Application.recoverApplications_eq⟩, fun decide f ↦ FlowGraph.build?_eq decide f,
    fun typeName m hm ↦ (applicationSteps_passes typeName m hm).2,
    fun m hm stack building frame hframe ↦ ?_⟩
  obtain ⟨D, x, unfound, h, hg⟩ := hm.explored stack building hframe
  dsimp only
  rw [hg]
  exact ⟨returned?_eq h, Taint.encounters?_eq h⟩

namespace Dangling

/-- A function that branches to a block that it does not have, on a value that is not defined. -/
def configure : Function := ⟨"App.Configure", [⟨"a", "App"⟩, ⟨"c", "Configurer"⟩],
  [⟨[.call none (.invoke (.param 1) "Identity") [.value ⟨7⟩, .const (.string "key")]],
    .branch (.value ⟨3⟩) ⟨1⟩ ⟨5⟩⟩,
   ⟨[.call none (.invoke (.param 1) "RegisterAggregate") [.param 9]], .ret [.value ⟨7⟩]⟩]⟩

/-- The program of an application that the function configures. -/
def app : Environment where
  program := .ofLists [⟨"App", ["dogma.Application"], .ofList [⟨"Configure", "App.Configure"⟩]⟩]
    [configure] []
  vocabulary := ⟨"dogma"⟩

/-- What is remembered when the application has been recovered. -/
def recovered : Memo := (applicationSteps app "App" {}).2

/-- The flow graph of the function, as it is remembered then. -/
def graph : FlowGraph := (flowOf app (resultOf app []) [] ⟨configure, []⟩ recovered).1

end Dangling

open Dangling in
/-- The application is recovered, and the graph of its function is read: both blocks are in every
run. -/
theorem recovery_never_fails_dangling :
    (∃ applications, recoverApplications app = .ok applications) ∧
      FlowGraph.build? (m := StateM Unit) (fun _ ↦ return none) configure =
        some <$> FlowGraph.build (fun _ ↦ return none) configure ∧
      Moment app recovered ∧ app.Has ⟨configure, []⟩ ∧
      returned? configure graph 0 = some [some (.value ⟨7⟩)] ∧
      (Taint.ofParams configure [1]).encounters? configure graph =
        some [(.call "Identity" [.value ⟨7⟩, .const (.string "key")], true),
          (.call "RegisterAggregate" [.param 9], true)] := by
  obtain ⟨happs, hbuild, hmoments, hreads⟩ := recovery_never_fails app
  have hmoment : Moment app recovered := hmoments "App" {} .start
  have hframe : app.Has ⟨configure, []⟩ := by
    unfold Environment.Has
    decide +kernel
  obtain ⟨hreturned, hencounters⟩ := hreads recovered hmoment [] [] ⟨configure, []⟩ hframe
  refine ⟨happs, hbuild _ _, hmoment, hframe, (hreturned 0).trans ?_, (hencounters _).trans ?_⟩
  · decide +kernel
  · decide +kernel

end Wiring.Analysis
