import Wiring.Proofs.Analysis.KnownTypes
import Wiring.Proofs.Analysis.Locality
import Wiring.Proofs.Analysis.Moment
import Wiring.Proofs.Recovery.Handlers

/-!
# Recovery is local

Recovery looks up nothing by a name that the program does not mention: calls are found in functions
of the program, and the types that are looked up for their arguments are named in it. So parts of a
program that nothing in the rest mentions, and that are no applications, have no bearing on what is
recovered.
-/

namespace Wiring.Analysis

open Wiring.Draft (RouteStep)
open Wiring.Program (Function Global NamedType Operand mentionedType)

/-- Started with derivable answers remembered, the computations do the same. -/
abbrev Alongside (env : Environment) {α : Type} (c c' : Memoized α) : Prop :=
  Coincide (Memo.Justified env) c c'

/-- What is inside all interfaces mentions no more than the whole. -/
theorem StaticValue.mentions_unboxed {v w : StaticValue} (h : v.unboxed = some w) :
    w.mentions ⊆ v.mentions := by
  induction v with
  | boxed typeName held ih => exact List.subset_cons_of_subset _ (ih h)
  | boxedUnknown typeName => cases h
  | const c =>
    obtain rfl := Option.some.inj h
    exact List.Subset.refl _
  | constructed function typeArgs =>
    obtain rfl := Option.some.inj h
    exact List.Subset.refl _

/-- A value mentions its concrete type. -/
theorem StaticValue.mem_mentions_of_concreteType {v : StaticValue} {typeName : String}
    (h : v.concreteType? = some typeName) : mentionedType typeName ∈ v.mentions := by
  cases v with
  | boxed | boxedUnknown =>
    obtain rfl := Option.some.inj h
    exact List.mem_cons_self
  | const | constructed => cases h

/-- The type of a handler is one that the program mentions. -/
theorem givenType_concludes {env : Environment} {call : ConfigurerCall}
    (hcall : env.Knows call.frame) : Concludes env
    (fun r ↦ ∀ name, r = some name → mentionedType name ∈ env.program.mentions)
    (givenType env call) := by
  unfold givenType
  split
  · refine Yields.bind (resolve_names [] hcall _) fun value hvalue ↦ .pure fun name hname ↦ ?_
    obtain ⟨v, rfl, hv⟩ := Option.bind_eq_some_iff.mp hname
    exact hvalue v rfl (StaticValue.mem_mentions_of_concreteType hv)
  · exact .pure fun _ hname ↦ nomatch hname

namespace Extension

variable {env env' : Environment} (h : Extension env env') {call : ConfigurerCall}
include h

section Calls

variable (hcall : env.Knows call.frame)
include hcall

theorem resolve_eq : Query.resolve env' [] call.frame = Query.resolve env [] call.frame :=
  h.resolveIn_eq hcall.has

theorem argString_alongside (index : Nat) :
    Alongside env (argString env call index) (argString env' call index) := by
  unfold argString Query.resolveString
  rw [h.resolve_eq hcall]
  split
  · exact .bind_yields (resolve_names [] hcall _) fun _ _ ↦ .pure _
  · exact .pure _

/-- The identity that a call gives. -/
theorem identitySteps_alongside :
    Alongside env (identitySteps env call) (identitySteps env' call) :=
  (h.argString_alongside hcall 0).bind fun _ ↦
    (h.argString_alongside hcall 1).bind fun _ ↦ .pure _

omit hcall in
/-- The route that a value is, if it names types of the program. -/
theorem constructedRoute_eq {value : Option StaticValue}
    (hvalue : ∀ v, value = some v → env.Names v) :
    constructedRoute env' value = constructedRoute env value := by
  unfold constructedRoute
  split
  · next function typeArgs =>
    rw [h.vocabulary]
    cases typeArgs with
    | nil => rfl
    | cons name rest =>
      have hname : mentionedType name ∈ env.program.mentions :=
        hvalue _ rfl List.mem_cons_self
      dsimp only
      rw [h.namedType?_of_mem hname]
  · rfl

/-- The route that an element of a slice is. -/
theorem routeSteps_alongside (element : Operand) :
    Alongside env (routeSteps env call element) (routeSteps env' call element) := by
  unfold routeSteps
  rw [h.resolve_eq hcall]
  refine .bind_yields (resolve_names [] hcall element) fun value hvalue ↦ ?_
  rw [h.constructedRoute_eq]
  · exact .pure _
  · intro w hw
    obtain ⟨v, rfl, hv⟩ := Option.bind_eq_some_iff.mp hw
    exact List.Subset.trans (StaticValue.mentions_unboxed hv) (hvalue v rfl)

/-- The routes that a call gives. -/
theorem routesSteps_alongside : Alongside env (routesSteps env call) (routesSteps env' call) := by
  unfold routesSteps
  split
  · exact .mapM fun element _ ↦ (h.routeSteps_alongside hcall element).bind fun _ ↦ .pure _
  · exact .pure _

/-- What a call does to the handler that makes it. -/
theorem handlerCallSteps_alongside :
    Alongside env (handlerCallSteps env call) (handlerCallSteps env' call) := by
  unfold handlerCallSteps
  split
  · exact (h.identitySteps_alongside hcall).bind fun _ ↦ .pure _
  · split
    · exact h.routesSteps_alongside hcall
    · split <;> exact .pure _

end Calls

/-- What becomes of the calls of an entity of a mentioned type. -/
theorem configureSteps_alongside {σ : Type} {typeName : String} {updateFidelity : Fidelity → σ}
    {steps steps' : ConfigurerCall → Memoized (List σ)}
    (htype : mentionedType typeName ∈ env.program.mentions)
    (hsteps : ∀ call, env.Knows call.frame → Alongside env (steps call) (steps' call)) :
    Alongside env (configureSteps env typeName updateFidelity steps)
      (configureSteps env' typeName updateFidelity steps') := by
  unfold configureSteps
  rw [h.method?_eq htype]
  cases hf : env.program.method? typeName "Configure" with
  | none => exact .pure _
  | some f =>
    dsimp only
    split
    · exact .pure _
    · have hknows : env.Knows { function := f } :=
        ⟨Environment.has_of_method? hf [], fun _ hv ↦ absurd hv List.not_mem_nil⟩
      have hcalls := findConfigurerCalls_knows [] hknows configurerPosition
      unfold Query.configurerCalls
      rw [h.findConfigurerCalls_eq hknows.has]
      exact .bind_yields hcalls fun found hfound ↦
        (Coincide.mapM fun call hcall ↦ hsteps call (hfound call hcall)).bind fun _ ↦ .pure _

/-- What is found of a handler once its type has been looked for. -/
theorem typedSteps_alongside (typeName : Option String)
    (htype : ∀ name, typeName = some name → mentionedType name ∈ env.program.mentions) :
    Alongside env (typedSteps env call typeName) (typedSteps env' call typeName) := by
  cases typeName with
  | none => exact .pure _
  | some name =>
    exact (h.configureSteps_alongside (htype name rfl) fun _ hcall ↦
      h.handlerCallSteps_alongside hcall).bind fun _ ↦ .pure _

/-- The type of the handler that a call registers. -/
theorem givenType_eq (hcall : env.Knows call.frame) : givenType env' call = givenType env call := by
  unfold givenType Query.concreteType
  rw [h.resolve_eq hcall]

/-- The handler that a call registers. -/
theorem handlerSteps_alongside (hcall : env.Knows call.frame) :
    Alongside env (handlerSteps env call) (handlerSteps env' call) := by
  rw [handlerSteps_eq, handlerSteps_eq, h.givenType_eq hcall]
  exact .bind_yields (givenType_concludes hcall) h.typedSteps_alongside

/-- The draft of the application that a mentioned type is. -/
theorem applicationSteps_alongside {typeName : String}
    (htype : mentionedType typeName ∈ env.program.mentions) :
    Alongside env (applicationSteps env typeName) (applicationSteps env' typeName) := by
  refine (h.configureSteps_alongside htype fun call hcall ↦ ?_).bind fun _ ↦ .pure _
  unfold applicationCallSteps
  split
  · exact (h.identitySteps_alongside hcall).bind fun _ ↦ .pure _
  · split
    · exact (h.handlerSteps_alongside hcall).bind fun _ ↦ .pure _
    · exact .pure _

/-- The application that a type of the program is. -/
theorem recoverApplication_eq {t : NamedType} (ht : t ∈ env.program.types.toList) :
    recoverApplication env' t.name = recoverApplication env t.name := by
  have htype : mentionedType t.name ∈ env.program.mentions :=
    List.mem_append_left _ (List.mem_flatMap.mpr ⟨t, ht, List.mem_cons_self⟩)
  have hsteps := (h.applicationSteps_alongside htype {} Moment.start.justified).1
  unfold recoverApplication
  rw [hsteps]

end Extension

/-- A program that is added to is extended, if none of the names was mentioned. -/
theorem extension_adding {env : Environment} {types : List NamedType} {functions : List Function}
    {globals : List Global} (h : env.program.Unmentioned types functions globals) :
    Extension env { env with program := env.program.adding types functions globals } where
  vocabulary := rfl
  maxCallDepth := rfl
  function?_of_some := h.function?_of_some
  function?_of_mem := h.function?_of_mem
  global?_of_mem := h.global?_of_mem
  namedType?_of_mem := h.namedType?_of_mem

/-- Recovery is local: types, functions and global variables of new names that nothing in the
program mentions may be added, and the same applications are recovered, as long as none of the types
is an application. -/
theorem recoverApplications_adding (env : Environment) {types : List NamedType}
    {functions : List Function} {globals : List Global}
    (h : env.program.Unmentioned types functions globals)
    (hnone : ∀ t ∈ types, t.implements env.vocabulary.application = false) :
    recoverApplications { env with program := env.program.adding types functions globals } =
      recoverApplications env := by
  have htypes : applicationTypes { env with
      program := env.program.adding types functions globals } = applicationTypes env :=
    h.filter_types hnone
  have happlications (t : NamedType) (ht : t ∈ applicationTypes env) :=
    (extension_adding h).recoverApplication_eq (List.mem_of_mem_filter ht)
  have hmapM (f : NamedType → Except Draft.Gap Config.Application) :
      (applicationTypes env).mapM f = ((applicationTypes env).map f).mapM id := by
    rw [List.mapM_map]
    rfl
  unfold recoverApplications
  rw [htypes, hmapM, List.map_congr_left happlications, ← hmapM]

namespace Depot

/-- A program whose application has its name from a global variable and registers a handler with a
route. -/
def depot : Program :=
  .ofLists
    [⟨"App", ["dogma.Application"], .ofList [⟨"Configure", "App.Configure"⟩]⟩,
      ⟨"Stock", [], .ofList [⟨"Configure", "Stock.Configure"⟩]⟩,
      ⟨"Stocked", ["dogma.Event"], .empty⟩]
    [⟨"App.Configure", [⟨"a", "App"⟩, ⟨"c", "Configurer"⟩],
      [⟨[.load ⟨0⟩ (.global "name"),
        .call none (.invoke (.param 1) "Identity") [.value ⟨0⟩, .const (.string "key")],
        .makeInterface ⟨1⟩ (.const .nil) "*Stock",
        .call none (.invoke (.param 1) "RegisterProjection") [.value ⟨1⟩]], .ret []⟩]⟩,
    ⟨"Stock.Configure", [⟨"s", "Stock"⟩, ⟨"c", "Configurer"⟩],
      [⟨[.call (some ⟨0⟩) (.static "dogma.HandlesEvent" ["Stocked"]) [], .slice ⟨1⟩ [.value ⟨0⟩],
        .call none (.invoke (.param 1) "Routes") [.value ⟨1⟩]], .ret []⟩]⟩]
    [⟨"name", .string "depot"⟩]

/-- A handler type that the application does not register. -/
def spareType : NamedType := ⟨"Spare", [], .ofList [⟨"Configure", "Spare.Configure"⟩]⟩

/-- The function that would configure the handler. -/
def spareFunction : Function := ⟨"Spare.Configure", [⟨"s", "Spare"⟩, ⟨"c", "Configurer"⟩],
  [⟨[.load ⟨0⟩ (.global "spare"),
    .call none (.invoke (.param 1) "Identity") [.value ⟨0⟩, .const (.string "key")]], .ret []⟩]⟩

/-- The name that the handler would have. -/
def spareGlobal : Global := ⟨"spare", .string "spare"⟩

end Depot

open Depot in
/-- What nothing in the depot mentions has no bearing on its application. -/
theorem recoverApplications_adding_depot :
    depot.Unmentioned [spareType] [spareFunction] [spareGlobal] ∧
      spareType.implements "dogma.Application" = false ∧
      depot.adding [spareType] [spareFunction] [spareGlobal] ≠ depot ∧
      recoverApplications ⟨depot.adding [spareType] [spareFunction] [spareGlobal], ⟨"dogma"⟩, 32⟩ =
        recoverApplications ⟨depot, ⟨"dogma"⟩, 32⟩ := by
  have hnew : depot.Unmentioned [spareType] [spareFunction] [spareGlobal] :=
    ⟨by decide +kernel, by decide +kernel, by decide +kernel⟩
  have hnone : ∀ t ∈ [spareType], t.implements "dogma.Application" = false := by decide +kernel
  exact ⟨hnew, hnone _ List.mem_cons_self, by decide +kernel,
    recoverApplications_adding ⟨depot, ⟨"dogma"⟩, 32⟩ hnew hnone⟩

end Wiring.Analysis
