import Wiring.Analysis.Query
import Wiring.Config.Component
import Wiring.Draft.Entities

/-!
# Recovering configurations

The configuration of the applications in a program. For every type that implements the interface
of applications, the calls that its `Configure` method makes on its configurer are turned into the
steps of a draft; a call that registers a handler brings in the steps of the handler's own
`Configure` method. Whatever cannot be told makes the component incomplete.
-/

namespace Wiring.Analysis

open Wiring.Config (Application HandlerKind)
open Wiring.Draft (IdentityStep RouteStep FlagStep HandlerStep ApplicationStep Gap)
open Wiring.Program (Operand NamedType)

/-- The position of the configurer among the parameters of a `Configure` method, after the
receiver. -/
def configurerPosition : Nat := 1

/-- The text of an argument of a call. -/
def argString (env : Environment) (call : ConfigurerCall) (index : Nat) :
    Memoized (Option String) :=
  match call.args[index]? with
  | some arg => Query.resolveString env [] call.frame arg
  | none => return none

/-- The identity that a call gives: its arguments are the name and the key. -/
def identitySteps (env : Environment) (call : ConfigurerCall) : Memoized (List IdentityStep) := do
  let name ← argString env call 0
  let key ← argString env call 1
  return [.updateFidelity call.fidelity,
    match name with
    | some name => .setName name
    | none => .updateFidelity .onlyIncomplete,
    match key with
    | some key => .setKey key
    | none => .updateFidelity .onlyIncomplete]

/-- The route that a value is, if it was made by a route constructor: the constructor gives the
route type, its type argument the message type. -/
def constructedRoute (env : Environment) : Option StaticValue → List RouteStep
  | some (.constructed function typeArgs) =>
    match env.vocabulary.routeType? function with
    | none => [.updateFidelity .onlyIncomplete]
    | some routeType =>
      .setRouteType routeType ::
        match typeArgs with
        | [] => [.updateFidelity .onlyIncomplete]
        | name :: _ =>
          .setMessageTypeName name ::
            match (env.program.namedType? name).bind env.vocabulary.messageKind? with
            | some kind => [.setMessageType ⟨name, kind⟩]
            | none => []
  | _ => [.updateFidelity .onlyIncomplete]

/-- The route that an element of a slice of routes is. -/
def routeSteps (env : Environment) (call : ConfigurerCall) (element : Operand) :
    Memoized (List RouteStep) := do
  let value ← Query.resolve env [] call.frame element
  return .updateFidelity call.fidelity ::
    constructedRoute env (value.bind StaticValue.unboxed)

/-- The routes that a call gives as a slice. -/
def routesSteps (env : Environment) (call : ConfigurerCall) : Memoized (List HandlerStep) :=
  match call.args.head?.bind (Query.sliceElements call.frame) with
  | some elements => elements.mapM fun e ↦ .route <$> routeSteps env call e
  | none => return [.updateFidelity .onlyIncomplete]

/-- What becomes of the calls that an entity's `Configure` method makes on its configurer. There
may be no such method, its body may not be known, or it may not take a configurer. -/
def configureSteps {σ : Type} (env : Environment) (typeName : String)
    (updateFidelity : Fidelity → σ) (steps : ConfigurerCall → Memoized (List σ)) :
    Memoized (List σ) :=
  match env.program.method? typeName "Configure" with
  | none => return [updateFidelity .onlyIncomplete]
  | some configure =>
    if configure.isExternal || configure.params.length ≤ configurerPosition then
      return [updateFidelity .onlyIncomplete]
    else do
      let found ← Query.configurerCalls env [] { function := configure } configurerPosition
      return updateFidelity found.fidelity :: (← found.calls.mapM steps).flatten

/-- What a call does to the handler that makes it. -/
def handlerCallSteps (env : Environment) (call : ConfigurerCall) : Memoized (List HandlerStep) :=
  if call.method = "Identity" then do return [.identity (← identitySteps env call)]
  else if call.method = "Routes" then routesSteps env call
  else if call.method = "Disable" then
    return [.disabled [.setValue true, .updateFidelity call.fidelity]]
  else return [.updateFidelity .onlyIncomplete]

/-- The handler that a call registers: the type of its argument is the handler's. -/
def handlerSteps (env : Environment) (call : ConfigurerCall) : Memoized (List HandlerStep) := do
  let typeName ← match call.args.head? with
    | some arg => Query.concreteType env [] call.frame arg
    | none => pure none
  match typeName with
  | none => return [.updateFidelity call.fidelity, .updateFidelity .onlyIncomplete]
  | some typeName =>
    return .updateFidelity call.fidelity :: .setTypeName typeName ::
      (← configureSteps env typeName .updateFidelity (handlerCallSteps env))

/-- The kind of handler that a method of an application's configurer registers. -/
def registers (method : String) : Option HandlerKind :=
  if method = "RegisterAggregate" then some .aggregate
  else if method = "RegisterProcess" then some .process
  else if method = "RegisterIntegration" then some .integration
  else if method = "RegisterProjection" then some .projection
  else none

/-- What a call does to the application that makes it. -/
def applicationCallSteps (env : Environment) (call : ConfigurerCall) :
    Memoized (List ApplicationStep) :=
  if call.method = "Identity" then do return [.identity (← identitySteps env call)]
  else match registers call.method with
    | some kind => do return [.handler kind (← handlerSteps env call)]
    | none => return [.updateFidelity .onlyIncomplete]

/-- The draft of the application that a type is. -/
def applicationSteps (env : Environment) (typeName : String) : Memoized (List ApplicationStep) := do
  return .setTypeName typeName ::
    (← configureSteps env typeName .updateFidelity (applicationCallSteps env))

/-- The application that a type is, recovered with nothing remembered. -/
def recoverApplication (env : Environment) (typeName : String) : Except Gap Application :=
  Draft.application (applicationSteps env typeName {}).1

/-- The types that implement the interface of applications, in ascending order of their names. -/
def applicationTypes (env : Environment) : List NamedType :=
  env.program.types.toList.filter fun t ↦ t.implements env.vocabulary.application

/-- The applications in a program, in ascending order of their descriptors. -/
def recoverApplications (env : Environment) : Except Gap (List Application) := do
  let applications ← (applicationTypes env).mapM fun t ↦ recoverApplication env t.name
  return applications.mergeSort fun a b ↦ !decide (b.descriptor < a.descriptor)

/-- The details of some applications, one after another with an empty line between them. -/
def details (applications : List Application) : String :=
  "\n".intercalate (applications.map fun a ↦ (Config.Component.application a).details)

end Wiring.Analysis
