import Wiring.Config.Application
import Wiring.Draft.Parts

/-!
# Drafts of handlers and applications

The steps by which entities are drafted. A step that adds a part drafts it with steps of its own
and fails where these leave a gap. While an entity is drafted it shows only the doubts about
itself; completion takes over those about its parts.
-/

namespace Wiring.Draft

open Wiring.Config

/-- One step of drafting a handler. -/
inductive HandlerStep where
  | setTypeName (name : String)
  | setSource (typeName : String)
  | updateFidelity (f : Fidelity)
  | identity (steps : List IdentityStep)
  | route (steps : List RouteStep)
  | disabled (steps : List FlagStep)
  deriving DecidableEq, Repr

/-- One step of drafting an application. -/
inductive ApplicationStep where
  | setTypeName (name : String)
  | setSource (typeName : String)
  | updateFidelity (f : Fidelity)
  | identity (steps : List IdentityStep)
  | handler (kind : HandlerKind) (steps : List HandlerStep)
  deriving DecidableEq, Repr

/-- The handler after a step. -/
def HandlerStep.apply (h : Handler) : HandlerStep → Except Gap Handler
  | setTypeName name => .ok { h with typeName := some name }
  | setSource typeName => .ok { h with source := some typeName }
  | updateFidelity f => .ok { h with fidelity := max h.fidelity f }
  | identity steps => do return { h with identities := h.identities ++ [← Draft.identity steps] }
  | route steps => do return { h with routes := h.routes ++ [← Draft.route steps] }
  | disabled steps => do return { h with disabled := h.disabled ++ [← Draft.flag steps] }

/-- An entity needs a type name or a source, or says that it is incomplete. Its doubts are then
joined by those about its identities. -/
def completeEntity (kind : String) (e : Entity) : Except Gap Entity :=
  if !e.fidelity.incomplete && e.typeName.isNone && e.source.isNone then
    .error (.sourceTypeName kind)
  else .ok { e with fidelity := max e.fidelity (.unions (e.identities.map Identity.fidelity)) }

/-- The handler with the doubts about its parts taken over. -/
def completeHandler (h : Handler) : Except Gap Handler := do
  let entity ← completeEntity h.kind.text h.toEntity
  let parts := h.routes.map Route.fidelity ++ h.disabled.map Flag.fidelity
  return { h with toEntity := { entity with fidelity := max entity.fidelity (.unions parts) } }

/-- The handler of a kind that the steps draft. -/
def handler (kind : HandlerKind) (steps : List HandlerStep) : Except Gap Handler := do
  completeHandler (← steps.foldlM HandlerStep.apply { kind })

/-- The application after a step. -/
def ApplicationStep.apply (a : Application) : ApplicationStep → Except Gap Application
  | setTypeName name => .ok { a with typeName := some name }
  | setSource typeName => .ok { a with source := some typeName }
  | updateFidelity f => .ok { a with fidelity := max a.fidelity f }
  | identity steps => do return { a with identities := a.identities ++ [← Draft.identity steps] }
  | handler kind steps => do
    return { a with handlers := a.handlers ++ [← Draft.handler kind steps] }

/-- The application with the doubts about its parts taken over. -/
def completeApplication (a : Application) : Except Gap Application := do
  let entity ← completeEntity Application.kindText a.toEntity
  let parts := a.handlers.map fun h ↦ h.fidelity
  return { a with toEntity := { entity with fidelity := max entity.fidelity (.unions parts) } }

/-- The application that the steps draft. -/
def application (steps : List ApplicationStep) : Except Gap Application := do
  completeApplication (← steps.foldlM ApplicationStep.apply {})

/-- What the parts that a step adds log, before the step itself is done. -/
def HandlerStep.partLog : HandlerStep → List LogEntry
  | identity steps => identityLog {} steps
  | route steps => routeLog {} steps
  | disabled steps => flagLog steps
  | setTypeName _ | setSource _ | updateFidelity _ => []

/-- The fidelity after each step, from a draft on; the log ends where a part has a gap. -/
def handlerLog : Handler → List HandlerStep → List LogEntry
  | _, [] => []
  | h, s :: rest =>
    s.partLog ++
      match s.apply h with
      | .ok h' => ⟨h.kind.text, some h'.fidelity⟩ :: handlerLog h' rest
      | .error _ => []

/-- What the parts that a step adds log, before the step itself is done. -/
def ApplicationStep.partLog : ApplicationStep → List LogEntry
  | identity steps => identityLog {} steps
  | handler kind steps => handlerLog { kind } steps
  | setTypeName _ | setSource _ | updateFidelity _ => []

/-- The fidelity after each step, from a draft on; the log ends where a part has a gap. -/
def applicationLog : Application → List ApplicationStep → List LogEntry
  | _, [] => []
  | a, s :: rest =>
    s.partLog ++
      match s.apply a with
      | .ok a' => ⟨Application.kindText, some a'.fidelity⟩ :: applicationLog a' rest
      | .error _ => []

end Wiring.Draft
