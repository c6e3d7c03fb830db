import Wiring.Config.Flag
import Wiring.Config.Identity
import Wiring.Config.Route
import Wiring.Draft.Gap

/-!
# Drafts of identities, routes and flags

The steps by which the parts of an entity are drafted. Steps never fail; completion does when the
draft has a gap.
-/

namespace Wiring.Draft

open Wiring.Config

/-- One step of drafting an identity. -/
inductive IdentityStep where
  | setName (name : String)
  | setKey (key : String)
  | updateFidelity (f : Fidelity)
  deriving DecidableEq, Repr

/-- One step of drafting a route. -/
inductive RouteStep where
  | setRouteType (t : RouteType)
  | setMessageTypeName (name : String)
  | setMessageType (t : MessageType)
  | updateFidelity (f : Fidelity)
  deriving DecidableEq, Repr

/-- One step of drafting a flag. -/
inductive FlagStep where
  | setValue (b : Bool)
  | updateFidelity (f : Fidelity)
  deriving DecidableEq, Repr

/-- The draft after a step. -/
def IdentityStep.apply (i : Identity) : IdentityStep → Identity
  | setName name => { i with name := some name }
  | setKey key => { i with key := some key }
  | updateFidelity f => { i with fidelity := max i.fidelity f }

/-- The draft after a step. A message type also names the route, unless it is named already. -/
def RouteStep.apply (r : Route) : RouteStep → Route
  | setRouteType t => { r with routeType := some t }
  | setMessageTypeName name => { r with messageTypeName := some name }
  | setMessageType t =>
    { r with messageTypeName := r.messageTypeName <|> some t.name, messageType := some t }
  | updateFidelity f => { r with fidelity := max r.fidelity f }

/-- The draft after a step. -/
def FlagStep.apply (x : Flag) : FlagStep → Flag
  | setValue b => { x with value := some b }
  | updateFidelity f => { x with fidelity := max x.fidelity f }

/-- A complete identity has a name and a key, or says that it is incomplete. -/
def completeIdentity (i : Identity) : Except Gap Identity :=
  if i.fidelity.incomplete then .ok i
  else if i.name.isNone then .error .identityName
  else if i.key.isNone then .error .identityKey
  else .ok i

/-- A complete route has a route type and a message type name, or says that it is incomplete. -/
def completeRoute (r : Route) : Except Gap Route :=
  if r.fidelity.incomplete then .ok r
  else if r.routeType.isNone then .error .routeType
  else if r.messageTypeName.isNone then .error .messageType
  else .ok r

/-- A complete flag has a value, or says that it is incomplete. -/
def completeFlag (x : Flag) : Except Gap Flag :=
  if x.value.isNone && !x.fidelity.incomplete then .error .flagValue else .ok x

/-- The identity that the steps draft. -/
def identity (steps : List IdentityStep) : Except Gap Identity :=
  completeIdentity (steps.foldl IdentityStep.apply {})

/-- The route that the steps draft. -/
def route (steps : List RouteStep) : Except Gap Route :=
  completeRoute (steps.foldl RouteStep.apply {})

/-- The flag that the steps draft. -/
def flag (steps : List FlagStep) : Except Gap Flag :=
  completeFlag (steps.foldl FlagStep.apply {})

/-- The fidelity after each step, from a draft on. -/
def identityLog : Identity → List IdentityStep → List LogEntry
  | _, [] => []
  | i, s :: rest => ⟨"identity", some (s.apply i).fidelity⟩ :: identityLog (s.apply i) rest

/-- The fidelity after each step, from a draft on. -/
def routeLog : Route → List RouteStep → List LogEntry
  | _, [] => []
  | r, s :: rest => ⟨"route", some (s.apply r).fidelity⟩ :: routeLog (s.apply r) rest

/-- One entry per step; a draft of a flag does not show its fidelity. -/
def flagLog (steps : List FlagStep) : List LogEntry := steps.map fun _ ↦ ⟨"flag", none⟩

end Wiring.Draft
