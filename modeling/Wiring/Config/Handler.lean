import Wiring.Config.Entity
import Wiring.Config.Flag
import Wiring.Config.HandlerKind
import Wiring.Config.RouteSet

/-!
# Handlers

An entity that deals with messages. Its kind says which routes it may and must have; a flag may
turn it off.
-/

namespace Wiring.Config

open Wiring.Text (Outline)

/-- A message handler, as far as it is known. -/
structure Handler extends Entity where
  kind : HandlerKind
  routes : List Route := []
  disabled : List Flag := []
  deriving DecidableEq, Repr

namespace Handler

/-- The handler in short: its kind, and its type if known. -/
def descriptor (h : Handler) : String := h.toEntity.descriptor h.kind.text

/-- What is wrong with single routes, in their order: a type that the kind disallows, and the
second route about the same. Earlier routes are given by what they are about. -/
def routeProblems (kind : HandlerKind) : List RouteKey → List Route → List Problem
  | _, [] => []
  | earlier, r :: rest =>
    let unexpected := match r.routeType with
      | some t =>
        if kind.capability t = .disallowed then [.unexpectedRouteType t r.descriptor] else []
      | none => []
    let duplicate := match r.key with
      | some about => if earlier.count about = 1 then [.duplicateRoute about] else []
      | none => []
    unexpected ++ duplicate ++ routeProblems kind (earlier ++ r.key.toList) rest

/-- Required route types that no route has. -/
def missingRouteTypes (kind : HandlerKind) (routes : List Route) : List RouteType :=
  RouteType.all.filter fun t ↦
    kind.capability t = .required && !routes.any fun r ↦ r.routeType = some t

/-- Missing routes are no problem of an incomplete handler. -/
def missingRouteProblems (h : Handler) : List Problem :=
  if h.fidelity.incomplete then []
  else (missingRouteTypes h.kind h.routes).map .missingRequiredRoute

/-- The handler with its parts normalized and the doubts about them taken over; what is wrong
with its routes comes after what is wrong with it as an entity. -/
def normalize (o : Options) (h : Handler) : Handler :=
  let routes := h.routes.map (Route.normalize o)
  let disabled := h.disabled.map Flag.normalize
  let entity := h.toEntity.normalize o h.kind.text
  let h := { h with
    toEntity := { entity with
      fidelity := max entity.fidelity
        (.unions (routes.map Route.fidelity ++ disabled.map Flag.fidelity)) }
    routes, disabled }
  { h with problems :=
      entity.problems ++ routeProblems h.kind [] h.routes ++ h.missingRouteProblems }

/-- Add the findings about the handler as an entity, then those about its routes and flags. -/
def collect (h : Handler) (found : List Finding) : List Finding :=
  let found := h.toEntity.collect h.descriptor found
  let found := h.routes.foldl (fun found r ↦ collectOwn r.descriptor r.problems found) found
  h.disabled.foldl (fun found f ↦ collectOwn f.descriptor f.problems found) found

/-- Write the details of the identities, then those of the routes and flags. -/
def writeParts (h : Handler) (o : Outline) : Outline :=
  let o := h.toEntity.writeParts o
  let o := Reportable.writeEach h.routes o
  Reportable.writeEach h.disabled o

instance : Reportable Handler where
  descriptor := descriptor
  fidelity h := h.fidelity
  problems h := h.problems
  collect := collect
  writeParts := writeParts

/-- Whether the handler is turned off, if that can be told: one flag that certainly turns it off
suffices, and it is on only if every flag is certainly off and there can be no further flag. -/
def disabledState (h : Handler) : Option Bool :=
  if h.disabled.any fun f ↦ f.certainValue = some true then some true
  else if !h.fidelity.incomplete && h.disabled.all fun f ↦ f.certainValue.isSome then some false
  else none

/-- It cannot be told whether the handler with the descriptor is turned off. -/
structure DisabledUnknown where
  descriptor : String
  deriving DecidableEq, Repr

/-- The failure in words. -/
def DisabledUnknown.text (u : DisabledUnknown) : String :=
  "cannot determine whether " ++ u.descriptor ++ " is disabled"

/-- Whether the handler is turned off, for callers that need to know. -/
def isDisabled (h : Handler) : Except DisabledUnknown Bool :=
  match h.disabledState with
  | some disabled => .ok disabled
  | none => .error ⟨h.descriptor⟩

/-- The identity of the handler, if it is the only one, valid and beyond doubt. -/
def identity (h : Handler) : Except Entity.IdentityFault Identity :=
  let h := h.normalize .default
  h.theIdentity h.descriptor

/-- Why a handler has no usable route set. -/
inductive RouteSetFault where
  /-- The handler or one of its parts is invalid. -/
  | invalid (descriptor : String) (finding : Finding)
  /-- A route is in doubt. -/
  | doubtful (descriptor : String) (fidelity : Fidelity) (route : String)
  deriving DecidableEq, Repr

/-- The fault in words. -/
def RouteSetFault.text : RouteSetFault → String
  | invalid d finding => d ++ " is invalid: " ++ finding.text
  | doubtful d fidelity route =>
    d ++ " has a route with " ++ fidelity.text ++ " fidelity: " ++ route

/-- The routes of a valid handler, if none of them is in doubt. -/
def routeSet (h : Handler) : Except RouteSetFault RouteSet :=
  let h := h.normalize .default
  match Reportable.findings h with
  | finding :: _ => .error (.invalid h.descriptor finding)
  | [] =>
    match h.routes.find? fun r ↦ !r.fidelity.isImmaculate with
    | some r => .error (.doubtful h.descriptor r.fidelity r.descriptor)
    | none => .ok (.ofRoutes h.routes)

end Handler
end Wiring.Config
