import Wiring.Config.Options
import Wiring.Config.Report

/-!
# Routes

What a handler does with one type of message.
-/

namespace Wiring.Config

/-- A route, as far as it is known. The message type itself, with its kind, is known only where
the type is at hand; its name may be known alone. -/
structure Route where
  fidelity : Fidelity := {}
  problems : List Problem := []
  routeType : Option RouteType := none
  messageTypeName : Option String := none
  messageType : Option MessageType := none
  deriving DecidableEq, Repr

namespace Route

/-- The route in short, with a question mark for what is not known. -/
def descriptor (r : Route) : String :=
  "route:" ++ (r.routeType.map RouteType.text).getD "?" ++ ":" ++ r.messageTypeName.getD "?"

/-- What the route is about, if both parts are known. -/
def key (r : Route) : Option RouteKey :=
  match r.routeType, r.messageTypeName with
  | some routeType, some messageTypeName => some ⟨routeType, messageTypeName⟩
  | _, _ => none

/-- What an exclusive route is about, if it is known. -/
def exclusiveKey (r : Route) : Option RouteKey :=
  r.key.filter fun about ↦ about.routeType.isExclusive

/-- The route named for its message type, unless it has a name already. -/
def named (r : Route) : Route :=
  { r with messageTypeName := r.messageTypeName <|> r.messageType.map MessageType.name }

/-- The route is named for another type than its message type. -/
def nameProblems (r : Route) : List Problem :=
  match r.messageType, r.messageTypeName with
  | some messageType, some name =>
    if messageType.name = name then [] else [.typeNameMismatch name messageType.name]
  | _, _ => []

/-- The message type is not of the kind that the route type is for. -/
def kindProblems (r : Route) : List Problem :=
  match r.messageType, r.routeType with
  | some messageType, some routeType =>
    if messageType.kind = routeType.messageKind then []
    else [.messageKindMismatch messageType.name routeType.messageKind messageType.kind]
  | _, _ => []

/-- Execution needs the message type itself. -/
def availabilityProblems (o : Options) (r : Route) : List Problem :=
  if o.forExecution && r.messageType.isNone then
    [.runtimeValueUnavailable ("message type of " ++ r.descriptor)]
  else []

/-- The route with its name filled in and its problems found. -/
def normalize (o : Options) (r : Route) : Route :=
  let r := r.named
  { r with problems := r.nameProblems ++ r.kindProblems ++ r.availabilityProblems o }

/-- A route has no parts. -/
instance : Reportable Route where
  descriptor := descriptor
  fidelity := fidelity
  problems := problems
  collect r := collectOwn r.descriptor r.problems
  writeParts _ o := o

end Route
end Wiring.Config
