import Wiring.Config.RouteType

/-!
# Handler kinds

The kinds of message handler, and which routes a handler of each kind may or must have.
-/

namespace Wiring.Config

/-- The role of a handler within its application. -/
inductive HandlerKind where
  | aggregate
  | process
  | integration
  | projection
  deriving DecidableEq, Repr

/-- How a kind of handler stands to a route type. -/
inductive RouteCapability where
  /-- Every handler of the kind has such a route. -/
  | required
  /-- A handler of the kind may have such routes. -/
  | optional
  /-- No handler of the kind has such a route. -/
  | disallowed
  deriving DecidableEq, Repr

namespace HandlerKind

/-- Every handler kind. -/
def all : List HandlerKind := [aggregate, process, integration, projection]

/-- The name of a handler kind. -/
def text : HandlerKind → String
  | aggregate => "aggregate"
  | process => "process"
  | integration => "integration"
  | projection => "projection"

/-- How a handler of the kind stands to a route type. -/
def capability : HandlerKind → RouteType → RouteCapability
  | aggregate, .handlesCommand | aggregate, .recordsEvent => .required
  | process, .handlesEvent | process, .executesCommand => .required
  | process, .schedulesTimeout => .optional
  | integration, .handlesCommand => .required
  | integration, .recordsEvent => .optional
  | projection, .handlesEvent => .required
  | _, _ => .disallowed

end HandlerKind

/-- The name of a capability. -/
def RouteCapability.text : RouteCapability → String
  | required => "required"
  | optional => "optional"
  | disallowed => "disallowed"

end Wiring.Config
