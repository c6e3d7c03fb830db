import Wiring.Catalogue
import Wiring.Config.Route

/-!
# Route sets

The routes of a handler by what they are about: at most one route for a route type and a message
type name, in ascending order of these.
-/

namespace Wiring.Config

/-- A route under what it is about. -/
structure KeyedRoute where
  about : RouteKey
  route : Route
  deriving DecidableEq, Repr

instance : Keyed KeyedRoute RouteKey := ⟨KeyedRoute.about⟩

/-- Routes in ascending order of what they are about. -/
structure RouteSet where
  catalogue : Catalogue KeyedRoute
  deriving DecidableEq, Repr

namespace RouteSet

/-- The set without routes. -/
def empty : RouteSet := ⟨.empty⟩

/-- The routes in order, each under what it is about. -/
def toList (s : RouteSet) : List KeyedRoute := s.catalogue.toList

/-- Add a route, in place of one about the same. -/
def insert (s : RouteSet) (about : RouteKey) (route : Route) : RouteSet :=
  ⟨s.catalogue.file ⟨about, route⟩⟩

/-- The routes whose route type and name are known; of two about the same the later stays. -/
def ofRoutes (routes : List Route) : RouteSet :=
  routes.foldl (fun s r ↦ match r.key with
    | some about => s.insert about r
    | none => s) empty

/-- Number of routes. -/
def size (s : RouteSet) : Nat := s.toList.length

/-- There is no route. -/
def isEmpty (s : RouteSet) : Bool := s.toList.isEmpty

/-- The route of a type for a message type name. -/
def get? (s : RouteSet) (routeType : RouteType) (messageTypeName : String) : Option Route :=
  (s.catalogue.find? ⟨routeType, messageTypeName⟩).map KeyedRoute.route

/-- There is a route of the type for the message type name. -/
def contains (s : RouteSet) (routeType : RouteType) (messageTypeName : String) : Bool :=
  (s.get? routeType messageTypeName).isSome

/-- The message type names that have a route of the type, in ascending order. -/
def messageTypeNames (s : RouteSet) (routeType : RouteType) : List String :=
  (s.toList.filter fun r ↦ r.about.routeType = routeType).map fun r ↦ r.about.messageTypeName

/-- The routes in order. -/
def routes (s : RouteSet) : List Route := s.toList.map KeyedRoute.route

end RouteSet
end Wiring.Config
