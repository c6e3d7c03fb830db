import Wiring.Config.RouteType
import Wiring.Text.Quoted

/-!
# Problems

What validation finds wrong with a component. A problem is a value that names its cause; the
wording is a function of it.
-/

namespace Wiring.Config

open Wiring.Text (quoted)

/-- The cause for which a component is invalid. Components are named by their descriptors. -/
inductive Problem where
  /-- An entity has no identity. -/
  | missingIdentity
  /-- An entity has more than one identity. -/
  | multipleIdentities (identities : List String)
  /-- An identity's name is empty or holds a character that is not graphic. -/
  | invalidIdentityName (name : String)
  /-- An identity's key is no UUID. -/
  | invalidIdentityKey (key : String)
  /-- Several handlers have an identity of one name. -/
  | identityNameConflict (name : String) (components : List String)
  /-- Several entities have an identity of one key. -/
  | identityKeyConflict (key : String) (components : List String)
  /-- A handler has no route of a type that its kind requires. -/
  | missingRequiredRoute (routeType : RouteType)
  /-- A handler has a route of a type that its kind disallows. -/
  | unexpectedRouteType (routeType : RouteType) (route : String)
  /-- A handler has several routes of one type for one message type. -/
  | duplicateRoute (route : RouteKey)
  /-- A message type is not of the kind that its route type is for. -/
  | messageKindMismatch (messageTypeName : String) (expected actual : MessageKind)
  /-- A component is named for another type than its value at run time has. -/
  | typeNameMismatch (expected actual : String)
  /-- Several handlers have an exclusive route for one message type. -/
  | conflictingRoute (route : RouteKey) (handlers : List String)
  /-- A value that execution needs is not at hand. -/
  | runtimeValueUnavailable (what : String)
  deriving DecidableEq, Repr

/-- Descriptors in a sentence. -/
def together (components : List String) : String := " and ".intercalate components

namespace Problem

/-- The problem in words. -/
def text : Problem → String
  | missingIdentity => "no identity is configured"
  | multipleIdentities identities =>
    "multiple identities are configured: " ++ ", ".intercalate identities
  | invalidIdentityName name =>
    "invalid name " ++ quoted name ++
      ", expected a non-empty, printable UTF-8 string with no whitespace"
  | invalidIdentityKey key =>
    "invalid key " ++ quoted key ++ ", expected an RFC 4122/9562 UUID"
  | identityNameConflict name components =>
    "entities have conflicting identities: the " ++ quoted name ++ " name is shared by " ++
      together components
  | identityKeyConflict key components =>
    "entities have conflicting identities: the " ++ quoted key ++ " key is shared by " ++
      together components
  | missingRequiredRoute routeType => "no \"" ++ routeType.text ++ "\" routes are configured"
  | unexpectedRouteType _ route => "unexpected route: " ++ route
  | duplicateRoute route =>
    "multiple \"" ++ route.routeType.text ++ "\" routes are configured for " ++
      route.messageTypeName
  | messageKindMismatch messageTypeName expected actual =>
    "unexpected message kind: " ++ messageTypeName ++ " is " ++ actual.withArticle ++
      ", expected " ++ expected.withArticle
  | typeNameMismatch expected actual =>
    "type name mismatch: " ++ expected ++ " does not match the runtime type (" ++ actual ++ ")"
  | conflictingRoute route handlers =>
    "handlers have conflicting \"" ++ route.routeType.text ++ "\" routes: " ++
      route.messageTypeName ++ " is routed to " ++ together handlers
  | runtimeValueUnavailable what => "runtime value unavailable: " ++ what

end Problem

/-- A problem together with the descriptor of the component that has it. -/
structure Finding where
  component : String
  problem : Problem
  deriving DecidableEq, Repr

/-- The finding in words. -/
def Finding.text (f : Finding) : String := f.component ++ ": " ++ f.problem.text

end Wiring.Config
