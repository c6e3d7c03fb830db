import Wiring.Config.RouteType
import Wiring.Program.Basic

/-!
# Vocabulary

The names by which a program shows that it configures applications: interfaces for applications
and messages, and constructors of routes, all in one package.
-/

namespace Wiring.Analysis

open Wiring.Config (RouteType)
open Wiring.Program (NamedType)

/-- The package that defines the names. -/
structure Vocabulary where
  package : String := "github.com/dogmatiq/dogma"
  deriving DecidableEq, Repr

namespace Vocabulary

/-- A name of the package, in its qualified form. -/
def qualified (v : Vocabulary) (name : String) : String := v.package ++ "." ++ name

/-- What follows a text's beginning, if it has that beginning. -/
def rest? : (beginning text : List Char) → Option (List Char)
  | [], text => some text
  | _ :: _, [] => none
  | a :: beginning, b :: text => if a = b then rest? beginning text else none

/-- The name within the package that a qualified name stands for. -/
def local? (v : Vocabulary) (name : String) : Option String :=
  (rest? (v.package.toList ++ ['.']) name.toList).map String.ofList

/-- The interface of applications. -/
def application (v : Vocabulary) : String := v.qualified "Application"

/-- The constructor of each route type, by its name within the package. -/
def constructorName : RouteType → String
  | .handlesCommand => "HandlesCommand"
  | .handlesEvent => "HandlesEvent"
  | .executesCommand => "ExecutesCommand"
  | .recordsEvent => "RecordsEvent"
  | .schedulesTimeout => "SchedulesTimeout"

/-- The type of the routes that a function constructs, if it is a route constructor. -/
def routeType? (v : Vocabulary) (function : String) : Option RouteType := do
  let name ← v.local? function
  RouteType.all.find? fun t ↦ constructorName t = name

/-- The interface of the messages of a kind, by its name within the package. -/
def interfaceName : MessageKind → String
  | .command => "Command"
  | .event => "Event"
  | .timeout => "Timeout"

/-- The kind of message that a type is; of several, the first in the order of kinds. -/
def messageKind? (v : Vocabulary) (t : NamedType) : Option MessageKind :=
  [.command, .event, .timeout].find? fun k ↦ t.implements (v.qualified (interfaceName k))

end Vocabulary
end Wiring.Analysis
