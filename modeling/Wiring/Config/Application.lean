import Wiring.Config.Conflict
import Wiring.Config.Handler

/-!
# Applications

An entity that is made of handlers. No two of its entities share an identity key, no two of its
handlers share an identity name or an exclusive route.
-/

namespace Wiring.Config

open Wiring.Text (Outline)

/-- An application, as far as it is known. -/
structure Application extends Entity where
  handlers : List Handler := []
  deriving DecidableEq, Repr

/-- An entity of an application, as conflicts see it. -/
structure Member where
  descriptor : String
  identities : List Identity
  routes : List Route := []
  deriving DecidableEq, Repr

/-- The handler as a member of its application. -/
def Handler.member (h : Handler) : Member := ⟨h.descriptor, h.identities, h.routes⟩

namespace Application

/-- What an application is called in its descriptor. -/
def kindText : String := "application"

/-- The application in short: its type if known. -/
def descriptor (a : Application) : String := a.toEntity.descriptor kindText

/-- The application as a member of itself. It has no routes of its own. -/
def member (a : Application) : Member := { descriptor := a.descriptor, identities := a.identities }

/-- The conflicts within the application: keys among all members, the application at the first
place; names and exclusive routes among the handlers. -/
def conflictProblems (a : Application) : List Problem :=
  let handlers := a.handlers.map Handler.member
  let keys := Claims.ofOwners Member.identities Identity.canonicalKey Member.descriptor 0
    (a.member :: handlers)
  let names := Claims.ofOwners Member.identities Identity.name Member.descriptor 1 handlers
  let routes := Claims.ofOwners Member.routes Route.exclusiveKey Member.descriptor 0 handlers
  keys.conflicts.map (fun c ↦ .identityKeyConflict c.1 c.2) ++
    names.conflicts.map (fun c ↦ .identityNameConflict c.1 c.2) ++
    routes.conflicts.map (fun c ↦ .conflictingRoute c.1 c.2)

/-- The application with its parts normalized and the doubts about them taken over; conflicts come
after what is wrong with it as an entity. -/
def normalize (o : Options) (a : Application) : Application :=
  let entity := a.toEntity.normalize o kindText
  let handlers := a.handlers.map (Handler.normalize o)
  let a : Application := {
    toEntity := { entity with
      fidelity := max entity.fidelity (.unions (handlers.map fun h ↦ h.fidelity)) }
    handlers }
  { a with problems := entity.problems ++ a.conflictProblems }

/-- Add the findings about the application as an entity, then those about its handlers. -/
def collect (a : Application) (found : List Finding) : List Finding :=
  a.handlers.foldl (fun found h ↦ h.collect found) (a.toEntity.collect a.descriptor found)

/-- Write the details of the identities, then those of the handlers. -/
def writeParts (a : Application) (o : Outline) : Outline :=
  let o := a.toEntity.writeParts o
  Reportable.writeEach a.handlers o

instance : Reportable Application where
  descriptor := descriptor
  fidelity a := a.fidelity
  problems a := a.problems
  collect := collect
  writeParts := writeParts

/-- The identity of the application, if it is the only one, valid and beyond doubt. -/
def identity (a : Application) : Except Entity.IdentityFault Identity :=
  let a := a.normalize .default
  a.theIdentity a.descriptor

end Application
end Wiring.Config
