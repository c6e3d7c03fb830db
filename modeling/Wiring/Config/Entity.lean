import Wiring.Config.Identity
import Wiring.Config.Options

/-!
# Entities

What applications and handlers have in common: a type that implements them, perhaps the value of
that type at run time, and identities, of which there should be exactly one.
-/

namespace Wiring.Config

open Wiring.Text (Outline)

/-- The part that every entity has. -/
structure Entity where
  fidelity : Fidelity := {}
  problems : List Problem := []
  /-- The name of the type that implements the entity. -/
  typeName : Option String := none
  /-- The name of the type of the value that is the entity at run time. -/
  source : Option String := none
  identities : List Identity := []
  deriving DecidableEq, Repr

namespace Entity

/-- The entity in short: what it is, and its type if known. -/
def descriptor (kind : String) (e : Entity) : String :=
  match e.typeName with
  | some name => kind ++ ":" ++ name
  | none => kind

/-- The value at run time is of another type, or execution needs one and there is none. -/
def sourceProblems (o : Options) (kind : String) (e : Entity) : List Problem :=
  match e.source, e.typeName with
  | some source, some name => if name = source then [] else [.typeNameMismatch name source]
  | some _, none => []
  | none, _ =>
    if o.forExecution then
      [.runtimeValueUnavailable ("source value of " ++ e.descriptor kind)]
    else []

/-- There is not exactly one identity. A missing identity is no problem of an incomplete entity. -/
def identityProblems (e : Entity) : List Problem :=
  match e.identities with
  | [] => if e.fidelity.incomplete then [] else [.missingIdentity]
  | [_] => []
  | identities => [.multipleIdentities (identities.map Identity.descriptor)]

/-- The entity with its type name filled in, its identities normalized, and the doubts about them
taken over; its problems are found last. -/
def normalize (o : Options) (kind : String) (e : Entity) : Entity :=
  let identities := e.identities.map Identity.normalize
  let e := { e with
    fidelity := max e.fidelity (.unions (identities.map Identity.fidelity))
    typeName := e.typeName <|> e.source
    identities }
  { e with problems := e.sourceProblems o kind ++ e.identityProblems }

/-- Why an entity has no usable identity. -/
inductive IdentityFault where
  /-- The only identity is invalid. -/
  | invalid (descriptor : String) (problem : Problem)
  /-- The only identity is in doubt. -/
  | doubtful (descriptor : String) (fidelity : Fidelity)
  /-- There is not exactly one identity. -/
  | notUnique (descriptor : String) (problem : Problem)
  deriving DecidableEq, Repr

/-- The fault in words. -/
def IdentityFault.text : IdentityFault → String
  | invalid d problem => d ++ " has an invalid identity: " ++ problem.text
  | doubtful d fidelity => d ++ " has an identity with " ++ fidelity.text ++ " fidelity"
  | notUnique d problem => d ++ ": " ++ problem.text

/-- The identity of a normalized entity with the given descriptor, if it is the only one, valid
and beyond doubt. -/
def theIdentity (descriptor : String) (e : Entity) : Except IdentityFault Identity :=
  match e.identities with
  | [] => .error (.notUnique descriptor .missingIdentity)
  | [identity] =>
    match identity.problems with
    | problem :: _ => .error (.invalid descriptor problem)
    | [] =>
      if identity.fidelity.isImmaculate then .ok identity
      else .error (.doubtful descriptor identity.fidelity)
  | identities =>
    .error (.notUnique descriptor (.multipleIdentities (identities.map Identity.descriptor)))

/-- Add the findings about an entity with the given descriptor: its own, then those about its
identities. -/
def collect (descriptor : String) (e : Entity) (found : List Finding) : List Finding :=
  e.identities.foldl (fun found i ↦ collectOwn i.descriptor i.problems found)
    (collectOwn descriptor e.problems found)

/-- Write the details of the identities. -/
def writeParts (e : Entity) : Outline → Outline := Reportable.writeEach e.identities

end Entity
end Wiring.Config
