import Wiring.Config.IdentityKey
import Wiring.Config.Report

/-!
# Identities

The name and the key by which an entity is known. A name is free text of graphic characters; a
key is a UUID, and keys that differ in letter case only are the same key.
-/

namespace Wiring.Config

/-- The identity of an entity, as far as it is known. -/
structure Identity where
  fidelity : Fidelity := {}
  problems : List Problem := []
  name : Option String := none
  key : Option String := none
  deriving DecidableEq, Repr

namespace Identity

/-- A name is not empty and all its characters are graphic. -/
def isValidName (name : String) : Bool :=
  !name.isEmpty && name.toList.all Text.isGraphic

/-- The canonical form of the key, if there is a valid one. -/
def canonicalKey (i : Identity) : Option String := i.key.bind IdentityKey.canonical?

/-- Both keys are valid, and they are the same up to letter case. -/
def sameKey (i j : Identity) : Bool :=
  match i.canonicalKey, j.canonicalKey with
  | some a, some b => a = b
  | _, _ => false

/-- The identity in short, with a question mark for what is not known. -/
def descriptor (i : Identity) : String :=
  "identity:" ++ i.name.getD "?" ++ "/" ++ i.key.getD "?"

/-- What is wrong with the name. A missing name is no problem of an incomplete identity. -/
def nameProblems (i : Identity) : List Problem :=
  match i.name with
  | some name => if isValidName name then [] else [.invalidIdentityName name]
  | none => if i.fidelity.incomplete then [] else [.invalidIdentityName ""]

/-- What is wrong with the key. A missing key is no problem of an incomplete identity. -/
def keyProblems (i : Identity) : List Problem :=
  match i.key with
  | some key => if IdentityKey.isKey key then [] else [.invalidIdentityKey key]
  | none => if i.fidelity.incomplete then [] else [.invalidIdentityKey ""]

/-- The identity with its problems found and its key in canonical form. -/
def normalize (i : Identity) : Identity :=
  { i with
    key := i.key.map fun key ↦ (IdentityKey.canonical? key).getD key
    problems := i.nameProblems ++ i.keyProblems }

/-- An identity has no parts. -/
instance : Reportable Identity where
  descriptor := descriptor
  fidelity := fidelity
  problems := problems
  collect i := collectOwn i.descriptor i.problems
  writeParts _ o := o

end Identity
end Wiring.Config
