import Wiring.Catalogue

/-!
# Conflicts

Several owners lay claim to one element. Owners are recorded one after another under each element
that a part of theirs gives, and under each element once; then the elements with more than one owner
are in conflict.
-/

namespace Wiring.Config

/-- An element with its owners in the order in which they were recorded: where each of them is, and
what it is called. -/
structure Claim (κ : Type) where
  element : κ
  owners : List (Nat × String)
  deriving DecidableEq, Repr

/-- Claims are told apart by what they are about. -/
instance {κ : Type} : Keyed (Claim κ) κ := ⟨Claim.element⟩

/-- The claims recorded so far, in ascending order of the elements. -/
abbrev Claims (κ : Type) [LT κ] := Catalogue (Claim κ)

namespace Claims

variable {α β κ : Type}

/-- The owners of an element. -/
def owners [LT κ] [DecidableEq κ] (c : Claims κ) (k : κ) : List (Nat × String) :=
  ((c.find? k).map Claim.owners).getD []

section

variable [KeyOrder κ] [DecidableLT κ] [DecidableEq κ]

/-- Add an owner to an element, unless the owner has been recorded under it. -/
def add (c : Claims κ) (place : Nat) (descriptor : String) (k : κ) : Claims κ :=
  if (owners c k).any fun o ↦ o.1 == place then c
  else c.file ⟨k, owners c k ++ [(place, descriptor)]⟩

/-- Record an owner under the element of each of its parts that gives one. -/
def record (element : β → Option κ) (c : Claims κ) (place : Nat) (descriptor : String)
    (parts : List β) : Claims κ :=
  parts.foldl
    (fun c part ↦ match element part with
      | some k => add c place descriptor k
      | none => c)
    c

/-- Record owners that are at places from a first one on. -/
def ofOwners (parts : α → List β) (element : β → Option κ) (descriptor : α → String) (first : Nat)
    (owners : List α) : Claims κ :=
  (owners.zipIdx first).foldl
    (fun c o ↦ record element c o.2 (descriptor o.1) (parts o.1)) Catalogue.empty

end

/-- The elements with more than one owner, each with what its owners are called. -/
def conflicts [LT κ] (c : Claims κ) : List (κ × List String) :=
  c.toList.filterMap fun claim ↦
    if 1 < claim.owners.length then some (claim.element, claim.owners.map Prod.snd) else none

end Claims
end Wiring.Config
