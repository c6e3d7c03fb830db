import Wiring.Config.Problem
import Wiring.Fidelity
import Wiring.Text.Outline

/-!
# Reports on components

What validation and reports ask of a component, whatever its kind. Each kind says for itself in which
order it goes through its parts: once to collect findings, and once to write details.
-/

namespace Wiring.Config

open Wiring.Text (Outline)

/-- Components of a kind, as validation and reports see them. -/
class Reportable (α : Type) where
  /-- The component in short. -/
  descriptor : α → String
  /-- The accuracy of the component. -/
  fidelity : α → Fidelity
  /-- The component's own problems. -/
  problems : α → List Problem
  /-- Add the findings about the component and its parts to those collected so far. -/
  collect : α → List Finding → List Finding
  /-- Write a bulleted block for each part. -/
  writeParts : α → Outline → Outline

/-- Add the problems of a component itself to the findings collected so far. -/
def collectOwn (descriptor : String) (problems : List Problem) (found : List Finding) :
    List Finding :=
  problems.foldl (fun found p ↦ found ++ [⟨descriptor, p⟩]) found

namespace Reportable

variable {α : Type} [Reportable α]

/-- The findings about the component and its parts. -/
def findings (c : α) : List Finding := collect c []

/-- A component is invalid when there are findings about it or its parts; else it may be
incomplete. -/
def verdict (c : α) : String :=
  if findings c ≠ [] then "invalid"
  else if (fidelity c).incomplete then "incomplete"
  else "valid"

/-- The line that opens the details of a component. -/
def headline (c : α) : String :=
  verdict c ++ (if (fidelity c).speculative then " speculative" else "") ++ " " ++ descriptor c ++
    "\n"

/-- Write the details of a component: its headline, then a bullet for each of its own problems,
then its parts. -/
def writeDetails (c : α) (o : Outline) : Outline :=
  let o := o.print (headline c)
  let o := (problems c).foldl (fun o p ↦ o.printBullet (p.text ++ "\n")) o
  writeParts c o

/-- Write a bulleted block with the details of each of some components. -/
def writeEach (l : List α) (o : Outline) : Outline :=
  l.foldl (fun o c ↦ (writeDetails c o.indentBullet).dedent) o

/-- The details of a component as a text. -/
def report (c : α) : String := (writeDetails c .empty).text

end Reportable
end Wiring.Config
