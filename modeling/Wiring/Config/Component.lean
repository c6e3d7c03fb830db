import Wiring.Config.Application

/-!
# Components

Applications, handlers and their parts as one type, for what applies to all of them alike:
normalization, validation and reports.
-/

namespace Wiring.Config

/-- Any node of a configuration tree. -/
inductive Component where
  | application (a : Application)
  | handler (h : Handler)
  | identity (i : Identity)
  | route (r : Route)
  | flag (f : Flag)
  deriving DecidableEq, Repr

/-- What validation found about a component and its parts. -/
structure Findings where
  /-- The descriptor of the component that was validated. -/
  component : String
  all : List Finding
  deriving DecidableEq, Repr

/-- All findings in words, one to a line. -/
def Findings.text (f : Findings) : String :=
  f.component ++ " is invalid:" ++ String.join (f.all.map fun x ↦ "\n- " ++ x.text)

namespace Component

/-- The component with everything filled in that follows from the rest, and its problems found. -/
def normalize (o : Options) : Component → Component
  | application a => application (a.normalize o)
  | handler h => handler (h.normalize o)
  | identity i => identity i.normalize
  | route r => route (r.normalize o)
  | flag f => flag f.normalize

/-- The component in short. -/
def descriptor : Component → String
  | application a => a.descriptor
  | handler h => h.descriptor
  | identity i => i.descriptor
  | route r => r.descriptor
  | flag f => f.descriptor

/-- The accuracy of the component. -/
def fidelity : Component → Fidelity
  | application a => a.fidelity
  | handler h => h.fidelity
  | identity i => i.fidelity
  | route r => r.fidelity
  | flag f => f.fidelity

/-- The component's own problems. -/
def problems : Component → List Problem
  | application a => a.problems
  | handler h => h.problems
  | identity i => i.problems
  | route r => r.problems
  | flag f => f.problems

/-- A component is reported on in the way of its kind. -/
instance : Reportable Component where
  descriptor := descriptor
  fidelity := fidelity
  problems := problems
  collect
    | application a => Reportable.collect a
    | handler h => Reportable.collect h
    | identity i => Reportable.collect i
    | route r => Reportable.collect r
    | flag f => Reportable.collect f
  writeParts
    | application a => Reportable.writeParts a
    | handler h => Reportable.writeParts h
    | identity i => Reportable.writeParts i
    | route r => Reportable.writeParts r
    | flag f => Reportable.writeParts f

/-- The findings about the component and its parts; none if it is valid. -/
def validate (o : Options) (c : Component) : Except Findings Unit :=
  let c := c.normalize o
  match Reportable.findings c with
  | [] => .ok ()
  | all => .error ⟨c.descriptor, all⟩

/-- The details of the component and its parts, with the findings of plain validation. -/
def details (c : Component) : String := Reportable.report (c.normalize .default)

end Component
end Wiring.Config
