import Wiring.Config.Report

/-!
# Flags

Switches on a handler. The only one turns the handler off.
-/

namespace Wiring.Config

/-- The setting of the switch that turns a handler off. -/
structure Flag where
  fidelity : Fidelity := {}
  problems : List Problem := []
  value : Option Bool := none
  deriving DecidableEq, Repr

namespace Flag

/-- The flag in short, with a question mark for an unknown setting. -/
def descriptor (f : Flag) : String :=
  "flag:disabled=" ++
    match f.value with
    | some true => "true"
    | some false => "false"
    | none => "?"

/-- A flag has no problems. -/
def normalize (f : Flag) : Flag := { f with problems := [] }

/-- A flag has no parts. -/
instance : Reportable Flag where
  descriptor := descriptor
  fidelity := fidelity
  problems := problems
  collect f := collectOwn f.descriptor f.problems
  writeParts _ o := o

/-- The setting, if nothing about it is in doubt. -/
def certainValue (f : Flag) : Option Bool := if f.fidelity.isImmaculate then f.value else none

end Flag
end Wiring.Config
