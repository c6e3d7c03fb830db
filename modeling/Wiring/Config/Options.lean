/-!
# Validation options

How much validation asks of a configuration.
-/

namespace Wiring.Config

/-- What validation asks beyond consistency. -/
structure Options where
  /-- The values that exist only at run time have to be at hand. -/
  forExecution : Bool := false
  deriving DecidableEq, Repr

namespace Options

/-- Consistency only. -/
def default : Options := {}

/-- The configuration is about to be executed. -/
def execution : Options := { forExecution := true }

end Options
end Wiring.Config
