import Wiring.Fidelity

/-!
# Gaps and logs of drafts

A configuration tree is drafted step by step. A draft may be completed unless something that its
fidelity promises is missing: that is a gap. A log says how the fidelity of the open drafts
develops, the steps of a part before the step that adds it.
-/

namespace Wiring.Draft

/-- What is missing from a draft that does not say it is incomplete. -/
inductive Gap where
  | identityName
  | identityKey
  | routeType
  | messageType
  | flagValue
  /-- An entity of the given kind has neither a type name nor a source. -/
  | sourceTypeName (kind : String)
  deriving DecidableEq, Repr

/-- The gap in words. -/
def Gap.text : Gap → String
  | identityName => "identity must have a name unless its fidelity is incomplete"
  | identityKey => "identity must have a key unless its fidelity is incomplete"
  | routeType => "route must have a route type unless its fidelity is incomplete"
  | messageType => "route must have a message type unless its fidelity is incomplete"
  | flagValue => "flag must have a value unless its fidelity is incomplete"
  | sourceTypeName kind =>
    kind ++ " must have a source type name unless its fidelity is incomplete"

/-- A draft that took a step, and its fidelity after it, where the draft shows one. -/
structure LogEntry where
  subject : String
  fidelity : Option Fidelity
  deriving DecidableEq, Repr

end Wiring.Draft
