import Wiring.Analysis.Recovery
import Wiring.Analysis.Session
import Wiring.Config.Component
import Wiring.Draft.Entities
import Wiring.Program.Decoding
import Wiring.Program.FunctionDraft
import Wiring.Program.ProgramDraft
import Wiring.Proofs.Analysis.History
import Wiring.Proofs.Flow.Dominance
import Wiring.Proofs.Run.Plain
import Wiring.Proofs.Run.Tracking
import Wiring.Proofs.Config.Canonical
import Wiring.Proofs.Config.Node
import Wiring.Proofs.Config.Renormalization
import Wiring.Proofs.Config.MissingParts
import Wiring.Proofs.Recovery.Handlers
import Wiring.Proofs.Recovery.Applications
import Wiring.Proofs.Recovery.Reflection
import Wiring.Proofs.Flow.GraphLookup
import Wiring.Proofs.Flow.Reachability
import Wiring.Proofs.Analysis.Moment
import Wiring.Proofs.Recovery.Totality
import Wiring.Proofs.Config.Conflicts
import Wiring.Proofs.Config.Validity
import Wiring.Proofs.Analysis.Chains
import Wiring.Proofs.Analysis.Attempts
import Wiring.Proofs.Analysis.Termination
import Wiring.Proofs.Config.RouteAccess
import Wiring.Proofs.Config.RouteIndex
import Wiring.Proofs.Config.RouteProblems
import Wiring.Proofs.Config.Sharing
import Wiring.Proofs.Recovery.DepthLimit
import Wiring.Proofs.Analysis.DeadCode
import Wiring.Proofs.Program.RoundTrip
import Wiring.Proofs.Program.Methods
import Wiring.Proofs.Program.Drafting
import Wiring.Proofs.Config.Frame
import Wiring.Proofs.Config.LetterCase
import Wiring.Proofs.Config.Report
import Wiring.Proofs.Config.Disabling
import Wiring.Proofs.Config.Nesting
import Wiring.Proofs.Analysis.Locality
import Wiring.Proofs.Recovery.Locality
import Wiring.Proofs.Config.Execution
import Wiring.Proofs.Analysis.Comparison
import Wiring.Proofs.Analysis.ConcreteType
import Wiring.Proofs.Analysis.Certainty
import Wiring.Proofs.Analysis.Binding
import Wiring.Proofs.Analysis.CallStack
import Wiring.Proofs.Flow.Climbing
import Wiring.Proofs.Analysis.Propagation
import Wiring.Proofs.Text.Pieces
import Wiring.Proofs.Config.KeyGrammar
