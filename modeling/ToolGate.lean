import ToolGate.Json.Parser
import ToolGate.Json.Printer
import ToolGate.Json.Shape
import ToolGate.Label.Verifier
import ToolGate.Named
import ToolGate.Number.Numeral
import ToolGate.Provenance.Witness
import ToolGate.Session.Session
import ToolGate.Text.Blank
import ToolGate.Text.Units
import ToolGate.Token.Archive
import ToolGate.Token.Snapshot
import ToolGate.Verdict.Sink
import ToolGate.Settings.Config
import ToolGate.Proofs.Verdict.Reference
import ToolGate.Proofs.Verdict.Restraint
import ToolGate.Proofs.Token.Lineage
import ToolGate.Proofs.Token.Restoration
import ToolGate.Proofs.Verdict.Explanation
import ToolGate.Proofs.Host.Vouching
import ToolGate.Proofs.Host.Replay
import ToolGate.Proofs.Session.Resumption
import ToolGate.Proofs.Provenance.Invariant
import ToolGate.Proofs.Provenance.Agreement
import ToolGate.Proofs.Token.History
import ToolGate.Proofs.Token.Construction
import ToolGate.Proofs.Verdict.Agreement
import ToolGate.Proofs.Token.Retrieval
import ToolGate.Proofs.Session.Trail
import ToolGate.Proofs.Journal.Damage
import ToolGate.Proofs.Journal.Listing
import ToolGate.Proofs.Token.Overlap
import ToolGate.Proofs.Policy.Listing
import ToolGate.Proofs.Policy.Entries
import ToolGate.Proofs.Provenance.Closures
import ToolGate.Proofs.Provenance.Repetition
import ToolGate.Proofs.Token.Subtree
import ToolGate.Proofs.Token.Delegation
import ToolGate.Proofs.Token.Atomicity
import ToolGate.Proofs.Verdict.Tagging
import ToolGate.Proofs.Verdict.Faults
import ToolGate.Proofs.Verdict.Stripping
import ToolGate.Proofs.Token.Ascent
import ToolGate.Proofs.Provenance.Persistence
import ToolGate.Proofs.Verdict.Ample
import ToolGate.Proofs.Label.TextForm
import ToolGate.Proofs.Journal.Skipping
import ToolGate.Proofs.Journal.Redacting
import ToolGate.Proofs.Session.FailureTexts
import ToolGate.Proofs.Settings.Loading
import ToolGate.Proofs.Verdict.TagNames
import ToolGate.Proofs.Verdict.Requirement
import ToolGate.Proofs.Settings.Relayering
import ToolGate.Proofs.Settings.Variables
import ToolGate.Proofs.Settings.VariableNames
import ToolGate.Proofs.Journal.Tallying
import ToolGate.Proofs.Provenance.FlatStack
import ToolGate.Proofs.Label.Algebra
