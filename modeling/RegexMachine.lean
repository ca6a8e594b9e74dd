import RegexMachine.Main
import RegexMachine.Pattern.Reader
import RegexMachine.Session
import RegexMachine.Proofs.Paths
import RegexMachine.Proofs.Unlimited
import RegexMachine.Proofs.Matcher
import RegexMachine.Proofs.Simulation
import RegexMachine.Proofs.Contexts
import RegexMachine.Proofs.Ranges
import RegexMachine.Proofs.Language
import RegexMachine.Proofs.Termination
import RegexMachine.Proofs.Divergence
import RegexMachine.Proofs.Grammar
import RegexMachine.Proofs.Derivations
import RegexMachine.Proofs.Scans
import RegexMachine.Proofs.RoundTrip
import RegexMachine.Proofs.Prefixes
import RegexMachine.Proofs.Faults
import RegexMachine.Proofs.Reachable
import RegexMachine.Proofs.Addresses
import RegexMachine.Proofs.Brackets
import RegexMachine.Proofs.Leaves
import RegexMachine.Proofs.Spans
import RegexMachine.Proofs.Budgets
import RegexMachine.Proofs.Identities
import RegexMachine.Proofs.Erasure
import RegexMachine.Proofs.Shifts
import RegexMachine.Proofs.Refusals
import RegexMachine.Proofs.Nesting
import RegexMachine.Proofs.Composition
import RegexMachine.Proofs.Readings
import RegexMachine.Proofs.Positions
import RegexMachine.Proofs.Alternatives
import RegexMachine.Proofs.Leftmost
import RegexMachine.Proofs.Literals
import RegexMachine.Proofs.Delimited
import RegexMachine.Proofs.PrintedTrees
import RegexMachine.Proofs.Giveback
import RegexMachine.Proofs.Origins
import RegexMachine.Proofs.CaptureCounts
import RegexMachine.Proofs.Tilings
import RegexMachine.Proofs.Blocks
import RegexMachine.Proofs.Checkpoints
import RegexMachine.Proofs.Listings
import RegexMachine.Proofs.Responses
import RegexMachine.Proofs.Sessions
