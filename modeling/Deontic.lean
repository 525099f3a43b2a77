import Deontic.Choices.Store
import Deontic.Main
import Deontic.Proofs.Acceptance
import Deontic.Proofs.Agreement
import Deontic.Proofs.Arrangement
import Deontic.Proofs.Attempts
import Deontic.Proofs.Balance
import Deontic.Proofs.Beginnings
import Deontic.Proofs.Blame
import Deontic.Proofs.Budget
import Deontic.Proofs.Cells
import Deontic.Proofs.Chains
import Deontic.Proofs.Checking
import Deontic.Proofs.Collisions
import Deontic.Proofs.Commuting
import Deontic.Proofs.Completion
import Deontic.Proofs.Consumption
import Deontic.Proofs.Copies
import Deontic.Proofs.Correspondence
import Deontic.Proofs.Criterion
import Deontic.Proofs.Derivations
import Deontic.Proofs.Dictionary
import Deontic.Proofs.Drawing
import Deontic.Proofs.Edits
import Deontic.Proofs.Evenness
import Deontic.Proofs.Exact
import Deontic.Proofs.Exchange
import Deontic.Proofs.Execution
import Deontic.Proofs.Extents
import Deontic.Proofs.Fairness
import Deontic.Proofs.Forest
import Deontic.Proofs.Grafting
import Deontic.Proofs.Growth
import Deontic.Proofs.Halting
import Deontic.Proofs.Hosting
import Deontic.Proofs.Importance
import Deontic.Proofs.Inference
import Deontic.Proofs.Lasting
import Deontic.Proofs.Levels
import Deontic.Proofs.Locality
import Deontic.Proofs.Namesakes
import Deontic.Proofs.Nesting
import Deontic.Proofs.Operations
import Deontic.Proofs.Outcomes
import Deontic.Proofs.Passage
import Deontic.Proofs.Placements
import Deontic.Proofs.Programs
import Deontic.Proofs.Proposals
import Deontic.Proofs.Ratios
import Deontic.Proofs.Reachability
import Deontic.Proofs.Readiness
import Deontic.Proofs.Reading
import Deontic.Proofs.Recording
import Deontic.Proofs.Records
import Deontic.Proofs.Refusals
import Deontic.Proofs.Regrowing
import Deontic.Proofs.Relocation
import Deontic.Proofs.Reordering
import Deontic.Proofs.Replacement
import Deontic.Proofs.Return
import Deontic.Proofs.Revisions
import Deontic.Proofs.Safety
import Deontic.Proofs.Selection
import Deontic.Proofs.Shares
import Deontic.Proofs.Sharing
import Deontic.Proofs.Support
import Deontic.Proofs.Surroundings
import Deontic.Proofs.Totals
import Deontic.Proofs.Traces
import Deontic.Proofs.Undoing
import Deontic.Proofs.Uniformity
import Deontic.Proofs.Validity
import Deontic.Proofs.Walking
import Deontic.Proofs.Weighing
import Deontic.Proofs.Zoning
import Deontic.Tree.Parser
