import Cassowary.Columns.Report
import Cassowary.Main
import Cassowary.Proofs.Accounting
import Cassowary.Proofs.Aftermath
import Cassowary.Proofs.Assembly
import Cassowary.Proofs.Atomicity
import Cassowary.Proofs.Calm
import Cassowary.Proofs.Canonical
import Cassowary.Proofs.Comparisons
import Cassowary.Proofs.Crowding
import Cassowary.Proofs.Deferral
import Cassowary.Proofs.Dragging
import Cassowary.Proofs.Dummies
import Cassowary.Proofs.Duplication
import Cassowary.Proofs.Editing
import Cassowary.Proofs.Exchange
import Cassowary.Proofs.Faithfulness
import Cassowary.Proofs.Fitting
import Cassowary.Proofs.Handles
import Cassowary.Proofs.Intake
import Cassowary.Proofs.Legibility
import Cassowary.Proofs.Locality
import Cassowary.Proofs.Loops
import Cassowary.Proofs.Occurrence
import Cassowary.Proofs.Outweighing
import Cassowary.Proofs.Oversight
import Cassowary.Proofs.Pivoting
import Cassowary.Proofs.Presence
import Cassowary.Proofs.Rebuilding
import Cassowary.Proofs.Reduction
import Cassowary.Proofs.Redundancy
import Cassowary.Proofs.Relaxation
import Cassowary.Proofs.Replacement
import Cassowary.Proofs.Retraction
import Cassowary.Proofs.Row
import Cassowary.Proofs.Satisfiability
import Cassowary.Proofs.Scaling
import Cassowary.Proofs.Separation
import Cassowary.Proofs.Significance
import Cassowary.Proofs.Signs
import Cassowary.Proofs.Simplex
import Cassowary.Proofs.Solving
import Cassowary.Proofs.Splitting
import Cassowary.Proofs.Star
import Cassowary.Proofs.Ties
import Cassowary.Proofs.Transactions
import Cassowary.Proofs.Values
import Cassowary.Proofs.WorkList
import Cassowary.Semantics
import Cassowary.Solver.Run
