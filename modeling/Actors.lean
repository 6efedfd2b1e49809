import Actors.Run
import Actors.Script.Inquiry
import Actors.Proofs.Life
import Actors.Proofs.Change
import Actors.Proofs.Operation
import Actors.Proofs.Surroundings
import Actors.Proofs.Transition
import Actors.Proofs.Conduct
import Actors.Proofs.Wakeup
import Actors.Proofs.Proper
import Actors.Proofs.Account
import Actors.Proofs.Affair
import Actors.Proofs.History
import Actors.Proofs.Mailbox
import Actors.Proofs.Purity
import Actors.Proofs.Pump
import Actors.Proofs.Rights
import Actors.Proofs.Course
import Actors.Proofs.Cancellation
import Actors.Proofs.Solo
import Actors.Proofs.Independence
import Actors.Proofs.Evaluation
import Actors.Proofs.Discipline
import Actors.Proofs.Keeping
import Actors.Proofs.Usage
import Actors.Proofs.Naming
import Actors.Proofs.Allocation
import Actors.Proofs.Lifetime
import Actors.Proofs.Returning
import Actors.Proofs.Doing
import Actors.Proofs.Handling
import Actors.Proofs.Turns
import Actors.Proofs.Serving
import Actors.Proofs.Cycling
import Actors.Proofs.Overtaking
import Actors.Proofs.Allowance
import Actors.Proofs.Residue
import Actors.Proofs.Draining
import Actors.Proofs.Listening
import Actors.Proofs.Routing
import Actors.Proofs.Beats
import Actors.Proofs.Score
import Actors.Proofs.Clock
import Actors.Proofs.Sleeping
import Actors.Proofs.Pausing
import Actors.Proofs.Cycles
import Actors.Proofs.Performance
import Actors.Proofs.Updates
import Actors.Proofs.Dispatch
import Actors.Proofs.Nesting
import Actors.Proofs.Prompt
import Actors.Proofs.Orders
import Actors.Proofs.Steadiness
import Actors.Proofs.Appointment
import Actors.Proofs.Hiring
import Actors.Proofs.Leading
import Actors.Proofs.Leaves
import Actors.Proofs.Footing
import Actors.Proofs.Equality
import Actors.Proofs.Laws
import Actors.Proofs.Errands
import Actors.Proofs.Delivery
import Actors.Proofs.Algebra
import Actors.Proofs.Chains
import Actors.Proofs.Advancing
import Actors.Proofs.Firing
import Actors.Proofs.Sequencing
import Actors.Proofs.Accounting
import Actors.Proofs.Custody
import Actors.Proofs.Parting
import Actors.Proofs.Registration
import Actors.Proofs.Enrolment
