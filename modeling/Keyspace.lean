import Keyspace.Main
import Keyspace.Proofs.Bounds
import Keyspace.Proofs.Closing
import Keyspace.Proofs.Convergence
import Keyspace.Proofs.Countdown
import Keyspace.Proofs.Counts
import Keyspace.Proofs.Dialogue
import Keyspace.Proofs.Draining
import Keyspace.Proofs.Finality
import Keyspace.Proofs.Framing
import Keyspace.Proofs.Idempotence
import Keyspace.Proofs.Independence
import Keyspace.Proofs.Interruption
import Keyspace.Proofs.Leftovers
import Keyspace.Proofs.Listings
import Keyspace.Proofs.Locking
import Keyspace.Proofs.Minting
import Keyspace.Proofs.Mismatch
import Keyspace.Proofs.Options
import Keyspace.Proofs.Overdue
import Keyspace.Proofs.Overflow
import Keyspace.Proofs.Piecemeal
import Keyspace.Proofs.Popping
import Keyspace.Proofs.Ranks
import Keyspace.Proofs.Reclaim
import Keyspace.Proofs.Refusal
import Keyspace.Proofs.Relocation
import Keyspace.Proofs.Removals
import Keyspace.Proofs.Reordering
import Keyspace.Proofs.Requests
import Keyspace.Proofs.Retry
import Keyspace.Proofs.Scores
import Keyspace.Proofs.Settled
import Keyspace.Proofs.Slices
import Keyspace.Proofs.Stamps
import Keyspace.Proofs.Tally
import Keyspace.Proofs.Transfer
import Keyspace.Proofs.Windows
import Keyspace.Proofs.Winners
