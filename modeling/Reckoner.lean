import Reckoner.Workspace
import Reckoner.Proofs.Precedence
import Reckoner.Proofs.Regroup
import Reckoner.Proofs.Barrier
import Reckoner.Proofs.Arguments
import Reckoner.Proofs.Schedule
import Reckoner.Proofs.Tree
import Reckoner.Proofs.Comparison
import Reckoner.Proofs.Bare
import Reckoner.Proofs.Flush
import Reckoner.Proofs.Resumption
import Reckoner.Proofs.Unterminated
import Reckoner.Proofs.CallTime
import Reckoner.Proofs.FirstFault
import Reckoner.Proofs.Parallel
import Reckoner.Proofs.Arrival
import Reckoner.Proofs.OwnRecords
import Reckoner.Proofs.Nesting
import Reckoner.Proofs.Conduct
import Reckoner.Proofs.Acts
import Reckoner.Proofs.LogTrace
import Reckoner.Proofs.Sharing
import Reckoner.Proofs.Joining
import Reckoner.Proofs.Frame
import Reckoner.Proofs.CallOrder
import Reckoner.Proofs.Balance
import Reckoner.Proofs.Tiers
import Reckoner.Proofs.Setting
import Reckoner.Proofs.Infinities
import Reckoner.Proofs.Switching
