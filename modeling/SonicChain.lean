import SonicChain.TaintThreads
import SonicChain.Money
import SonicChain.System
import SonicChain.Tokens
import SonicChain.Ownership
import SonicChain.AuthorRun
import SonicChain.ConflictFree
import SonicChain.Accounts
import SonicChain.AuthorizationFrame
import SonicChain.StorageView
import SonicChain.ForwardingRule
import SonicChain.MalformedBytes
import SonicChain.QueueGrowth
import SonicChain.ComponentLoads
import SonicChain.Distributers
import SonicChain.Completion
import SonicChain.ConsecutiveBlocks
import SonicChain.TaskStart
