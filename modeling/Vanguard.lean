import Vanguard.Beacon.Activation
import Vanguard.Beacon.Finality
import Vanguard.Beacon.ProposerSampling
import Vanguard.Beacon.PubkeyLookup
import Vanguard.Blockchain.AncestorLookup
import Vanguard.Blockchain.BatchHead
import Vanguard.Blockchain.Finality
import Vanguard.Blockchain.InitSync
import Vanguard.Deposits.Packing
import Vanguard.Deposits.ProofPruning
import Vanguard.Kv.BlockIndices
import Vanguard.Kv.FinalizedIndex
import Vanguard.Operations.Evidence
import Vanguard.Peers.IpTracker
import Vanguard.Powchain.MajorityVote
import Vanguard.Powchain.PastLogs
import Vanguard.ProtoArray.LateBlocks
import Vanguard.ProtoArray.Pruning
import Vanguard.Slasher.HighestAttestations
import Vanguard.Slasher.SpanExactness
import Vanguard.StateGen.BoundaryCache
import Vanguard.StateGen.HotStates
import Vanguard.StateGen.Migration
import Vanguard.Sync.PendingAttestations
import Vanguard.Sync.PendingBlocks
import Vanguard.Sync.RangeRequest
import Vanguard.Validator.BatchWriter
import Vanguard.Validator.Doppelganger
import Vanguard.Validator.Downgrade
import Vanguard.Validator.ImportConflicts
import Vanguard.Validator.TargetIndexMigration
