import Coinyecoin.Validation.Amounts
import Coinyecoin.Validation.Supply
import Coinyecoin.Pow.Retarget
import Coinyecoin.Stratum.ShareTarget
import Coinyecoin.Stratum.Acceptable
import Coinyecoin.Stratum.Credited
import Coinyecoin.Stratum.Height
import Coinyecoin.Mining.Threads
import Coinyecoin.AuxPow.Reuse
import Coinyecoin.Storage.Prune
import Coinyecoin.Consensus.Malleability
import Coinyecoin.Chain.Work
import Coinyecoin.Util.CheckQueue
import Coinyecoin.Net.Reconstruct
import Coinyecoin.Stratum.Framing
import Coinyecoin.Stratum.Answers
import Coinyecoin.Stratum.SubmitForm
import Coinyecoin.Stratum.Announcements
import Coinyecoin.Stratum.Coinbase
import Coinyecoin.Mining.AuxBlocks
import Coinyecoin.Script.SoftFork
import Coinyecoin.AuxPow.Honest
import Coinyecoin.Consensus.PartialTreeBuild
import Coinyecoin.Chain.Locator
import Coinyecoin.Net.InFlight
import Coinyecoin.Consensus.ParamsTree
import Coinyecoin.Mempool.IndexOrders
import Coinyecoin.Mempool.TxHashes
import Coinyecoin.Validation.SequenceLocks
import Coinyecoin.Primitives.AmountCode
import Coinyecoin.Script.SignatureForm
import Coinyecoin.Primitives.VarInt
import Coinyecoin.Net.BlockRequests
import Coinyecoin.Net.SendQueue
import Coinyecoin.Net.BloomFilter
import Coinyecoin.Util.RollingBloom
import Coinyecoin.Wallet.Accounting
import Coinyecoin.Net.Orphans
import Coinyecoin.Wallet.Reorder
import Coinyecoin.Consensus.MerkleWords
