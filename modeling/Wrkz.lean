import Wrkz.Chain.WellRooted
import Wrkz.Chain.History
import Wrkz.Chain.NextDifficulty
import Wrkz.Node.PoolSync
import Wrkz.Node.Negotiation
import Wrkz.Node.Waiting
import Wrkz.Node.LiteBlock
import Wrkz.Node.Observed
import Wrkz.Chain.Identity
import Wrkz.Chain.AppliedBranch
import Wrkz.Chain.Bodies
import Wrkz.Chain.LockTime
import Wrkz.Chain.RewardRange
import Wrkz.Chain.Lookups
import Wrkz.Chain.Parallel
import Wrkz.Chain.Reopen
import Wrkz.Node.Jobs
import Wrkz.Node.Stream
import Wrkz.Txpow.Endings
import Wrkz.Mempool.Template
import Wrkz.Node.Diversity
import Wrkz.Node.InboundGate
import Wrkz.Node.Peerlists
import Wrkz.Rpc.Decoys
import Wrkz.Rpc.Timestamps
import Wrkz.Wallet.Rings
import Wrkz.Primitives.Mnemonic
import Wrkz.Primitives.WalletExtra
import Wrkz.Wallet.Amounts
import Wrkz.Chain.LeOrder
import Wrkz.Primitives.Base58
