import Jetsam.Node.Reorg
import Jetsam.State.ExactFrontier
import Jetsam.Client.RegistryCodec
import Jetsam.Block.Wire
import Jetsam.Block.Atomic
import Jetsam.Capsule.ReedSolomon
import Jetsam.Consensus.DifficultyLaws
import Jetsam.Mempool.Minable
import Jetsam.Acceptance.FeeRule
import Jetsam.Client.Queue
import Jetsam.Client.Relay
import Jetsam.Consensus.AnchorSpan
import Jetsam.Consensus.TimestampRules
import Jetsam.Consensus.ZonePermutation
import Jetsam.Sparse.Capacity
import Jetsam.State.StreamingRoot
import Jetsam.Networking.SyncPlan
import Jetsam.Fri.Code
import Jetsam.Acceptance.PermutationNetwork
import Jetsam.Acceptance.DevelopmentTrace
import Jetsam.Tx.ByteSponge
