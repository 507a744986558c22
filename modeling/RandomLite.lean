import RandomLite.Library.Machine
import RandomLite.Library.Bytes
import RandomLite.Library.IStream
import RandomLite.Library.Binary64
import RandomLite.Prototype.CryptonoteBasic
import RandomLite.Prototype.Difficulty
import RandomLite.Prototype.RandomX
import RandomLite.Prototype.TxPool
import RandomLite.Prototype.LmdbStorage
import RandomLite.Prototype.Blockchain
import RandomLite.Prototype.ChainInvariant
import RandomLite.Prototype.BlockAcceptance
import RandomLite.Prototype.BlockFile
import RandomLite.Prototype.Daemon
import RandomLite.Prototype.DoubleSpend
import RandomLite.Prototype.CrashRecovery
import RandomLite.Prototype.Restart
import RandomLite.Library.Histogram
import RandomLite.Monero.HardFork
import RandomLite.Monero.HardForkInvariant
import RandomLite.Library.CappedSum
import RandomLite.Monero.BlockReward
import RandomLite.Monero.MinerTransaction
import RandomLite.Monero.Blockchain
import RandomLite.Monero.BlockchainRuns
import RandomLite.Library.ParentTree
import RandomLite.Monero.Emission
import RandomLite.Library.GeometricDecay
import RandomLite.Library.HeaviestPrefix
import RandomLite.Prototype.EmissionEngine
import RandomLite.Prototype.PoolConflicts
import RandomLite.Prototype.Wallet
import RandomLite.Prototype.WalletBalance
import RandomLite.Prototype.WalletMempool
import RandomLite.Library.RelativeOffsets
import RandomLite.Library.SlidingWindow
import RandomLite.Monero.AlternativeCoins
import RandomLite.Monero.DifficultyAgreement
import RandomLite.Monero.RingIntegrity
import RandomLite.Library.ExactSum
import RandomLite.Monero.BlockTemplate
import RandomLite.Monero.TemplateAgreement
import RandomLite.Library.Binary64Rounding
import RandomLite.Library.BlockCode
import RandomLite.Library.ByteReader
import RandomLite.Library.Differences
import RandomLite.Monero.Address
import RandomLite.Monero.GenesisTool
import RandomLite.Monero.UnlockTime
import RandomLite.Prototype.RecordFormat
import RandomLite.Prototype.RetargetDirection
import RandomLite.Prototype.SeedEpochs
import RandomLite.Library.Binary64Binades
import RandomLite.Library.DecimalText
import RandomLite.Library.MachineWords
import RandomLite.Library.TextLines
import RandomLite.Monero.BlockPenalty
import RandomLite.Prototype.AddressKeys
import RandomLite.Prototype.BaseSupply
import RandomLite.Prototype.MoneyRoundTrip
import RandomLite.Library.Loops
import RandomLite.Library.MerkleTree
import RandomLite.Monero.TreeHash
import RandomLite.Library.ByteWriter
import RandomLite.Monero.CanonicalVarint
import RandomLite.Monero.RingCtFormat
import RandomLite.Monero.RingCtRoundTrip
import RandomLite.Monero.CanonicalFormat
import RandomLite.Monero.TransactionHash
import RandomLite.Monero.BlockHash
import RandomLite.Monero.PrunedWeight
import RandomLite.Library.SiftHeap
import RandomLite.Library.MiddleElement
import RandomLite.Monero.RollingMedian
import RandomLite.Monero.RollingMedianRuns
import RandomLite.Monero.LongTermWeights
import RandomLite.Library.Stripes
import RandomLite.Monero.PruningStripes
import RandomLite.Monero.PrunedDatabase
import RandomLite.Monero.PruningRuns
import RandomLite.Monero.ChainSync
import RandomLite.Monero.ChainSyncAgreement
import RandomLite.Library.InvertedIndex
import RandomLite.Monero.MemoryPool
import RandomLite.Monero.MemoryPoolTables
import RandomLite.Monero.MemoryPoolCalls
import RandomLite.Monero.MemoryPoolFrames
import RandomLite.Monero.MemoryPoolUpkeep
import RandomLite.Monero.MemoryPoolRuns
import RandomLite.Monero.MemoryPoolOrder
import RandomLite.Monero.BlockFilling
import RandomLite.Monero.PoolCookie
import RandomLite.Monero.PoolTemplate
