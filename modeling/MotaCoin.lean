import MotaCoin.ActiveChain
import MotaCoin.AddrMan
import MotaCoin.AddrManCheck
import MotaCoin.AddressGroupings
import MotaCoin.AlertRefusal
import MotaCoin.Base58
import MotaCoin.Base64
import MotaCoin.BaseUintHex
import MotaCoin.BlockFiles
import MotaCoin.BloomRuns
import MotaCoin.BranchVerdict
import MotaCoin.ChangeOwnership
import MotaCoin.CoinAgeSelection
import MotaCoin.CoinSelection
import MotaCoin.Combine
import MotaCoin.CompactTarget
import MotaCoin.ConnectAgree
import MotaCoin.ConnectUndo
import MotaCoin.Consistency
import MotaCoin.CreateBalance
import MotaCoin.EvalLimits
import MotaCoin.HostPort
import MotaCoin.Inflation
import MotaCoin.Interpreter
import MotaCoin.KernelModifier
import MotaCoin.KeyPoolRuns
import MotaCoin.KeyStoreRuns
import MotaCoin.Lib.Positions
import MotaCoin.LoadFile
import MotaCoin.Locator
import MotaCoin.MerkleBranch
import MotaCoin.Messages
import MotaCoin.MinWork
import MotaCoin.MinerRules
import MotaCoin.MinerSelection
import MotaCoin.MinerValidated
import MotaCoin.Money
import MotaCoin.MruSet
import MotaCoin.MultiSend
import MotaCoin.MultiSig
import MotaCoin.NextModifier
import MotaCoin.OrphanBlocksResolve
import MotaCoin.OrphanTxMaps
import MotaCoin.OrphanTxResolve
import MotaCoin.OrphanTxSync
import MotaCoin.PartialMerkle
import MotaCoin.PartialMerkleSize
import MotaCoin.PoolIndex
import MotaCoin.PoolKept
import MotaCoin.RawSigning
import MotaCoin.RelayRuns
import MotaCoin.Reorder
import MotaCoin.Restart
import MotaCoin.Retarget
import MotaCoin.RewardRules
import MotaCoin.SigCache
import MotaCoin.SignBlock
import MotaCoin.SignatureHash
import MotaCoin.SigningRuns
import MotaCoin.SolverForms
import MotaCoin.SpecialNames
import MotaCoin.SpentRepair
import MotaCoin.StakeReward
import MotaCoin.StakeSearch
import MotaCoin.Staker
import MotaCoin.Superblock
import MotaCoin.SyncCheckpoint
import MotaCoin.TimeData
import MotaCoin.TriedEviction
import MotaCoin.TxListing
import MotaCoin.VarInt
import MotaCoin.WalletCache
import MotaCoin.WalletRecords
import MotaCoin.WalletSync
import MotaCoin.WildcardMatch
import MotaCoin.WriteBatch
