import BitxorCore.Aggregate.AggregateTransactionsHash
import BitxorCore.Cache.AccountReload
import BitxorCore.Cache.PatriciaTreeCacheRefinement
import BitxorCore.Chain.BlockDifficultyScorer
import BitxorCore.Chain.BlockScorer
import BitxorCore.Chain.ChainSynchronizer
import BitxorCore.Chain.CompareChainsFinality
import BitxorCore.Chain.CompareChainsForkPoint
import BitxorCore.Consumers.ImportanceLinks
import BitxorCore.Consumers.SyncFinality
import BitxorCore.Finalization.NoEquivocation
import BitxorCore.Finalization.WeightedThreshold
import BitxorCore.Harvesting.FeeAccounts
import BitxorCore.Lock.LockPayouts
import BitxorCore.Lock.LockUndo
import BitxorCore.Metadata.MetadataValue
import BitxorCore.Model.InflationCalculator
import BitxorCore.Multisig.CosignatureSufficiency
import BitxorCore.Multisig.MultisigUndo
import BitxorCore.Namespace.LinkedNamespaceCache
import BitxorCore.Namespace.NamespaceUndo
import BitxorCore.PartialTransaction.PtCompletion
import BitxorCore.PartialTransaction.PtPackets
import BitxorCore.Restriction.OperationRestriction
import BitxorCore.State.AccountCopies
import BitxorCore.Tree.NodeEncoding
import BitxorCore.Voting.ForwardSecurity
