import FeatureNet.Main
import FeatureNet.Proofs.CostSums
import FeatureNet.Proofs.HiddenEdges
import FeatureNet.Proofs.BuiltNetworks
import FeatureNet.Proofs.Walks
import FeatureNet.Proofs.CheapestTree
import FeatureNet.Proofs.WaysBack
import FeatureNet.Proofs.TreePaths
import FeatureNet.Proofs.LooplessPaths
import FeatureNet.Proofs.Detours
import FeatureNet.Proofs.RankedPaths
import FeatureNet.Proofs.WholeCosts
import FeatureNet.Proofs.RankingTurns
import FeatureNet.Proofs.BlockedVertices
import FeatureNet.Proofs.SessionRuns
import FeatureNet.Proofs.DistinctPaths
import FeatureNet.Proofs.TemporaryFiles
import FeatureNet.Proofs.TracelessSearch
import FeatureNet.Proofs.FailedCalls
import FeatureNet.Proofs.WrittenIds
import FeatureNet.Proofs.WholeChanges
import FeatureNet.Proofs.BlockedOverlay
import FeatureNet.Proofs.FiledSessions
import FeatureNet.Proofs.Restarts
import FeatureNet.Proofs.ExhaustedPaths
import FeatureNet.Proofs.FoundDetours
import FeatureNet.Proofs.WaitingDetours
import FeatureNet.Proofs.Deletions
import FeatureNet.Proofs.SteadyPaths
import FeatureNet.Proofs.MirroredStores
import FeatureNet.Proofs.OrderlyNetworks
import FeatureNet.Proofs.IntakeAccounts
import FeatureNet.Proofs.ReorderedIntakes
import FeatureNet.Proofs.ServedVertices
import FeatureNet.Proofs.AgreeingNetworks
import FeatureNet.Proofs.WrittenValues
import FeatureNet.Proofs.FingerprintedStates
import FeatureNet.Proofs.UnsignedZeros
import FeatureNet.Proofs.ReachedEdges
import FeatureNet.Proofs.LongerLists
import FeatureNet.Proofs.WrittenFields
import FeatureNet.Proofs.WrittenForms
import FeatureNet.Proofs.TreeCosts
import FeatureNet.Proofs.TieOrder
import FeatureNet.Proofs.HidingScopes
import FeatureNet.Proofs.Preparations
import FeatureNet.Proofs.ResultRows
import FeatureNet.Proofs.ListedChanges
import FeatureNet.Proofs.WaitingLines
