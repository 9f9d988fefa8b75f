import LcmX.TeamsPolicy
import LcmX.EntityReplay
import LcmX.EntityVisibility
import LcmX.LifecycleLinearizable
import LcmX.LifecycleFrontier
import LcmX.LifecycleLeaves
import LcmX.ClassifierPlacements
import LcmX.ClassifierFixpoint
import LcmX.ReplaySnapshotIndex
import LcmX.ReplayTailDurable
import LcmX.PayloadRestore
import LcmX.PemComplete
import LcmX.StoreIdMapTheft
import LcmX.SurvivalCutResult
import LcmX.EmbeddingDispatch
import LcmX.MatchingOrder
import LcmX.ReservationSeats
import LcmX.DecompositionSplits
import LcmX.QueryViewEvents
import LcmX.QueryViewFencing
import LcmX.QueryViewFresh
import LcmX.PayloadStubReadBack
import LcmX.LeafPrepContiguous
import LcmX.ClassifierForced
import LcmX.ClassifierStamps
import LcmX.LedgerRespace
import LcmX.RollupDrain
import LcmX.RollupInterleaving
import LcmX.RollupFrontierCanonical
import LcmX.EntityRebuildRuns
import LcmX.LedgerAdoption
import LcmX.LedgerCursorSound
import LcmX.ToolSegmentBacking
import LcmX.FreshTail
import LcmX.HostScaffoldingStrip
import LcmX.EmissionDeclines
import LcmX.ReasoningBlocksSplit
import LcmX.SummaryContractForm
import LcmX.SummaryLevels
import LcmX.AssertionRelations
import LcmX.PemDisjoint
import LcmX.PemSerialized
import LcmX.SearchQueryAgent
import LcmX.SensitiveShape
import LcmX.SpendGuard
import LcmX.LineageLoad
import LcmX.RecallDeliveryFit
