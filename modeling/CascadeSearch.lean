import CascadeSearch.Index.PorterRules
import CascadeSearch.Index.PorterStem
import CascadeSearch.Index.Segmentation
import CascadeSearch.Index.Possessive
import CascadeSearch.Query.RoundedPruning
import CascadeSearch.Query.SplitInvariance
import CascadeSearch.Query.ListPointer
import CascadeSearch.Query.Progress
import CascadeSearch.Query.ScoringWork
import CascadeSearch.Query.WandExact
import CascadeSearch.Query.ScoreTrap
import CascadeSearch.Server.SearchService
import CascadeSearch.Server.ExactMerge
import CascadeSearch.Server.Partition
import CascadeSearch.Server.Resume
import CascadeSearch.Server.WorkerPool
import CascadeSearch.Server.Lru
import CascadeSearch.Nrt.Publish
import CascadeSearch.Nrt.Storage
import CascadeSearch.Nrt.MergeFlag
import CascadeSearch.Nrt.MergeCost
import CascadeSearch.Nrt.BoundSearch
import CascadeSearch.Nrt.ResultPage
import CascadeSearch.Rank.Batcher
import CascadeSearch.Rank.Draining
import CascadeSearch.Rank.Training
import CascadeSearch.Rank.Candidates
import CascadeSearch.Harness.Ndcg
import CascadeSearch.Dense.Fusion
import CascadeSearch.Server.Answered
import CascadeSearch.Server.OneWorker
import CascadeSearch.Server.Sharded
import CascadeSearch.Nrt.Visible
import CascadeSearch.Nrt.BaseSegment
import CascadeSearch.Rank.Discipline
import CascadeSearch.Rank.Cascade
import CascadeSearch.Nrt.Lag
import CascadeSearch.Dense.GroundTruth
