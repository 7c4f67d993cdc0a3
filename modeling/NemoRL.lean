import NemoRL.Foundations.Transition
import NemoRL.Foundations.KeyedStore
import NemoRL.Foundations.Positions
import NemoRL.AsyncUtils.TQReplayBuffer
import NemoRL.AsyncUtils.Commit
import NemoRL.AsyncUtils.BufferCheckpoint
import NemoRL.AsyncUtils.BufferPlane
import NemoRL.AsyncUtils.BufferAgreement
import NemoRL.Experience.RetryMachine
import NemoRL.AsyncUtils.StalenessSampler
import NemoRL.SingleController.Model
import NemoRL.SingleController.Dispatch
import NemoRL.SingleController.Pumps
import NemoRL.SingleController.Sound
import NemoRL.SingleController.Permits
import NemoRL.SingleController.Staleness
import NemoRL.SingleController.StepLedger
import NemoRL.AsyncUtils.ReplayBuffer
import NemoRL.AsyncUtils.BufferLoad
import NemoRL.AsyncUtils.BufferRoundTrip
import NemoRL.AsyncUtils.ReplayRows
import NemoRL.Data.Packing.Algorithms
import NemoRL.Data.Packing.Legal
import NemoRL.Foundations.Boxes
import NemoRL.Foundations.Directories
import NemoRL.Foundations.RowMajor
import NemoRL.WeightSync.Exchange
import NemoRL.WeightSync.Replicas
import NemoRL.WeightSync.Reshard
import NemoRL.WeightSync.Striped
import NemoRL.WeightSync.StripedExact
import NemoRL.Utils.PackedTensor
import NemoRL.Utils.ZmqRelayDelivery
import NemoRL.Generation.SparseRefitExact
import NemoRL.Generation.SparseDeltaRefit
import NemoRL.Generation.RouterCondemns
import NemoRL.DataPlane.PreshardOrder
import NemoRL.Distributed.SamplingLogprobExact
import NemoRL.XToken.TeacherLogitsExact
import NemoRL.XToken.AlignmentRows
import NemoRL.Models.Megatron.PackedLogprobs
import NemoRL.Data.DeduplicationInvisible
import NemoRL.Opd.EnrichmentDrains
import NemoRL.CheckpointEngines.NixlStream
import NemoRL.IpcRefit.StreamExact
import NemoRL.Algorithms.DynamicSamplingSelection
import NemoRL.Algorithms.AdvantageStreaming
import NemoRL.Models.Draft.EagleRoundTrip
import NemoRL.Models.Policy.SplitTrainStepExact
import NemoRL.Distributed.MicrobatchPlans
import NemoRL.AsyncUtils.ReplayRestore
import NemoRL.Utils.CheckpointRetention
import NemoRL.Utils.CheckpointDisk
import NemoRL.Utils.CheckpointSound
import NemoRL.Utils.CrashSafety
import NemoRL.Data.Packing.LeftoverBins
import NemoRL.Experience.GymRowsExact
import NemoRL.AsyncUtils.CollectBatch
import NemoRL.SingleController.PromotionOrder
import NemoRL.SingleController.Draws
import NemoRL.SingleController.Inflight
import NemoRL.SingleController.StepSizes
import NemoRL.SingleController.BatchTotals
import NemoRL.SingleController.WeightFifo
import NemoRL.Algorithms.GeneralizedAdvantage
import NemoRL.Algorithms.PromptBaseline
import NemoRL.Generation.ChatSessions
import NemoRL.Generation.RefitGroups
import NemoRL.Generation.RefitPlacement
import NemoRL.Models.Megatron.PackLayout
import NemoRL.Models.Megatron.RoutedExperts
import NemoRL.Models.Megatron.UnpackSequences
import NemoRL.Foundations.Contests
import NemoRL.Models.Megatron.MicrobatchIterator
import NemoRL.Models.Megatron.TokenAlignment
import NemoRL.XToken.ExactTokenMap
import NemoRL.Foundations.Rewriting
import NemoRL.XToken.AlignmentMask
import NemoRL.Distributed.VocabShards
import NemoRL.Distributed.VocabShardsExact
import NemoRL.XToken.ChunkAverages
import NemoRL.Foundations.Combinations
import NemoRL.Evals.Eval
import NemoRL.Evals.EvalExact
import NemoRL.Foundations.Thresholds
import NemoRL.Algorithms.LogitsSampling
import NemoRL.Algorithms.LogitsSamplingExact
import NemoRL.XToken.AlignmentScore
import NemoRL.XToken.AlignmentOptimal
import NemoRL.Distributed.WorkerGroups
import NemoRL.Distributed.WorkerGroupsExact
import NemoRL.Foundations.Channels
import NemoRL.Models.Draft.HiddenCapture
import NemoRL.Models.Draft.HiddenCapturePrograms
import NemoRL.Models.Draft.HiddenCaptureExact
import NemoRL.Data.ChatFormatting
import NemoRL.Distributed.VirtualCluster
import NemoRL.Distributed.SegmentTopology
import NemoRL.Experience.RolloutsAgree
import NemoRL.Experience.RolloutRewards
import NemoRL.Foundations.Overlays
