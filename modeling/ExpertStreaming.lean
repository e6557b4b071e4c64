import ExpertStreaming.RamCache.Readmission
import ExpertStreaming.RamCache.Failure
import ExpertStreaming.LoadQueue.Resting
import ExpertStreaming.ReadAhead.Budget
import ExpertStreaming.Planner.InForce
import ExpertStreaming.Transient.Epochs
import ExpertStreaming.Transient.Returning
import ExpertStreaming.Transient.PolicyUndo
import ExpertStreaming.Rebalance.Atomic
import ExpertStreaming.KvCache.Window
import ExpertStreaming.KvCache.Restore
import ExpertStreaming.RamCache.DescriptorMake
import ExpertStreaming.RamCache.Reference
import ExpertStreaming.RamCache.FileRing
import ExpertStreaming.Server.PromptCache
import ExpertStreaming.VramCache.Pools
import ExpertStreaming.KvCache.Hasher
import ExpertStreaming.Server.DraftRows
import ExpertStreaming.Server.Responses
import ExpertStreaming.Speculative.SuffixTree
