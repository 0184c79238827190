import Glm52.Enumeration
import Glm52.StableSort
import Glm52.TopkSelection
import Glm52.Interleave
import Glm52.Perf2Decode
import Glm52.ItemBDecode
import Glm52.Ragged
import Glm52.PrefillGather
import Glm52.ExactFloat
import Glm52.Softmax
import Glm52.OnlineSoftmax
import Glm52.SparseMlaKernels
import Glm52.FinishWithSink
import Glm52.Fp8Cache
import Glm52.FusedAttention
import Glm52.LseMerge
import Glm52.TensorShape
import Glm52.FlashMlaSparse
import Glm52.SeparateBatch
import Glm52.ForwardMqa
import Glm52.PrefillLanes
import Glm52.ChunkedAccumulation
import Glm52.SplitAttention
import Glm52.MachineInt
import Glm52.PointerOffsets
import Glm52.PrefillWorkspace
import Glm52.CyberWatchdog
import Glm52.RestartLock
import Glm52.Safetensors
import Glm52.TensorNames
import Glm52.ExpertPrune
import Glm52.PrunedSnapshot
import Glm52.BiasKeepList
import Glm52.Validate
import Glm52.BuildValidates
import Glm52.TextReplace
import Glm52.FilePatch
import Glm52.DcpPatches
import Glm52.SparsePatches
import Glm52.TwoFilePatch
import Glm52.SingleFilePatch
import Glm52.ShellArithmetic
import Glm52.OomGuard
import Glm52.TiledLaunch
import Glm52.PagedMqaLogits
import Glm52.BlockTableReads
import Glm52.StreamingTopk
import Glm52.DcpDecode
import Glm52.SinkSoftmax
import Glm52.SinkAttention
import Glm52.SubsetMerge
import Glm52.ChunkLoop
import Glm52.GatheredAttention
import Glm52.PagedFp8ds
import Glm52.PagedDecode
import Glm52.TokenIsolation
import Glm52.PrefillMqaLogits
import Glm52.HcPrenormGemm
import Glm52.MetadataBuilder
import Glm52.OwnRequest
import Glm52.PatchChain
import Glm52.RuntimePatch
import Glm52.ServedImages
import Glm52.RepeatedStarts
import Glm52.Perf2Prefill
import Glm52.IndexerPrefill
import Glm52.DcpPrefill
