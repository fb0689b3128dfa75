import Noxisa.MachineWord
import Noxisa.TransitionSystem
import Noxisa.Command
import Noxisa.RangePool
import Noxisa.ByteMemory
import Noxisa.FrameAllocator
import Noxisa.FrameOwnership
import Noxisa.PhysicalMemory
import Noxisa.FrameCount
import Noxisa.FrameCalls
import Noxisa.FrameExactness
import Noxisa.FrameScrubbing
import Noxisa.HeapCanaries
import Noxisa.Framebuffer
import Noxisa.RunQueue
import Noxisa.PriorityFifo
import Noxisa.RunQueueRuns
import Noxisa.Scheduler
import Noxisa.Placement
import Noxisa.SchedulerRuns
import Noxisa.Preemption
import Noxisa.PreemptionInvariant
import Noxisa.PreemptionSteps
import Noxisa.PreemptionTick
import Noxisa.PreemptionRuns
import Noxisa.GuardHolders
import Noxisa.PreemptionFrame
import Noxisa.WaitForZombie
import Noxisa.ElfLoader
import Noxisa.ElfLoaderSafety
import Noxisa.ElfImage
import Noxisa.ElfLoadInPlace
import Noxisa.UserPageTable
import Noxisa.KernelPaging
import Noxisa.SpawnProgram
import Noxisa.Mmu
import Noxisa.AddressSpace
import Noxisa.PageMappings
import Noxisa.SegmentRights
import Noxisa.ProcessResources
import Noxisa.ProgramFrames
import Noxisa.TableContents
import Noxisa.SpawnFailure
import Noxisa.TaskLifetime
import Noxisa.MmioMapping
import Noxisa.MmioTranslation
import Noxisa.KernelHalf
import Noxisa.ResourceIsolation
import Noxisa.Turnover
import Noxisa.SysWrite
import Noxisa.Ring
import Noxisa.RingRuns
import Noxisa.Channels
import Noxisa.ChannelPolicy
import Noxisa.ChannelRuns
import Noxisa.Vfs
import Noxisa.VfsMediation
import Noxisa.VfsMounts
import Noxisa.FdTransfers
import Noxisa.VfsWrites
import Noxisa.TmpfsTree
import Noxisa.BackendCoherence
import Noxisa.VfsOwnership
import Noxisa.FdTable
import Noxisa.Packages
import Noxisa.DependencyClosure
import Noxisa.Audit
import Noxisa.GoPath
import Noxisa.FileTree
import Noxisa.Extraction
import Noxisa.Inodes
import Noxisa.Sha256
import Noxisa.Downloads
import Noxisa.FailOver
import Noxisa.PhaseRing
import Noxisa.NvmeQueue
import Noxisa.NvmeRuns
import Noxisa.NvmeBuffers
import Noxisa.NvmeBlockRange
import Noxisa.NvmeSetup
import Noxisa.ShellTokens
import Noxisa.ShellParser
import Noxisa.ShellLines
import Noxisa.PipelineLinks
import Noxisa.ShellQuoting
import Noxisa.ShellRedirections
import Noxisa.Utf8Slices
import Noxisa.LineEditor
import Noxisa.CompletionTrie
import Noxisa.CompletionSearch
import Noxisa.EngineSlices
import Noxisa.TabCompletion
import Noxisa.Lru
import Noxisa.OfflineCache
import Noxisa.CircuitBreaker
import Noxisa.BspTiling
import Noxisa.Compositor
import Noxisa.WindowFocus
import Noxisa.TilingMode
import Noxisa.WordMixing
import Noxisa.MemoryHardening
import Noxisa.SortedSearch
import Noxisa.KernelCompletions
import Noxisa.ShellHistory
import Noxisa.AnsiText
import Noxisa.SyntaxHighlight
import Noxisa.BootTables
import Noxisa.MacLabels
import Noxisa.ConfigReload
import Noxisa.InterruptFrames
import Noxisa.SyscallFrames
import Noxisa.RoundRobin
import Noxisa.ProgramMemory
import Noxisa.ProcessIsolation
import Noxisa.StoreView
import Noxisa.BlockStore
import Noxisa.IsolatedStart
import Noxisa.Resumption
import Noxisa.Keyboard
import Noxisa.HeapRuns
import Noxisa.Pci
import Noxisa.Capabilities
import Noxisa.SecurityTables
