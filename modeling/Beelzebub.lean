import Beelzebub.Lib.Linked
import Beelzebub.Lib.Tiling
import Beelzebub.Handles
import Beelzebub.Utils.AvlTree
import Beelzebub.Lib.Word
import Beelzebub.Memory.Enums
import Beelzebub.Memory.Regions
import Beelzebub.Memory.Vas
import Beelzebub.Memory.RegionList
import Beelzebub.Memory.VasPass
import Beelzebub.Memory.VasExecute
import Beelzebub.Memory.VasRuns
import Beelzebub.Memory.PageMap
import Beelzebub.Memory.Guards
import Beelzebub.Memory.Atomicity
import Beelzebub.Memory.Faults
import Beelzebub.Memory.Pmm
import Beelzebub.Memory.SplitFrames
import Beelzebub.Memory.FrameLists
import Beelzebub.Memory.PmmInv
import Beelzebub.Memory.PmmSteps
import Beelzebub.Memory.PmmConstruct
import Beelzebub.Memory.PmmRuns
import Beelzebub.Memory.Ownership
import Beelzebub.Memory.OwnershipRuns
import Beelzebub.Boot.MemoryMap
import Beelzebub.Boot.Spaces
import Beelzebub.Memory.VmmArc
import Beelzebub.Memory.PmmArc
import Beelzebub.Memory.Relocation
import Beelzebub.Memory.Bootstrap
import Beelzebub.Lib.Radix
import Beelzebub.Memory.Counts
import Beelzebub.Memory.Frames
import Beelzebub.Memory.Checks
import Beelzebub.Memory.ZeroSize
import Beelzebub.Memory.FirstFit
import Beelzebub.Memory.KernelVas
import Beelzebub.Memory.Paging
import Beelzebub.Memory.MapPage
import Beelzebub.Memory.Mapping
import Beelzebub.Memory.MapFailures
import Beelzebub.Memory.Unmapping
import Beelzebub.Memory.Release
import Beelzebub.Memory.Strategies
import Beelzebub.Utils.AvlBalance
import Beelzebub.Utils.AvlSet
import Beelzebub.Timer
import Beelzebub.Utils.IdPool
import Beelzebub.HandleTable
import Beelzebub.Scheduler.Queues
import Beelzebub.Scheduler.Ticks
import Beelzebub.Mailbox.Maskable
import Beelzebub.Mailbox.Delivery
import Beelzebub.Mailbox.NonMaskable
import Beelzebub.Valloc.Garbage
import Beelzebub.Lib.BoundaryTags
import Beelzebub.Valloc.Heap
import Beelzebub.Valloc.Arena
import Beelzebub.Valloc.Freeing
import Beelzebub.Memory.ObjectAllocator
import Beelzebub.Sync.RwTicketLock
import Beelzebub.Sync.TicketLock
import Beelzebub.Sync.RwSpinlock
import Beelzebub.Utils.RingPush
import Beelzebub.Memory.ReferenceCounted
import Beelzebub.Utils.Strings
import Beelzebub.Utils.Conversions
import Beelzebub.CommandLine.Tokens
import Beelzebub.CommandLine.Batch
import Beelzebub.Utils.Utf8
import Beelzebub.InitRd
import Beelzebub.Terminals.Positional
import Beelzebub.Lib.Limbs
import Beelzebub.Utils.BigInt
import Beelzebub.Utils.BigUInt
import Beelzebub.Terminals.Cache
import Beelzebub.Terminals.CachePools
import Beelzebub.Lib.Framing
import Beelzebub.Djinn.Base64
import Beelzebub.Djinn.SerialPort
import Beelzebub.Djinn.Sockets
import Beelzebub.Djinn.ReadBase64
import Beelzebub.Djinn.ReadPrefixed
import Beelzebub.Djinn.Link
import Beelzebub.Djinn.Sessions
import Beelzebub.Execution.Elf
import Beelzebub.Execution.ElfBounds
import Beelzebub.Sync.Barrier
import Beelzebub.Syscalls.MemoryCopy
import Beelzebub.Memory.PmmSplit
import Beelzebub.Memory.MapRange
import Beelzebub.Memory.UnmapRange
import Beelzebub.Memory.DemandPaging
import Beelzebub.Lib.Rounding
import Beelzebub.Memory.ObjectQuota
import Beelzebub.Memory.PoolSizes
import Beelzebub.Memory.ObjectDisposal
import Beelzebub.Utils.AvlNodes
import Beelzebub.Utils.AvlInsertion
import Beelzebub.Utils.AvlCount
import Beelzebub.Memory.VasNodes
import Beelzebub.Scheduler.Choice
import Beelzebub.Utils.IdPointers
import Beelzebub.Sync.RwTicketTry
import Beelzebub.Utils.RingPops
import Beelzebub.Execution.DynamicSection
import Beelzebub.Execution.RelocationTables
import Beelzebub.Execution.SymbolLookup
import Beelzebub.Execution.SegmentMapping
import Beelzebub.Execution.SegmentSharing
import Beelzebub.Memory.AllocatePages
import Beelzebub.Syscalls.MemoryRequest
import Beelzebub.Memory.SmartPointers
import Beelzebub.Utils.BigIntExact
import Beelzebub.Utils.ExactIntegers
import Beelzebub.CommandLine.SingleOption
import Beelzebub.Utils.TarArchive
import Beelzebub.Utils.MemoryComparison
import Beelzebub.Utils.TarDirectory
import Beelzebub.Utils.CaseInsensitive
import Beelzebub.Terminals.Numbers
import Beelzebub.Terminals.SerialOutput
import Beelzebub.Djinn.Handshake
import Beelzebub.Interrupts.CommonHandler
import Beelzebub.Memory.Fractal
import Beelzebub.Valloc.ArenaLists
import Beelzebub.Memory.FreeChains
import Beelzebub.Scheduler.RunQueues
import Beelzebub.Timer.Deltas
import Beelzebub.Utils.BigIntComparison
import Beelzebub.Utils.TokenSearch
import Beelzebub.Handles.Pointers
import Beelzebub.Terminals.NumberWidths
import Beelzebub.Handles.ResultHistory
import Beelzebub.Utils.Checksums
