import MiniVisor.Checked
import MiniVisor.Bits
import MiniVisor.Bytes
import MiniVisor.Memory
import MiniVisor.Transition
import MiniVisor.Links
import MiniVisor.MemoryAllocator
import MiniVisor.FreeLists
import MiniVisor.FreeListOrder
import MiniVisor.AddressChain
import MiniVisor.AllocatorInvariant
import MiniVisor.AllocatorRefinement
import MiniVisor.AllocatorProgress
import MiniVisor.AllocatorScan
import MiniVisor.AllocatorCalls
import MiniVisor.AllocatorFreeLists
import MiniVisor.AllocatorLegal
import MiniVisor.AllocatorErrors
import MiniVisor.GlobalAllocator
import MiniVisor.AllocatorOverlap
import MiniVisor.Paging
import MiniVisor.PagingWalk
import MiniVisor.PagingMap
import MiniVisor.PagingRun
import MiniVisor.PagingRemap
import MiniVisor.Vm
import MiniVisor.AllocatorRoundTrip
import MiniVisor.VmSeparation
import MiniVisor.Vgic
import MiniVisor.GicMmio
import MiniVisor.VgicUniqueness
import MiniVisor.GicSafety
import MiniVisor.GicRun
import MiniVisor.GicStale
import MiniVisor.GicDelivery
import MiniVisor.GicAffinity
import MiniVisor.GicRouting
import MiniVisor.GicDriver
import MiniVisor.GicReadback
import MiniVisor.GicRedistributorReadback
import MiniVisor.GicTimer
import MiniVisor.Pl011
import MiniVisor.Pl011Status
import MiniVisor.Console
import MiniVisor.Dtb
import MiniVisor.DeviceTree
import MiniVisor.DtbIteration
import MiniVisor.DtbProperty
import MiniVisor.DtbReg
import MiniVisor.DtbCompatible
import MiniVisor.Fat32
import MiniVisor.Fat32Read
import MiniVisor.Fat32Placement
import MiniVisor.Fat32Write
import MiniVisor.Fat32Directory
import MiniVisor.Fat32Extent
import MiniVisor.Fat32ReadFrame
import MiniVisor.Fat32WriteFrame
import MiniVisor.Fat32Isolation
import MiniVisor.Fat32Termination
import MiniVisor.Fat32Separation
import MiniVisor.VirtioBlkMmio
import MiniVisor.VirtioBlkDriver
import MiniVisor.VirtioBlkQueue
import MiniVisor.VirtioBlkServe
import MiniVisor.VirtioBlkProtocol
import MiniVisor.VirtioBlkLayout
import MiniVisor.VirtioBlkTermination
import MiniVisor.VirtioBlkSafety
import MiniVisor.VirtioBlkAnswers
import MiniVisor.VirtioBlkIsolation
import MiniVisor.VirtioBlkStatus
import MiniVisor.Exception
import MiniVisor.Aarch64
import MiniVisor.TrapFrame
import MiniVisor.Lock
import MiniVisor.AllocatorLock
import MiniVisor.LockOrder
import MiniVisor.VmTable
import MiniVisor.LaunchCpu
import MiniVisor.AllocatorAlignment
