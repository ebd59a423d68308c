import Reddyos.AddressSpaces
import Reddyos.CLibrary
import Reddyos.ClockCalls
import Reddyos.DeviceWrites
import Reddyos.ElfImage
import Reddyos.FaultProgress
import Reddyos.FdRun
import Reddyos.FileDispatch
import Reddyos.FileMaps
import Reddyos.FileStat
import Reddyos.FramebufferMap
import Reddyos.GuardHeap
import Reddyos.HeapSizes
import Reddyos.IrqHandlers
import Reddyos.KernelEvent
import Reddyos.KernelHalf
import Reddyos.LargePages
import Reddyos.Madt
import Reddyos.MountLookup
import Reddyos.Mutex
import Reddyos.Numerals
import Reddyos.PageAccess
import Reddyos.PageTree
import Reddyos.PhdrTable
import Reddyos.PmTimer
import Reddyos.PmmChunks
import Reddyos.PreemptionRun
import Reddyos.ProcessCreate
import Reddyos.ProcessMemory
import Reddyos.ProcessStack
import Reddyos.Rtc
import Reddyos.Scheduler
import Reddyos.SyscallEntry
import Reddyos.SystemMemory
import Reddyos.Teardown
import Reddyos.ThreadContext
import Reddyos.TranslationCaches
import Reddyos.UacpiMaps
import Reddyos.VmaFrames
import Reddyos.VmaRun
import Reddyos.VmaTree
import Reddyos.VmaUpdate
import Reddyos.VmaWindow
import Reddyos.VmmUnmap
import Reddyos.WorkQueue
