import Xmertl.Partikle.Machine
import Xmertl.Partikle.Moves
import Xmertl.Partikle.Running
import Xmertl.Partikle.WaitLists
import Xmertl.Partikle.SemaphoreCount
import Xmertl.Partikle.SemaphoreWakeups
import Xmertl.Partikle.Ownership
import Xmertl.Partikle.RecursiveMutex
import Xmertl.Partikle.Ceiling
import Xmertl.Partikle.CondWait
import Xmertl.Lib.Bitmap
import Xmertl.Xtratum.Domain
import Xmertl.Xtratum.Irqs
import Xmertl.Xtratum.Delivery
import Xmertl.Xtratum.EventCalls
import Xmertl.Xtratum.Sched
import Xmertl.Xtratum.Routing
import Xmertl.Lib.HeapOrder
import Xmertl.Xtratum.Heap
import Xmertl.Xtratum.HeapCalls
import Xmertl.Xtratum.Timer
import Xmertl.Xtratum.Expiry
import Xmertl.Partikle.Heap
import Xmertl.Partikle.HeapBags
import Xmertl.Partikle.Ktimer
import Xmertl.Partikle.TimerTable
import Xmertl.Partikle.DueTimers
import Xmertl.Common.Fifo
import Xmertl.Common.FifoQueue
import Xmertl.Common.FifoRace
import Xmertl.Xtratum.Shm
import Xmertl.Xtratum.ShmRegions
import Xmertl.Xtratum.ShmUsers
import Xmertl.Lib.Ownership
import Xmertl.Xtratum.PageTables
import Xmertl.Xtratum.Unload
import Xmertl.Partikle.Sysmem
import Xmertl.Partikle.SysmemBlocks
import Xmertl.Xtratum.SerialFifo
import Xmertl.Xtratum.SerialDevice
import Xmertl.Xtratum.Uart
import Xmertl.Xtratum.UartDelivery
import Xmertl.Xtratum.UartReceiver
import Xmertl.Partikle.ReadyLists
import Xmertl.Partikle.SchedCalls
import Xmertl.Partikle.FifoOrder
import Xmertl.Partikle.Threads
import Xmertl.Partikle.SchedParam
import Xmertl.Partikle.ThreadSteps
import Xmertl.Partikle.ThreadBase
import Xmertl.Partikle.ReadyStates
import Xmertl.Partikle.Highest
import Xmertl.Lib.StableInsert
import Xmertl.Xtratum.DomainList
import Xmertl.Lib.Stages
import Xmertl.Xtratum.Load
import Xmertl.Xtratum.PageAllocs
import Xmertl.Xtratum.LoadFails
import Xmertl.Xtratum.LoadImage
import Xmertl.Lib.Cyclic
import Xmertl.Xtratum.Trace
import Xmertl.Xtratum.TraceDump
import Xmertl.Xtratum.TraceSched
import Xmertl.Lib.Spsc
import Xmertl.Xtratum.SerialRace
import Xmertl.Partikle.Signals
import Xmertl.Partikle.ThreadCreate
import Xmertl.Partikle.Deletion
import Xmertl.Partikle.Detach
import Xmertl.Partikle.DevPath
import Xmertl.Partikle.Cleanup
import Xmertl.Partikle.Once
import Xmertl.Xtratum.FreeRange
import Xmertl.Xtratum.ShmMapping
import Xmertl.Partikle.Exit
import Xmertl.Xtratum.ShmSlots
import Xmertl.Common.FifoLong
import Xmertl.Partikle.Fs
import Xmertl.Partikle.FileTable
import Xmertl.Partikle.IrqNesting
import Xmertl.Xtratum.Devices
import Xmertl.Partikle.Rtl
import Xmertl.Partikle.Keys
import Xmertl.Partikle.TimerCalls
import Xmertl.Partikle.FifoIoctl
import Xmertl.Partikle.FileIo
import Xmertl.Partikle.ShmFiles
import Xmertl.Partikle.LinuxIrqs
import Xmertl.Lib.BoundaryTags
import Xmertl.Lib.ThreadedLists
import Xmertl.Lib.SizeClasses
import Xmertl.Lib.Returns
import Xmertl.Common.TlsfPool
import Xmertl.Common.TlsfBlocks
import Xmertl.Xtratum.Tlsf
import Xmertl.Common.TlsfClasses
import Xmertl.Xtratum.TlsfMapping
import Xmertl.Xtratum.TlsfCalls
import Xmertl.Xtratum.TlsfRealloc
import Xmertl.Common.TlsfUse
import Xmertl.Xtratum.TlsfEffects
import Xmertl.Xtratum.TlsfRuns
import Xmertl.Partikle.OldTimes
import Xmertl.Partikle.Sleep
import Xmertl.Partikle.SemTimedwait
import Xmertl.Partikle.CondTimedwait
import Xmertl.Partikle.RootTree
import Xmertl.Partikle.RootOpen
import Xmertl.Partikle.SignalMoves
import Xmertl.Partikle.DoSignals
import Xmertl.Xtratum.Xmloader
import Xmertl.Partikle.Calendar
import Xmertl.Partikle.Stdio
import Xmertl.Xtratum.Tsc
import Xmertl.Partikle.Sigwait
import Xmertl.Partikle.Vga
import Xmertl.Partikle.Keyb
import Xmertl.Partikle.Uarti8250
import Xmertl.Partikle.Cbitmap
import Xmertl.Partikle.Vmm
import Xmertl.Lib.FreshMaps
import Xmertl.Partikle.VmmRegions
import Xmertl.Partikle.VmmRuns
import Xmertl.Partikle.VmmTables
import Xmertl.Partikle.Tlsf
import Xmertl.Partikle.TlsfMapping
import Xmertl.Partikle.TlsfCalls
import Xmertl.Xtratum.Xmprintf
import Xmertl.Partikle.Strncpy
import Xmertl.Partikle.Rprintf
import Xmertl.Partikle.Snprintf
import Xmertl.Partikle.CbitmapNext
import Xmertl.Xtratum.TlsfInit
import Xmertl.Partikle.TlsfInit
import Xmertl.Copies.Tlsf
import Xmertl.Xtratum.TlsfRequests
import Xmertl.Partikle.TlsfFree
import Xmertl.Partikle.TlsfEffects
import Xmertl.Partikle.TlsfRequests
import Xmertl.Partikle.TlsfRuns
import Xmertl.Common.TlsfBytes
import Xmertl.Lib.Refinement
import Xmertl.Lib.Stores
import Xmertl.Common.TlsfStore
import Xmertl.Copies.TlsfStore
import Xmertl.Xtratum.Isolation
import Xmertl.Lib.Numerals
import Xmertl.Partikle.Stdlib
import Xmertl.Partikle.Stdarg
import Xmertl.Partikle.Vsnprintf
import Xmertl.Partikle.PrintfNumbers
import Xmertl.Partikle.RootTables
import Xmertl.Partikle.Scanf
import Xmertl.Partikle.ScanfNumbers
import Xmertl.Xtratum.LoadFile
import Xmertl.Partikle.Pic
import Xmertl.Partikle.UserString
import Xmertl.Partikle.Strings
import Xmertl.Xtratum.Takeover
