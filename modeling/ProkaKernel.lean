import ProkaKernel.Process
import ProkaKernel.Scheduler
import ProkaKernel.ScheduleSteps
import ProkaKernel.RunQueues
import ProkaKernel.TaskHistory
import ProkaKernel.ContextPreservation
import ProkaKernel.TaskTables
import ProkaKernel.FaultLookup
import ProkaKernel.RemovedTasks
import ProkaKernel.Bitmap
import ProkaKernel.FrameAlloc
import ProkaKernel.FrameRuns
import ProkaKernel.UsableRam
import ProkaKernel.MemoryInit
import ProkaKernel.Prog
import ProkaKernel.RwLock
import ProkaKernel.Overflow
import ProkaKernel.PhysMem
import ProkaKernel.Forest
import ProkaKernel.Paging
import ProkaKernel.Mapper
import ProkaKernel.Ownership
import ProkaKernel.FreeFrames
import ProkaKernel.TablePath
import ProkaKernel.Kernel
import ProkaKernel.Edits
import ProkaKernel.LowEntries
import ProkaKernel.Stages
import ProkaKernel.CreateSteps
import ProkaKernel.KernelSteps
import ProkaKernel.FourLevel
import ProkaKernel.Isolation
import ProkaKernel.ImageLayout
import ProkaKernel.ProcessFrames
import ProkaKernel.UserCopy
import ProkaKernel.KernelHeap
import ProkaKernel.PagingInit
import ProkaKernel.HardwareWalk
import ProkaKernel.DriverMemory
import ProkaKernel.DeviceMemory
import ProkaKernel.WriteExecute
import ProkaKernel.UserHeap
import ProkaKernel.VecRequests
import ProkaKernel.HeapRanges
import ProkaKernel.HeapExhaustion
import ProkaKernel.FrameResidue
import ProkaKernel.Rotation
import ProkaKernel.RoundRobin
import ProkaKernel.AllocatorCalls
import ProkaKernel.DriverTypes
import ProkaKernel.KernelMap
import ProkaKernel.Bystanders
import ProkaKernel.CallFrames
import ProkaKernel.HeapCalls
import ProkaKernel.HeapKernel
import ProkaKernel.HeapRoundTrip
import ProkaKernel.HeapAccess
import ProkaKernel.HeapRollback
import ProkaKernel.TaskKernel
import ProkaKernel.TaskSound
import ProkaKernel.CreateOutcome
import ProkaKernel.HeapContract
import ProkaKernel.CreateFailure
import ProkaKernel.FaultHandler
import ProkaKernel.Font
import ProkaKernel.Console
import ProkaKernel.Terminal
import ProkaKernel.ConsoleText
import ProkaKernel.ConfigAccess
import ProkaKernel.DeviceWindows
import ProkaKernel.PcieScan
import ProkaKernel.ConsoleCursor
import ProkaKernel.ConsoleParser
import ProkaKernel.ConsoleSafety
import ProkaKernel.Colors
import ProkaKernel.ConsoleBounds
import ProkaKernel.ConsoleInvariant
import ProkaKernel.InitprtReader
import ProkaKernel.AcpiPci
import ProkaKernel.DriverRecord
import ProkaKernel.HugeFrames
import ProkaKernel.BarMapping
import ProkaKernel.X86
import ProkaKernel.SyscallEntry
import ProkaKernel.SchedulerRefinement
import ProkaKernel.Starvation
import ProkaKernel.MemoryIntegrity
import ProkaKernel.KernelWindow
import ProkaKernel.X86Frames
import ProkaKernel.ContextSwitch
import ProkaKernel.SyscallOverlap
import ProkaKernel.InterruptLocks
import ProkaKernel.KernelLocks
import ProkaKernel.Syscalls
import ProkaKernel.InitprtBoot
import ProkaKernel.Logger
import ProkaKernel.LocalApic
import ProkaKernel.Tlb
import ProkaKernel.Footprint
