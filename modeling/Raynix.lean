import Raynix.Spinlock
import Raynix.InterruptNesting
import Raynix.Lib.CircularBuffer
import Raynix.Pipe
import Raynix.PipeFifo
import Raynix.PipeCapacity
import Raynix.PipeAppend
import Raynix.PipeDelivery
import Raynix.BufferCache
import Raynix.BufferRing
import Raynix.BufferUnique
import Raynix.BufferCoherence
import Raynix.BufferVictim
import Raynix.BufferCounts
import Raynix.Lib.ByteMove
import Raynix.Tools
import Raynix.Kalloc
import Raynix.Lib.LinkedStack
import Raynix.PageStack
import Raynix.PageRange
import Raynix.PageTree
import Raynix.MapLaw
import Raynix.KernelSpace
import Raynix.OutOfPages
import Raynix.Translation
import Raynix.CopyUser
import Raynix.SpinlockExclusion
import Raynix.Uart
import Raynix.UartFifo
import Raynix.Lib.Riscv
import Raynix.Sleeplock
import Raynix.Trampoline
import Raynix.TrapRoundTrip
import Raynix.Process
import Raynix.HandOver
import Raynix.ProcessStep
import Raynix.ProcessExclusion
import Raynix.ProcessBinding
import Raynix.Wakeup
import Raynix.Kernel
import Raynix.KernelCode
import Raynix.KernelMachine
import Raynix.LockRules
import Raynix.BgetSearch
import Raynix.LockBalance
import Raynix.LockDiscipline
import Raynix.LockInit
import Raynix.PageRace
import Raynix.PipeWaiters
import Raynix.Lib.BumpAllocator
import Raynix.Lib.Bytes
import Raynix.Mkfs
import Raynix.MkfsLayout
import Raynix.MkfsContents
import Raynix.MkfsReadBack
import Raynix.MkfsImage
import Raynix.MkfsInodes
import Raynix.Virtio
import Raynix.VirtioStep
import Raynix.VirtioDescriptors
import Raynix.VirtioRequests
import Raynix.VirtioCompletion
import Raynix.WakeupEffect
import Raynix.RefusedSwitch
import Raynix.InterruptFlag
import Raynix.Lib.Threads
import Raynix.ReturnStatus
import Raynix.RootInstall
import Raynix.Start
import Raynix.TimerHandler
import Raynix.TimerTicks
import Raynix.KernelTrap
import Raynix.TrapCause
import Raynix.UartOverrun
import Raynix.UartService
import Raynix.LogAdmission
import Raynix.WalkTree
import Raynix.Lib.Ownership
import Raynix.Lib.Sv39
import Raynix.AddressSpaces
import Raynix.SpaceIsolation
import Raynix.SpaceRuns
import Raynix.SpaceHistory
import Raynix.Lib.Switch
import Raynix.ContextSwitch
import Raynix.Lib.WaitGraph
import Raynix.LockOrder
import Raynix.KernelSwitch
import Raynix.Deadlock
import Raynix.Lib.AtomicObject
import Raynix.DiskTransfers
import Raynix.AtomicDisk
import Raynix.Lib.DeviceProtocol
import Raynix.VirtioInit
import Raynix.VirtioHandshake
import Raynix.StorageStack
import Raynix.StorageCache
import Raynix.StorageRuns
