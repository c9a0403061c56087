import SylixOS.HeapRuns
import SylixOS.HeapMemory
import SylixOS.HeapScatter
import SylixOS.HeapRequest
import SylixOS.HeapRoundTrip
import SylixOS.HeapDoubleFree
import SylixOS.HeapContents
import SylixOS.SchedRuns
import SylixOS.ReadyTables
import SylixOS.SectorDevice
import SylixOS.TpsTrans
import SylixOS.TpsTransView
import SylixOS.TpsTransCommit
import SylixOS.TpsTransOverlay
import SylixOS.SerialRing
import SylixOS.TpsTransRing
import SylixOS.TpsTransHead
import SylixOS.TpsTransWords
import SylixOS.TpsTransLoad
import SylixOS.TpsTransCrash
import SylixOS.TpsTransRecovery
import SylixOS.TpsTransAtomic
import SylixOS.TpsTransConfine
import SylixOS.TpsBtreeNode
import SylixOS.TpsBtreePut
import SylixOS.TpsSuper
import SylixOS.DiskRaid
import SylixOS.DiskRaidGhost
import SylixOS.GptPartition
import SylixOS.GptLoad
import SylixOS.GptBounds
import SylixOS.GptRestore
import SylixOS.MbrScan
import SylixOS.MbrCalls
import SylixOS.MbrChain
import SylixOS.OemFdisk
import SylixOS.OemFdiskMbr
import SylixOS.OemFdiskGpt
import SylixOS.OemFdiskRead
import SylixOS.OemFdiskTrip
import SylixOS.RamFsLib
import SylixOS.RamFsBlocks
import SylixOS.RamFsTree
import SylixOS.RamFsVolume
import SylixOS.RamFsContents
import SylixOS.ParentForest
import SylixOS.RamFsPaths
import SylixOS.RamFsDesc
import SylixOS.RamFsEof
import SylixOS.PathStack
import SylixOS.IoPath
import SylixOS.IoPathRuns
import SylixOS.IoPathCondense
import SylixOS.EventSet
import SylixOS.LogicDisk
import SylixOS.BinarySemaphore
import SylixOS.PthreadBarrier
import SylixOS.RingBuffer
import SylixOS.Spipe
import SylixOS.SpipeStream
import SylixOS.SpipeClose
import SylixOS.PriorityQueue
import SylixOS.Mqueue
import SylixOS.MqueueOrder
import SylixOS.MqueueReturns
import SylixOS.MqueueWake
import SylixOS.WorkQueue
import SylixOS.WorkQueueJobs
import SylixOS.WorkQueueTimes
import SylixOS.FdLockf
import SylixOS.FdLockfList
import SylixOS.FdLockfQueue
import SylixOS.FdLockfLoops
import SylixOS.FdLockfApply
import SylixOS.FdLockfRuns
import SylixOS.FdLockfRange
import SylixOS.SignalLib
import SylixOS.SignalMask
import SylixOS.SignalDeliver
import SylixOS.SignalDeliverRuns
import SylixOS.SignalWait
import SylixOS.SignalPend
import SylixOS.NatLib
import SylixOS.NatTable
import SylixOS.NatRuns
import SylixOS.NatTrip
import SylixOS.NatChecksum
import SylixOS.PageLib
import SylixOS.PageLayout
import SylixOS.PageMoves
import SylixOS.PageRuns
import SylixOS.PageFit
import SylixOS.PagePools
import SylixOS.PageRoundTrip
import SylixOS.DeltaList
import SylixOS.WakeupLine
import SylixOS.WakeupTime
import SylixOS.ITimerThread
import SylixOS.EventWait
import SylixOS.SemaphoreC
import SylixOS.MsgQueueLib
import SylixOS.MsgQueueMem
import SylixOS.MsgQueue
import SylixOS.MsgQueueRuns
import SylixOS.MsgQueueRefines
import SylixOS.MsgQueueSenders
import SylixOS.VutexLib
import SylixOS.Vutex
import SylixOS.VutexRuns
import SylixOS.ThreadOnce
import SylixOS.ThreadOnceRuns
import SylixOS.Eventfd
import SylixOS.EventfdRuns
import SylixOS.TyDev
import SylixOS.TyLib
import SylixOS.TyRuns
import SylixOS.TyCanon
import SylixOS.CandRefill
import SylixOS.CandLead
import SylixOS.EventQueue
import SylixOS.EventQueueRuns
import SylixOS.JobQueue
import SylixOS.JobQueueRuns
import SylixOS.JobQueueExec
import SylixOS.EventList
import SylixOS.SemaphoreM
import SylixOS.SemaphoreMRuns
import SylixOS.SemaphoreMPrio
import SylixOS.SemaphoreRW
import SylixOS.SemaphoreRWRuns
import SylixOS.BlockMsg
import SylixOS.CharRing
import SylixOS.VmmMunmap
import SylixOS.VmmMsync
import SylixOS.RedBlackTree
import SylixOS.TreeRb
import SylixOS.TreeRbColor
import SylixOS.TreeRbErase
import SylixOS.VmmArea
