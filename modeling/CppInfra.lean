import CppInfra.Shared.Transition
import CppInfra.Shared.Words
import CppInfra.Shared.Framing
import CppInfra.Shared.PendingChain
import CppInfra.Shared.BinaryHeap
import CppInfra.Shared.LinkedChain
import CppInfra.Shared.DisjointLists
import CppInfra.Shared.ByteMemory
import CppInfra.Shared.ConditionVariable
import CppInfra.Shared.Simulation
import CppInfra.Shared.TailedLists
import CppInfra.Shared.Wheel
import CppInfra.Shared.WheelInvariant
import CppInfra.Shared.WheelSteps
import CppInfra.Shared.WheelRuns
import CppInfra.Shared.WheelLinks
import CppInfra.Shared.Dispatch
import CppInfra.Network.MessageBuffer
import CppInfra.Network.ByteFifo
import CppInfra.Network.CrLf
import CppInfra.Network.CrLfUnread
import CppInfra.Network.TcpConnection
import CppInfra.NetworkTimer.Timer
import CppInfra.NetworkTimer.EventLoop
import CppInfra.NetworkTimer.TimerOrder
import CppInfra.FreeQueue.RingBuffer
import CppInfra.FreeQueue.RingBufferSteps
import CppInfra.FreeQueue.RingBufferSpsc
import CppInfra.FreeQueue.MPSCQueueNonIntrusive
import CppInfra.FreeQueue.MPSCQueueNonIntrusiveFifo
import CppInfra.FreeQueue.MPSCQueueIntrusive
import CppInfra.FreeQueue.MPSCQueueIntrusiveSteps
import CppInfra.FreeQueue.MPSCQueueIntrusiveFifo
import CppInfra.MemPool.MmPool
import CppInfra.MemPool.MmPoolBlocks
import CppInfra.MemPool.MmPoolRuns
import CppInfra.MemPool.MmPoolPage
import CppInfra.MemPool.MpPool
import CppInfra.MemPool.MpPoolInvariant
import CppInfra.MemPool.MpPoolCalls
import CppInfra.MemPool.MpPoolRuns
import CppInfra.ThreadPool.BlockingQueue
import CppInfra.ThreadPool.BlockingQueuePro
import CppInfra.ThreadPool.BlockingQueueProFifo
import CppInfra.ThreadPool.ThreadPool
import CppInfra.MySQLConnPool.Query
import CppInfra.MySQLConnPool.Work
import CppInfra.MySQLConnPool.Answers
import CppInfra.AtomicLock.SharedPtr
import CppInfra.AtomicLock.SharedPtrInvariant
import CppInfra.AtomicLock.SharedPtrLife
import CppInfra.AtomicLock.SharedPtrSteps
import CppInfra.AtomicLock.SharedPtrRuns
import CppInfra.Timer.MinHeap
import CppInfra.Timer.MinHeapSift
import CppInfra.Timer.MinHeapCalls
import CppInfra.Timer.MinHeapRuns
import CppInfra.Timer.MinHeapWrap
import CppInfra.Timer.MinHeapFrame
import CppInfra.Timer.MhTimer
import CppInfra.Timer.MhTimerExpire
import CppInfra.Timer.SkipList
import CppInfra.Timer.SkipListLevels
import CppInfra.Timer.SkipListInvariant
import CppInfra.Timer.SkipListDelete
import CppInfra.Timer.SkipListInsert
import CppInfra.Timer.SkipListRuns
import CppInfra.Timer.SklTimer
import CppInfra.Timer.SklTimerExpire
import CppInfra.Timer.RbtTimer
import CppInfra.Timer.RbtTimerExpire
import CppInfra.Timer.TimeWheel
import CppInfra.Timer.TimeWheelSlots
import CppInfra.Timer.TimeWheelInvariant
import CppInfra.Timer.TimeWheelLost
import CppInfra.Timer.TimeWheelPunctual
import CppInfra.Timer.ClockTimer
import CppInfra.Timer.ClockTimerSlots
import CppInfra.Timer.ClockTimerLost
import CppInfra.Timer.ClockTimerPunctual
import CppInfra.Timer.TimerElapsed
import CppInfra.Timer.NearestTimer
import CppInfra.Timer.TimerSet
import CppInfra.Timer.TimerSetOrder
import CppInfra.Timer.TimeWheelMemory
import CppInfra.Timer.TimeWheelStale
import CppInfra.MemPool.MpPoolHeap
import CppInfra.MemPool.MpPoolFreed
import CppInfra.MemPool.MpPoolOwn
import CppInfra.MemPool.MpPoolDepth
import CppInfra.AtomicLock.SharedPtrHeap
import CppInfra.MemPool.MpPoolReplay
import CppInfra.AtomicLock.SharedPtrCascade
import CppInfra.AtomicLock.SharedPtrAssign
import CppInfra.Network.ClosedConn
import CppInfra.Network.SendResult
import CppInfra.MySQLConnPool.Open
import CppInfra.MySQLConnPool.MySQLConn
import CppInfra.MySQLConnPool.OpenReport
import CppInfra.MySQLConnPool.Tokenize
import CppInfra.Timer.TimeWheelBits
import CppInfra.Timer.TimeWheelLinks
import CppInfra.Timer.TimeWheelCascade
import CppInfra.Shared.RedBlackFix
import CppInfra.Timer.Rbtree
import CppInfra.Timer.RbtreeLinks
import CppInfra.Timer.RbtreeRotate
import CppInfra.Timer.RbtreeInsert
import CppInfra.Timer.RbtreeDeleteFix
import CppInfra.Timer.RbtreeUnlink
import CppInfra.Timer.RbtreeDelete
import CppInfra.Timer.RbtreeRuns
import CppInfra.FreeQueue.MsgQueue
import CppInfra.FreeQueue.MsgQueueInvariant
import CppInfra.FreeQueue.MsgQueueRuns
import CppInfra.FreeQueue.MsgQueueWakeUps
import CppInfra.Timer.RbtTimerRuns
