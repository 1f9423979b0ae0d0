import IOSStudy.Transition
import IOSStudy.AtomicObjects
import IOSStudy.Locks
import IOSStudy.BarrierQueue
import IOSStudy.RunLoop
import IOSStudy.TicketSale
import IOSStudy.TicketDemos
import IOSStudy.SpinLockDemo
import IOSStudy.RecursiveRun
import IOSStudy.SemaphoreDemo
import IOSStudy.TestSemaphore
import IOSStudy.ConditionDemo
import IOSStudy.ConditionLockDemo
import IOSStudy.RwQueueDemo
import IOSStudy.SerialThread
import IOSStudy.KeepAliveThread
import IOSStudy.CasLoop
import IOSStudy.BlockFlags
import IOSStudy.Tally
import IOSStudy.BlockCount
import IOSStudy.BlockRuntime
import IOSStudy.BlockLedger
import IOSStudy.BlockCopy
import IOSStudy.BlockDispose
import IOSStudy.BlockClient
import IOSStudy.BlockSafety
import IOSStudy.BlockQueue
import IOSStudy.RunLoopBlocks
import IOSStudy.SortedInsertion
import IOSStudy.TimerArray
import IOSStudy.RunLoopTimers
import IOSStudy.TimerSchedule
import IOSStudy.TimerDeadlines
import IOSStudy.TimerCallouts
import IOSStudy.TimerCommonModes
import IOSStudy.RunLoopObservers
import IOSStudy.ObserverModes
import IOSStudy.ObserverCallouts
