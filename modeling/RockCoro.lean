import RockCoro.BasicStruct.Lifetime
import RockCoro.BasicStruct.Lifetimes
import RockCoro.BasicStruct.PoolRuns
import RockCoro.BasicStruct.HeapRuns
import RockCoro.BasicStruct.Queue
import RockCoro.BasicStruct.ChunkedVector.Throw
import RockCoro.BasicStruct.ChunkedVector.Resize
import RockCoro.BasicStruct.ChunkedVector.Iterators
import RockCoro.BasicStruct.RedBlackTree.Destroy
import RockCoro.Timer.Fifo
import RockCoro.Scheduler.Permits
import RockCoro.Scheduler.Places
import RockCoro.Scheduler.Shutdown
import RockCoro.Coroutine.Switches
import RockCoro.Coroutine.Entry
import RockCoro.Memory.TSLinkedList.LazyInit
import RockCoro.Memory.TSLinkedList.Retire
import RockCoro.Memory.Reclaim
import RockCoro.Memory.Destruction.Progress
import RockCoro.Memory.NodeCache
import RockCoro.Memory.TaggedPtr
import RockCoro.Memory.TSLinkedList.Progress
import RockCoro.Memory.EpochProgress
import RockCoro.Timer.EventLoop
import RockCoro.Scheduler.Machines
import RockCoro.Scheduler.Runtime
import RockCoro.Scheduler.Workload
import RockCoro.Scheduler.Wakeups
