import BliveQueue.Math.System
import BliveQueue.Math.LinkedRing
import BliveQueue.Math.StableInsert
import BliveQueue.Math.Forcing
import BliveQueue.Utils.Errno
import BliveQueue.Utils.QList
import BliveQueue.QList.Refinement
import BliveQueue.QList.Traversal
import BliveQueue.QList.Line
import BliveQueue.QList.Order
import BliveQueue.QList.Lookups
import BliveQueue.QList.Placement
import BliveQueue.QList.Window
import BliveQueue.QList.Capacity
import BliveQueue.QList.AppendWalk
import BliveQueue.QList.MapView
import BliveQueue.QList.RingInvariant
import BliveQueue.QList.Destroy
import BliveQueue.Callbacks
import BliveQueue.Callbacks.Receiver
import BliveQueue.Callbacks.FirstCome
import BliveQueue.Math.BinaryHeap
import BliveQueue.Utils.PriQueue
import BliveQueue.PriQueue.Growth
import BliveQueue.PriQueue.Priority
import BliveQueue.PriQueue.Blocking
import BliveQueue.PriQueue.Failures
import BliveQueue.PriQueue.HeapCalls
import BliveQueue.PriQueue.Destroy
import BliveQueue.Select.Deadlines
import BliveQueue.Select.Stamps
import BliveQueue.Select.Timers
import BliveQueue.Select.Early
import BliveQueue.Select.LifeCycle
import BliveQueue.FdPool.Dispatch
import BliveQueue.Hash.LongKeys
import BliveQueue.Hash.MapView
import BliveQueue.Hash.Peek
import BliveQueue.Hash.Sizing
import BliveQueue.Hash.Memory
import BliveQueue.FdPool.MapView
import BliveQueue.Engine.Wakeup
import BliveQueue.Engine.Lock
import BliveQueue.Engine.Pipe
import BliveQueue.Engine.Progress
import BliveQueue.FdPool.Ends
import BliveQueue.Engine.Stop
import BliveQueue.Engine.Timers
import BliveQueue.Engine.Refinement
import BliveQueue.Callbacks.QueueText
import BliveQueue.Httpd.Isolation
import BliveQueue.Httpd.Response
import BliveQueue.Main.Clean
import BliveQueue.Main.Loaded
import BliveQueue.Callbacks.Identity
import BliveQueue.Callbacks.Admission
import BliveQueue.Callbacks.Pipe
import BliveQueue.Callbacks.Init
import BliveQueue.Callbacks.Colours
import BliveQueue.Callbacks.Weights
import BliveQueue.Callbacks.Rank
import BliveQueue.Callbacks.Nickname
import BliveQueue.Httpd.Firing
import BliveQueue.Httpd.Injection
import BliveQueue.Server
import BliveQueue.Server.Response
import BliveQueue.Server.Runs
import BliveQueue.Server.Page
