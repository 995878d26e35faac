import Caio.Agreement
import Caio.Asyncio.Backends
import Caio.Asyncio.Backpressure
import Caio.Asyncio.Base
import Caio.Asyncio.BeforeAwait
import Caio.Asyncio.Cancelled
import Caio.Asyncio.CrossTalk
import Caio.Asyncio.Distinct
import Caio.Asyncio.ReadEvent
import Caio.Asyncio.Refused
import Caio.Asyncio.Resubmission
import Caio.Asyncio.Results
import Caio.CallbackNumber
import Caio.FreeThreading.Claims
import Caio.FreeThreading.Rollback
import Caio.FreeThreading.Steps
import Caio.FreeThreading.Submit
import Caio.Implementation.Release
import Caio.Implementation.Select
import Caio.Lengths
import Caio.Lib.CircularQueue
import Caio.Lib.Counting
import Caio.Lib.EventCounter
import Caio.Lib.Executor
import Caio.Lib.Fifo
import Caio.Lib.Handles
import Caio.Lib.Journal
import Caio.Lib.Linearizable
import Caio.Lib.LittleEndian
import Caio.Lib.LockOrder
import Caio.Lib.Mutex
import Caio.Lib.ObjectGraph
import Caio.Lib.OneShot
import Caio.Lib.OpenFile
import Caio.Lib.Preimages
import Caio.Lib.Progress
import Caio.Lib.RingBuffer
import Caio.Lib.Sleepers
import Caio.Lib.Table
import Caio.Lib.Transition
import Caio.Lib.WaitFor
import Caio.Lib.Width
import Caio.LifeCycles
import Caio.LinuxAio.Deferred
import Caio.LinuxAio.Finalise
import Caio.LinuxAio.Flow
import Caio.LinuxAio.Length
import Caio.LinuxAio.Operation
import Caio.LinuxAio.Prefix
import Caio.LinuxAio.ProcessEvents
import Caio.LinuxAio.Queue
import Caio.LinuxAio.Setup
import Caio.LinuxAio.Stages
import Caio.LinuxAio.Submit
import Caio.LinuxAio.Value
import Caio.LinuxAio.World
import Caio.Payload.Counts
import Caio.Payload.Objects
import Caio.Payload.Steps
import Caio.Payload.Views
import Caio.Python
import Caio.PythonAio.Claims
import Caio.PythonAio.Context
import Caio.PythonAio.Deadlock
import Caio.PythonAio.Fallback
import Caio.PythonAio.Ledger
import Caio.PythonAio.Once
import Caio.PythonAio.Operation
import Caio.PythonAio.Pread
import Caio.PythonAio.Slots
import Caio.PythonAio.Stages
import Caio.PythonAio.Threads
import Caio.Session
import Caio.ThreadAio.ErrorMember
import Caio.ThreadAio.Execute
import Caio.ThreadAio.Jobs
import Caio.ThreadAio.Joins
import Caio.ThreadAio.Length
import Caio.ThreadAio.Operation
import Caio.ThreadAio.Pools
import Caio.ThreadAio.Requests
import Caio.ThreadAio.Sizes
import Caio.ThreadAio.Stages
import Caio.ThreadAio.Submit
import Caio.ThreadAio.Teardown
import Caio.ThreadAio.Threads
import Caio.ThreadAio.World
import Caio.Threadpool.Atomic
import Caio.Threadpool.Executor
import Caio.Threadpool.Lock
import Caio.Threadpool.Phases
import Caio.Threadpool.Pool
import Caio.Threadpool.Settle
import Caio.Threadpool.Steps
import Caio.Threadpool.Wake
import Caio.Uring.Adapter
import Caio.Uring.Backlog
import Caio.Uring.Batch
import Caio.Uring.Complete
import Caio.Uring.Deadline
import Caio.Uring.Delivery
import Caio.Uring.Drain
import Caio.Uring.Enough
import Caio.Uring.Enter
import Caio.Uring.Flushers
import Caio.Uring.Immutable
import Caio.Uring.Length
import Caio.Uring.Lifecycle
import Caio.Uring.Mappings
import Caio.Uring.Operation
import Caio.Uring.Ownership
import Caio.Uring.Posts
import Caio.Uring.Resources
import Caio.Uring.Setup
import Caio.Uring.Stages
import Caio.Uring.Stranded
import Caio.Uring.Submission
import Caio.Uring.Submit
import Caio.Uring.Wait
import Caio.Uring.Waiters
import Caio.Uring.World
