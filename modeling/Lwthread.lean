import Lwthread.Lib.CInt
import Lwthread.Lib.Hole
import Lwthread.Util.Heap
import Lwthread.Util.HeapItems
import Lwthread.Util.HeapQueue
import Lwthread.Util.HeapBounds
import Lwthread.Platform.PollEpoll
import Lwthread.Scheduler.Timer
import Lwthread.Scheduler.State
import Lwthread.Scheduler.Step
import Lwthread.Lib.Custody
import Lwthread.Scheduler.Run
import Lwthread.Scheduler.Cases
import Lwthread.Scheduler.Custody
import Lwthread.Scheduler.Control
import Lwthread.Scheduler.Rules
import Lwthread.Scheduler.Invariant
import Lwthread.Scheduler.Birth
import Lwthread.Scheduler.Reachable
import Lwthread.Scheduler.EventLoop
import Lwthread.Scheduler.Polling
import Lwthread.Scheduler.Errno
import Lwthread.Scheduler.Lock
import Lwthread.Scheduler.Expiry
import Lwthread.Scheduler.HandleTimers
import Lwthread.Util.HeapConserve
import Lwthread.Async
import Lwthread.Scheduler.Slots
import Lwthread.Scheduler.Coverage
import Lwthread.Scheduler.Wakers
import Lwthread.Scheduler.Doomed
import Lwthread.Scheduler.WaitRecords
import Lwthread.Scheduler.PreemptLock
import Lwthread.Scheduler.EventRecords
import Lwthread.Scheduler.Handover
import Lwthread.Scheduler.Accounts
import Lwthread.Util.HeapFailure
import Lwthread.Lib.Rings
import Lwthread.Util.List
import Lwthread.Webserver.EventLib
import Lwthread.Webserver.Send
import Lwthread.Webserver.Url
import Lwthread.Webserver.Waiters
import Lwthread.AsyncIo
import Lwthread.Scheduler.SharedFds
import Lwthread.Scheduler.SuspendAbort
import Lwthread.Webserver.Handler
import Lwthread.Webserver.Pipelining
import Lwthread.Scheduler.DirectSuspend
import Lwthread.Util.ListSteps
import Lwthread.Scheduler.Pointers
import Lwthread.Scheduler.Edits
import Lwthread.Scheduler.Stored
import Lwthread.Scheduler.Signals
import Lwthread.Lib.Amd64
import Lwthread.Util.HeapStale
import Lwthread.Arch.Context
import Lwthread.Arch.ContextPoints
import Lwthread.Arch.ContextSteps
import Lwthread.Arch.ContextSwitch
import Lwthread.Arch.ContextCalls
import Lwthread.Scheduler.WaitTimes
import Lwthread.Scheduler.TimerMemory
import Lwthread.Scheduler.Stops
import Lwthread.Scheduler.Progress
import Lwthread.Scheduler.Refines
import Lwthread.Lib.Lines
import Lwthread.Webserver.Response
import Lwthread.Webserver.EventServ
import Lwthread.Webserver.EventServRuns
import Lwthread.Webserver.TwoServers
import Lwthread.Webserver.Wire
import Lwthread.Webserver.Threads
import Lwthread.Lib.Dispatch
import Lwthread.Scheduler.Board
