import Lwthread.Scheduler.Timer
import Lwthread.Platform.PollEpoll

/-!
# The state of `scheduler.c`

The scheduler runs coroutines on threads, each with its `struct local_sched`. The machine of
`Scheduler/Step.lean` takes one indivisible step of one thread at a time: an atomic exchange, store
or compare-and-exchange, a heap operation, a call of `epoll_ctl` or `epoll_wait`, one statement of a
run-list operation, or a stretch of code that touches the thread's own data only.

The run lists are behind an interface (`ListOps`), so that one machine runs over sequences, where
`list_push_back` and `list_pop_front` are one step each, and over the pointers of `util/list.h`,
where each of their statements is a step. `ι` and `δ` say how far a push or a pop has come.

A coroutine's context is the point of its own code it is at (`Pc`), and above it the activations of
the preemption signal's handler on its stack (`sig`, innermost first, always empty in a build
without `SCHED_PREEMPTION`).

Coroutines and schedulers are named by the order of their allocation, so a pointer to a coroutine
that has been freed never becomes valid again.

The block of the timer heap is an array without an end, which logs its accesses with the number of
slots it has. `heap_pop_min` may shrink the block and keep the old `size`; a push past the end of the
block is then no failure of the machine, which goes on as if the slots were there. Likewise a record
that `sched_poll_timeout` reads is the value it had when `heap_min` gave it.
`Scheduler/TimerMemory.lean` says which runs do neither.
-/

namespace Lwthread.Scheduler

open Lwthread.Util Lwthread.Platform

/-- A `struct coroutine`, by the number of coroutines allocated before it. -/
abbrev Cid := Nat

/-- A `struct local_sched` and its thread, by the number of schedulers allocated before it. -/
abbrev Tid := Nat

/-- `STATE_RUNNABLE`. -/
def STATE_RUNNABLE : Int := 1

/-- `STATE_BLOCKING`. -/
def STATE_BLOCKING : Int := 2

/-- `STATE_BLOCKED`. -/
def STATE_BLOCKED : Int := 4

/-! ## Run lists -/

/-- The operations of `util/list.h` on the run lists and the list nodes of the coroutines, kept in
one store `Q`. `push` and `pop` perform one statement; `pop` ends with the coroutine whose node was
unlinked, or with none if that was the list's own sentinel. -/
structure ListOps (Q ι δ : Type) where
  listInit : Q → Tid → Q
  listNodeInit : Q → Cid → Q
  listEmpty : Q → Tid → Bool
  listInList : Q → Cid → Bool
  pushStart : ι
  push : Q → Tid → Cid → ι → Q × Option ι
  popStart : δ
  pop : Q → Tid → δ → Q × (δ ⊕ Option Cid)

/-! ## Control points -/

/-- The function that `coro_trampoline` starts. -/
inductive Start where
  | user
  | loop (sched : Tid)
  deriving DecidableEq

/-- A point of `sched_enqueue_locked`. -/
inductive EnqPc (ι : Type) where
  | assert
  | push (p : ι)

/-- A point of `sched_resched`, down to its return from `sched_switch_context`. -/
inductive ReschedPc (ι δ : Type) where
  | check
  | enqueue (current : Cid) (p : EnqPc ι)
  | dequeue (p : δ)
  | switch (coro : Cid)
  | resumed

/-- The caller of `sched_resched`, apart from the signal handler. -/
inductive ReschedRet where
  | user
  | loop (sched : Tid)

/-- The caller of `sched_suspend`. -/
inductive SuspendRet where
  | user
  | wait
  | eventWait (fd : Nat)

/-- The caller of `sched_schedule`: user code, `sched_new_coroutine`, `sched_poll_event` with the
rest of the batch, or `sched_handle_timers`. -/
inductive ScheduleRet where
  | user
  | newCoroutine
  | pollEvent (sched : Tid) (timeout : Int) (rest : List (Cid × Nat)) (full : Bool)
  | handleTimers (sched : Tid) (timeout : Int)

/-- A point of a coroutine's own code. An event is keyed by the address of the `struct event_wait`
it was registered with, which is on the waiting coroutine's stack and named by that coroutine. -/
inductive Pc (ι δ : Type) where
  | trampoline
  | user
  | resched (r : ReschedPc ι δ) (ret : ReschedRet)
  | waitLock (wait : TimerWait)
  | waitPush (wait : TimerWait)
  | waitUnlock
  | eventRegister (fd events : Nat)
  | eventUnregister (fd : Nat)
  | suspendBlock (ret : SuspendRet)
  | suspendDequeue (current : Cid) (p : δ) (ret : SuspendRet)
  | suspendCmpxchg (current coro : Cid) (ret : SuspendRet)
  | suspendEnqueue (coro : Cid) (p : EnqPc ι) (ret : SuspendRet)
  | suspendUnblock (ret : SuspendRet)
  | scheduleXchg (coro : Cid) (ret : ScheduleRet)
  | scheduleEnqueue (coro : Cid) (p : EnqPc ι) (ret : ScheduleRet)
  | newLoad (coro : Cid)
  | newFetchAdd (coro : Cid)
  | newLocal (coro : Cid) (slot : Nat)
  | newEnqueue (coro : Cid) (sched : Tid) (p : EnqPc ι)
  | newStart (sched : Tid)
  | loopTop (sched : Tid)
  | loopMin (sched : Tid)
  | loopExpire (sched : Tid) (timer : TimerWait)
  | pollWait (sched : Tid) (timeout : Int)
  | pollEvents (sched : Tid) (timeout : Int) (batch : List (Cid × Nat)) (full : Bool)
  | timersEmpty (sched : Tid) (timeout : Int)
  | timersLock (sched : Tid) (timeout : Int)
  | timersMin (sched : Tid) (timeout : Int)
  | timersExpire (sched : Tid) (timeout : Int) (timer : TimerWait)
  | timersPop (sched : Tid) (timeout : Int) (timer : TimerWait)
  | timersUnlock (sched : Tid) (timeout : Int) (again : Bool)

/-- What a thread executes: a coroutine, on that coroutine's stack, or `free_coro`, on the thread's
death stack. -/
inductive Exec (δ : Type) where
  | on (c : Cid)
  | free
  | dequeue (p : δ)
  | restore (next : Cid)

/-! ## The state -/

/-- The context of a coroutine: the point where it is, or where it goes on when it is switched to. -/
structure Context (ι δ : Type) where
  pc : Pc ι δ
  sig : List (ReschedPc ι δ)

/-- `struct coroutine`, apart from its context and its list node. The coroutine of a thread that
`sched_new_local` makes has no start function. -/
structure Coroutine where
  state : Int
  privateErrno : Int
  start : Option Start

/-- `struct local_sched`, with the thread that runs it: its `errno`, what it executes, and whether
`pthread_create` has started it. The run list is in the store of run lists. -/
structure LocalSched (δ : Type) where
  currentCoro : Cid
  eventLoopCoro : Option Cid
  preemptLock : Bool
  errno : Int
  exec : Exec δ
  started : Bool

/-- `struct event_wait`. -/
structure EventWait where
  fd : Nat
  events : Nat
  coro : Option Cid

/-- An entry of the epoll interest list. With `EPOLLONESHOT` it is armed until its event has been
delivered. -/
structure Registration where
  fd : Nat
  key : Cid
  armed : Bool
  deriving DecidableEq

/-- A failed assertion, or an access that leaves the program without a meaning. -/
inductive Failure where
  /-- `assert(!list_in_list(..))` in `sched_enqueue_locked` -/
  | enqueue
  /-- `list_pop_front` has unlinked the sentinel of an empty run list -/
  | sentinel
  /-- `assert(result == 0)` after `platform_poll_register` -/
  | register
  /-- `assert(result == 0)` after `platform_poll_unregister` -/
  | unregister
  /-- `assert(wait.events != 0)` -/
  | noEvents
  /-- a pointer to a coroutine or to a wait that is gone was used -/
  | dangling
  /-- `assert(!list_in_list(..))` in `free_coro` -/
  | freeLinked
  /-- the assertion of `sched_block_preempt` -/
  | block
  /-- the assertion of `sched_unblock_preempt` -/
  | unblock
  /-- `assert(result == 0)` after `heap_push` -/
  | noMemory
  /-- `exit(EXIT_FAILURE)` in `sched_loop` -/
  | pollError
  deriving DecidableEq

/-- The state of the program. `coros` and `locals` count the allocations of coroutines and of
schedulers, `lock` is `gsched->lock` with the coroutine that holds it. -/
structure State (Q ι δ : Type) where
  localSize : Nat
  localCount : Nat
  localSchedulers : Nat → Option Tid
  coros : Nat
  locals : Nat
  coro : Cid → Option Coroutine
  context : Cid → Context ι δ
  sched : Tid → Option (LocalSched δ)
  queues : Q
  timerHeap : Heap TimerWait
  lock : Option Cid
  eventWait : Cid → Option EventWait
  poller : List Registration
  failure : Option Failure

namespace State

variable {Q ι δ : Type} (s : State Q ι δ)

/-- Change the coroutine `c`, if there is one. -/
def modCoro (c : Cid) (f : Coroutine → Coroutine) : State Q ι δ :=
  { s with coro := Function.update s.coro c ((s.coro c).map f) }

/-- Change the scheduler `t`, if there is one. -/
def modSched (t : Tid) (f : LocalSched δ → LocalSched δ) : State Q ι δ :=
  { s with sched := Function.update s.sched t ((s.sched t).map f) }

/-- The coroutine `c` goes on at `pc`. -/
def goto (c : Cid) (pc : Pc ι δ) : State Q ι δ :=
  { s with context := Function.update s.context c ⟨pc, (s.context c).sig⟩ }

/-- The handlers on the stack of the coroutine `c` become `sig`. -/
def setSig (c : Cid) (sig : List (ReschedPc ι δ)) : State Q ι δ :=
  { s with context := Function.update s.context c ⟨(s.context c).pc, sig⟩ }

/-- The program stops. -/
def fail (f : Failure) : State Q ι δ := { s with failure := some f }

end State

end Lwthread.Scheduler
