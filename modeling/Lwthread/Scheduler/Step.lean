import Lwthread.Scheduler.State

/-!
# The steps of `scheduler.c`

`step` performs one action: the next step of a thread, with what the environment chooses for it (the
next call of user code, what a fresh allocation holds, a clock reading, the outcome of `epoll_wait`),
or the delivery of the preemption signal. It is `none` when the action is not
possible: the thread is not started, it waits for `gsched->lock`, or the program has stopped.
Each definition below follows one function of the source.
-/

namespace Lwthread.Scheduler

open Lwthread.Util Lwthread.Platform

variable {Q ι δ : Type}

/-- What user code does next, between scheduler operations; `ret` is the return of a coroutine's
start function. -/
inductive Op where
  | setErrno (e : Int)
  | newCoroutine
  | resched
  | wait (time : Timespec)
  | eventWait (fd events : Nat)
  | suspend
  | schedule (c : Cid)
  | ret

/-- What the environment chooses for a step. Events are given by file descriptor and mask. -/
inductive Input where
  | step
  | op (o : Op)
  | garbage (state errno : Int)
  | clock (now : Timespec)
  | epoll (o : Outcome Nat)

/-- An action of the machine. -/
inductive Act where
  | tick (t : Tid) (i : Input)
  | signal (t : Tid)

section

variable (ops : ListOps Q ι δ) (preemption : Bool) (s : State Q ι δ) (t : Tid)

/-! ## Preemption, enqueueing and dequeueing -/

/-- `sched_block_preempt`, then `k`. -/
def schedBlockPreempt (l : LocalSched δ) (k : State Q ι δ → State Q ι δ) : State Q ι δ :=
  if preemption then
    if l.preemptLock then s.fail .block else k (s.modSched t ({ · with preemptLock := true }))
  else k s

/-- `sched_unblock_preempt`, then `k`. -/
def schedUnblockPreempt (l : LocalSched δ) (k : State Q ι δ → State Q ι δ) : State Q ι δ :=
  if preemption then
    if l.preemptLock then k (s.modSched t ({ · with preemptLock := false })) else s.fail .unblock
  else k s

/-- One step of `sched_enqueue_locked` on the run list of `t`; `k` gets the next point, or none at
the return. -/
def schedEnqueueLocked (c : Cid) (p : EnqPc ι)
    (k : State Q ι δ → Option (EnqPc ι) → State Q ι δ) : State Q ι δ :=
  match p with
  | .assert =>
    if ops.listInList s.queues c then s.fail .enqueue else k s (some (.push ops.pushStart))
  | .push p =>
    let r := ops.push s.queues t c p
    k { s with queues := r.1 } (r.2.map .push)

/-- One step of `sched_dequeue_locked` on the run list of `t`; `k` gets the next point, or the
coroutine at the return. -/
def schedDequeueLocked (p : δ) (k : State Q ι δ → δ ⊕ Cid → State Q ι δ) : State Q ι δ :=
  let r := ops.pop s.queues t p
  let s := { s with queues := r.1 }
  match r.2 with
  | .inl p => k s (.inl p)
  | .inr (some c) => k s (.inr c)
  | .inr none => s.fail .sentinel

/-! ## `sched_resched` -/

/-- `sched_switch_context`, up to the switch: the coroutine `c` goes on at `resumed` when it is
switched back to. -/
def schedSwitchContext (l : LocalSched δ) (coro : Cid) (resumed : State Q ι δ → State Q ι δ) :
    State Q ι δ :=
  schedBlockPreempt preemption s t l fun s =>
    let s := s.modCoro l.currentCoro ({ · with privateErrno := l.errno })
    match s.coro coro with
    | none => s.fail .dangling
    | some k =>
      resumed (s.modSched t
        ({ · with currentCoro := coro, errno := k.privateErrno, exec := .on coro }))

/-- One step of `sched_resched`; `k` installs the next point of the activation, or returns from
it. -/
def schedResched (l : LocalSched δ) (r : ReschedPc ι δ)
    (k : State Q ι δ → Option (ReschedPc ι δ) → State Q ι δ) : State Q ι δ :=
  match r with
  | .check =>
    if ops.listEmpty s.queues t then k s none else k s (some (.enqueue l.currentCoro .assert))
  | .enqueue current p =>
    schedEnqueueLocked ops s t current p fun s p =>
      k s (some (match p with | some p => .enqueue current p | none => .dequeue ops.popStart))
  | .dequeue p =>
    schedDequeueLocked ops s t p fun s r =>
      k s (some (match r with | .inl p => .dequeue p | .inr coro => .switch coro))
  | .switch coro => schedSwitchContext preemption s t l coro fun s => k s (some .resumed)
  | .resumed => schedUnblockPreempt preemption s t l fun s => k s none

/-- The return of `sched_resched` to its caller. -/
def ReschedRet.pc : ReschedRet → Pc ι δ
  | .user => .user
  | .loop sched => .loopTop sched

/-- The next point of a caller of `sched_resched`. -/
def ReschedRet.next (ret : ReschedRet) : Option (ReschedPc ι δ) → Pc ι δ
  | some r => .resched r ret
  | none => ret.pc

/-! ## `sched_suspend` -/

/-- The return of `sched_suspend` to its caller. -/
def SuspendRet.pc : SuspendRet → Pc ι δ
  | .user => .user
  | .wait => .user
  | .eventWait fd => .eventUnregister fd

/-- `sched_prepare_to_suspend`. -/
def schedPrepareToSuspend (l : LocalSched δ) : State Q ι δ :=
  s.modCoro l.currentCoro ({ · with state := STATE_BLOCKING })

/-- `sched_suspend` from the return of `sched_dequeue_locked` to `context_cmpxchg_restore`. -/
def suspendTake (c : Cid) (l : LocalSched δ) (current coro : Cid) (ret : SuspendRet) :
    State Q ι δ :=
  let s := s.modCoro current ({ · with privateErrno := l.errno })
  match s.coro coro with
  | none => s.fail .dangling
  | some k =>
    let s := s.modSched t ({ · with currentCoro := coro, errno := k.privateErrno })
    s.goto c (.suspendCmpxchg current coro ret)

/-- `context_cmpxchg_restore` in `sched_suspend`, and the code after it if it fails. -/
def suspendCmpxchg (c : Cid) (current coro : Cid) (ret : SuspendRet) : State Q ι δ :=
  match s.coro current with
  | none => s.fail .dangling
  | some k =>
    if k.state = STATE_BLOCKING then
      let s := s.modCoro current ({ · with state := STATE_BLOCKED })
      let s := s.goto c (.suspendUnblock ret)
      s.modSched t ({ · with exec := .on coro })
    else
      let s := s.modSched t ({ · with currentCoro := current, errno := k.privateErrno })
      s.goto c (.suspendEnqueue coro .assert ret)

/-! ## `sched_schedule` -/

/-- The return of `sched_schedule` to its caller. -/
def ScheduleRet.pc : ScheduleRet → Pc ι δ
  | .user => .user
  | .newCoroutine => .user
  | .pollEvent sched timeout rest full => .pollEvents sched timeout rest full
  | .handleTimers sched timeout => .timersUnlock sched timeout true

/-- The exchange in `sched_schedule`. -/
def scheduleXchg (c coro : Cid) (ret : ScheduleRet) : State Q ι δ :=
  match s.coro coro with
  | none => s.fail .dangling
  | some k =>
    let s := s.modCoro coro ({ · with state := STATE_RUNNABLE })
    if k.state ≠ STATE_BLOCKED then s.goto c ret.pc
    else s.goto c (.scheduleEnqueue coro .assert ret)

/-! ## `sched_new_coroutine` -/

/-- `sched_make_coro`. The new coroutine is `s.coros`. -/
def schedMakeCoro (start : Start) : State Q ι δ :=
  { s with
    coros := s.coros + 1
    queues := ops.listNodeInit s.queues s.coros
    coro := Function.update s.coro s.coros (some ⟨STATE_BLOCKED, 0, some start⟩)
    context := Function.update s.context s.coros ⟨.trampoline, []⟩ }

/-- `sched_new_local`. The new scheduler is `s.locals`, and the coroutine of its thread is `s.coros`,
with `state` and `private_errno` not initialised. The thread is to start at `pc`, with `errno` 0. -/
def schedNewLocal (state errno : Int) (pc : Tid → Pc ι δ) : State Q ι δ :=
  { s with
    coros := s.coros + 1
    locals := s.locals + 1
    queues := ops.listNodeInit (ops.listInit s.queues s.locals) s.coros
    coro := Function.update s.coro s.coros (some ⟨state, errno, none⟩)
    context := Function.update s.context s.coros ⟨pc s.locals, []⟩
    sched := Function.update s.sched s.locals (some ⟨s.coros, none, false, 0, .on s.coros, false⟩) }

/-! ## The poller -/

/-- `epoll_wait` delivers events of armed file descriptors, each once, with a mask that is not
empty. -/
def deliver : List Registration → List (Nat × Nat) → Option (List (Cid × Nat) × List Registration)
  | regs, [] => some ([], regs)
  | regs, (fd, mask) :: events =>
    match regs.find? fun r => r.fd == fd && r.armed with
    | none => none
    | some r =>
      if mask = 0 then none
      else
        (deliver (regs.map fun r => if r.fd = fd then { r with armed := false } else r) events).map
          fun d => ((r.key, mask) :: d.1, d.2)

/-- The return of `epoll_wait` in `platform_poll_poll`. -/
def pollReturn (c : Cid) (sched : Tid) (timeout : Int) : Outcome Nat → Option (State Q ι δ)
  | .eintr => some s
  | .error => some (s.fail .pollError)
  | .ready events =>
    if events.length ≤ MAX_EVENTS then
      (deliver s.poller events).map fun d =>
        let s : State Q ι δ := { s with poller := d.2 }
        s.goto c (.pollEvents sched timeout d.1 (Outcome.ready events).restarts)
    else none

/-- `sched_poll_event`, up to its call of `sched_schedule`. -/
def schedPollEvent (c : Cid) (sched : Tid) (timeout : Int) (key : Cid) (revents : Nat)
    (rest : List (Cid × Nat)) (full : Bool) : State Q ι δ :=
  match s.eventWait key with
  | none => s.fail .dangling
  | some w =>
    match w.coro with
    | none => s.goto c (.pollEvents sched timeout rest full)
    | some coro =>
      let wait : EventWait := { w with coro := none, events := revents }
      let s : State Q ι δ := { s with eventWait := Function.update s.eventWait key (some wait) }
      s.goto c (.scheduleXchg coro (.pollEvent sched timeout rest full))

/-! ## Timers and `sched_loop` -/

/-- `heap_push` needs no `realloc`, or one of fewer than `2^64` bytes. -/
def heapPushFits (h : Heap TimerWait) : Bool := h.items + 1 < h.size || h.size * 2 * 8 < 2 ^ 64

/-- `sched_loop` after `sched_handle_timers`. -/
def afterTimers (sched : Tid) (timeout : Int) : Pc ι δ :=
  if timeout = 0 then .resched .check (.loop sched) else .loopTop sched

/-! ## One step of a coroutine's code -/

/-- The next call of user code in the coroutine `c`. -/
def userStep (c : Cid) (k : Coroutine) (l : LocalSched δ) : Op → Option (State Q ι δ)
  | .setErrno e => some (s.modSched t ({ · with errno := e }))
  | .newCoroutine => some ((schedMakeCoro ops s .user).goto c (.newLoad s.coros))
  | .resched => some (s.goto c (.resched .check .user))
  | .wait time =>
    some ((schedPrepareToSuspend s l).goto c (.waitLock ⟨time, l.currentCoro⟩))
  | .eventWait fd events =>
    let wait : EventWait := ⟨fd, 0, some l.currentCoro⟩
    let s : State Q ι δ := { s with eventWait := Function.update s.eventWait c (some wait) }
    some ((schedPrepareToSuspend s l).goto c (.eventRegister fd events))
  | .suspend => some (s.goto c (.suspendBlock .user))
  | .schedule x => some (s.goto c (.scheduleXchg x .user))
  | .ret =>
    if k.start = some .user then
      some (schedBlockPreempt preemption s t l fun s => s.modSched t ({ · with exec := .free }))
    else none

/-- The next step of the coroutine `c`, executing on thread `t` outside a signal handler. -/
def pcStep (c : Cid) (k : Coroutine) (l : LocalSched δ) (i : Input) : Option (State Q ι δ) :=
  match (s.context c).pc, i with
  | .trampoline, .step =>
    some (schedUnblockPreempt preemption s t l fun s =>
      match (s.coro l.currentCoro).bind (·.start) with
      | none => s.fail .dangling
      | some .user => s.goto c .user
      | some (.loop sched) => s.goto c (.loopTop sched))
  | .user, .op o => userStep ops preemption s t c k l o
  | .resched r ret, .step =>
    some (schedResched ops preemption s t l r fun s r => s.goto c (ret.next r))
  | .waitLock w, .step =>
    if s.lock = none then
      let s : State Q ι δ := { s with lock := some c }
      some (s.goto c (.waitPush w))
    else none
  | .waitPush w, .step =>
    if heapPushFits s.timerHeap then
      let s : State Q ι δ := { s with timerHeap := (heapPush .block s.timerHeap w).2 }
      some (s.goto c .waitUnlock)
    else some (s.fail .noMemory)
  | .waitUnlock, .step =>
    let s : State Q ι δ := { s with lock := none }
    some (s.goto c (.suspendBlock .wait))
  | .eventRegister fd _, .step =>
    if s.poller.any (·.fd == fd) then some (s.fail .register)
    else
      let s : State Q ι δ := { s with poller := s.poller ++ [⟨fd, c, true⟩] }
      some (s.goto c (.suspendBlock (.eventWait fd)))
  | .eventUnregister fd, .step =>
    if s.poller.any (·.fd == fd) then
      let s : State Q ι δ := { s with poller := s.poller.filter (·.fd != fd) }
      match s.eventWait c with
      | none => some (s.fail .dangling)
      | some w =>
        if w.events = 0 then some (s.fail .noEvents)
        else
          let s : State Q ι δ := { s with eventWait := Function.update s.eventWait c none }
          some (s.goto c .user)
    else some (s.fail .unregister)
  | .suspendBlock ret, .step =>
    some (schedBlockPreempt preemption s t l fun s =>
      s.goto c (.suspendDequeue l.currentCoro ops.popStart ret))
  | .suspendDequeue current p ret, .step =>
    some (schedDequeueLocked ops s t p fun s r =>
      match r with
      | .inl p => s.goto c (.suspendDequeue current p ret)
      | .inr coro => suspendTake s t c l current coro ret)
  | .suspendCmpxchg current coro ret, .step => some (suspendCmpxchg s t c current coro ret)
  | .suspendEnqueue coro p ret, .step =>
    some (schedEnqueueLocked ops s t coro p fun s p =>
      s.goto c (match p with | some p => .suspendEnqueue coro p ret | none => .suspendUnblock ret))
  | .suspendUnblock ret, .step =>
    some (schedUnblockPreempt preemption s t l fun s => s.goto c ret.pc)
  | .scheduleXchg coro ret, .step => some (scheduleXchg s c coro ret)
  | .scheduleEnqueue coro p ret, .step =>
    some (schedEnqueueLocked ops s t coro p fun s p =>
      s.goto c (match p with | some p => .scheduleEnqueue coro p ret | none => ret.pc))
  | .newLoad x, .step =>
    some (s.goto c (if s.localCount ≥ s.localSize then .scheduleXchg x .newCoroutine
      else .newFetchAdd x))
  | .newFetchAdd x, .step =>
    let slot := s.localCount
    let s : State Q ι δ := { s with localCount := (s.localCount + 1) % 2 ^ 32 }
    some (s.goto c (if slot ≥ s.localSize then .scheduleXchg x .newCoroutine else .newLocal x slot))
  | .newLocal x slot, .garbage state errno =>
    let sched := s.locals
    let s := schedNewLocal ops s state errno .loopTop
    let s : State Q ι δ :=
      { s with localSchedulers := Function.update s.localSchedulers slot (some sched) }
    let s := s.modCoro x ({ · with state := STATE_RUNNABLE })
    some (s.goto c (.newEnqueue x sched .assert))
  | .newEnqueue x sched p, .step =>
    some (schedEnqueueLocked ops s sched x p fun s p =>
      s.goto c (match p with | some p => .newEnqueue x sched p | none => .newStart sched))
  | .newStart sched, .step =>
    let s := s.modSched sched fun l =>
      { l with eventLoopCoro := some l.currentCoro, started := true }
    some (s.goto c .user)
  | .loopTop sched, .step =>
    some (s.goto c (if ops.listEmpty s.queues sched then .loopMin sched else .pollWait sched 0))
  | .loopMin sched, .step =>
    let r := heapMin s.timerHeap
    let s : State Q ι δ := { s with timerHeap := r.2 }
    some (s.goto c (match r.1 with
      | none => .pollWait sched (-1)
      | some timer => .loopExpire sched timer))
  | .loopExpire sched timer, .clock now =>
    let expiration := timerExpiration timer now
    some (s.goto c (.pollWait sched (if expiration < 0 then 0 else expiration)))
  | .pollWait sched timeout, .epoll o => pollReturn s c sched timeout o
  | .pollEvents sched timeout ((key, revents) :: rest) full, .step =>
    some (schedPollEvent s c sched timeout key revents rest full)
  | .pollEvents sched timeout [] full, .step =>
    some (s.goto c (if full then .pollWait sched timeout else .timersEmpty sched timeout))
  | .timersEmpty sched timeout, .step =>
    some (s.goto c (if heapEmpty s.timerHeap then afterTimers sched timeout
      else .timersLock sched timeout))
  | .timersLock sched timeout, .step =>
    if s.lock = none then
      let s : State Q ι δ := { s with lock := some c }
      some (s.goto c (.timersMin sched timeout))
    else none
  | .timersMin sched timeout, .step =>
    let r := heapMin s.timerHeap
    let s : State Q ι δ := { s with timerHeap := r.2 }
    some (s.goto c (match r.1 with
      | none => .timersUnlock sched timeout false
      | some timer => .timersExpire sched timeout timer))
  | .timersExpire sched timeout timer, .clock now =>
    some (s.goto c (if timerExpiration timer now ≤ 0 then .timersPop sched timeout timer
      else .timersUnlock sched timeout false))
  | .timersPop sched timeout timer, .step =>
    let s : State Q ι δ := { s with timerHeap := (heapPopMin .block s.timerHeap).2 }
    some (s.goto c (.scheduleXchg timer.coro (.handleTimers sched timeout)))
  | .timersUnlock sched timeout again, .step =>
    let s : State Q ι δ := { s with lock := none }
    some (s.goto c (if again then .timersEmpty sched timeout else afterTimers sched timeout))
  | _, _ => none

/-! ## `free_coro` -/

/-- The next step of `free_coro`, on the death stack of thread `t`. -/
def deathStep (l : LocalSched δ) : Option (State Q ι δ) :=
  match l.exec with
  | .on _ => none
  | .free =>
    if ops.listInList s.queues l.currentCoro then some (s.fail .freeLinked)
    else
      let s : State Q ι δ := { s with coro := Function.update s.coro l.currentCoro none }
      some (s.modSched t ({ · with exec := .dequeue ops.popStart }))
  | .dequeue p =>
    some (schedDequeueLocked ops s t p fun s r =>
      s.modSched t ({ · with exec := match r with | .inl p => .dequeue p | .inr c => .restore c }))
  | .restore next => some (s.modSched t ({ · with currentCoro := next, exec := .on next }))

/-! ## One action -/

/-- The next step of thread `t`. -/
def threadStep (i : Input) : Option (State Q ι δ) :=
  match s.sched t with
  | none => none
  | some l =>
    if l.started then
      match l.exec with
      | .on c =>
        match s.coro c with
        | none => none
        | some k =>
          match (s.context c).sig with
          | [] => pcStep ops preemption s t c k l i
          | r :: rs =>
            match i with
            | .step => some (schedResched ops preemption s t l r fun s r =>
                s.setSig c (r.toList ++ rs))
            | _ => none
      | _ => match i with
        | .step => deathStep ops s t l
        | _ => none
    else none

/-- The preemption signal on thread `t`: `sched_resched_callback` enters `sched_resched`, unless
preemption is blocked. -/
def signalStep : Option (State Q ι δ) :=
  match s.sched t with
  | none => none
  | some l =>
    if l.started ∧ l.preemptLock = false then
      match l.exec with
      | .on c => some (s.setSig c (.check :: (s.context c).sig))
      | _ => none
    else none

end

/-- One action of the machine. -/
def step (ops : ListOps Q ι δ) (preemption : Bool) (s : State Q ι δ) (a : Act) :
    Option (State Q ι δ) :=
  if s.failure.isSome then none
  else match a with
    | .tick t i => threadStep ops preemption s t i
    | .signal t => if preemption then signalStep s t else none

/-- The state after `sched_init` on the main thread, up to the push of its event loop coroutine:
the thread runs the main coroutine, 0, and its event loop is the coroutine 1. -/
def schedInitLocal (ops : ListOps Q ι δ) (q : Q) (localSize : Nat) (garbage : Nat → TimerWait)
    (state errno threadErrno : Int) : State Q ι δ :=
  let s : State Q ι δ :=
    ⟨localSize, 0, fun _ => none, 0, 0, fun _ => none, fun _ => ⟨.user, []⟩, fun _ => none, q,
      timerHeapInit garbage, none, fun _ => none, [], none⟩
  let s := schedNewLocal ops s state errno fun _ => .user
  let s : State Q ι δ :=
    { s with localSchedulers := Function.update s.localSchedulers 0 (some 0), localCount := 1 }
  (schedMakeCoro ops s (.loop 0)).modSched 0
    ({ · with eventLoopCoro := some 1, errno := threadErrno, started := true })

/-- `list_push_back`, to its end. -/
def ListOps.pushAll (ops : ListOps Q ι δ) (q : Q) (t : Tid) (c : Cid) : Nat → ι → Q
  | 0, _ => q
  | fuel + 1, p =>
    match ops.push q t c p with
    | (q, none) => q
    | (q, some p) => pushAll ops q t c fuel p

/-- The state after `sched_init`. -/
def schedInit (ops : ListOps Q ι δ) (q : Q) (localSize : Nat) (garbage : Nat → TimerWait)
    (state errno threadErrno : Int) : State Q ι δ :=
  let s := schedInitLocal ops q localSize garbage state errno threadErrno
  { s with queues := ops.pushAll s.queues 0 1 8 ops.pushStart }

end Lwthread.Scheduler
